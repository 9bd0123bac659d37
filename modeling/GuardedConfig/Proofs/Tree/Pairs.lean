import GuardedConfig.Proofs.Tree.Log
import GuardedConfig.Proofs.Tree.Visible

/-!
# Trees of pairs

A tree that is made by setting values at distinct paths holds each of them at its path, and has the
nodes on the way to them. The order in which they were set shows in the order of children alone.

Results:
* `value_ofPairs`, `mem_keysAt_ofPairs`: what the tree of some pairs shows.
* `Rearranged`: two trees that show the same but for the order of children. The same pairs in
  another order give such a tree (`rearranged_ofPairs`).
* `plain_ofPairs`: a tree of pairs is plain, if no path begins with a colon.
-/

namespace GuardedConfig

namespace Path

/-- Only a path that begins with a colon has the empty key first. -/
theorem head?_of_segments {path : String} (h : [""] <+: segments path) :
    path.toList.head? = some ':' := by
  have hne : path ≠ "" := by
    rintro rfl
    exact absurd h (by decide)
  have hnil : path.toList ≠ [] := by simpa using hne
  obtain ⟨c, cs, hcs⟩ := List.exists_cons_of_ne_nil hnil
  rw [segments_of_ne hne, Pieces.cut, hcs, Pieces.cutList] at h
  rw [hcs]
  by_cases hc : c = ':'
  · rw [hc]
    rfl
  · rw [if_neg hc] at h
    split at h <;> simp [String.ofList_eq_empty_iff] at h

end Path

namespace Tree

/-! ## Keys of a tree of pairs -/

section Keys

variable {p : String → Bool}

theorem keysAllBelow_alter {k : String} {f : Tree → Tree} {cs : List (String × Tree)} (hk : p k)
    (hf : ∀ c : Tree, c.keysAll p → (f c).keysAll p) (hcs : keysAllBelow p cs) :
    keysAllBelow p (alter k f cs) := by
  induction cs with
  | nil => simpa [alter, keysAllBelow, hk] using hf empty rfl
  | cons c cs ih =>
    obtain ⟨l, c⟩ := c
    simp only [keysAllBelow, Bool.and_eq_true] at hcs
    rw [alter]
    split
    · simp [keysAllBelow, hcs.1.1, hf c hcs.1.2, hcs.2]
    · simp [keysAllBelow, hcs.1.1, hcs.1.2, ih hcs.2]

theorem keysAll_setAt {t : Tree} {row : List String} (ht : t.keysAll p) (hrow : ∀ k ∈ row, p k)
    (v : String) : (t.setAt v row).keysAll p := by
  induction row generalizing t with
  | nil =>
    obtain ⟨w, cs⟩ := t
    exact ht
  | cons k row ih =>
    obtain ⟨w, cs⟩ := t
    obtain ⟨hk, hrest⟩ := List.forall_mem_cons.mp hrow
    exact keysAllBelow_alter hk (fun c hc => ih hc hrest) ht

end Keys

theorem ofPairs_concat (pairs : List (String × String)) (p : String × String) :
    ofPairs (pairs ++ [p]) = (ofPairs pairs).setAt p.2 (Path.segments p.1) := by
  rw [ofPairs, List.foldl_append]
  rfl

theorem mem_keysAt_ofPairs {pairs : List (String × String)} {row : List String} {k : String} :
    k ∈ (ofPairs pairs).keysAt row ↔ ∃ p ∈ pairs, row ++ [k] <+: Path.segments p.1 := by
  induction pairs using List.reverseRecOn with
  | nil => simp [ofPairs, keysAt_empty]
  | append_singleton pairs p ih =>
    have hsplit : (∃ q ∈ pairs ++ [p], row ++ [k] <+: Path.segments q.1) ↔
        k ∈ (ofPairs pairs).keysAt row ∨ row ++ [k] <+: Path.segments p.1 := by
      simp [ih, or_and_right, exists_or]
    rw [hsplit, ofPairs_concat]
    obtain ⟨hin, hkeys⟩ | ⟨l, hl, -, hkeys⟩ :=
      keysAt_setAt (ofPairs pairs) p.2 (Path.segments p.1) row
    · rw [hkeys]
      exact ⟨.inl, fun hk => hk.elim id (hin k)⟩
    · rw [hkeys, List.mem_append, List.mem_singleton]
      refine or_congr_right ⟨?_, fun hk => next_key_unique hk hl⟩
      rintro rfl
      exact hl

theorem nodup_keysAt_ofPairs (pairs : List (String × String)) (row : List String) :
    ((ofPairs pairs).keysAt row).Nodup :=
  (recorded_created (some pairs)).once row

theorem value_ofPairs {pairs : List (String × String)} (h : (pairs.map Prod.fst).Nodup)
    {path v : String} : (ofPairs pairs).value path = some v ↔ (path, v) ∈ pairs := by
  induction pairs using List.reverseRecOn with
  | nil =>
    change (empty.valueAt _) = _ ↔ _
    simp [valueAt_empty]
  | append_singleton pairs p ih =>
    obtain ⟨q, w⟩ := p
    rw [List.map_append, List.map_singleton, ← List.concat_eq_append, List.nodup_concat] at h
    obtain ⟨hq, hpairs⟩ := h
    have hvalue : (ofPairs (pairs ++ [(q, w)])).value path =
        if path = q then some w else (ofPairs pairs).value path := by
      rw [ofPairs_concat]
      change Tree.valueAt _ _ = _
      rw [valueAt_setAt]
      exact if_congr ⟨Path.segments_inj, congrArg _⟩ rfl rfl
    rw [hvalue, List.mem_append, List.mem_singleton]
    by_cases hpath : path = q
    · subst hpath
      have hnew : (path, v) ∉ pairs := fun hmem => hq (List.mem_map.mpr ⟨_, hmem, rfl⟩)
      simp [hnew, eq_comm]
    · rw [if_neg hpath, ih hpairs]
      simp [hpath]

theorem plain_ofPairs {pairs : List (String × String)}
    (h : ∀ p ∈ pairs, p.1.toList.head? ≠ some ':') : (ofPairs pairs).Plain where
  noColon := by
    induction pairs using List.reverseRecOn with
    | nil => rfl
    | append_singleton pairs p ih =>
      rw [ofPairs_concat]
      refine keysAll_setAt (ih fun q hq => h q (List.mem_append_left _ hq)) (fun k hk => ?_) p.2
      simpa using (Path.isRow_segments p.1).noColon k hk
  noEmptyKey hmem := by
    obtain ⟨p, hp, hpre⟩ := mem_keysAt_ofPairs.mp hmem
    exact h p hp (Path.head?_of_segments hpre)

/-! ## The order of children -/

/-- Two trees that show the same but for the order of children. -/
structure Rearranged (t t' : Tree) : Prop where
  value : ∀ path, t'.value path = t.value path
  keys : ∀ row, (t.keysAt row).Perm (t'.keysAt row)

/-- **The order in which values were set shows in the order of children alone.** -/
theorem rearranged_ofPairs {pairs others : List (String × String)}
    (h : (pairs.map Prod.fst).Nodup) (hperm : pairs.Perm others) :
    Rearranged (ofPairs pairs) (ofPairs others) where
  value path := by
    have hothers := (hperm.map Prod.fst).nodup_iff.mp h
    refine Option.ext fun v => ?_
    rw [value_ofPairs hothers, value_ofPairs h, hperm.mem_iff]
  keys row := by
    refine (List.perm_ext_iff_of_nodup (nodup_keysAt_ofPairs _ _) (nodup_keysAt_ofPairs _ _)).mpr
      fun k => ?_
    rw [mem_keysAt_ofPairs, mem_keysAt_ofPairs]
    exact exists_congr fun p => and_congr_left' hperm.mem_iff

namespace Rearranged

variable {t t' : Tree}

theorem symm (h : t.Rearranged t') : t'.Rearranged t where
  value path := (h.value path).symm
  keys row := (h.keys row).symm

theorem isSome_follow (h : t.Rearranged t') (row : List String) :
    (t'.follow row).isSome ↔ (t.follow row).isSome := by
  by_cases hrow : row = []
  · rw [hrow]
    exact Iff.rfl
  · obtain ⟨above, k, rfl⟩ := (List.eq_nil_or_concat row).resolve_left hrow
    rw [List.concat_eq_append, ← mem_keysAt_iff, ← mem_keysAt_iff]
    exact (h.keys above).mem_iff.symm

theorem visible_iff (h : t.Rearranged t') {marker : String} {row other : List String} :
    t'.Visible marker row other ↔ t.Visible marker row other := by
  unfold Visible
  simp only [h.isSome_follow]

end Rearranged

end Tree

end GuardedConfig
