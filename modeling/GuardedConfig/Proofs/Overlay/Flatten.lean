import GuardedConfig.Proofs.Overlay.Recursion

/-!
# Flattening reads the visible nodes

Flattening goes down the tree by paths and reads every node that it meets. Where reading a path
comes to the same from every state that reading leads to, flattening is told by these readings
alone: it lists what the visible nodes read, or ends in the error of the first of them in pre-order
that does not read.

Results:
* `Listing.mem_ofWrites`, `Listing.Sorted.ext`: a listing is its paths and values, in the order of
  the paths.
* `Walks`: what reading a set of nodes in pre-order comes to, with one lemma per way to join two
  sets.
* `Overlay.Reads.meets_writesBelow`, `Overlay.Reads.flatten`: what is written and listed below a
  node are the values of the visible nodes.
* `Flattens.ok_iff`, `Flattens.error_iff`, `Flattens.restrict`: when there is a listing, which error
  there is otherwise, and how the listing of a part lies in that of the whole.
-/

namespace GuardedConfig

/-! ## Listings -/

namespace Listing

/-- The paths of a listing go up. -/
def Sorted (l : Listing) : Prop := l.Pairwise fun a b => a.1 < b.1

theorem mem_put {l : Listing} (h : l.Sorted) {path value : String} {e : String × String} :
    e ∈ put path value l ↔ e = (path, value) ∨ (e ∈ l ∧ e.1 ≠ path) := by
  induction l with
  | nil => simp [put]
  | cons d l ih =>
    obtain ⟨q, w⟩ := d
    obtain ⟨hfirst, hl⟩ := List.pairwise_cons.mp h
    rw [put]
    by_cases hlt : path < q
    · have hne : ∀ d ∈ (q, w) :: l, d.1 ≠ path := by
        intro d hd
        rcases List.mem_cons.mp hd with rfl | hd
        · exact ne_of_gt hlt
        · exact ne_of_gt (lt_trans hlt (hfirst d hd))
      rw [if_pos hlt, List.mem_cons]
      exact or_congr_right ⟨fun he => ⟨he, hne e he⟩, And.left⟩
    · rw [if_neg hlt]
      by_cases heq : path = q
      · subst heq
        have hne : ∀ d ∈ l, d.1 ≠ path := fun d hd => ne_of_gt (hfirst d hd)
        rw [if_pos rfl, List.mem_cons, List.mem_cons]
        constructor
        · rintro (rfl | he)
          · exact .inl rfl
          · exact .inr ⟨.inr he, hne e he⟩
        · rintro (rfl | ⟨rfl | he, hpath⟩)
          · exact .inl rfl
          · exact absurd rfl hpath
          · exact .inr he
      · rw [if_neg heq, List.mem_cons, ih hl, List.mem_cons]
        constructor
        · rintro (rfl | rfl | ⟨he, hpath⟩)
          · exact .inr ⟨.inl rfl, Ne.symm heq⟩
          · exact .inl rfl
          · exact .inr ⟨.inr he, hpath⟩
        · rintro (rfl | ⟨rfl | he, hpath⟩)
          · exact .inr (.inl rfl)
          · exact .inl rfl
          · exact .inr (.inr ⟨he, hpath⟩)

theorem sorted_put {l : Listing} (h : l.Sorted) (path value : String) :
    (put path value l).Sorted := by
  induction l with
  | nil => exact List.pairwise_singleton _ _
  | cons d l ih =>
    obtain ⟨q, w⟩ := d
    obtain ⟨hfirst, hl⟩ := List.pairwise_cons.mp h
    rw [put]
    by_cases hlt : path < q
    · rw [if_pos hlt]
      refine List.pairwise_cons.mpr ⟨fun e he => ?_, h⟩
      rcases List.mem_cons.mp he with rfl | he
      · exact hlt
      · exact lt_trans hlt (hfirst e he)
    · rw [if_neg hlt]
      by_cases heq : path = q
      · subst heq
        rw [if_pos rfl]
        exact List.pairwise_cons.mpr ⟨hfirst, hl⟩
      · rw [if_neg heq]
        refine List.pairwise_cons.mpr ⟨fun e he => ?_, ih hl⟩
        rcases (mem_put hl).mp he with rfl | ⟨he, -⟩
        · exact lt_of_le_of_ne (le_of_not_gt hlt) (Ne.symm heq)
        · exact hfirst e he

theorem ofWrites_concat (ws : List (String × String)) (w : String × String) :
    ofWrites (ws ++ [w]) = put w.1 w.2 (ofWrites ws) := by
  exact putAll_append [] ws [w]

theorem sorted_ofWrites (ws : List (String × String)) : (ofWrites ws).Sorted := by
  induction ws using List.reverseRecOn with
  | nil => exact List.Pairwise.nil
  | append_singleton ws w ih =>
    rw [ofWrites_concat]
    exact sorted_put ih w.1 w.2

/-- Where no path is written twice with two values, the listing has what was written. -/
theorem mem_ofWrites {ws : List (String × String)}
    (hone : ∀ path v w, (path, v) ∈ ws → (path, w) ∈ ws → v = w) {e : String × String} :
    e ∈ ofWrites ws ↔ e ∈ ws := by
  induction ws using List.reverseRecOn with
  | nil => exact Iff.rfl
  | append_singleton ws w ih =>
    have hws : ∀ path v w, (path, v) ∈ ws → (path, w) ∈ ws → v = w := fun path v w hv hw =>
      hone path v w (List.mem_append_left _ hv) (List.mem_append_left _ hw)
    rw [ofWrites_concat, mem_put (sorted_ofWrites ws), ih hws, List.mem_append,
      List.mem_singleton, or_comm]
    by_cases hpath : e.1 = w.1
    · -- The path of the last write: whatever was written there before is the same.
      have hsame (he : e ∈ ws) : e = w := by
        obtain ⟨p, v⟩ := e
        obtain ⟨q, u⟩ := w
        cases hpath
        rw [hone p v u (List.mem_append_left _ he) (by simp)]
      constructor
      · rintro (⟨he, -⟩ | rfl)
        · exact .inl he
        · exact .inr rfl
      · rintro (he | rfl)
        · exact .inr (hsame he)
        · exact .inr rfl
    · simp [hpath]

/-- Two listings with the same entries are the same. -/
theorem Sorted.ext {l l' : Listing} (h : l.Sorted) (h' : l'.Sorted)
    (hmem : ∀ e, e ∈ l ↔ e ∈ l') : l = l' := by
  have hnodup {l : Listing} (h : l.Sorted) : l.Nodup := by
    refine h.imp fun hlt heq => ?_
    rw [heq] at hlt
    exact lt_irrefl _ hlt
  have hperm : l.Perm l' := (List.perm_ext_iff_of_nodup (hnodup h) (hnodup h')).mpr hmem
  exact hperm.eq_of_pairwise (fun a b _ _ hab hba => absurd hab (lt_asymm hba)) h h'

end Listing

/-! ## Outcomes of attempts -/

namespace Attempt

variable {σ α β : Type}

/-- An attempt that comes to a required outcome from every state with a property, and keeps the
property. -/
def Meets (P : σ → Prop) (Q : Except RuleError α → Prop) (x : Attempt σ α) : Prop :=
  ∀ s, P s → Q (x s).1 ∧ P (x s).2

variable {P : σ → Prop} {Q : Except RuleError α → Prop} {Q' : Except RuleError β → Prop}

theorem meets_pure {a : α} (h : Q (.ok a)) : Meets P Q (pure a) :=
  fun _ hs => ⟨h, hs⟩

theorem Meets.bind {x : Attempt σ α} {f : α → Attempt σ β} (hx : x.Meets P Q)
    (hok : ∀ a, Q (.ok a) → (f a).Meets P Q') (herr : ∀ e, Q (.error e) → Q' (.error e)) :
    (x >>= f).Meets P Q' := by
  intro s hs
  obtain ⟨hout, hs'⟩ := hx s hs
  rw [bind_apply]
  rcases hxs : x s with ⟨_ | a, s'⟩
  · rw [hxs] at hout hs'
    exact ⟨herr _ hout, hs'⟩
  · rw [hxs] at hout hs'
    exact hok a hout s' hs'

end Attempt

/-! ## Walks -/

section Walks

open GuardedConfig.Path (ofRow)

variable {t : Tree} {read : String → Except RuleError (Option String)} {A B : Set (List String)}

/-- What reading a set of nodes in pre-order comes to: the values that they have, or the error of
the first one that has none. -/
def Walks (t : Tree) (read : String → Except RuleError (Option String))
    (rows : Set (List String)) : Except RuleError (List (String × String)) → Prop
  | .ok ws =>
    (∀ row ∈ rows, ∃ v, read (ofRow row) = .ok v) ∧
      ∀ path v, (path, v) ∈ ws ↔ ∃ row ∈ rows, path = ofRow row ∧ read path = .ok (some v)
  | .error e =>
    ∃ row ∈ rows, read (ofRow row) = .error e ∧
      ∀ other ∈ rows, other = row ∨ t.Before row other ∨ ∃ v, read (ofRow other) = .ok v

theorem walks_empty : Walks t read ∅ (.ok []) := by
  simp [Walks]

theorem walks_singleton_ok {row : List String} {v : Option String}
    (h : read (ofRow row) = .ok v) : Walks t read {row} (.ok (v.toList.map (ofRow row, ·))) := by
  refine ⟨by simp [h], fun path w => ?_⟩
  simp only [List.mem_map, Option.mem_toList, Prod.mk.injEq, Set.mem_singleton_iff, exists_eq_left]
  constructor
  · rintro ⟨w, rfl, rfl, rfl⟩
    exact ⟨rfl, h⟩
  · rintro ⟨rfl, hw⟩
    rw [h] at hw
    cases hw
    exact ⟨w, rfl, rfl, rfl⟩

theorem walks_singleton_error {row : List String} {e : RuleError}
    (h : read (ofRow row) = .error e) : Walks t read {row} (.error e) :=
  ⟨row, rfl, h, fun _ hother => .inl hother⟩

theorem Walks.union {as bs : List (String × String)} (hA : Walks t read A (.ok as))
    (hB : Walks t read B (.ok bs)) : Walks t read (A ∪ B) (.ok (as ++ bs)) := by
  refine ⟨fun row hrow => hrow.elim (hA.1 row) (hB.1 row), fun path v => ?_⟩
  rw [List.mem_append, hA.2, hB.2]
  constructor
  · rintro (⟨row, hrow, h⟩ | ⟨row, hrow, h⟩)
    · exact ⟨row, .inl hrow, h⟩
    · exact ⟨row, .inr hrow, h⟩
  · rintro ⟨row, hrow | hrow, h⟩
    · exact .inl ⟨row, hrow, h⟩
    · exact .inr ⟨row, hrow, h⟩

/-- The error of the second set is the first one if the first set reads. -/
theorem Walks.union_error {as : List (String × String)} {e : RuleError}
    (hA : Walks t read A (.ok as)) (hB : Walks t read B (.error e)) :
    Walks t read (A ∪ B) (.error e) := by
  obtain ⟨row, hrow, herror, hfirst⟩ := hB
  refine ⟨row, .inr hrow, herror, ?_⟩
  rintro other (hother | hother)
  · exact .inr (.inr (hA.1 other hother))
  · exact hfirst other hother

/-- The error of the first set is the first one if the second set comes later, as far as it is not
in the first. -/
theorem Walks.error_union {e : RuleError} (hA : Walks t read A (.error e))
    (hlater : ∀ a ∈ A, ∀ b ∈ B, b ∈ A ∨ t.Before a b) : Walks t read (A ∪ B) (.error e) := by
  obtain ⟨row, hrow, herror, hfirst⟩ := hA
  refine ⟨row, .inl hrow, herror, ?_⟩
  rintro other (hother | hother)
  · exact hfirst other hother
  · rcases hlater row hrow other hother with hA | hbefore
    · exact hfirst other hA
    · exact .inr (.inl hbefore)

variable {σ : Type} {P : σ → Prop}

/-- Sets read one after the other. A set may come twice; otherwise the later one has to come later
in pre-order. -/
theorem meets_mapM {f : String → Attempt σ (List (String × String))} {keys : List String}
    {block : String → Set (List String)}
    (hf : ∀ k ∈ keys, (f k).Meets P (Walks t read (block k)))
    (horder : ∀ init k, init ++ [k] <+: keys → k ∉ init →
      ∀ j ∈ init, ∀ a ∈ block j, ∀ b ∈ block k, t.Before a b) :
    (keys.mapM f).Meets P
      fun r => Walks t read {row | ∃ k ∈ keys, row ∈ block k} (r.map List.flatten) := by
  induction keys using List.reverseRecOn with
  | nil =>
    rw [List.mapM_nil]
    exact Attempt.meets_pure (by simpa [Except.map] using walks_empty)
  | append_singleton keys k ih =>
    have hunion : {row | ∃ j ∈ keys ++ [k], row ∈ block j} =
        {row | ∃ j ∈ keys, row ∈ block j} ∪ block k := by
      ext row
      simp [or_and_right, exists_or]
    have hinit := ih (fun j hj => hf j (List.mem_append_left _ hj))
      fun init j hpre => horder init j (hpre.trans (List.prefix_append _ _))
    have hlast (as : List (List (String × String))) :
        ([k].mapM f >>= fun bs => pure (as ++ bs)) = f k >>= fun b => pure (as ++ [b]) := by
      simp
    rw [hunion, List.mapM_append]
    refine hinit.bind (fun as has => ?_) fun e he => ?_
    · rw [hlast]
      refine (hf k (by simp)).bind (fun bs hbs => Attempt.meets_pure ?_) fun e he => ?_
      · have hflat : (as ++ [bs]).flatten = as.flatten ++ bs := by simp
        change Walks t read _ (.ok (as ++ [bs]).flatten)
        rw [hflat]
        exact Walks.union has hbs
      · exact Walks.union_error has he
    · refine Walks.error_union he ?_
      rintro a ⟨j, hj, ha⟩ b hb
      by_cases hk : k ∈ keys
      · exact .inl ⟨k, hk, hb⟩
      · exact .inr (horder keys k (List.prefix_refl _) hk j hj a ha b hb)

end Walks

/-! ## Reading below a node -/

/-- Keys that are kept keep their order. -/
theorem idxOf_lt_of_filter {p : String → Bool} {keys init : List String} {j k : String}
    (h : init ++ [k] <+: keys.filter p) (hj : j ∈ init) (hk : k ∉ init) :
    keys.idxOf j < keys.idxOf k := by
  induction keys generalizing init with
  | nil => exact absurd h (by simp)
  | cons c keys ih =>
    by_cases hc : p c
    · rw [List.filter_cons_of_pos hc] at h
      cases init with
      | nil => cases hj
      | cons d init =>
        obtain ⟨rfl, hrest⟩ := List.cons_prefix_cons.mp h
        have hkd : k ≠ d := fun e => hk (e ▸ List.mem_cons_self)
        rw [List.idxOf_cons_ne _ (Ne.symm hkd)]
        by_cases hjd : j = d
        · rw [hjd, List.idxOf_cons_self]
          exact Nat.succ_pos _
        · have hj' : j ∈ init := (List.mem_cons.mp hj).resolve_left hjd
          rw [List.idxOf_cons_ne _ (Ne.symm hjd)]
          exact Nat.succ_lt_succ (ih hrest hj' fun hk' => hk (List.mem_cons_of_mem d hk'))
    · rw [List.filter_cons_of_neg hc] at h
      have hkept {l : String} (hl : l ∈ init ++ [k]) : c ≠ l := by
        rintro rfl
        exact hc (List.mem_filter.mp (h.subset hl)).2
      rw [List.idxOf_cons_ne _ (hkept (List.mem_append_left _ hj)),
        List.idxOf_cons_ne _ (hkept (by simp))]
      exact Nat.succ_lt_succ (ih h hj hk)

namespace Overlay

open GuardedConfig.Path (ofRow segments)

variable {σ : Type} {P : σ → Prop} {o : Overlay σ}
  {read : String → Except RuleError (Option String)}

/-- Reading a path comes to the same from every state with a property, and keeps the property. -/
def Reads (o : Overlay σ) (P : σ → Prop) (read : String → Except RuleError (Option String)) :
    Prop :=
  ∀ path, (o.value path).Meets P (· = read path)

/-- A node is read before what is below it. -/
theorem Reads.node (h : o.Reads P read) {t : Tree} {marker : String} {row : List String}
    {below : Attempt σ (List (String × String))}
    (hbelow : below.Meets P (Walks t read {other | t.Visible marker row other})) :
    (do
      let v ← o.value (ofRow row)
      let ws ← below
      pure (ws ++ v.toList.map (ofRow row, ·)) : Attempt σ (List (String × String))).Meets P
      (Walks t read ({row} ∪ {other | t.Visible marker row other})) := by
  refine (h (ofRow row)).bind (fun v hv => hbelow.bind (fun ws hws => ?_) fun e he => ?_)
    fun e he => ?_
  · rw [Set.union_comm]
    exact Attempt.meets_pure (hws.union (walks_singleton_ok hv.symm))
  · exact (walks_singleton_ok hv.symm).union_error he
  · refine (walks_singleton_error he.symm).error_union ?_
    rintro _ rfl _ ⟨rest, hne, rfl, -⟩
    exact .inr (Tree.before_below t _ hne)

theorem exists_rest_of_block {t : Tree} {marker k : String} {row other : List String}
    (h : other ∈ {row ++ [k]} ∪ {other | t.Visible marker (row ++ [k]) other}) :
    ∃ rest, other = row ++ k :: rest := by
  rcases h with rfl | ⟨rest, -, rfl, -⟩
  · exact ⟨[], rfl⟩
  · exact ⟨rest, by simp⟩

/-- **What is written below a node** are the values of the visible nodes, or the error of the first
of them that does not read. -/
theorem Reads.meets_writesBelow (h : o.Reads P read) (ht : o.tree.Plain) (fuel : Nat)
    {row : List String} (hrow : Path.IsRow row)
    (hfuel : ∀ n, o.tree.follow row = some n → n.height ≤ fuel) :
    (o.writesBelow fuel (ofRow row)).Meets P
      (Walks o.tree read {other | o.tree.Visible o.keys.marker row other}) := by
  induction fuel generalizing row with
  | zero =>
    have hnone : {other | o.tree.Visible o.keys.marker row other} = ∅ := by
      refine Set.eq_empty_iff_forall_notMem.mpr fun other hother => ?_
      obtain ⟨k, hk, -⟩ := Tree.visible_iff.mp hother
      have hc := Tree.mem_keysAt_iff.mp hk
      obtain ⟨c, hc'⟩ := Option.isSome_iff_exists.mp hc
      obtain ⟨n, hn⟩ := Option.isSome_iff_exists.mp (Tree.isSome_follow_of_append hc)
      have hlt := Tree.height_lt_of_child hn hc'
      have hle := hfuel n hn
      omega
    rw [hnone]
    exact Attempt.meets_pure walks_empty
  | succ fuel ih =>
    have hkeys : o.tree.childKeys (ofRow row) = o.tree.keysAt row := by
      unfold Tree.childKeys Tree.find?
      rw [Path.segments_ofRow hrow]
      rfl
    have hblocks : {other | o.tree.Visible o.keys.marker row other} =
        {other | ∃ k ∈ (o.tree.keysAt row).filter (· ≠ o.keys.marker),
          other ∈ {row ++ [k]} ∪ {other | o.tree.Visible o.keys.marker (row ++ [k]) other}} := by
      ext other
      refine Tree.visible_iff.trans ?_
      simp [and_assoc]
    rw [writesBelow, hkeys, hblocks]
    refine (meets_mapM (fun k hk => ?_) ?_).bind (fun parts hparts => ?_) fun e he => he
    · have hnode := Tree.mem_keysAt_iff.mp (List.mem_filter.mp hk).1
      rw [Path.combine_ofRow hrow k]
      refine h.node (ih (ht.isRow hnode) fun c hc => ?_)
      obtain ⟨n, hn⟩ := Option.isSome_iff_exists.mp (Tree.isSome_follow_of_append hnode)
      have hlt := Tree.height_lt_of_child hn hc
      have hle := hfuel n hn
      omega
    · rintro init k hpre hk j hj a ha b hb
      have hidx := idxOf_lt_of_filter hpre hj hk
      obtain ⟨rest, rfl⟩ := exists_rest_of_block ha
      obtain ⟨rest', rfl⟩ := exists_rest_of_block hb
      exact Tree.before_of_key hidx rest rest'
    · exact Attempt.meets_pure hparts

end Overlay

/-! ## Listings of visible nodes -/

section Flattens

open GuardedConfig.Path (ofRow segments)

variable {t : Tree} {marker : String} {read : String → Except RuleError (Option String)}

/-- A path leads to the first of the nodes visible from another path, in pre-order, that does not
read. -/
structure FirstFailing (t : Tree) (marker : String)
    (read : String → Except RuleError (Option String)) (path p : String) (e : RuleError) :
    Prop where
  visible : t.Visible marker (segments path) (segments p)
  fails : read p = .error e
  first : ∀ q, t.Visible marker (segments path) (segments q) →
    q = p ∨ t.Before (segments p) (segments q) ∨ ∃ v, read q = .ok v

/-- What flattening at a path comes to: the values of the visible nodes in the order of their paths,
or the error of the first one that does not read. -/
def Flattens (t : Tree) (marker : String) (read : String → Except RuleError (Option String))
    (path : String) : Except RuleError Listing → Prop
  | .ok l =>
    (∀ p, t.Visible marker (segments path) (segments p) → ∃ v, read p = .ok v) ∧
      l.Sorted ∧
      ∀ p v, (p, v) ∈ l ↔ t.Visible marker (segments path) (segments p) ∧ read p = .ok (some v)
  | .error e => ∃ p, FirstFailing t marker read path p e

theorem Tree.Plain.segments_of_visible (ht : t.Plain) {row other : List String}
    (h : t.Visible marker row other) : segments (ofRow other) = other := by
  obtain ⟨-, -, -, -, hnode⟩ := h
  exact Path.segments_ofRow (ht.isRow hnode)

theorem Walks.flattens_ok (ht : t.Plain) {path : String} {ws : List (String × String)}
    (h : Walks t read {other | t.Visible marker (segments path) other} (.ok ws)) :
    Flattens t marker read path (.ok (Listing.ofWrites ws)) := by
  obtain ⟨hread, hmem⟩ := h
  have hone p v w (hv : (p, v) ∈ ws) (hw : (p, w) ∈ ws) : v = w := by
    obtain ⟨-, -, -, hv⟩ := (hmem p v).mp hv
    obtain ⟨-, -, -, hw⟩ := (hmem p w).mp hw
    rw [hv] at hw
    cases hw
    rfl
  refine ⟨fun p hp => ?_, Listing.sorted_ofWrites ws, fun p v => ?_⟩
  · have hrow := hread (segments p) hp
    rwa [Path.ofRow_segments] at hrow
  · rw [Listing.mem_ofWrites hone, hmem]
    constructor
    · rintro ⟨row, hrow, rfl, hv⟩
      rw [ht.segments_of_visible hrow]
      exact ⟨hrow, hv⟩
    · rintro ⟨hp, hv⟩
      exact ⟨segments p, hp, (Path.ofRow_segments p).symm, hv⟩

theorem Walks.flattens_error (ht : t.Plain) {path : String} {e : RuleError}
    (h : Walks t read {other | t.Visible marker (segments path) other} (.error e)) :
    Flattens t marker read path (.error e) := by
  obtain ⟨row, hrow, hfails, hfirst⟩ := h
  have hsegments := ht.segments_of_visible hrow
  refine ⟨ofRow row, by rwa [hsegments], hfails, fun q hq => ?_⟩
  rw [hsegments]
  rcases hfirst (segments q) hq with heq | hbefore | hok
  · exact .inl (by rw [← heq, Path.ofRow_segments])
  · exact .inr (.inl hbefore)
  · rw [Path.ofRow_segments] at hok
    exact .inr (.inr hok)

/-- **Flattening returns, and comes to what the visible nodes read.** -/
theorem Overlay.Reads.flatten {σ : Type} {P : σ → Prop} {o : Overlay σ} (h : o.Reads P read)
    (ht : o.tree.Plain) (path : String) {s : σ} (hs : P s) :
    ∃ r, o.flatten path s = some r ∧ Flattens o.tree o.keys.marker read path r.1 ∧ P r.2 := by
  have hfuel n (hn : o.tree.follow (segments path) = some n) : n.height ≤ o.tree.height + 1 :=
    Nat.le_succ_of_le (Tree.height_le_of_follow hn)
  have hwrites := h.meets_writesBelow ht (o.tree.height + 1) (Path.isRow_segments path) hfuel
  rw [Path.ofRow_segments] at hwrites
  obtain ⟨hout, hkept⟩ := hwrites s hs
  refine ⟨_, flatten_eq_written ht.noEmptyKey path s, ?_, hkept⟩
  cases hresult : (o.writesBelow (o.tree.height + 1) path s).1 with
  | error e =>
    rw [hresult] at hout
    exact Walks.flattens_error ht hout
  | ok ws =>
    rw [hresult] at hout
    exact Walks.flattens_ok ht hout

/-- Only one error is the first. -/
theorem FirstFailing.unique {path p q : String} {e d : RuleError}
    (hp : FirstFailing t marker read path p e) (hq : FirstFailing t marker read path q d) :
    e = d := by
  have hpq : q = p := by
    rcases hp.first q hq.visible with heq | hbefore | ⟨v, hv⟩
    · exact heq
    · rcases hq.first p hp.visible with heq | hafter | ⟨v, hv⟩
      · exact heq.symm
      · exact absurd hafter hbefore.asymm
      · rw [hp.fails] at hv
        cases hv
    · rw [hq.fails] at hv
      cases hv
  have hfails := hp.fails
  rw [← hpq, hq.fails] at hfails
  cases hfails
  rfl

variable {path : String} {r : Except RuleError Listing}

theorem Flattens.ok_iff (h : Flattens t marker read path r) :
    (∃ l, r = .ok l) ↔
      ∀ p, t.Visible marker (segments path) (segments p) → ∃ v, read p = .ok v := by
  cases r with
  | ok l => exact ⟨fun _ => h.1, fun _ => ⟨l, rfl⟩⟩
  | error e =>
    obtain ⟨p, hp⟩ := h
    constructor
    · rintro ⟨l, hl⟩
      cases hl
    · intro hall
      obtain ⟨v, hv⟩ := hall p hp.visible
      rw [hp.fails] at hv
      cases hv

theorem Flattens.error_iff (h : Flattens t marker read path r) (e : RuleError) :
    r = .error e ↔ ∃ p, FirstFailing t marker read path p e := by
  cases r with
  | ok l =>
    constructor
    · intro hl
      cases hl
    · rintro ⟨p, hp⟩
      obtain ⟨v, hv⟩ := h.1 p hp.visible
      rw [hp.fails] at hv
      cases hv
  | error d =>
    obtain ⟨q, hq⟩ := h
    constructor
    · intro hd
      cases hd
      exact ⟨q, hq⟩
    · rintro ⟨p, hp⟩
      rw [hq.unique hp]

/-- Below a node with no marker on the way to it the visible nodes are those visible from the
root. -/
theorem Tree.visible_iff_below {p : String} (hpath : marker ∉ segments path) :
    t.Visible marker (segments path) (segments p) ↔
      t.Visible marker [] (segments p) ∧ segments path <+: segments p ∧ p ≠ path := by
  constructor
  · rintro ⟨rest, hne, hp, hmarker, hnode⟩
    refine ⟨⟨segments p, ?_, rfl, ?_, hnode⟩, ⟨rest, hp.symm⟩, ?_⟩
    · simp [hp, hne]
    · rw [hp, List.mem_append, not_or]
      exact ⟨hpath, hmarker⟩
    · rintro rfl
      exact hne (by simpa using hp)
  · rintro ⟨⟨row, -, hrow, hmarker, hnode⟩, ⟨rest, hp⟩, hne⟩
    rw [List.nil_append] at hrow
    refine ⟨rest, ?_, hp.symm, ?_, hnode⟩
    · rintro rfl
      rw [List.append_nil] at hp
      exact hne (Path.segments_inj hp.symm)
    · intro hrest
      apply hmarker
      rw [← hrow, ← hp]
      exact List.mem_append_right _ hrest

/-- The listing below such a node is the part of the whole listing that lies below it. -/
theorem Flattens.restrict {l : Listing} (hroot : Flattens t marker read "" (.ok l))
    (h : Flattens t marker read path r) (hpath : marker ∉ segments path) :
    r = .ok (l.filter fun e => segments path <+: segments e.1 ∧ e.1 ≠ path) := by
  obtain ⟨hread, hsorted, hmem⟩ := hroot
  obtain ⟨l', rfl⟩ := h.ok_iff.mpr fun p hp => hread p ((Tree.visible_iff_below hpath).mp hp).1
  obtain ⟨-, hsorted', hmem'⟩ := h
  refine congrArg _ (hsorted'.ext (List.Pairwise.filter _ hsorted) fun e => ?_)
  obtain ⟨p, v⟩ := e
  rw [hmem', Tree.visible_iff_below hpath, List.mem_filter, hmem, decide_eq_true_eq]
  exact and_right_comm

end Flattens

end GuardedConfig
