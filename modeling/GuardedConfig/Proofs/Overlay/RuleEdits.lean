import GuardedConfig.Proofs.Overlay.Flatten
import GuardedConfig.Proofs.Overlay.Preorder
import GuardedConfig.Proofs.Tree.Pairs

/-!
# Edits of rules

An edit at or below the marker of a node changes what is there, may make the node and those above
it, and may make the node bear rules or no longer bear them. Anywhere else it changes no value, and
no keys of children but on the way to the node. Since the marker is not among the keys that lead to
the node, no other node has its rules on that way: all others read as before.

Results:
* `Tree.RulesEdited`: what such an edit leaves alone, for setting (`rulesEdited_setAt`) and for
  removing (`rulesEdited_removeAt`).
* `Tree.Plain.setAt`, `Tree.Plain.removeAt`: edits keep paths that spell their rows.
* `Overlay.value_of_rulesEdited`: every other node reads as before.
* `Flattens.of_rulesEdited`: two listings, before and after, agree but for the node itself.
-/

namespace GuardedConfig

open GuardedConfig.Path (segments combine)

namespace Tree

variable {t t' : Tree} {marker : String} {row : List String}

/-! ## Edits at or below a marker -/

/-- A tree after an edit at or below the marker of a row, as far as it is left alone: values that
are not there, keys of children that are neither there nor on the way, and the marker elsewhere. -/
structure RulesEdited (marker : String) (row : List String) (t t' : Tree) : Prop where
  value : ∀ other, ¬row ++ [marker] <+: other → t'.valueAt other = t.valueAt other
  keys : ∀ other, ¬other <+: row → ¬row ++ [marker] <+: other → t'.keysAt other = t.keysAt other
  marked : ∀ other, other ≠ row → ¬row ++ [marker] <+: other →
    (marker ∈ t'.keysAt other ↔ marker ∈ t.keysAt other)

theorem RulesEdited.refl (t : Tree) : RulesEdited marker row t t where
  value _ _ := rfl
  keys _ _ _ := rfl
  marked _ _ _ := Iff.rfl

theorem concat_above (row rest : List String) (m : String) : row ++ [m] <+: row ++ m :: rest :=
  ⟨rest, by simp⟩

theorem eq_or_below_of_concat {m k : String} {other : List String}
    (h : row ++ [m] <+: other ++ [k]) : other = row ∨ row ++ [m] <+: other := by
  rcases List.prefix_concat_iff.mp h with heq | hbelow
  · exact .inl (List.append_inj_left' heq rfl).symm
  · exact .inr hbelow

/-- What is on the way to a place at or below the marker is there or on the way to the row. -/
theorem on_way {m : String} {other rest : List String} (h : other <+: row ++ m :: rest) :
    other <+: row ∨ row ++ [m] <+: other := by
  rcases List.prefix_or_prefix_of_prefix h (concat_above row rest m) with habove | hbelow
  · rcases List.prefix_concat_iff.mp habove with rfl | hway
    · exact .inr (List.prefix_refl _)
    · exact .inl hway
  · exact .inr hbelow

theorem rulesEdited_setAt (hrow : marker ∉ row) (rest : List String) (t : Tree) (v : String) :
    RulesEdited marker row t (t.setAt v (row ++ marker :: rest)) where
  value other hother := by
    rw [valueAt_setAt, if_neg]
    rintro rfl
    exact hother (concat_above row rest marker)
  keys other hway hother := by
    refine keysAt_setAt_off_way (fun k hk => ?_) t v
    exact (on_way ((List.prefix_append other [k]).trans hk)).elim hway hother
  marked other hne hother := by
    obtain ⟨-, hkeys⟩ | ⟨k, hk, -, hkeys⟩ := keysAt_setAt t v (row ++ marker :: rest) other
    · rw [hkeys]
    · -- a key that is new on the way to the row is not the marker
      have hkm : marker ≠ k := by
        rintro rfl
        rcases on_way hk with hway | hbelow
        · exact hrow (hway.subset (by simp))
        · exact (eq_or_below_of_concat hbelow).elim hne hother
      rw [hkeys, List.mem_append, List.mem_singleton, or_iff_left hkm]

theorem rulesEdited_removeAt (rest : List String) (t : Tree) :
    RulesEdited marker row t (t.removeAt (row ++ marker :: rest)) where
  value other hother := by
    rw [valueAt_removeAt, if_neg]
    rintro ⟨-, hbelow⟩
    exact hother ((concat_above row rest marker).trans hbelow)
  keys other hway hother := by
    rw [keysAt_removeAt, List.filter_eq_self]
    intro k _
    rw [decide_eq_true_eq]
    rintro ⟨-, hbelow⟩
    rcases eq_or_below_of_concat ((concat_above row rest marker).trans hbelow) with rfl | hthere
    · exact hway (List.prefix_refl _)
    · exact hother hthere
  marked other hne hother := by
    rw [keysAt_removeAt, List.mem_filter, and_iff_left]
    rw [decide_eq_true_eq]
    rintro ⟨-, hbelow⟩
    exact (eq_or_below_of_concat ((concat_above row rest marker).trans hbelow)).elim hne hother

/-! ## Plain trees stay plain -/

theorem keysAllBelow_filter {p : String → Bool} {q : String × Tree → Bool}
    {cs : List (String × Tree)} (h : keysAllBelow p cs) : keysAllBelow p (cs.filter q) := by
  induction cs with
  | nil => exact h
  | cons c cs ih =>
    obtain ⟨k, c⟩ := c
    simp only [keysAllBelow, Bool.and_eq_true] at h
    rw [List.filter_cons]
    split
    · simp [keysAllBelow, h.1.1, h.1.2, ih h.2]
    · exact ih h.2

theorem keysAll_of_removeAt? {p : String → Bool} (ht : t.keysAll p)
    (h : t.removeAt? row = some t') : t'.keysAll p := by
  induction row generalizing t t' with
  | nil => cases h
  | cons k ks ih =>
    obtain ⟨v, cs⟩ := t
    obtain ⟨-, rfl⟩ | ⟨c, c', hc, hc', rfl⟩ := removeAt?_cases h
    · exact keysAllBelow_filter ht
    · obtain ⟨hk, hbelow⟩ := keysAll_of_lookup ht hc
      exact keysAllBelow_alter hk (fun _ _ => ih hbelow hc') ht

theorem Plain.setAt (ht : t.Plain) (hcolon : ∀ k ∈ row, ':' ∉ k.toList)
    (hfirst : row.head? ≠ some "") (v : String) : (t.setAt v row).Plain where
  noColon := keysAll_setAt ht.noColon (fun k hk => by simpa using hcolon k hk) v
  noEmptyKey := by
    obtain ⟨-, hkeys⟩ | ⟨k, ⟨rest, rfl⟩, -, hkeys⟩ := keysAt_setAt t v row []
    · rw [hkeys]
      exact ht.noEmptyKey
    · rw [hkeys, List.mem_append, List.mem_singleton]
      rintro (hmem | rfl)
      · exact ht.noEmptyKey hmem
      · exact hfirst rfl

theorem Plain.removeAt (ht : t.Plain) (row : List String) : (t.removeAt row).Plain where
  noColon := by
    unfold Tree.removeAt
    cases h : t.removeAt? row with
    | none => exact ht.noColon
    | some t' => exact keysAll_of_removeAt? ht.noColon h
  noEmptyKey hmem := by
    rw [keysAt_removeAt] at hmem
    exact ht.noEmptyKey (List.mem_filter.mp hmem).1

/-! ## Other nodes show the same rules -/

/-- Nothing below the marker of another row is at or below the marker of this one. -/
theorem apart_of_ne {other : List String} (hrow : marker ∉ row) (hne : other ≠ row)
    (hbelow : ¬row ++ [marker] <+: other) (rest : List String) :
    ¬row ++ [marker] <+: other ++ marker :: rest := by
  intro h
  rcases on_way h with hthere | habove
  · exact hbelow hthere
  · rcases List.prefix_concat_iff.mp habove with heq | hway
    · exact hne (List.append_inj_left' heq rfl)
    · exact hrow (hway.subset (by simp))

variable {keys : RuleKeys} {path q : String}

/-- A path that is neither the edited node nor at or below its marker. -/
structure Elsewhere (marker path q : String) : Prop where
  ne : q ≠ path
  notBelow : ¬segments path ++ [marker] <+: segments q

theorem Elsewhere.segments_ne {m : String} (h : Elsewhere m path q) : segments q ≠ segments path :=
  fun heq => h.ne (Path.segments_inj heq)

/-- What is read for the entries of another node lies below the marker of that node. -/
theorem segments_entry (hne : keys.marker ≠ "") (hcolon : ':' ∉ keys.marker.toList)
    (q k part : String) :
    segments (combine (combine (combine q keys.marker) k) part) =
      segments q ++ keys.marker :: (Pieces.cut ':' k ++ Pieces.cut ':' part) := by
  have hmarker : combine q keys.marker ≠ "" := Path.combine_ne_empty fun _ => hne
  have hentry : combine (combine q keys.marker) k ≠ "" :=
    Path.combine_ne_empty fun hempty => absurd hempty hmarker
  rw [Path.segments_combine_of_ne hentry, Path.segments_combine_of_ne hmarker,
    Path.segments_combine q hcolon hne]
  simp

section Reading

variable (h : RulesEdited keys.marker (segments path) t t') (hrow : keys.marker ∉ segments path)
  (hne : keys.marker ≠ "") (hcolon : ':' ∉ keys.marker.toList)
  (hq : Elsewhere keys.marker path q)

include h hq

theorem RulesEdited.value_eq : t'.value q = t.value q :=
  h.value (segments q) hq.notBelow

theorem RulesEdited.bearsRules_eq : t'.bearsRules keys q = t.bearsRules keys q := by
  rw [Bool.eq_iff_iff]
  unfold bearsRules
  rw [List.contains_iff_mem, List.contains_iff_mem]
  exact h.marked (segments q) hq.segments_ne hq.notBelow

include hrow hne hcolon

theorem RulesEdited.ruleAt_eq (k : String) :
    t'.ruleAt keys (combine q keys.marker) k = t.ruleAt keys (combine q keys.marker) k := by
  have hpart part : t'.value (combine (combine (combine q keys.marker) k) part) =
      t.value (combine (combine (combine q keys.marker) k) part) := by
    refine h.value _ ?_
    rw [segments_entry hne hcolon]
    exact apart_of_ne hrow hq.segments_ne hq.notBelow _
  unfold ruleAt
  dsimp only
  rw [hpart, hpart]

/-- The rules of another node are declared as before, faults included. -/
theorem RulesEdited.ruleSetAt_eq :
    t'.ruleSetAt keys (combine q keys.marker) = t.ruleSetAt keys (combine q keys.marker) := by
  have hmarker : segments (combine q keys.marker) = segments q ++ [keys.marker] :=
    Path.segments_combine q hcolon hne
  have hapart : ¬segments path ++ [keys.marker] <+: segments q ++ [keys.marker] :=
    apart_of_ne hrow hq.segments_ne hq.notBelow []
  have hvalue : t'.value (combine q keys.marker) = t.value (combine q keys.marker) := by
    refine h.value _ ?_
    rwa [hmarker]
  have hentries : t'.childKeys (combine q keys.marker) = t.childKeys (combine q keys.marker) := by
    refine h.keys _ ?_ ?_
    · rw [hmarker]
      intro hway
      exact hrow (hway.subset (by simp))
    · rwa [hmarker]
  unfold ruleSetAt
  rw [hvalue, hentries, funext (h.ruleAt_eq hrow hne hcolon hq)]

end Reading

end Tree

namespace Overlay

variable {σ : Type} {path q : String}

/-- **Every other node reads as before.** -/
theorem value_of_rulesEdited (o : Overlay σ) {t' : Tree}
    (h : o.tree.RulesEdited o.keys.marker (segments path) t')
    (hrow : o.keys.marker ∉ segments path) (hne : o.keys.marker ≠ "")
    (hcolon : ':' ∉ o.keys.marker.toList) (hq : Tree.Elsewhere o.keys.marker path q) :
    ({ o with tree := t' } : Overlay σ).value q = o.value q :=
  o.value_of_same (h.bearsRules_eq hq) (fun _ => h.ruleSetAt_eq hrow hne hcolon hq) (h.value_eq hq)

/-- There is a node where a value is read. -/
theorem isSome_follow_of_value {o : Overlay σ} {s : σ} {v : String}
    (h : (o.value q s).1 = .ok (some v)) : (o.tree.follow (segments q)).isSome := by
  cases hbears : o.tree.bearsRules o.keys q with
  | true =>
    have hmarker := Tree.mem_keysAt_iff.mp (List.contains_iff_mem.mp hbears)
    exact Tree.isSome_follow_of_append hmarker
  | false =>
    rw [value_of_plain hbears] at h
    obtain ⟨n, hn, -⟩ := Option.bind_eq_some_iff.mp (Except.ok.inj h)
    exact Option.isSome_iff_exists.mpr ⟨n, hn⟩

end Overlay

theorem Tree.visible_root_iff {t : Tree} {marker : String} {row : List String} :
    t.Visible marker [] row ↔ row ≠ [] ∧ marker ∉ row ∧ (t.follow row).isSome := by
  constructor
  · rintro ⟨rest, hne, rfl, hmarker, hnode⟩
    exact ⟨hne, hmarker, hnode⟩
  · rintro ⟨hne, hmarker, hnode⟩
    exact ⟨row, hne, rfl, hmarker, hnode⟩

/-- Where all paths elsewhere read as before, the listings before and after agree elsewhere: a path
below the marker is in neither, and where a value is read there is a node. -/
theorem Flattens.of_rulesEdited {t t' : Tree} {marker path : String}
    {read read' : String → Except RuleError (Option String)}
    (hnode : ∀ q v, read q = .ok (some v) → (t.follow (segments q)).isSome)
    (hnode' : ∀ q v, read' q = .ok (some v) → (t'.follow (segments q)).isSome)
    (hread : ∀ q, Tree.Elsewhere marker path q → read' q = read q) {l l' : Listing}
    (h : Flattens t marker read "" (.ok l)) (h' : Flattens t' marker read' "" (.ok l'))
    {q : String} (hq : q ≠ path) (v : String) : (q, v) ∈ l' ↔ (q, v) ∈ l := by
  obtain ⟨-, -, hmem⟩ := h
  obtain ⟨-, -, hmem'⟩ := h'
  rw [hmem, hmem', Path.segments_empty, Tree.visible_root_iff, Tree.visible_root_iff]
  by_cases hbelow : segments path ++ [marker] <+: segments q
  · -- the marker is on the way to the path
    have hmarker : marker ∈ segments q := hbelow.subset (by simp)
    exact ⟨fun h => absurd hmarker h.1.2.1, fun h => absurd hmarker h.1.2.1⟩
  · have hsame := hread q ⟨hq, hbelow⟩
    constructor
    · rintro ⟨⟨hne, hmarker, -⟩, hv⟩
      rw [hsame] at hv
      exact ⟨⟨hne, hmarker, hnode q v hv⟩, hv⟩
    · rintro ⟨⟨hne, hmarker, -⟩, hv⟩
      rw [← hsame] at hv
      exact ⟨⟨hne, hmarker, hnode' q v hv⟩, hv⟩

end GuardedConfig
