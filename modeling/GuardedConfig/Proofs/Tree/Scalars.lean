import GuardedConfig.Proofs.Tree.Document

/-!
# The scalars of a document

Every scalar of a document has a row of keys that leads to it, made of the names of members and the
numerals of indices. A document that was read from a text has no name twice in one object, so no two
scalars share a row, and following a row finds the scalar that is listed with it.

Results:
* `Json.distinct_parse`: what is read from a text has distinct names in every object.
* `Json.mem_scalars_iff`, `Json.nodup_scalars`: the listed scalars are those that rows lead to, each
  with a row of its own.
-/

namespace GuardedConfig

/-! ## Keys that are not repeated -/

section Lookup

variable {α : Type} {parts : List (String × α)}

/-- A key that is there once leads to its part. -/
theorem lookup_of_mem (h : (parts.map Prod.fst).Nodup) {p : String × α} (hp : p ∈ parts) :
    parts.lookup p.1 = some p.2 := by
  induction parts with
  | nil => cases hp
  | cons q parts ih =>
    obtain ⟨hq, hrest⟩ := List.nodup_cons.mp h
    rcases List.mem_cons.mp hp with rfl | hp
    · rw [List.lookup_cons, beq_self_eq_true]
    · have hne : (p.1 == q.1) = false := by
        rw [beq_eq_false_iff_ne]
        exact fun heq => hq (heq ▸ List.mem_map_of_mem hp)
      rw [List.lookup_cons, hne]
      exact ih hrest hp

theorem mem_of_lookup {k : String} {part : α} (h : parts.lookup k = some part) :
    (k, part) ∈ parts := by
  induction parts with
  | nil => cases h
  | cons q parts ih =>
    rw [List.lookup_cons] at h
    split at h
    · rename_i heq
      cases h
      rw [beq_iff_eq.mp heq]
      exact List.mem_cons_self
    · exact List.mem_cons_of_mem q (ih h)

end Lookup

namespace Json

/-! ## Names that are not repeated -/

/-- No object in the value has a name twice. -/
inductive Distinct : Json → Prop
  | mk {j : Json} (keys : (j.parts.map Prod.fst).Nodup) (below : ∀ p ∈ j.parts, p.2.Distinct) :
      Distinct j

theorem nodup_numerals (n : Nat) : (numerals n).Nodup :=
  List.nodup_range.map fun _ _ => toString_inj

theorem mem_itemParts {i : Nat} {items : List Json} {p : String × Json}
    (h : p ∈ itemParts i items) : p.2 ∈ items := by
  obtain ⟨⟨j, n⟩, hj, rfl⟩ := List.mem_map.mp h
  exact List.fst_mem_of_mem_zipIdx hj

theorem distinct_array {items : List Json} (h : ∀ j ∈ items, j.Distinct) :
    (array items).Distinct := by
  refine .mk ?_ fun p hp => h p.2 (mem_itemParts hp)
  rw [parts, keys_itemParts]
  exact nodup_numerals _

theorem nodup_putMember {name : String} {value : Json} {ms : List (String × Json)}
    (h : (ms.map Prod.fst).Nodup) : ((putMember name value ms).map Prod.fst).Nodup := by
  rw [putMember_names]
  split
  · exact h
  · rename_i hname
    rw [← List.concat_eq_append]
    exact h.concat hname

theorem mem_putMember {name : String} {value : Json} {ms : List (String × Json)}
    {m : String × Json} (h : m ∈ putMember name value ms) : m = (name, value) ∨ m ∈ ms := by
  induction ms with
  | nil => exact .inl (List.mem_singleton.mp h)
  | cons n ms ih =>
    rw [putMember] at h
    split at h
    · rename_i hn
      exact (List.mem_cons.mp h).imp (fun hm => by rw [hm, hn]) (List.mem_cons_of_mem n)
    · rcases List.mem_cons.mp h with rfl | h
      · exact .inr List.mem_cons_self
      · exact (ih h).imp id (List.mem_cons_of_mem n)

/-- Merging leaves each name once, with a value that one of the members had. -/
theorem mergeMembers_spec (ms : List (String × Json)) :
    ((mergeMembers ms).map Prod.fst).Nodup ∧ ∀ m ∈ mergeMembers ms, m ∈ ms := by
  induction ms using List.reverseRecOn with
  | nil => exact ⟨List.nodup_nil, fun _ => id⟩
  | append_singleton ms m ih =>
    have hput : mergeMembers (ms ++ [m]) = putMember m.1 m.2 (mergeMembers ms) := by
      rw [mergeMembers, List.foldl_append]
      rfl
    rw [hput]
    refine ⟨nodup_putMember ih.1, fun n hn => ?_⟩
    rcases mem_putMember hn with rfl | hn
    · simp
    · exact List.mem_append_left _ (ih.2 n hn)

mutual

theorem distinct_merged : (j : Json) → j.merged.Distinct
  | .null | .bool _ | .number _ | .string _ => .mk List.nodup_nil fun _ hp => nomatch hp
  | .array items => distinct_array (distinct_mergedItems items)
  | .object members =>
    .mk (mergeMembers_spec _).1 fun p hp =>
      distinct_mergedMembers members p ((mergeMembers_spec _).2 p hp)

theorem distinct_mergedItems : (items : List Json) → ∀ j ∈ mergedItems items, j.Distinct
  | [], _, hj => absurd hj (by simp [mergedItems])
  | j :: items, k, hk => by
    rcases List.mem_cons.mp hk with rfl | hk
    · exact distinct_merged j
    · exact distinct_mergedItems items k hk

theorem distinct_mergedMembers :
    (members : List (String × Json)) → ∀ m ∈ mergedMembers members, m.2.Distinct
  | [], _, hm => absurd hm (by simp [mergedMembers])
  | (name, j) :: members, m, hm => by
    rcases List.mem_cons.mp hm with rfl | hm
    · exact distinct_merged j
    · exact distinct_mergedMembers members m hm

end

theorem distinct_parse {text : String} {j : Json} (h : parse text = .ok j) : j.Distinct := by
  unfold parse at h
  split at h
  · cases h
  · cases h
    exact distinct_merged _
  · cases h

theorem distinct_load {text : String} {j : Json} (h : load text = .ok j) : j.Distinct := by
  rw [load] at h
  cases hparse : parse text with
  | error f =>
    rw [hparse] at h
    cases h
  | ok k =>
    rw [hparse] at h
    cases h
    exact distinct_parse hparse

/-! ## Scalars and their rows -/

mutual

/-- The scalars in a value with the rows that lead to them, in the order of the document. -/
def scalars : Json → List (List String × String)
  | .array items => itemScalars 0 items
  | .object members => memberScalars members
  | j => j.text?.toList.map ([], ·)

/-- The scalars in the items of an array, with keys that count on from `i`. -/
def itemScalars (i : Nat) : List Json → List (List String × String)
  | [] => []
  | j :: js => (j.scalars.map fun s => (toString i :: s.1, s.2)) ++ itemScalars (i + 1) js

/-- The scalars in the members of an object. -/
def memberScalars : List (String × Json) → List (List String × String)
  | [] => []
  | (name, j) :: ms => (j.scalars.map fun s => (name :: s.1, s.2)) ++ memberScalars ms

end

/-- The scalars in a value that stands under a key. -/
def scalarsUnder (p : String × Json) : List (List String × String) :=
  p.2.scalars.map fun s => (p.1 :: s.1, s.2)

theorem itemScalars_eq (i : Nat) (items : List Json) :
    itemScalars i items = (itemParts i items).flatMap scalarsUnder := by
  induction items generalizing i with
  | nil => rfl
  | cons j items ih =>
    rw [itemScalars, itemParts_cons, List.flatMap_cons, ih]
    rfl

theorem memberScalars_eq (members : List (String × Json)) :
    memberScalars members = members.flatMap scalarsUnder := by
  induction members with
  | nil => rfl
  | cons m members ih =>
    rw [memberScalars, List.flatMap_cons, ih]
    rfl

/-- A scalar stands at the empty row, and what is inside a part below the key of the part. -/
theorem scalars_eq (j : Json) :
    j.scalars = j.text?.toList.map ([], ·) ++ j.parts.flatMap scalarsUnder := by
  cases j with
  | null | bool _ | number _ | string _ => rfl
  | array items => exact itemScalars_eq 0 items
  | object members => exact memberScalars_eq members

theorem mem_scalarsUnder {p : String × Json} {row : List String} {v : String} :
    (row, v) ∈ scalarsUnder p ↔ ∃ rest, row = p.1 :: rest ∧ (rest, v) ∈ p.2.scalars := by
  simp only [scalarsUnder, List.mem_map, Prod.mk.injEq, Prod.exists]
  constructor
  · rintro ⟨rest, w, hmem, rfl, rfl⟩
    exact ⟨rest, rfl, hmem⟩
  · rintro ⟨rest, rfl, hmem⟩
    exact ⟨rest, v, hmem, rfl, rfl⟩

/-- **The listed scalars are those that rows lead to.** -/
theorem mem_scalars_iff {j : Json} (h : j.Distinct) {row : List String} {v : String} :
    (row, v) ∈ j.scalars ↔ (j.follow row).bind text? = some v := by
  induction h generalizing row with
  | @mk j hkeys _ ih =>
    rw [scalars_eq, List.mem_append, List.mem_flatMap]
    simp only [mem_scalarsUnder]
    cases row with
    | nil => simp [follow]
    | cons k row =>
      constructor
      · rintro (htext | ⟨p, hp, rest, heq, hmem⟩)
        · simp at htext
        · cases heq
          rw [follow, lookup_of_mem hkeys hp]
          exact (ih p hp).mp hmem
      · intro hv
        rw [follow] at hv
        split at hv
        · rename_i part hpart
          have hp := mem_of_lookup hpart
          exact .inr ⟨(k, part), hp, row, rfl, (ih _ hp).mpr hv⟩
        · cases hv

/-- A value with text has no parts. -/
theorem parts_of_text {j : Json} {v : String} (h : j.text? = some v) : j.parts = [] := by
  cases j with
  | bool _ | number _ | string _ => rfl
  | null | array _ | object _ => cases h

theorem nodup_scalars {j : Json} (h : j.Distinct) : (j.scalars.map Prod.fst).Nodup := by
  induction h with
  | @mk j hkeys _ ih =>
    rw [scalars_eq]
    cases htext : j.text? with
    | some v => simp [parts_of_text htext]
    | none =>
      rw [Option.toList_none, List.map_nil, List.nil_append, List.map_flatMap, List.nodup_flatMap]
      constructor
      · intro p hp
        have hunder : (scalarsUnder p).map Prod.fst =
            (p.2.scalars.map Prod.fst).map (p.1 :: ·) := by
          simp [scalarsUnder, Function.comp_def]
        rw [hunder]
        exact (ih p hp).map (List.cons_injective)
      · refine (List.pairwise_map.mp hkeys).imp fun hne row hrow hrow' => ?_
        obtain ⟨⟨r, v⟩, hmem, rfl⟩ := List.mem_map.mp hrow
        obtain ⟨⟨r', w⟩, hmem', heq⟩ := List.mem_map.mp hrow'
        obtain ⟨rest, rfl, -⟩ := mem_scalarsUnder.mp hmem
        obtain ⟨rest', rfl, -⟩ := mem_scalarsUnder.mp hmem'
        exact hne (List.cons.inj heq).1.symm

end Json

end GuardedConfig
