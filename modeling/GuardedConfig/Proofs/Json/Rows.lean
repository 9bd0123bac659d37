import Mathlib
import GuardedConfig.Proofs.Tree.Scalars

/-!
# Rows through a document

A row of names and numerals leads through a document: a name to the member of an object, a numeral
to the item of an array with that index. The relation says nothing about how a row is looked up; in
a document without repeated names it is what looking the row up finds.

Results:
* `leads_cons_iff`: the first key of a row leads to a part, and the others on from there.
* `leads_iff_follow`, `Leads.unique`: without repeated names a row leads to one value at most, the
  one that is found.
-/

namespace GuardedConfig.Json

/-- A row leads from a value to another through objects by name and through arrays by index. -/
inductive Leads : Json → List String → Json → Prop
  | here (j : Json) : Leads j [] j
  | member {members : List (String × Json)} {name : String} {part target : Json}
      {row : List String} (named : (name, part) ∈ members) (on : Leads part row target) :
      Leads (object members) (name :: row) target
  | item {items : List Json} {i : Nat} {part target : Json} {row : List String}
      (indexed : items[i]? = some part) (on : Leads part row target) :
      Leads (array items) (toString i :: row) target

variable {j target : Json} {k : String} {row : List String}

theorem leads_nil_iff : j.Leads [] target ↔ target = j := by
  constructor
  · rintro ⟨⟩
    rfl
  · rintro rfl
    exact .here _

theorem mem_itemParts_iff {items : List Json} {part : Json} :
    (k, part) ∈ itemParts 0 items ↔ ∃ i : Nat, k = toString i ∧ items[i]? = some part := by
  simp only [itemParts, List.mem_map, Prod.mk.injEq, Prod.exists, List.mem_zipIdx_iff_getElem?]
  constructor
  · rintro ⟨_, i, hi, rfl, rfl⟩
    exact ⟨i, rfl, hi⟩
  · rintro ⟨i, rfl, hi⟩
    exact ⟨part, i, hi, rfl, rfl⟩

theorem leads_cons_iff :
    j.Leads (k :: row) target ↔ ∃ part, (k, part) ∈ j.parts ∧ part.Leads row target := by
  constructor
  · intro h
    cases h with
    | member named on => exact ⟨_, named, on⟩
    | item indexed on => exact ⟨_, mem_itemParts_iff.mpr ⟨_, rfl, indexed⟩, on⟩
  · rintro ⟨part, hpart, on⟩
    cases j with
    | null | bool _ | number _ | string _ => cases hpart
    | array items =>
      obtain ⟨i, rfl, hi⟩ := mem_itemParts_iff.mp hpart
      exact .item hi on
    | object members => exact .member hpart on

theorem leads_append_iff {rest : List String} :
    j.Leads (row ++ rest) target ↔ ∃ part, j.Leads row part ∧ part.Leads rest target := by
  induction row generalizing j with
  | nil => simp [leads_nil_iff]
  | cons k row ih =>
    simp only [List.cons_append, leads_cons_iff, ih]
    constructor
    · rintro ⟨next, hnext, part, hrow, hrest⟩
      exact ⟨part, ⟨next, hnext, hrow⟩, hrest⟩
    · rintro ⟨part, ⟨next, hnext, hrow⟩, hrest⟩
      exact ⟨next, hnext, part, hrow, hrest⟩

/-- A row leads on from a value without parts only if it ends there. -/
theorem Leads.eq_nil_of_parts (h : j.Leads row target) (hparts : j.parts = []) : row = [] := by
  cases row with
  | nil => rfl
  | cons k row =>
    obtain ⟨part, hpart, -⟩ := leads_cons_iff.mp h
    rw [hparts] at hpart
    cases hpart

theorem leads_iff_follow (h : j.Distinct) : j.Leads row target ↔ j.follow row = some target := by
  induction h generalizing row with
  | @mk j hkeys _ ih =>
    cases row with
    | nil => rw [leads_nil_iff, follow, Option.some.injEq, eq_comm]
    | cons k row =>
      rw [leads_cons_iff, follow]
      constructor
      · rintro ⟨part, hpart, on⟩
        rw [lookup_of_mem hkeys hpart]
        exact (ih _ hpart).mp on
      · intro hfollow
        split at hfollow
        · rename_i part hlookup
          have hpart := mem_of_lookup hlookup
          exact ⟨part, hpart, (ih _ hpart).mpr hfollow⟩
        · cases hfollow

theorem Leads.unique {other : Json} (h : j.Distinct) (ht : j.Leads row target)
    (ho : j.Leads row other) : target = other := by
  rw [leads_iff_follow h] at ht ho
  exact Option.some.inj (ht.symm.trans ho)

end GuardedConfig.Json
