import Mathlib
import GuardedConfig.Overlay.Declared
import GuardedConfig.Proofs.Text.Numeral

/-!
# The order of rule entries

Entries whose keys are all numbers stand in the order of the numbers, and keys that spell the same
number stand as they were given. Where no two keys are the same number this order is the only one,
so nothing is left of the order in which the keys were given. One key that is no number keeps all
of them in their places.

Results:
* `entryNumber?_eq_some_iff`: the keys that are numbers, by their spelling.
* `filter_entryKeys`: ordering leaves the keys of one number as they were given.
* `entryKeys_stable`: how any keys are ordered.
* `entryNumber?_toString`: a numeral is the key of its number, up to the last one of 64 bits.
* `DistinctNumbers.entryKeys_eq_of_perm`: distinct numbers are put in one order, however they come.
* `entryKeys_numerals`, `entryKeys_of_perm_numerals`: the numerals from zero on are in order.
-/

namespace GuardedConfig

/-- The number of a key that is one. -/
def entryRank (key : String) : Nat := (entryNumber? key).getD 0

/-! ## Keys that spell numbers -/

/-- A row of decimal digits, one at least, that denotes a number of 64 bits. -/
structure DigitsOf (digits : List Char) (n : Nat) : Prop where
  ne_nil : digits ≠ []
  decimal : ∀ d ∈ digits, d.isDigit = true
  denotes : digitsValue digits = n
  bound : n ≤ 2 ^ 64 - 1

/-- A key spells a number: in digits alone, or in digits behind a plus sign. -/
inductive SpellsNumber (key : String) (n : Nat) : Prop
  | bare (h : DigitsOf key.toList n)
  | signed {digits : List Char} (hkey : key.toList = '+' :: digits) (h : DigitsOf digits n)

theorem digitsOf_iff {digits : List Char} {n : Nat} :
    (if digits.isEmpty || !digits.all Char.isDigit then none
      else if digitsValue digits < wordLimit then some (digitsValue digits) else none) = some n ↔
      DigitsOf digits n := by
  have hlimit : wordLimit = 2 ^ 64 := rfl
  constructor
  · intro h
    split at h
    · cases h
    · rename_i hdigits
      split at h
      · cases h
        simp only [Bool.or_eq_true, List.isEmpty_iff, Bool.not_eq_true', not_or,
          Bool.not_eq_false, List.all_eq_true] at hdigits
        exact ⟨hdigits.1, hdigits.2, rfl, by omega⟩
      · cases h
  · rintro ⟨hne, hdecimal, rfl, hbound⟩
    rw [if_neg (by simpa [hne] using hdecimal), if_pos (by omega)]

theorem entryNumber?_eq_some_iff {key : String} {n : Nat} :
    entryNumber? key = some n ↔ SpellsNumber key n := by
  unfold entryNumber?
  split
  · rename_i digits hkey
    refine digitsOf_iff.trans ⟨.signed hkey, ?_⟩
    rintro (h | ⟨hkey', h⟩)
    · rw [hkey] at h
      exact absurd (h.decimal '+' List.mem_cons_self) (by decide)
    · rw [hkey] at hkey'
      cases hkey'
      exact h
  · rename_i hplus
    refine digitsOf_iff.trans ⟨.bare, ?_⟩
    rintro (h | ⟨hkey, -⟩)
    · exact h
    · exact absurd hkey (hplus _)

theorem isSome_entryNumber?_iff {key : String} :
    (entryNumber? key).isSome ↔ ∃ n, SpellsNumber key n := by
  rw [Option.isSome_iff_exists]
  exact exists_congr fun n => entryNumber?_eq_some_iff

instance (key : String) (n : Nat) : Decidable (SpellsNumber key n) :=
  decidable_of_iff _ entryNumber?_eq_some_iff

theorem SpellsNumber.entryRank_eq {key : String} {n : Nat} (h : SpellsNumber key n) :
    entryRank key = n := by
  rw [entryRank, entryNumber?_eq_some_iff.mpr h]
  rfl

/-! ## The order of numbers -/

theorem entryRank_trans (a b c : String) (hab : decide (entryRank a ≤ entryRank b) = true)
    (hbc : decide (entryRank b ≤ entryRank c) = true) :
    decide (entryRank a ≤ entryRank c) = true := by
  rw [decide_eq_true_eq] at *
  exact Nat.le_trans hab hbc

theorem entryRank_total (a b : String) :
    (decide (entryRank a ≤ entryRank b) || decide (entryRank b ≤ entryRank a)) = true := by
  rw [Bool.or_eq_true, decide_eq_true_eq, decide_eq_true_eq]
  exact Nat.le_total _ _

theorem entryKeys_of_numbers {keys : List String} (h : ∀ k ∈ keys, (entryNumber? k).isSome) :
    entryKeys keys = keys.mergeSort fun a b => entryRank a ≤ entryRank b :=
  if_pos (List.all_eq_true.mpr h)

theorem entryKeys_of_not_number {keys : List String} {k : String} (hk : k ∈ keys)
    (h : entryNumber? k = none) : entryKeys keys = keys := by
  refine if_neg fun hall => ?_
  have hsome := List.all_eq_true.mp hall k hk
  rw [h] at hsome
  cases hsome

theorem pairwise_entryKeys {keys : List String} (h : ∀ k ∈ keys, (entryNumber? k).isSome) :
    (entryKeys keys).Pairwise fun a b => entryRank a ≤ entryRank b := by
  rw [entryKeys_of_numbers h]
  exact (List.pairwise_mergeSort entryRank_trans entryRank_total keys).imp of_decide_eq_true

/-- Keys that spell one number stand as they were given. -/
theorem filter_entryKeys {keys : List String} (h : ∀ k ∈ keys, (entryNumber? k).isSome) (n : Nat) :
    (entryKeys keys).filter (SpellsNumber · n) = keys.filter (SpellsNumber · n) := by
  have hequal : (keys.filter (SpellsNumber · n)).Pairwise
      fun a b => decide (entryRank a ≤ entryRank b) = true := by
    refine List.pairwise_of_forall_mem_list fun a ha b hb => ?_
    have hna : SpellsNumber a n := of_decide_eq_true (List.mem_filter.mp ha).2
    have hnb : SpellsNumber b n := of_decide_eq_true (List.mem_filter.mp hb).2
    rw [decide_eq_true_eq, hna.entryRank_eq, hnb.entryRank_eq]
  have hkept : (keys.filter (SpellsNumber · n)).Sublist (entryKeys keys) := by
    rw [entryKeys_of_numbers h]
    exact List.sublist_mergeSort entryRank_trans entryRank_total hequal List.filter_sublist
  -- The keys of the number are a part of those in the ordered row, and as many.
  have hpart := hkept.filter (SpellsNumber · n)
  rw [List.filter_filter] at hpart
  simp only [Bool.and_self] at hpart
  have hlength := ((entryKeys_perm keys).filter (SpellsNumber · n)).length_eq
  exact (hpart.eq_of_length_le hlength.le).symm

theorem entryKeys_entryKeys (keys : List String) : entryKeys (entryKeys keys) = entryKeys keys := by
  by_cases h : ∀ k ∈ keys, (entryNumber? k).isSome
  · have hordered : ∀ k ∈ entryKeys keys, (entryNumber? k).isSome :=
      fun k hk => h k ((entryKeys_perm keys).mem_iff.mp hk)
    rw [entryKeys_of_numbers hordered]
    exact List.mergeSort_of_pairwise ((pairwise_entryKeys h).imp decide_eq_true)
  · have hsame : entryKeys keys = keys := if_neg fun hall => h (List.all_eq_true.mp hall)
    rw [hsame, hsame]

/-- **Entries are ordered without loss.** Ordering keys only changes their places. If every key
spells a number the numbers go up, and the keys of each number stand as they were given. If one key
spells none, all keys stay where they are. Ordering them again changes nothing. -/
theorem entryKeys_stable (keys : List String) :
    (entryKeys keys).Perm keys ∧
      ((∀ k ∈ keys, ∃ n, SpellsNumber k n) →
        (entryKeys keys).Pairwise
            (fun a b => ∀ n m, SpellsNumber a n → SpellsNumber b m → n ≤ m) ∧
          ∀ n, (entryKeys keys).filter (SpellsNumber · n) = keys.filter (SpellsNumber · n)) ∧
      ((∃ k ∈ keys, ∀ n, ¬SpellsNumber k n) → entryKeys keys = keys) ∧
      entryKeys (entryKeys keys) = entryKeys keys := by
  refine ⟨entryKeys_perm keys, fun h => ?_, ?_, entryKeys_entryKeys keys⟩
  · have hnumbers k (hk : k ∈ keys) : (entryNumber? k).isSome :=
      isSome_entryNumber?_iff.mpr (h k hk)
    refine ⟨(pairwise_entryKeys hnumbers).imp fun hab n m hn hm => ?_, filter_entryKeys hnumbers⟩
    rw [← hn.entryRank_eq, ← hm.entryRank_eq]
    exact hab
  · rintro ⟨k, hk, hnone⟩
    refine entryKeys_of_not_number hk (Option.eq_none_iff_forall_ne_some.mpr fun n hn => ?_)
    exact hnone n (entryNumber?_eq_some_iff.mp hn)

/-- Three spellings of one keep their order between two and the last number of 64 bits; the number
after the last one is none, and all keys beside it stay in their places. -/
theorem entryKeys_stable_of_spellings :
    let keys := ["2", "01", "18446744073709551615", "+1", "1"]
    (∀ k ∈ keys, ∃ n, SpellsNumber k n) ∧
      (entryKeys keys).filter (SpellsNumber · 1) = ["01", "+1", "1"] ∧
      (∀ n, ¬SpellsNumber "18446744073709551616" n) ∧
      entryKeys ("18446744073709551616" :: keys) = "18446744073709551616" :: keys := by
  intro keys
  have hnumbers : ∀ k ∈ keys, ∃ n, SpellsNumber k n := by
    have hsome : ∀ k ∈ keys, (entryNumber? k).isSome := by decide +kernel
    exact fun k hk => isSome_entryNumber?_iff.mp (hsome k hk)
  have hover : ∀ n, ¬SpellsNumber "18446744073709551616" n := by
    have hnone : ¬(entryNumber? "18446744073709551616").isSome := by decide +kernel
    exact fun n hn => hnone (isSome_entryNumber?_iff.mpr ⟨n, hn⟩)
  obtain ⟨-, hordered, -, -⟩ := entryKeys_stable keys
  obtain ⟨-, -, hkept, -⟩ := entryKeys_stable ("18446744073709551616" :: keys)
  refine ⟨hnumbers, ?_, hover, hkept ⟨_, List.mem_cons_self, hover⟩⟩
  rw [(hordered hnumbers).2 1]
  decide +kernel

/-! ## Distinct numbers -/

/-- Keys that are all numbers, no two of them the same one. -/
structure DistinctNumbers (keys : List String) : Prop where
  numbers : ∀ k ∈ keys, (entryNumber? k).isSome
  distinct : (keys.map entryNumber?).Nodup

namespace DistinctNumbers

variable {keys others : List String}

theorem of_perm (h : DistinctNumbers keys) (hperm : keys.Perm others) : DistinctNumbers others where
  numbers k hk := h.numbers k (hperm.mem_iff.mpr hk)
  distinct := (hperm.map entryNumber?).nodup_iff.mp h.distinct

theorem eq_of_entryRank_eq (h : DistinctNumbers keys) {a b : String} (ha : a ∈ keys)
    (hb : b ∈ keys) (hrank : entryRank a = entryRank b) : a = b := by
  obtain ⟨n, hn⟩ := Option.isSome_iff_exists.mp (h.numbers a ha)
  obtain ⟨m, hm⟩ := Option.isSome_iff_exists.mp (h.numbers b hb)
  have hnumber : entryNumber? a = entryNumber? b := by
    rw [entryRank, entryRank, hn, hm] at hrank
    rw [hn, hm]
    exact congrArg some hrank
  exact List.inj_on_of_nodup_map h.distinct ha hb hnumber

/-- Keys with distinct numbers are put in one order, however they come. -/
theorem entryKeys_eq_of_perm (h : DistinctNumbers keys) (hperm : keys.Perm others) :
    entryKeys keys = entryKeys others := by
  have hother := h.of_perm hperm
  have hsame : (entryKeys keys).Perm (entryKeys others) :=
    (entryKeys_perm keys).trans (hperm.trans (entryKeys_perm others).symm)
  refine hsame.eq_of_pairwise (fun a b ha hb hab hba => ?_) (pairwise_entryKeys h.numbers)
    (pairwise_entryKeys hother.numbers)
  have ha' := (entryKeys_perm keys).mem_iff.mp ha
  have hb' := hperm.mem_iff.mpr ((entryKeys_perm others).mem_iff.mp hb)
  exact h.eq_of_entryRank_eq ha' hb' (Nat.le_antisymm hab hba)

end DistinctNumbers

/-! ## Numerals -/

theorem entryNumber?_of_digits {key : String} (hne : key.toList ≠ [])
    (hdigits : ∀ d ∈ key.toList, d.isDigit = true) :
    entryNumber? key =
      if digitsValue key.toList < wordLimit then some (digitsValue key.toList) else none := by
  unfold entryNumber?
  split
  · rename_i ds hplus
    rw [hplus] at hdigits
    exact absurd (hdigits '+' List.mem_cons_self) (by decide)
  · refine if_neg ?_
    simpa [hne] using hdigits

theorem entryNumber?_toString (n : Nat) :
    entryNumber? (toString n) = if n < wordLimit then some n else none := by
  rw [entryNumber?_of_digits (toList_toString_ne_nil n) fun _ => isDigit_of_mem_toString,
    digitsValue_toString]

theorem distinctNumbers_numerals {n : Nat} (h : n ≤ wordLimit) : DistinctNumbers (numerals n) := by
  have hnumber i (hi : i ∈ List.range n) : entryNumber? (toString i) = some i := by
    have hlt := List.mem_range.mp hi
    rw [entryNumber?_toString, if_pos (by omega)]
  constructor
  · intro k hk
    obtain ⟨i, hi, rfl⟩ := List.mem_map.mp hk
    rw [hnumber i hi]
    rfl
  · rw [numerals, List.map_map, Function.comp_def, List.map_congr_left hnumber]
    exact List.nodup_range.map (Option.some_injective _)

/-- Numerals in their order stay so; past 64 bits they are no numbers of keys, and keep the order of
the tree. -/
theorem entryKeys_numerals (n : Nat) : entryKeys (numerals n) = numerals n := by
  by_cases hall : ∀ k ∈ numerals n, (entryNumber? k).isSome
  · have hrank i (hi : i ∈ List.range n) : entryRank (toString i) = i := by
      have hsome := hall _ (List.mem_map_of_mem hi)
      rw [entryRank]
      rw [entryNumber?_toString] at hsome ⊢
      split at hsome
      · rw [if_pos ‹_›]
        rfl
      · cases hsome
    rw [entryKeys_of_numbers hall]
    refine List.mergeSort_of_pairwise ?_
    refine List.pairwise_map.mpr (List.pairwise_lt_range.imp_of_mem fun hi hj hlt => ?_)
    rw [decide_eq_true_eq, hrank _ hi, hrank _ hj]
    exact Nat.le_of_lt hlt
  · exact if_neg fun h => hall (List.all_eq_true.mp h)

theorem entryKeys_of_perm_numerals {keys : List String} {n : Nat} (hperm : keys.Perm (numerals n))
    (h : n ≤ wordLimit) : entryKeys keys = numerals n := by
  rw [← (distinctNumbers_numerals h).entryKeys_eq_of_perm hperm.symm, entryKeys_numerals]

end GuardedConfig
