import Mathlib
import GuardedConfig.Text.Digits

/-!
# Numerals

A number written in decimal is read back from its digits.

Results:
* `isDigit_of_mem_toString`, `digitsValue_toString`: the numeral of a number is a row of digits that
  denotes the number.
* `toString_inj`: a number is told by its numeral.
* `numerals_succ`: the first numerals are listed one after the other.
-/

namespace GuardedConfig

theorem toList_toString (n : Nat) : (toString n).toList = Nat.toDigits 10 n := by
  rw [Nat.toString_eq_ofList_toDigits, String.toList_ofList]

theorem toList_toString_ne_nil (n : Nat) : (toString n).toList ≠ [] := by
  rw [toList_toString]
  exact Nat.toDigits_ne_nil

theorem isDigit_of_mem_toString {n : Nat} {d : Char} (h : d ∈ (toString n).toList) :
    d.isDigit = true := by
  rw [toList_toString] at h
  exact Nat.isDigit_of_mem_toDigits (by decide) (by decide) h

theorem digitsValue_toString (n : Nat) : digitsValue (toString n).toList = n := by
  rw [toList_toString]
  exact Nat.ofDigitChars_ten_toDigits

theorem toString_inj {n m : Nat} (h : toString n = toString m) : n = m := by
  rw [← digitsValue_toString n, h, digitsValue_toString]

/-- The first numerals in their order. -/
def numerals (n : Nat) : List String := (List.range n).map toString

theorem numerals_succ (n : Nat) : numerals (n + 1) = numerals n ++ [toString n] := by
  rw [numerals, List.range_succ, List.map_append]
  rfl

theorem mem_numerals {n i : Nat} : toString i ∈ numerals n ↔ i < n := by
  rw [numerals, List.mem_map]
  constructor
  · rintro ⟨j, hj, heq⟩
    rw [← toString_inj heq]
    exact List.mem_range.mp hj
  · exact fun hi => ⟨i, List.mem_range.mpr hi, rfl⟩

end GuardedConfig
