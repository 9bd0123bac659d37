import Mathlib
import GuardedConfig.Proofs.Binary64.Sizes

/-!
# Doubles as rational numbers

The number that the bits of a double denote, read off its sign, exponent and fraction, and what the
doubles of the program are as such numbers: they are ordered as these, and a whole number is
converted to the nearest one.

Results:
* `order?_eq`: two doubles that are numbers stand in the order of what they denote.
* `isNearest_ofInt`: a whole number is converted to the nearest double, the even one of two.
* `ofInt_mono`: the conversion keeps order.
* `ofInt_exact`: it is exact up to `2 ^ 53`.
-/

namespace GuardedConfig.Binary64

/-- The sign as a factor. -/
def sign (x : Binary64) : ℚ := if x.negative then -1 else 1

/-- The number that the bits denote: a sign, eleven bits of exponent and the fraction, behind a
leading one unless the exponent is zero. -/
def toRat (x : Binary64) : ℚ :=
  let exponent := x.magnitude / leadingBit
  let fraction : ℚ := (x.magnitude % leadingBit : ℕ) / 2 ^ 52
  if exponent = 0 then x.sign * fraction * 2 ^ (-1022 : ℤ)
  else x.sign * (1 + fraction) * 2 ^ ((exponent : ℤ) - 1023)

/-- Neither an infinity nor something that is not a number. -/
def IsFinite (x : Binary64) : Prop := x.magnitude < infinityBits

instance (x : Binary64) : Decidable x.IsFinite :=
  inferInstanceAs (Decidable (x.magnitude < infinityBits))

theorem IsFinite.isNaN_eq_false {x : Binary64} (h : x.IsFinite) : x.isNaN = false :=
  decide_eq_false (Nat.lt_asymm h)

/-- A finite double is the nearest one to a number, and its last bit is even if another one is as
near. -/
structure IsNearest (q : ℚ) (x : Binary64) : Prop where
  finite : x.IsFinite
  nearest : ∀ y : Binary64, |q - x.toRat| ≤ |q - y.toRat|
  even : ∀ y : Binary64, y.toRat ≠ x.toRat → |q - y.toRat| = |q - x.toRat| → x.magnitude % 2 = 0

/-! ## The number in units -/

theorem two_zpow (e : ℕ) : (2 : ℚ) ^ ((e : ℤ) - 1022) = 2 ^ 52 * 2 ^ e / unitsPerOne := by
  obtain ⟨b, hb⟩ : ∃ b : ℕ, b = 1074 := ⟨1074, rfl⟩
  rw [unitsPerOne_eq hb, Nat.cast_pow, Nat.cast_two, eq_div_iff (by positivity),
    ← zpow_natCast, ← zpow_natCast, ← zpow_natCast, ← zpow_add₀ two_ne_zero,
    ← zpow_add₀ two_ne_zero]
  congr 1
  push_cast
  omega

theorem unitsPerOne_pos : (0 : ℚ) < unitsPerOne := by
  have hpos : 0 < unitsPerOne := by decide +kernel
  exact Nat.cast_pos.mpr hpos

theorem toRat_eq (x : Binary64) : x.toRat = x.sign * (unitsOf x.magnitude / unitsPerOne) := by
  have hlead : (leadingBit : ℚ) = 2 ^ 52 := by norm_num [leadingBit]
  have hdiv := Nat.div_add_mod x.magnitude leadingBit
  unfold toRat unitsOf
  cases he : x.magnitude / leadingBit with
  | zero =>
    rw [he, Nat.mul_zero, Nat.zero_add] at hdiv
    have hlow := two_zpow 0
    rw [Nat.cast_zero, zero_sub, pow_zero, mul_one] at hlow
    simp only [if_true]
    rw [hlow, hdiv]
    ring
  | succ e =>
    have hexp : ((e + 1 : ℕ) : ℤ) - 1023 = (e : ℤ) - 1022 := by omega
    simp only [Nat.succ_ne_zero, if_false, Nat.add_sub_cancel]
    rw [hexp, two_zpow e, Nat.cast_mul, Nat.cast_add, hlead, Nat.pow_eq, Nat.cast_pow,
      Nat.cast_two]
    ring

theorem toRat_eq_units (x : Binary64) : x.toRat = x.units / unitsPerOne := by
  rw [toRat_eq, sign, units]
  split
  · push_cast
    ring
  · push_cast
    ring

/-- One and a half, below zero, and the least positive double. -/
example : (⟨0xbff8000000000000⟩ : Binary64).toRat = -3 / 2 ∧
    (⟨1⟩ : Binary64).toRat * unitsPerOne = 1 := by
  decide +kernel

theorem toRat_zero : zero.toRat = 0 := by
  have hunits : zero.units = 0 := by decide
  rw [toRat_eq_units, hunits, Int.cast_zero, zero_div]

theorem abs_sign (x : Binary64) : |x.sign| = 1 := by
  unfold sign
  split <;> simp

theorem abs_toRat (x : Binary64) : |x.toRat| = unitsOf x.magnitude / unitsPerOne := by
  have hsize : (0 : ℚ) ≤ unitsOf x.magnitude / unitsPerOne :=
    div_nonneg (Nat.cast_nonneg _) unitsPerOne_pos.le
  rw [toRat_eq, abs_mul, abs_sign, one_mul, abs_of_nonneg hsize]

theorem toRat_of_magnitude_eq {x y : Binary64} (h : y.magnitude = x.magnitude) :
    y.toRat = x.toRat ∨ y.toRat = -x.toRat := by
  rw [← abs_eq_abs, abs_toRat, abs_toRat, h]

/-! ## The order of doubles -/

theorem order?_eq (x y : Binary64) :
    x.order? y = if x.isNaN || y.isNaN then none else some (compare x.toRat y.toRat) := by
  have hmono : StrictMono fun n : ℤ => (n : ℚ) / unitsPerOne := by
    intro m n h
    exact div_lt_div_of_pos_right (Int.cast_lt.mpr h) unitsPerOne_pos
  have hcmp := hmono.cmp_map_eq x.units y.units
  rw [order?, toRat_eq_units, toRat_eq_units, ← cmp_eq_compare, ← cmp_eq_compare, ← hcmp]

theorem order?_eq_lt_iff {x y : Binary64} :
    x.order? y = some .lt ↔ x.isNaN = false ∧ y.isNaN = false ∧ x.toRat < y.toRat := by
  rw [order?_eq]
  cases x.isNaN <;> cases y.isNaN <;> simp [compare_lt_iff_lt]

/-! ## The nearest double -/

/-- The distance of two sizes in units is their distance as numbers. -/
theorem distance_eq {num den : ℕ} (hden : 0 < den) (m : ℕ) :
    |(num : ℚ) / den - unitsOf m / unitsPerOne| =
      (|((num * unitsPerOne : ℕ) : ℤ) - unitsOf m * den| : ℤ) / (den * unitsPerOne) := by
  have hden' : (0 : ℚ) < den := Nat.cast_pos.mpr hden
  have hunits := unitsPerOne_pos
  rw [div_sub_div _ _ hden'.ne' hunits.ne', abs_div, abs_of_pos (mul_pos hden' hunits)]
  push_cast
  rw [mul_comm (den : ℚ) (unitsOf m : ℚ)]

/-- A number is as far from a double of its own sign as their sizes are from each other. -/
theorem distance_of_sign (x : Binary64) (a : ℚ) :
    |x.sign * a - x.toRat| = |a - unitsOf x.magnitude / unitsPerOne| := by
  rw [toRat_eq, ← mul_sub, abs_mul, abs_sign, one_mul]

/-- No double is nearer to a number than their sizes are to each other. -/
theorem size_distance_le (x y : Binary64) {a : ℚ} (ha : 0 ≤ a) :
    |a - unitsOf y.magnitude / unitsPerOne| ≤ |x.sign * a - y.toRat| := by
  have hsize : |x.sign * a| = a := by
    rw [abs_mul, abs_sign, one_mul, abs_of_nonneg ha]
  have h := abs_abs_sub_abs_le (x.sign * a) y.toRat
  rwa [hsize, abs_toRat] at h

theorem isNearest_of_size {num den : ℕ} (hden : 0 < den) {x : Binary64}
    (h : NearestSize (num * unitsPerOne) den x.magnitude) :
    IsNearest (x.sign * (num / den)) x := by
  have hpos : (0 : ℚ) < den * unitsPerOne := mul_pos (Nat.cast_pos.mpr hden) unitsPerOne_pos
  have ha : (0 : ℚ) ≤ num / den := div_nonneg (Nat.cast_nonneg _) (Nat.cast_nonneg _)
  have hsize (m : ℕ) : |(num : ℚ) / den - unitsOf x.magnitude / unitsPerOne| ≤
      |(num : ℚ) / den - unitsOf m / unitsPerOne| := by
    rw [distance_eq hden, distance_eq hden, div_le_div_iff_of_pos_right hpos, Int.cast_le]
    exact h.nearest m
  have hnear (y : Binary64) :
      |x.sign * (num / den) - x.toRat| ≤ |x.sign * (num / den) - y.toRat| := by
    rw [distance_of_sign]
    exact (hsize y.magnitude).trans (size_distance_le x y ha)
  refine ⟨h.finite, hnear, fun y hne heq => ?_⟩
  by_cases hy : y.magnitude = x.magnitude
  · -- numbers of opposite sign are equally near to zero only, and zero is nearer
    have hopp := (toRat_of_magnitude_eq hy).resolve_left hne
    rw [hopp, sub_neg_eq_add, abs_eq_abs] at heq
    have hzero : x.toRat = 0 := by
      rcases heq with heq | heq
      · linarith
      · have hq : x.sign * (num / den) = 0 := by linarith
        have hle := hnear zero
        rw [hq, toRat_zero, sub_zero, abs_zero] at hle
        simpa using hle
    exact absurd (by rw [hopp, hzero, neg_zero]) hne
  · refine h.even y.magnitude hy ?_
    have hle := size_distance_le x y ha
    rw [heq, distance_of_sign] at hle
    have hsame := le_antisymm hle (hsize y.magnitude)
    rw [distance_eq hden, distance_eq hden, div_left_inj' hpos.ne', Int.cast_inj] at hsame
    exact hsame

theorem isNearest_ofRatio (negative : Bool) {num den : ℕ} (hden : 0 < den)
    (hfit : (num * unitsPerOne / den).log2 ≤ 2096) :
    IsNearest ((if negative then -1 else 1) * (num / den)) (ofRatio negative num den) := by
  have hsize := nearestSize_roundUnits hden hfit
  have hbits : roundUnits (num * unitsPerOne) den < signBit :=
    hsize.finite.trans (by decide)
  have hsign : (ofRatio negative num den).sign = if negative then -1 else 1 := by
    rw [ofRatio, sign, negative_ofMagnitude hbits]
  rw [← hsign]
  refine isNearest_of_size hden ?_
  rwa [ofRatio, magnitude_ofMagnitude hbits]

namespace IsNearest

variable {p q : ℚ} {x y : Binary64}

theorem le_of_le (h : IsNearest q x) (hy : q ≤ y.toRat) : x.toRat ≤ y.toRat := by
  by_contra hlt
  rw [not_le] at hlt
  have hnear := h.nearest y
  rw [abs_of_nonpos (by linarith), abs_of_nonpos (by linarith)] at hnear
  linarith

theorem ge_of_ge (h : IsNearest q x) (hy : y.toRat ≤ q) : y.toRat ≤ x.toRat := by
  by_contra hlt
  rw [not_le] at hlt
  have hnear := h.nearest y
  rw [abs_of_nonneg (by linarith), abs_of_nonneg (by linarith)] at hnear
  linarith

/-- Rounding keeps order: otherwise either number would be nearer to the other one's double. -/
theorem mono (hx : IsNearest p x) (hy : IsNearest q y) (hpq : p < q) : x.toRat ≤ y.toRat := by
  by_contra hlt
  rw [not_le] at hlt
  have hxp : ¬p ≤ y.toRat := fun h => (hx.le_of_le h).not_gt hlt
  have hyq : ¬x.toRat ≤ q := fun h => (hy.ge_of_ge h).not_gt hlt
  rw [not_le] at hxp hyq
  have h1 := hx.nearest y
  have h2 := hy.nearest x
  rw [abs_of_nonpos (by linarith), abs_of_nonneg (by linarith)] at h1
  rw [abs_of_nonneg (by linarith), abs_of_nonpos (by linarith)] at h2
  linarith

theorem eq_of_exists (h : IsNearest q x) (hq : ∃ y : Binary64, y.toRat = q) : x.toRat = q := by
  obtain ⟨y, rfl⟩ := hq
  have hnear := h.nearest y
  rw [sub_self, abs_zero, abs_nonpos_iff, sub_eq_zero] at hnear
  exact hnear.symm

end IsNearest

/-! ## Whole numbers -/

theorem sign_mul_natAbs (i : ℤ) : (if decide (i < 0) then (-1 : ℚ) else 1) * i.natAbs = i := by
  rw [Nat.cast_natAbs, Int.cast_abs]
  by_cases hneg : i < 0
  · rw [if_pos (by simpa using hneg), abs_of_neg (Int.cast_lt_zero.mpr hneg), neg_one_mul, neg_neg]
  · rw [if_neg (by simpa using hneg), abs_of_nonneg (Int.cast_nonneg (not_lt.mp hneg)), one_mul]

theorem isNearest_ofInt (i : Int64) : IsNearest i.toInt (ofInt i.toInt) := by
  have hlo := i.le_toInt
  have hhi := i.toInt_lt
  have hfit : (i.toInt.natAbs * unitsPerOne / 1).log2 ≤ 2096 := by
    rw [Nat.div_one]
    have hlog := log2_mul_unitsPerOne (n := i.toInt.natAbs) (a := 64) (by omega)
    omega
  have h := isNearest_ofRatio (decide (i.toInt < 0)) Nat.one_pos hfit
  rwa [Nat.cast_one, div_one, sign_mul_natAbs] at h

theorem ofInt_mono {i j : Int64} (h : i.toInt ≤ j.toInt) :
    (ofInt i.toInt).toRat ≤ (ofInt j.toInt).toRat := by
  rcases h.lt_or_eq with hlt | heq
  · exact (isNearest_ofInt i).mono (isNearest_ofInt j) (Int.cast_lt.mpr hlt)
  · rw [heq]

theorem exists_toRat_eq {i : ℤ} (h : |i| ≤ 2 ^ 53) : ∃ x : Binary64, x.toRat = i := by
  rw [Int.abs_eq_natAbs] at h
  obtain ⟨m, hm, hunits⟩ := exists_unitsOf_eq (n := i.natAbs) (by exact_mod_cast h)
  have hbits : m < signBit := hm.trans (by decide)
  refine ⟨ofMagnitude (decide (i < 0)) m, ?_⟩
  rw [toRat_eq, sign, negative_ofMagnitude hbits, magnitude_ofMagnitude hbits, hunits, Nat.cast_mul,
    mul_div_cancel_right₀ _ unitsPerOne_pos.ne']
  exact sign_mul_natAbs i

theorem ofInt_exact {i : Int64} (h : |i.toInt| ≤ 2 ^ 53) : (ofInt i.toInt).toRat = i.toInt :=
  (isNearest_ofInt i).eq_of_exists (exists_toRat_eq h)

/-- A whole number with a double below `2 ^ 53` is not beyond `2 ^ 53` itself. -/
theorem abs_le_of_ofInt {i : Int64} (h : |(ofInt i.toInt).toRat| < 2 ^ 53) :
    |i.toInt| ≤ 2 ^ 53 := by
  obtain ⟨hlow, hhigh⟩ := abs_lt.mp h
  refine abs_le.mpr ⟨?_, ?_⟩
  · by_contra hlt
    obtain ⟨y, hy⟩ := exists_toRat_eq (i := -2 ^ 53) (by decide)
    have hbeyond : (i.toInt : ℚ) ≤ y.toRat := by
      rw [hy]
      exact_mod_cast (not_le.mp hlt).le
    have hle := (isNearest_ofInt i).le_of_le hbeyond
    rw [hy] at hle
    push_cast at hle
    linarith
  · by_contra hlt
    obtain ⟨y, hy⟩ := exists_toRat_eq (i := 2 ^ 53) (by decide)
    have hbeyond : y.toRat ≤ (i.toInt : ℚ) := by
      rw [hy]
      exact_mod_cast (not_le.mp hlt).le
    have hle := (isNearest_ofInt i).ge_of_ge hbeyond
    rw [hy] at hle
    push_cast at hle
    linarith

end GuardedConfig.Binary64
