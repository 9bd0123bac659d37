import Mathlib
import GuardedConfig.Binary64.Rounding

/-!
# Sizes of doubles in units

The magnitude bits of a double number its size among all sizes, in ascending order: within one
exponent the sizes are equally spaced, and the step behind the last one leads to the first one of
the next exponent. So an exact size lies between two neighbours, and rounding takes the nearer one.

Results:
* `strictMono_unitsOf`: greater bits are a greater size.
* `nearestSize_roundUnits`: rounding gives the nearest size, with even bits if another is as near.
* `exists_unitsOf_eq`: every whole number up to `2 ^ 53` is a size.
-/

namespace GuardedConfig.Binary64

/-- The exponent is a variable here so that the power is never written out. -/
theorem unitsPerOne_eq {b : ℕ} (hb : b = 1074) : unitsPerOne = 2 ^ b := by
  subst hb
  decide +kernel

/-! ## The sizes in a row -/

theorem unitsOf_normal (e : ℕ) {f : ℕ} (hf : f < leadingBit) :
    unitsOf ((e + 1) * leadingBit + f) = (leadingBit + f) * 2 ^ e := by
  have hpos : 0 < leadingBit := by decide
  have hdiv : ((e + 1) * leadingBit + f) / leadingBit = e + 1 := by
    rw [Nat.mul_comm, Nat.mul_add_div hpos, Nat.div_eq_of_lt hf, Nat.add_zero]
  have hmod : ((e + 1) * leadingBit + f) % leadingBit = f := by
    rw [Nat.mul_comm, Nat.mul_add_mod, Nat.mod_eq_of_lt hf]
  rw [unitsOf, hdiv, hmod, if_neg (Nat.succ_ne_zero e), Nat.add_sub_cancel, Nat.pow_eq]

/-- The size of `k` steps of `2 ^ s` units. It takes 53 binary digits or, of single units, fewer. -/
theorem unitsOf_step {s k : ℕ} (hk : k ≤ 2 * leadingBit) (hs : s = 0 ∨ leadingBit ≤ k) :
    unitsOf (s * leadingBit + k) = k * 2 ^ s := by
  by_cases hlow : k < leadingBit
  · have hzero : s = 0 := hs.resolve_right (Nat.not_le.mpr hlow)
    rw [hzero, Nat.zero_mul, Nat.zero_add, Nat.pow_zero, Nat.mul_one, units_of_lt hlow]
  · obtain ⟨f, rfl⟩ := Nat.exists_eq_add_of_le (Nat.not_lt.mp hlow)
    rcases Nat.lt_or_eq_of_le (show f ≤ leadingBit by omega) with hf | rfl
    · rw [← Nat.add_assoc, ← Nat.succ_mul, unitsOf_normal s hf]
    · -- one step further than the last size of this exponent is the first one of the next
      have hnext : s * leadingBit + (leadingBit + leadingBit) = (s + 1 + 1) * leadingBit + 0 := by
        ring
      rw [hnext, unitsOf_normal (s + 1) (by decide), Nat.pow_succ]
      ring

theorem exists_step (m : ℕ) :
    ∃ s k, m = s * leadingBit + k ∧ k < 2 * leadingBit ∧ (s = 0 ∨ leadingBit ≤ k) := by
  by_cases hlow : m < leadingBit
  · exact ⟨0, m, by omega, by omega, .inl rfl⟩
  · have hpos : 0 < leadingBit := by decide
    have hmod := Nat.mod_lt m hpos
    have hdiv := Nat.div_add_mod m leadingBit
    obtain ⟨s, hs⟩ := Nat.exists_eq_succ_of_ne_zero (Nat.div_pos (Nat.not_lt.mp hlow) hpos).ne'
    refine ⟨s, leadingBit + m % leadingBit, ?_, by omega, .inr (Nat.le_add_right _ _)⟩
    rw [hs, Nat.succ_eq_add_one, Nat.mul_comm, Nat.add_mul, Nat.one_mul] at hdiv
    omega

theorem strictMono_unitsOf : StrictMono unitsOf := by
  refine strictMono_nat_of_lt_succ fun m => ?_
  obtain ⟨s, k, rfl, hk, hs⟩ := exists_step m
  have hnext : s = 0 ∨ leadingBit ≤ k + 1 := hs.imp_right Nat.le_succ_of_le
  rw [unitsOf_step hk.le hs, Nat.add_assoc, unitsOf_step hk hnext]
  exact Nat.mul_lt_mul_of_pos_right (Nat.lt_succ_self k) (Nat.two_pow_pos s)

theorem strictMono_unitsOf_mul {den : ℕ} (hden : 0 < den) :
    StrictMono fun m => (unitsOf m : ℤ) * den := by
  intro m n h
  have hlt := Nat.mul_lt_mul_of_pos_right (strictMono_unitsOf h) hden
  dsimp only
  exact_mod_cast hlt

/-! ## Rounding to a neighbour -/

/-- A rounded quotient is the whole number below the exact one or the next, whichever is nearer, and
even if both are equally near. -/
theorem roundDiv_between (num den : ℕ) :
    (roundDiv .toEven num den = num / den ∧ 2 * (num % den) ≤ den ∨
      roundDiv .toEven num den = num / den + 1 ∧ den ≤ 2 * (num % den)) ∧
    (2 * (num % den) = den → roundDiv .toEven num den % 2 = 0) := by
  simp only [roundDiv, true_and]
  split
  · omega
  · split
    · omega
    · split <;> omega

/-- In an ascending row the nearer one of the two numbers around `n` is nearest to it, and another
is as near only from half-way. -/
theorem nearest_of_between {g : ℕ → ℤ} (hg : StrictMono g) {n : ℤ} {a b : ℕ} (hlo : g a ≤ n)
    (hhi : n < g (a + 1)) (hb : (b = a ∧ 2 * n ≤ g a + g (a + 1)) ∨
      (b = a + 1 ∧ g a + g (a + 1) ≤ 2 * n)) (m : ℕ) :
    |n - g b| ≤ |n - g m| ∧ (m ≠ b → |n - g m| = |n - g b| → 2 * n = g a + g (a + 1)) := by
  have houter : g m ≤ g a ∨ g (a + 1) ≤ g m :=
    (Nat.lt_or_ge a m).symm.imp (hg.monotone ·) (hg.monotone ·)
  have hne : m ≠ b → g m ≠ g b := hg.injective.ne
  rcases hb with ⟨rfl, hhalf⟩ | ⟨rfl, hhalf⟩
  · have hdist : |n - g b| = n - g b := abs_of_nonneg (by omega)
    rcases abs_cases (n - g m) with ⟨hm, hsign⟩ | ⟨hm, hsign⟩ <;> omega
  · have hdist : |n - g (a + 1)| = g (a + 1) - n := by
      rw [abs_sub_comm]
      exact abs_of_nonneg (by omega)
    rcases abs_cases (n - g m) with ⟨hm, hsign⟩ | ⟨hm, hsign⟩ <;> omega

/-- Where `num / den` stands: in whole steps of the scale that rounding takes it has 53 binary
digits or, in single units, fewer. -/
theorem floor_step {num den s : ℕ} (hs : s = (num / den).log2 - 52) :
    num / (den * 2 ^ s) < 2 * leadingBit ∧ (s = 0 ∨ leadingBit ≤ num / (den * 2 ^ s)) := by
  have hlead : leadingBit = 2 ^ 52 := rfl
  rw [← Nat.div_div_eq_div_mul]
  constructor
  · rw [Nat.div_lt_iff_lt_mul (Nat.two_pow_pos s), hlead, ← Nat.pow_succ', ← Nat.pow_add]
    have hlt : num / den < 2 ^ ((num / den).log2 + 1) := Nat.lt_log2_self
    exact hlt.trans_le (Nat.pow_le_pow_right (by decide) (by omega))
  · by_cases hzero : s = 0
    · exact .inl hzero
    · have hne : num / den ≠ 0 := by
        intro h
        rw [h, Nat.log2_zero] at hs
        omega
      have hle : 2 ^ (num / den).log2 ≤ num / den := Nat.log2_self_le hne
      rw [Nat.le_div_iff_mul_le (Nat.two_pow_pos s), hlead, ← Nat.pow_add]
      exact .inr ((Nat.pow_le_pow_right (by decide) (by omega)).trans hle)

/-- The bits `b` are those of the size nearest to `num / den` units. -/
structure NearestSize (num den b : ℕ) : Prop where
  finite : b < infinityBits
  nearest : ∀ m, |(num : ℤ) - unitsOf b * den| ≤ |(num : ℤ) - unitsOf m * den|
  even : ∀ m ≠ b, |(num : ℤ) - unitsOf m * den| = |(num : ℤ) - unitsOf b * den| → b % 2 = 0

/-- Rounding gives the nearest size, short of the greatest exponent. -/
theorem nearestSize_roundUnits {num den : ℕ} (hden : 0 < den)
    (hfit : (num / den).log2 ≤ 2096) : NearestSize num den (roundUnits num den) := by
  generalize hs : (num / den).log2 - 52 = s
  obtain ⟨hk, hsmall⟩ := floor_step hs.symm
  obtain ⟨hcases, htie⟩ := roundDiv_between num (den * 2 ^ s)
  have hfinite : s * leadingBit + roundDiv .toEven num (den * 2 ^ s) < infinityBits := by
    unfold infinityBits leadingBit at *
    omega
  have hround : roundUnits num den = s * leadingBit + roundDiv .toEven num (den * 2 ^ s) := by
    simp only [roundUnits, hs, Nat.pow_eq]
    exact Nat.min_eq_right hfinite.le
  have hfloor := Nat.div_add_mod num (den * 2 ^ s)
  have hrest := Nat.mod_lt num (Nat.mul_pos hden (Nat.two_pow_pos s))
  generalize num / (den * 2 ^ s) = k at *
  -- the two neighbours of the exact size are `k` and `k + 1` steps of `2 ^ s` units
  have hlow : unitsOf (s * leadingBit + k) * den = den * 2 ^ s * k := by
    rw [unitsOf_step hk.le hsmall]
    ring
  have hhigh : unitsOf (s * leadingBit + k + 1) * den = den * 2 ^ s * k + den * 2 ^ s := by
    rw [Nat.add_assoc, unitsOf_step (k := k + 1) hk (hsmall.imp_right (Nat.le_add_right_of_le ·))]
    ring
  have hbetween := @nearest_of_between _ (strictMono_unitsOf_mul hden) num (s * leadingBit + k)
    (roundUnits num den) (by omega) (by omega) (by omega)
  refine ⟨hround ▸ hfinite, fun m => (hbetween m).1, fun m hm heq => ?_⟩
  have hhalf := (hbetween m).2 hm heq
  have heven : leadingBit % 2 = 0 := by decide
  rw [hround, Nat.add_mod, Nat.mul_mod, heven, htie (by omega), Nat.mul_zero]

/-! ## Whole numbers -/

theorem log2_mul_unitsPerOne {n a : ℕ} (h : n < 2 ^ a) :
    (n * unitsPerOne).log2 ≤ a + 1074 := by
  obtain ⟨b, hb⟩ : ∃ b : ℕ, b = 1074 := ⟨1074, rfl⟩
  rw [unitsPerOne_eq hb, ← hb]
  by_cases hzero : n = 0
  · rw [hzero, Nat.zero_mul, Nat.log2_zero]
    exact Nat.zero_le _
  · have hne : n * 2 ^ b ≠ 0 := Nat.mul_ne_zero hzero (Nat.two_pow_pos b).ne'
    refine ((Nat.log2_lt hne).mpr ?_).le
    rw [Nat.pow_add]
    exact Nat.mul_lt_mul_of_pos_right h (Nat.two_pow_pos b)

/-- Every whole number up to `2 ^ 53` is the size of a double. -/
theorem exists_unitsOf_eq {n : ℕ} (h : n ≤ 2 ^ 53) :
    ∃ m < infinityBits, unitsOf m = n * unitsPerOne := by
  have hlead : leadingBit = 2 ^ 52 := rfl
  by_cases hzero : n = 0
  · refine ⟨0, by decide, ?_⟩
    rw [hzero, Nat.zero_mul]
    rfl
  · -- shifted up by `t` places the number has 53 binary digits
    obtain ⟨t, ht⟩ : ∃ t, t = 52 - n.log2 := ⟨_, rfl⟩
    have hlow : leadingBit ≤ n * 2 ^ t := by
      have hle : 2 ^ n.log2 * 2 ^ t ≤ n * 2 ^ t := Nat.mul_le_mul_right _ (Nat.log2_self_le hzero)
      rw [← Nat.pow_add] at hle
      rw [hlead]
      exact (Nat.pow_le_pow_right (by decide) (by omega)).trans hle
    have hhigh : n * 2 ^ t ≤ 2 * leadingBit := by
      by_cases hbig : 52 < n.log2
      · have hnone : t = 0 := by omega
        rw [hnone, Nat.pow_zero, Nat.mul_one, hlead]
        exact h
      · have hlt : n * 2 ^ t < 2 ^ (n.log2 + 1) * 2 ^ t :=
          Nat.mul_lt_mul_of_pos_right Nat.lt_log2_self (Nat.two_pow_pos t)
        rw [← Nat.pow_add, show n.log2 + 1 + t = 53 by omega] at hlt
        exact hlt.le
    obtain ⟨b, hb⟩ : ∃ b : ℕ, b = 1074 := ⟨1074, rfl⟩
    refine ⟨(b - t) * leadingBit + n * 2 ^ t, ?_, ?_⟩
    · unfold infinityBits leadingBit at *
      omega
    · rw [unitsOf_step hhigh (.inr hlow), Nat.mul_assoc, ← Nat.pow_add, unitsPerOne_eq hb]
      congr 2
      omega

end GuardedConfig.Binary64
