import GuardedConfig.Binary64.Basic

/-!
# Rounding to double precision

Every operation that yields a double is "the exact result, rounded to the nearest double, a tie to
the even one". The exact result is a ratio of whole numbers, so one function does the rounding.

Results:
* `roundDiv_near`: the rounded quotient is within half of the exact one.
* `roundDiv_exact`: a whole quotient is not changed.
* `isNaN_ofRatio`: what rounding gives is a number.
-/

namespace GuardedConfig

/-- What to do with a quotient half-way between two whole numbers. -/
inductive Tie where
  | toEven
  | up
  deriving DecidableEq

/-- The whole number nearest to `num / den`, a tie as `tie` says. -/
def roundDiv (tie : Tie) (num den : Nat) : Nat :=
  let q := num / den
  let r := num % den
  if 2 * r < den then q
  else if den < 2 * r then q + 1
  else if tie = .toEven ∧ q % 2 = 0 then q
  else q + 1

theorem roundDiv_exact (tie : Tie) (q : Nat) {den : Nat} (h : 0 < den) :
    roundDiv tie (q * den) den = q := by
  simp [roundDiv, Nat.mul_div_cancel q h, h]

theorem roundDiv_near (tie : Tie) (num : Nat) {den : Nat} (h : 0 < den) :
    2 * num ≤ 2 * (roundDiv tie num den * den) + den ∧
      2 * (roundDiv tie num den * den) ≤ 2 * num + den := by
  have hd : num / den * den + num % den = num := by
    rw [Nat.mul_comm]; exact Nat.div_add_mod num den
  have hs : (num / den + 1) * den = num / den * den + den := Nat.succ_mul _ _
  have hr : num % den < den := Nat.mod_lt _ h
  simp only [roundDiv]
  split
  · omega
  · split
    · omega
    · split <;> omega

namespace Binary64

/-- The magnitude bits of the double nearest to `num / den` units. Past the largest finite double
that is infinity. -/
def roundUnits (num den : Nat) : Nat :=
  let scale := (num / den).log2 - 52
  min infinityBits (scale * leadingBit + roundDiv .toEven num (den * Nat.pow 2 scale))

/-- The double nearest to `num / den`, with the given sign. -/
def ofRatio (negative : Bool) (num den : Nat) : Binary64 :=
  ofMagnitude negative (roundUnits (num * unitsPerOne) den)

/-- The double nearest to a whole number. -/
def ofInt (i : Int) : Binary64 :=
  ofRatio (decide (i < 0)) i.natAbs 1

/-- The double nearest to `digits * 10 ^ exponent`. -/
def ofDecimal (negative : Bool) (digits : Nat) (exponent : Int) : Binary64 :=
  ofRatio negative (digits * Nat.pow 10 exponent.toNat) (Nat.pow 10 (-exponent).toNat)

/-- The product of the sizes of two finite doubles, rounded. -/
def mulSize (x y : Binary64) : Binary64 :=
  ofMagnitude false (roundUnits (unitsOf x.magnitude * unitsOf y.magnitude) unitsPerOne)

/-- The quotient of the sizes of two finite doubles, the second not zero, rounded. -/
def divSize (x y : Binary64) : Binary64 :=
  ofMagnitude false (roundUnits (unitsOf x.magnitude * unitsPerOne) (unitsOf y.magnitude))

theorem isNaN_ofRatio (negative : Bool) (num den : Nat) :
    (ofRatio negative num den).isNaN = false := by
  have hle : roundUnits (num * unitsPerOne) den ≤ infinityBits := Nat.min_le_left _ _
  have hlt : infinityBits < signBit := by decide
  unfold ofRatio isNaN
  rw [magnitude_ofMagnitude (by omega), decide_eq_false_iff_not]
  omega

theorem isNaN_ofInt (i : Int) : (ofInt i).isNaN = false :=
  isNaN_ofRatio _ _ _

end Binary64

end GuardedConfig
