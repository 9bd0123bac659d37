/-!
# Double-precision numbers

A binary floating-point number of 64 bits, held as its bits and read exactly. The finite numbers
are whole multiples of `2 ^ -1074`, the least positive one, so their order is the order of whole
numbers; no arithmetic of the machine is involved.

Results:
* `units_of_lt`: below the first normal number the magnitude is its own number of units.
* `magnitude_ofMagnitude`, `negative_ofMagnitude`: a number is made of its sign and its magnitude.
* `order_swap`: the order seen from the other side.
-/

namespace GuardedConfig

/-- A double-precision number: sign, eleven bits of exponent and fifty-two of fraction. -/
structure Binary64 where
  /-- The bits, sign first. -/
  bits : UInt64
  deriving DecidableEq, Inhabited

namespace Binary64

/-- The number of units, each `2 ^ -1074`, that make one. -/
def unitsPerOne : Nat := Nat.pow 2 1074

/-- The sign bit alone. Smaller numbers are the bits of what has no sign. -/
def signBit : Nat := 0x8000000000000000

/-- The lowest bit of the exponent alone. It is also the leading bit that a normal number leaves
out. -/
def leadingBit : Nat := 0x10000000000000

/-- The bits of positive infinity. Greater magnitudes are not numbers. -/
def infinityBits : Nat := 0x7ff * leadingBit

/-- Whether the sign bit is set. -/
def negative (x : Binary64) : Bool :=
  signBit ≤ x.bits.toNat

/-- The bits without the sign. -/
def magnitude (x : Binary64) : Nat :=
  x.bits.toNat % signBit

/-- Whether the bits stand for no number at all. -/
def isNaN (x : Binary64) : Bool :=
  infinityBits < x.magnitude

/-- Whether the number is an infinity. -/
def isInfinite (x : Binary64) : Bool :=
  x.magnitude = infinityBits

/-- The size of a number with the given magnitude bits, in units. Infinity takes the size that the
next number after the largest finite one would have. -/
def unitsOf (m : Nat) : Nat :=
  if m / leadingBit = 0 then m
  else (leadingBit + m % leadingBit) * Nat.pow 2 (m / leadingBit - 1)

/-- The exact value of a number in units. -/
def units (x : Binary64) : Int :=
  if x.negative then -(unitsOf x.magnitude : Int) else unitsOf x.magnitude

/-- The number with the given sign and magnitude bits. -/
def ofMagnitude (negative : Bool) (m : Nat) : Binary64 :=
  ⟨UInt64.ofNat (if negative then signBit + m else m)⟩

/-- Zero, without a sign. -/
def zero : Binary64 := ⟨0⟩

/-- The order of two numbers by their exact values. There is none when either is not a number; the
two zeros are equal. -/
def order? (x y : Binary64) : Option Ordering :=
  if x.isNaN || y.isNaN then none else some (compare x.units y.units)

/-- Equality as numbers: a pair of zeros is equal, and what is not a number equals nothing. -/
def same (x y : Binary64) : Bool :=
  x.order? y = some .eq

theorem units_of_lt {m : Nat} (h : m < leadingBit) : unitsOf m = m := by
  rw [unitsOf, if_pos (Nat.div_eq_of_lt h)]

theorem magnitude_ofMagnitude {negative : Bool} {m : Nat} (h : m < signBit) :
    (ofMagnitude negative m).magnitude = m := by
  unfold ofMagnitude magnitude
  unfold signBit at h ⊢
  simp only [UInt64.toNat_ofNat']
  split <;> omega

theorem negative_ofMagnitude {negative : Bool} {m : Nat} (h : m < signBit) :
    (ofMagnitude negative m).negative = negative := by
  unfold ofMagnitude Binary64.negative
  unfold signBit at h ⊢
  simp only [UInt64.toNat_ofNat']
  cases negative <;> simp <;> omega

theorem order_swap (x y : Binary64) : y.order? x = (x.order? y).map Ordering.swap := by
  simp only [order?, Bool.or_comm y.isNaN]
  split
  · rfl
  · simp [Int.compare_swap]

end GuardedConfig.Binary64
