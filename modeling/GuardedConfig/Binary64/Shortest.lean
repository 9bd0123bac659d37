import GuardedConfig.Binary64.Rounding

/-!
# The shortest decimal of a double

A double is written with the fewest decimal digits that still read back as it. The reals that read
back as a double reach half-way to its two neighbours, the ends included when its last bit is
clear. Among the grids `10 ^ k` the coarsest one with a point in that interval is used; only the
two points around the exact value need to be tried, and of two hits the nearer is taken.

A `Layout` then says how the digits are set: which exponents are written out in places, whether a
whole number keeps a fraction, and which way an exact tie goes.
-/

namespace GuardedConfig

/-- A positive decimal number `digits * 10 ^ exponent`. -/
structure Decimal where
  digits : Nat
  exponent : Int
  deriving DecidableEq

namespace Binary64

/-- The reals that read back as one double, doubled and in units, with the double itself. -/
structure Neighbourhood where
  /-- Twice the lower end. -/
  low : Nat
  /-- The exact value. -/
  value : Nat
  /-- Twice the upper end. -/
  high : Nat
  /-- Whether the ends belong to it. -/
  closed : Bool

/-- The interval around the double with the given magnitude bits, which are not zero. -/
def neighbourhood (m : Nat) : Neighbourhood where
  low := unitsOf (m - 1) + unitsOf m
  value := unitsOf m
  high := unitsOf m + unitsOf (m + 1)
  closed := m % 2 = 0

namespace Neighbourhood

/-- Whether `digits * 10 ^ exponent` lies in the interval. -/
def holds (i : Neighbourhood) (d : Decimal) : Bool :=
  let point := 2 * d.digits * unitsPerOne * Nat.pow 10 d.exponent.toNat
  let low := i.low * Nat.pow 10 (-d.exponent).toNat
  let high := i.high * Nat.pow 10 (-d.exponent).toNat
  if i.closed then low ≤ point && point ≤ high else low < point && point < high

/-- The point of the grid `10 ^ k` just below the value or on it. -/
def below (i : Neighbourhood) (k : Int) : Nat :=
  i.value * Nat.pow 10 (-k).toNat / (unitsPerOne * Nat.pow 10 k.toNat)

/-- The point of the grid `10 ^ k` in the interval that is nearest to the value, if there is one. -/
def onGrid? (tie : Tie) (i : Neighbourhood) (k : Int) : Option Decimal :=
  let n := i.below k
  match i.holds ⟨n, k⟩, i.holds ⟨n + 1, k⟩ with
  | false, false => none
  | true, false => some ⟨n, k⟩
  | false, true => some ⟨n + 1, k⟩
  | true, true =>
    some ⟨roundDiv tie (i.value * Nat.pow 10 (-k).toNat) (unitsPerOne * Nat.pow 10 k.toNat), k⟩

/-- The least `k` with the value below `10 ^ k`. -/
def ceilExponent (i : Neighbourhood) : Int :=
  let whole := i.value / unitsPerOne
  if whole = 0 then
    1 - ((Nat.toDigits 10 ((unitsPerOne - 1) / i.value)).length : Int)
  else (Nat.toDigits 10 whole).length

/-- The first hit on ever finer grids, `fuel` of them. -/
def search (tie : Tie) (i : Neighbourhood) : (fuel : Nat) → (k : Int) → Decimal
  | 0, k => ⟨i.below k, k⟩
  | fuel + 1, k => (i.onGrid? tie k).getD (search tie i fuel (k - 1))

/-- The shortest decimal in the interval. Seventeen digits tell any two doubles apart, so that the
finest of the grids tried always has a hit. -/
def shortest (tie : Tie) (i : Neighbourhood) : Decimal :=
  i.search tie 18 i.ceilExponent

end Neighbourhood

/-- How a number is written. -/
structure Layout where
  /-- The decimal exponents of the first digit that are written out in places. -/
  inPlaces : Int → Bool
  /-- Whether a whole number written in places keeps the fraction `.0`. -/
  keepsFraction : Bool
  /-- Which of two equally near shortest decimals is written. -/
  tie : Tie

/-- Digits written out in places. -/
def Layout.places (l : Layout) (digits : List Char) (exponent : Int) : List Char :=
  let point := digits.length + exponent
  let fraction := if l.keepsFraction then ['.', '0'] else []
  if 0 ≤ exponent then digits ++ List.replicate exponent.toNat '0' ++ fraction
  else if 0 < point then digits.take point.toNat ++ '.' :: digits.drop point.toNat
  else ['0', '.'] ++ List.replicate (-point).toNat '0' ++ digits

/-- Digits written with an exponent, which has a sign in any case. -/
def Layout.scientific (digits : List Char) (first : Int) : List Char :=
  let fraction := if digits.length ≤ 1 then [] else '.' :: digits.drop 1
  let sign := if first < 0 then '-' else '+'
  digits.take 1 ++ fraction ++ ['e', sign] ++ Nat.toDigits 10 first.natAbs

/-- A positive decimal in the given layout. -/
def Layout.decimal (l : Layout) (d : Decimal) : List Char :=
  let digits := Nat.toDigits 10 d.digits
  let first := digits.length + d.exponent - 1
  if l.inPlaces first then l.places digits d.exponent else Layout.scientific digits first

/-- The size of a number in the given layout. -/
def Layout.size (l : Layout) (x : Binary64) : List Char :=
  if x.isInfinite then ['i', 'n', 'f']
  else if x.magnitude = 0 then l.places ['0'] 0
  else l.decimal ((neighbourhood x.magnitude).shortest l.tie)

/-- The text of a number in the given layout. The sign of a zero is written. -/
def text (l : Layout) (x : Binary64) : String :=
  if x.isNaN then "NaN"
  else if x.negative then String.ofList ('-' :: l.size x)
  else String.ofList (l.size x)

end Binary64

end GuardedConfig
