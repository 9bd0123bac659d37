/-!
# Rows of decimal digits and the numbers they may make

Results:
* `digitsValue_append`: digits behind a row shift it by their number of places.
-/

namespace GuardedConfig

/-- The number that a row of decimal digits denotes, read on from `n`. -/
def digitsFrom (n : Nat) (ds : List Char) : Nat :=
  ds.foldl (fun n d => 10 * n + (d.toNat - '0'.toNat)) n

/-- The number that a row of decimal digits denotes. -/
def digitsValue (ds : List Char) : Nat :=
  digitsFrom 0 ds

/-- The least number that 64 bits do not hold. -/
def wordLimit : Nat := 0x10000000000000000

/-- The least number that 64 bits do not hold when one of them is the sign. -/
def signedLimit : Nat := 0x8000000000000000

theorem digitsFrom_eq (n : Nat) (ds : List Char) :
    digitsFrom n ds = n * Nat.pow 10 ds.length + digitsValue ds := by
  induction ds generalizing n with
  | nil => simp [digitsFrom, digitsValue]
  | cons d ds ih =>
    have h1 := ih (10 * n + (d.toNat - '0'.toNat))
    have h2 := ih (10 * 0 + (d.toNat - '0'.toNat))
    simp only [digitsFrom, digitsValue, List.foldl_cons, List.length_cons, Nat.pow_eq] at h1 h2 ⊢
    rw [h1, h2, Nat.pow_succ]
    simp only [Nat.mul_zero, Nat.zero_add, Nat.add_mul]
    rw [Nat.mul_comm 10 n, Nat.mul_assoc, Nat.mul_comm 10]
    omega

theorem digitsValue_append (ds es : List Char) :
    digitsValue (ds ++ es) = digitsValue ds * Nat.pow 10 es.length + digitsValue es := by
  rw [digitsValue, digitsFrom, List.foldl_append, ← digitsFrom, ← digitsFrom, digitsFrom_eq]
  rfl

end GuardedConfig
