import Mathlib
import GuardedConfig.Proofs.Value.Order

/-!
# A whole number beside a float

Beside a float a whole number is compared as the double nearest to it. What this changes is told
here by the numbers that the bits denote: the two stand as the exact numbers do, unless the float is
the very double that the whole number is rounded to and is not the whole number itself. Then they
count as equal. It takes a whole number beyond `2 ^ 53`.

Results:
* `compare_nearest`: only the nearest double of a number stands to others otherwise than the number.
* `comparesAs_rounded`: a whole number and a float are compared as two doubles.
* `compare_rounds`: what a comparison answers, and when it is the exact answer.
-/

namespace GuardedConfig

namespace CompareOp

/-- The relation of numbers that an operator asks for. -/
def Relates (op : CompareOp) (p q : ℚ) : Prop :=
  match op with
  | eq => p = q
  | ne => p ≠ q
  | gt => p > q
  | ge => p ≥ q
  | lt => p < q
  | le => p ≤ q

instance (op : CompareOp) (p q : ℚ) : Decidable (op.Relates p q) :=
  match op with
  | .eq => inferInstanceAs (Decidable (p = q))
  | .ne => inferInstanceAs (Decidable (p ≠ q))
  | .gt => inferInstanceAs (Decidable (p > q))
  | .ge => inferInstanceAs (Decidable (p ≥ q))
  | .lt => inferInstanceAs (Decidable (p < q))
  | .le => inferInstanceAs (Decidable (p ≤ q))

variable (op : CompareOp) (p q : ℚ)

theorem relates_converse : op.converse.Relates p q ↔ op.Relates q p := by
  cases op with
  | eq => exact eq_comm
  | ne => exact ne_comm
  | gt | ge | lt | le => exact Iff.rfl

theorem holds_compare : op.holds (compare p q) = decide (op.Relates p q) := by
  rcases lt_trichotomy p q with h | h | h
  · rw [compare_lt_iff_lt.mpr h]
    cases op <;> simp [holds, Relates, h, h.ne, h.le, h.not_gt, h.not_ge]
  · rw [compare_eq_iff_eq.mpr h]
    cases op <;> simp [holds, Relates, h]
  · rw [compare_gt_iff_gt.mpr h]
    cases op <;> simp [holds, Relates, h, h.ne', h.le, h.not_gt, h.not_ge]

end CompareOp

namespace Value

open Binary64 (ofInt)

/-- Two values are compared as two numbers are, from either side and by every operator. -/
def ComparesAs (a b : Value) (p q : ℚ) : Prop :=
  ∀ op, a.compare op b = some (decide (op.Relates p q)) ∧
    b.compare op a = some (decide (op.Relates q p))

theorem comparesAs_of_holds {a b : Value} {p q : ℚ}
    (h : ∀ op, a.compare op b = some (op.holds (Ord.compare p q))) : a.ComparesAs b p q := by
  intro op
  refine ⟨?_, ?_⟩
  · rw [h op, op.holds_compare]
  · rw [compare_swap b a op, h op.converse, op.converse.holds_compare]
    exact congrArg some (decide_eq_decide.mpr (op.relates_converse p q))

theorem compare_int_float (i : Int64) {x : Binary64} (hx : x.isNaN = false) (op : CompareOp) :
    (int i).compare op (float x) =
      some (op.holds (Ord.compare (ofInt i.toInt).toRat x.toRat)) := by
  have horder : (int i).order? (float x) = some (Ord.compare (ofInt i.toInt).toRat x.toRat) := by
    change (ofInt i.toInt).order? x = _
    rw [Binary64.order?_eq, Binary64.isNaN_ofInt, hx]
    rfl
  rw [compare_eq_map (.inl (by simp [kind])), horder, Option.map_some]

theorem comparesAs_rounded (i : Int64) {x : Binary64} (hx : x.isNaN = false) :
    (int i).ComparesAs (float x) (ofInt i.toInt).toRat x.toRat :=
  comparesAs_of_holds (compare_int_float i hx)

/-- A double that is not the nearest one to a number stands to the nearest one as to the number. -/
theorem compare_nearest {q : ℚ} {r x : Binary64} (h : r.IsNearest q) (hne : x.toRat ≠ r.toRat) :
    Ord.compare r.toRat x.toRat = Ord.compare q x.toRat := by
  rcases lt_trichotomy q x.toRat with hlt | heq | hgt
  · have hr : r.toRat < x.toRat := (h.le_of_le hlt.le).lt_of_ne hne.symm
    rw [compare_lt_iff_lt.mpr hlt, compare_lt_iff_lt.mpr hr]
  · have hself : r.toRat = q := h.eq_of_exists ⟨x, heq.symm⟩
    exact absurd (heq.symm.trans hself.symm) hne
  · have hr : x.toRat < r.toRat := (h.ge_of_ge hgt.le).lt_of_ne hne
    rw [compare_gt_iff_gt.mpr hgt, compare_gt_iff_gt.mpr hr]

theorem comparesAs_exact_iff (i : Int64) {x : Binary64} (hx : x.isNaN = false) :
    (int i).ComparesAs (float x) i.toInt x.toRat ↔
      x.toRat ≠ (ofInt i.toInt).toRat ∨ (ofInt i.toInt).toRat = i.toInt := by
  constructor
  · intro hexact
    by_contra! hlost
    have hsame := (hexact .eq).1.symm.trans (comparesAs_rounded i hx .eq).1
    rw [Option.some.injEq, decide_eq_decide] at hsame
    exact hlost.2 (hlost.1.symm.trans (hsame.mpr hlost.1.symm).symm)
  · rintro (hne | heq)
    · refine comparesAs_of_holds fun op => ?_
      rw [compare_int_float i hx, compare_nearest (Binary64.isNearest_ofInt i) hne]
    · rw [← heq]
      exact comparesAs_rounded i hx

theorem toRat_of_compare_eq {i : Int64} {x : Binary64} (hx : x.isNaN = false)
    (h : (int i).compare .eq (float x) = some true) : (ofInt i.toInt).toRat = x.toRat :=
  of_decide_eq_true (Option.some.inj ((comparesAs_rounded i hx .eq).1.symm.trans h))

/-- **A whole number beside a float.** They are compared as the double nearest to the whole number
and the float. The answers are those of the exact numbers unless the float is that double and the
whole number is not; up to `2 ^ 53` this does not happen, and below `2 ^ 53` one float equals one
whole number only. -/
theorem compare_rounds (i : Int64) {x : Binary64} (hx : x.IsFinite) :
    let r := ofInt i.toInt
    r.IsNearest i.toInt ∧
    (int i).ComparesAs (float x) r.toRat x.toRat ∧
    ((int i).ComparesAs (float x) i.toInt x.toRat ↔ x.toRat ≠ r.toRat ∨ r.toRat = i.toInt) ∧
    (|i.toInt| ≤ 2 ^ 53 ∨ |x.toRat| < 2 ^ 53 →
      (int i).ComparesAs (float x) i.toInt x.toRat) ∧
    (|x.toRat| < 2 ^ 53 → ∀ j, (int i).compare .eq (float x) = some true →
      (int j).compare .eq (float x) = some true → i = j) := by
  intro r
  have hnumber := hx.isNaN_eq_false
  have hexact_iff := comparesAs_exact_iff i hnumber
  refine ⟨Binary64.isNearest_ofInt i, comparesAs_rounded i hnumber, hexact_iff, ?_, ?_⟩
  · rintro (hi | hsmall)
    · exact hexact_iff.mpr (.inr (Binary64.ofInt_exact hi))
    · refine hexact_iff.mpr (or_iff_not_imp_left.mpr fun hlost => ?_)
      rw [not_not.mp hlost] at hsmall
      exact Binary64.ofInt_exact (Binary64.abs_le_of_ofInt hsmall)
  · intro hsmall j hi hj
    have exact_of_eq {k : Int64} (hk : (int k).compare .eq (float x) = some true) :
        (k.toInt : ℚ) = x.toRat := by
      have hround := toRat_of_compare_eq hnumber hk
      rw [← hround] at hsmall
      rw [← hround, Binary64.ofInt_exact (Binary64.abs_le_of_ofInt hsmall)]
    exact Int64.toInt_inj.mp (Int.cast_inj.mp ((exact_of_eq hi).trans (exact_of_eq hj).symm))

/-- Two beside two and a half. -/
theorem compare_rounds_of_half :
    let x : Binary64 := ⟨0x4004000000000000⟩
    x.IsFinite ∧ x.toRat = 5 / 2 ∧ |x.toRat| < 2 ^ 53 ∧
      (int 2).ComparesAs (float x) (2 : Int64).toInt x.toRat ∧
      (int 2).compare .lt (float x) = some true := by
  intro x
  have hfinite : x.IsFinite := by decide
  have hvalue : x.toRat = 5 / 2 := by decide +kernel
  have hsmall : |x.toRat| < 2 ^ 53 := by rw [hvalue]; norm_num
  obtain ⟨-, -, -, hexact, -⟩ := compare_rounds 2 hfinite
  have has := hexact (.inr hsmall)
  refine ⟨hfinite, hvalue, hsmall, has, (has .lt).1.trans ?_⟩
  rw [hvalue]
  decide +kernel

/-- Of two neighbours one has a double, which the other is rounded to. -/
theorem not_comparesAs_exact :
    let x : Binary64 := ⟨0x4340000000000000⟩
    x.IsFinite ∧ x.toRat = 9007199254740992 ∧
      ¬(int 9007199254740993).ComparesAs (float x) 9007199254740993 x.toRat ∧
      (int 9007199254740993).compare .eq (float x) = some true ∧
      (int 9007199254740992).compare .eq (float x) = some true := by
  intro x
  have hvalue : x.toRat = 9007199254740992 := by decide +kernel
  have hequal : (int 9007199254740993).compare .eq (float x) = some true := by decide +kernel
  refine ⟨by decide, hvalue, fun hexact => ?_, hequal, by decide +kernel⟩
  have hfalse := of_decide_eq_true (Option.some.inj ((hexact .eq).1.symm.trans hequal))
  rw [hvalue] at hfalse
  exact absurd hfalse (by norm_num [CompareOp.Relates])

end Value

end GuardedConfig
