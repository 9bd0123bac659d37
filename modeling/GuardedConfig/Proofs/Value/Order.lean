import Mathlib
import GuardedConfig.Value
import GuardedConfig.Proofs.Binary64.Nearest

/-!
# The laws of comparison

Values of one sort, numbers or texts, are compared by one order, which can be read from either side
and which every operator asks about. Numbers of two kinds are in one chain: beside a float a whole
number counts as the double nearest to it, and rounding keeps the order of whole numbers, although
it may make two of them one.

Results:
* `compare_swap`: a comparison asks the same with the two sides exchanged.
* `compare_negation`: the operators come in pairs of opposite answers.
* `existsUnique_of_order`: of values with an order exactly one of the three orders holds.
* `order?_trans`: what comes before a value comes before all that the value comes before.
* `compare_laws`: these together.
-/

namespace GuardedConfig

namespace CompareOp

/-- The operator that asks the same with the two sides exchanged. -/
def converse : CompareOp → CompareOp
  | eq => eq
  | ne => ne
  | gt => lt
  | ge => le
  | lt => gt
  | le => ge

/-- The operator of the opposite answer. -/
def negation : CompareOp → CompareOp
  | eq => ne
  | ne => eq
  | gt => le
  | ge => lt
  | lt => ge
  | le => gt

theorem holds_swap (op : CompareOp) (o : Ordering) : op.converse.holds o.swap = op.holds o := by
  cases op <;> cases o <;> rfl

theorem holds_negation (op : CompareOp) (o : Ordering) : op.negation.holds o = !op.holds o := by
  cases op <;> cases o <;> rfl

end CompareOp

namespace Value

theorem eq_bool_of_kind {a b : Value} (h : ¬(a.kind ≠ .bool ∨ b.kind ≠ .bool)) :
    ∃ p q, a = bool p ∧ b = bool q := by
  rw [not_or, not_not, not_not] at h
  obtain ⟨p, rfl⟩ := kind_eq_bool h.1
  obtain ⟨q, rfl⟩ := kind_eq_bool h.2
  exact ⟨p, q, rfl, rfl⟩

/-! ## Related operators -/

theorem order?_swap (a b : Value) : b.order? a = (a.order? b).map Ordering.swap := by
  cases a with
  | int i =>
    cases b with
    | int j => exact congrArg some Std.OrientedOrd.eq_swap
    | float y => exact Binary64.order_swap _ y
    | bool _ | str _ => rfl
  | float x =>
    cases b with
    | int j => exact Binary64.order_swap x _
    | float y => exact Binary64.order_swap x y
    | bool _ | str _ => rfl
  | bool p => cases b <;> rfl
  | str s =>
    cases b with
    | str t => exact congrArg some Std.OrientedOrd.eq_swap
    | int _ | float _ | bool _ => rfl

theorem compare_swap (a b : Value) (op : CompareOp) :
    a.compare op b = b.compare op.converse a := by
  by_cases h : a.kind ≠ .bool ∨ b.kind ≠ .bool
  · rw [compare_eq_map h, compare_eq_map h.symm, order?_swap a b, Option.map_map]
    exact congrArg (Option.map · _) (funext fun o => (op.holds_swap o).symm)
  · obtain ⟨p, q, rfl, rfl⟩ := eq_bool_of_kind h
    cases p <;> cases q <;> cases op <;> rfl

theorem compare_negation (a b : Value) (op : CompareOp) :
    a.compare op.negation b = (a.compare op b).map not := by
  by_cases h : a.kind ≠ .bool ∨ b.kind ≠ .bool
  · rw [compare_eq_map h, compare_eq_map h, Option.map_map]
    exact congrArg (Option.map · _) (funext op.holds_negation)
  · obtain ⟨p, q, rfl, rfl⟩ := eq_bool_of_kind h
    cases p <;> cases q <;> cases op <;> rfl

/-! ## One order of two values -/

theorem compare_eq_none_iff_order {a b : Value} (h : a.kind ≠ .bool ∨ b.kind ≠ .bool)
    (op : CompareOp) : a.compare op b = none ↔ a.order? b = none := by
  rw [compare_eq_map h, Option.map_eq_none_iff]

theorem existsUnique_of_order {a b : Value} (h : a.kind ≠ .bool ∨ b.kind ≠ .bool) {o : Ordering}
    (ho : a.order? b = some o) :
    ∃! op, op ∈ [CompareOp.lt, .eq, .gt] ∧ a.compare op b = some true := by
  simp only [compare_eq_map h, ho, Option.map_some, Option.some.injEq]
  cases o with
  | lt => exact ⟨.lt, by decide, fun op => by cases op <;> decide⟩
  | eq => exact ⟨.eq, by decide, fun op => by cases op <;> decide⟩
  | gt => exact ⟨.gt, by decide, fun op => by cases op <;> decide⟩

theorem compare_eq_lt_iff {a b : Value} :
    a.compare .lt b = some true ↔ a.order? b = some .lt := by
  by_cases h : a.kind ≠ .bool ∨ b.kind ≠ .bool
  · rw [compare_eq_map h]
    rcases a.order? b with - | o
    · simp
    · cases o <;> simp [CompareOp.holds]
  · obtain ⟨p, q, rfl, rfl⟩ := eq_bool_of_kind h
    exact ⟨nofun, nofun⟩

/-! ## Chains of values -/

/-- The double that a number counts as beside a float. -/
def double? : Value → Option Binary64
  | int i => some (.ofInt i.toInt)
  | float x => some x
  | _ => none

theorem order?_eq_double {a b : Value} {x y : Binary64} (ha : a.double? = some x)
    (hb : b.double? = some y) (h : ∀ i j, a = int i → b ≠ int j) : a.order? b = x.order? y := by
  cases a with
  | int i =>
    cases ha
    cases b with
    | int j => exact absurd rfl (h i j rfl)
    | float y' => cases hb; rfl
    | bool _ | str _ => cases hb
  | float x' =>
    cases ha
    cases b with
    | int j => cases hb; rfl
    | float y' => cases hb; rfl
    | bool _ | str _ => cases hb
  | bool _ | str _ => cases ha

/-- Two numbers in order have doubles in order. The doubles may be one only of two whole numbers. -/
structure Precedes (a b : Value) (x y : Binary64) : Prop where
  left : a.double? = some x
  right : b.double? = some y
  numbers : x.isNaN = false ∧ y.isNaN = false
  le : x.toRat ≤ y.toRat
  lt : x.toRat < y.toRat ∨ ∃ i j, a = int i ∧ b = int j ∧ i.toInt < j.toInt

theorem precedes_of_order {a b : Value} (h : a.order? b = some .lt) :
    (∃ s t, a = str s ∧ b = str t) ∨ ∃ x y, Precedes a b x y := by
  have hdoubles {x y : Binary64} (ha : a.double? = some x) (hb : b.double? = some y)
      (hxy : x.order? y = some .lt) : Precedes a b x y := by
    obtain ⟨hx, hy, hlt⟩ := Binary64.order?_eq_lt_iff.mp hxy
    exact ⟨ha, hb, ⟨hx, hy⟩, hlt.le, .inl hlt⟩
  cases a with
  | int i =>
    cases b with
    | int j =>
      have hij : i.toInt < j.toInt := compare_lt_iff_lt.mp (Option.some.inj h)
      have hnumbers := And.intro (Binary64.isNaN_ofInt i.toInt) (Binary64.isNaN_ofInt j.toInt)
      exact .inr ⟨_, _, rfl, rfl, hnumbers, Binary64.ofInt_mono hij.le, .inr ⟨i, j, rfl, rfl, hij⟩⟩
    | float y => exact .inr ⟨_, _, hdoubles rfl rfl h⟩
    | bool _ | str _ => cases h
  | float x =>
    cases b with
    | int j => exact .inr ⟨_, _, hdoubles rfl rfl h⟩
    | float y => exact .inr ⟨_, _, hdoubles rfl rfl h⟩
    | bool _ | str _ => cases h
  | bool p => cases h
  | str s =>
    cases b with
    | str t => exact .inl ⟨s, t, rfl, rfl⟩
    | int _ | float _ | bool _ => cases h

theorem Precedes.trans {a b c : Value} {x y z : Binary64} (hab : Precedes a b x y)
    (hbc : Precedes b c y z) : a.order? c = some .lt := by
  by_cases hstrict : x.toRat < z.toRat
  · by_cases hints : ∃ i k, a = int i ∧ c = int k
    · obtain ⟨i, k, rfl, rfl⟩ := hints
      cases hab.left
      cases hbc.right
      refine congrArg some (compare_lt_iff_lt.mpr ?_)
      by_contra hki
      exact hstrict.not_ge (Binary64.ofInt_mono (not_lt.mp hki))
    · rw [order?_eq_double hab.left hbc.right fun i k ha hc => hints ⟨i, k, ha, hc⟩,
        Binary64.order?_eq_lt_iff]
      exact ⟨hab.numbers.1, hbc.numbers.2, hstrict⟩
  · -- one double for all three leaves whole numbers only, and these are compared exactly
    obtain ⟨i, j, rfl, rfl, hij⟩ :=
      hab.lt.resolve_left fun h => hstrict (h.trans_le hbc.le)
    obtain ⟨j', k, hj, rfl, hjk⟩ :=
      hbc.lt.resolve_left fun h => hstrict (hab.le.trans_lt h)
    cases hj
    exact congrArg some (compare_lt_iff_lt.mpr (hij.trans hjk))

theorem order?_trans {a b c : Value} (hab : a.order? b = some .lt) (hbc : b.order? c = some .lt) :
    a.order? c = some .lt := by
  obtain ⟨s, t, rfl, rfl⟩ | ⟨x, y, hxy⟩ := precedes_of_order hab
  · obtain ⟨t', u, ht, rfl⟩ | ⟨y', z, hyz⟩ := precedes_of_order hbc
    · cases ht
      exact congrArg some (Std.TransCmp.lt_trans (Option.some.inj hab) (Option.some.inj hbc))
    · cases hyz.left
  · obtain ⟨t, u, rfl, rfl⟩ | ⟨y', z, hyz⟩ := precedes_of_order hbc
    · cases hxy.right
    · cases hxy.right.symm.trans hyz.left
      exact hxy.trans hyz

/-- **The laws of comparison.** The order operators with exchanged sides, the opposite operators,
one of three orders for values that are compared at all, and chains, whole numbers and floats mixed
freely. -/
theorem compare_laws (a b c : Value) :
    (a.compare .lt b = b.compare .gt a ∧ a.compare .le b = b.compare .ge a ∧
      a.compare .eq b = b.compare .eq a ∧ a.compare .ne b = (a.compare .eq b).map not) ∧
    (a.kind ≠ .bool ∨ b.kind ≠ .bool →
      a.compare .ge b = (a.compare .lt b).map not ∧ a.compare .le b = (a.compare .gt b).map not ∧
      (∀ op op', a.compare op b = none ↔ a.compare op' b = none) ∧
      ∀ op, a.compare op b ≠ none →
        ∃! op', op' ∈ [CompareOp.lt, .eq, .gt] ∧ a.compare op' b = some true) ∧
    (a.compare .lt b = some true → b.compare .lt c = some true → a.compare .lt c = some true) := by
  refine ⟨?_, fun h => ⟨compare_negation a b .lt, compare_negation a b .gt, ?_, ?_⟩, ?_⟩
  · exact ⟨compare_swap a b .lt, compare_swap a b .le, compare_swap a b .eq,
      compare_negation a b .eq⟩
  · intro op op'
    rw [compare_eq_none_iff_order h, compare_eq_none_iff_order h]
  · intro op hop
    obtain ⟨o, ho⟩ := Option.ne_none_iff_exists'.mp fun hnone =>
      hop ((compare_eq_none_iff_order h op).mpr hnone)
    exact existsUnique_of_order h ho
  · simp only [compare_eq_lt_iff]
    exact order?_trans

/-- A chain of a whole number, a float and a whole number that has no double of its own. -/
theorem compare_laws_of_mixed_chain :
    let a := int 9007199254740992
    let b := float ⟨0x4340000000000001⟩
    let c := int 9007199254740995
    (a.kind ≠ .bool ∨ b.kind ≠ .bool) ∧ a.compare .lt b = some true ∧ b.compare .lt c = some true ∧
      a.compare .lt c = some true ∧ a.compare .ge b = some false ∧
      ∃! op, op ∈ [CompareOp.lt, .eq, .gt] ∧ a.compare op b = some true := by
  intro a b c
  have hkind : a.kind ≠ .bool ∨ b.kind ≠ .bool := .inl (by decide)
  have hab : a.compare .lt b = some true := by decide +kernel
  have hbc : b.compare .lt c = some true := by decide +kernel
  obtain ⟨-, hlaws, htrans⟩ := compare_laws a b c
  obtain ⟨hge, -, -, hunique⟩ := hlaws hkind
  refine ⟨hkind, hab, hbc, htrans hab hbc, ?_, hunique .lt ?_⟩
  · rw [hge, hab]
    rfl
  · rw [hab]
    exact Option.some_ne_none _

end Value

end GuardedConfig
