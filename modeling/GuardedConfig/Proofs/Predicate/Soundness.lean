import GuardedConfig.Proofs.Predicate.Meaning

/-!
# Compiled predicates do not go wrong

What compiling checks by the kinds of values is enough for every value of these kinds: running a
compiled predicate on a context of its shape fails in one way only, by coming to a comparison with a
float that is not a number, and then it fails with the first one it comes to.

Results:
* `Value.compare_eq_none_iff`: values of comparable kinds have no answer to a comparison exactly
  when one of them is not a number.
* `Value.isSome_compare_iff`: the check of kinds and the comparison of values agree on all values.
* `Expr.decided_of_meaning`: the meaning of an expression is decided by the comparisons that are
  reached.
* `CompiledPredicate.matchesContext_decided`: a compiled predicate answers on every context of its
  shape, up to what is not a number.
-/

namespace GuardedConfig

namespace Value

/-- Whether the value is a float that is not a number. -/
def isNaN : Value → Bool
  | float x => x.isNaN
  | _ => false

theorem compare_eq_none_iff {v w : Value} {op : CompareOp}
    (h : v.kind.comparableWith w.kind op = true) :
    v.compare op w = none ↔ v.isNaN = true ∨ w.isNaN = true := by
  cases v with
  | int i =>
    cases w with
    | int j => simp [compare, order?, isNaN]
    | float y => simp [compare, order?, Binary64.order?, isNaN, Binary64.isNaN_ofInt]
    | bool _ | str _ => exact absurd h Bool.false_ne_true
  | float x =>
    cases w with
    | int j => simp [compare, order?, Binary64.order?, isNaN, Binary64.isNaN_ofInt]
    | float y =>
      simp only [compare, order?, Binary64.order?, isNaN, Option.map_eq_none_iff]
      cases x.isNaN <;> simp
    | bool _ | str _ => exact absurd h Bool.false_ne_true
  | bool p =>
    cases w with
    | bool q =>
      have hop : op.isEquality = true := h
      simp [compare_bool, hop, isNaN]
    | int _ | float _ | str _ => exact absurd h Bool.false_ne_true
  | str s =>
    cases w with
    | str t => simp [compare, order?, isNaN]
    | int _ | float _ | bool _ => exact absurd h Bool.false_ne_true

/-- Values that have an answer to a comparison are of kinds that compare. -/
theorem comparableWith_of_compare {v w : Value} {op : CompareOp} {b : Bool}
    (h : v.compare op w = some b) : v.kind.comparableWith w.kind op = true := by
  by_cases hkind : v.kind ≠ .bool ∨ w.kind ≠ .bool
  · -- an answer is read off an order, and only numbers and texts have one
    rw [compare_eq_map hkind] at h
    obtain ⟨o, ho, -⟩ := Option.map_eq_some_iff.mp h
    cases v with
    | int _ | float _ =>
      cases w with
      | int _ | float _ => rfl
      | bool _ | str _ => cases ho
    | bool _ => cases w <;> cases ho
    | str _ =>
      cases w with
      | str _ => rfl
      | int _ | float _ | bool _ => cases ho
  · rw [not_or, not_not, not_not] at hkind
    obtain ⟨p, rfl⟩ := kind_eq_bool hkind.1
    obtain ⟨q, rfl⟩ := kind_eq_bool hkind.2
    rw [compare_bool] at h
    exact (Option.ite_none_right_eq_some.mp h).1

/-- **A comparison has an answer exactly when the kinds compare**, up to what is not a number. -/
theorem isSome_compare_iff (v w : Value) (op : CompareOp) :
    (v.compare op w).isSome ↔
      v.kind.comparableWith w.kind op = true ∧ v.isNaN = false ∧ w.isNaN = false := by
  constructor
  · intro hsome
    obtain ⟨b, hb⟩ := Option.isSome_iff_exists.mp hsome
    have hkinds := comparableWith_of_compare hb
    have hnan : ¬(v.isNaN = true ∨ w.isNaN = true) := by
      rw [← compare_eq_none_iff hkinds, hb]
      exact Option.some_ne_none b
    rw [not_or, Bool.not_eq_true, Bool.not_eq_true] at hnan
    exact ⟨hkinds, hnan⟩
  · rintro ⟨hkinds, hv, hw⟩
    rw [Option.isSome_iff_ne_none, ne_eq, compare_eq_none_iff hkinds, hv, hw]
    simp

end Value

/-- The literals of an operand. -/
def Operand.literals : Operand → List Value
  | field _ => []
  | literal v => [v]

theorem Operand.of_valueIn {env : String → Option Value} {P : Value → Prop} {o : Operand}
    {v : Value} (henv : ∀ path v, env path = some v → P v) (hlit : ∀ w ∈ o.literals, P w)
    (h : o.valueIn env = some v) : P v := by
  cases o with
  | field path => exact henv path v h
  | literal w =>
    cases h
    exact hlit v (List.mem_singleton_self v)

/-- Two values with the operator that is to compare them. -/
structure Comparison where
  left : Value
  op : CompareOp
  right : Value

namespace Comparison

/-- Whether one of the two values is not a number. -/
def hasNaN (x : Comparison) : Bool :=
  x.left.isNaN || x.right.isNaN

/-- The error of a comparison without an answer. -/
def fault (x : Comparison) : RunError :=
  .incomparable x.left x.op x.right

/-- An answer is decided by comparisons: it is the error of the first one with what is not a
number, and a truth value if there is none. -/
def Decided (xs : List Comparison) (answer : Except RunError Bool) : Prop :=
  match xs.find? hasNaN with
  | some x => answer = .error x.fault
  | none => ∃ b, answer = .ok b

theorem decided_nil (b : Bool) : Decided [] (.ok b) :=
  ⟨b, rfl⟩

theorem Decided.append_of_ok {xs ys : List Comparison} {b : Bool} {answer : Except RunError Bool}
    (hx : Decided xs (.ok b)) (hy : Decided ys answer) : Decided (xs ++ ys) answer := by
  unfold Decided at hx ⊢
  rw [List.find?_append]
  split at hx
  · cases hx
  · rename_i hnone
    rw [hnone]
    exact hy

theorem Decided.map_not {xs : List Comparison} {answer : Except RunError Bool}
    (h : Decided xs answer) : Decided xs (answer.map (!·)) := by
  unfold Decided at h ⊢
  split at h
  · rw [h]
    rfl
  · obtain ⟨b, rfl⟩ := h
    exact ⟨!b, rfl⟩

theorem decided_answer {v w : Value} {op : CompareOp}
    (h : v.kind.comparableWith w.kind op = true) : Decided [⟨v, op, w⟩] (v.answer op w) := by
  have hnone := Value.compare_eq_none_iff h
  unfold Decided Value.answer
  cases hc : v.compare op w with
  | none =>
    have hnan : hasNaN ⟨v, op, w⟩ = true := by simpa [hasNaN] using hnone.mp hc
    simp [hnan, fault]
  | some b =>
    have hnan : hasNaN ⟨v, op, w⟩ = false := by
      simpa [hasNaN, hc] using hnone
    simp [hnan]

end Comparison

namespace Expr

/-- The comparisons that are made when an expression is read from the left and a right side that
cannot change the answer is left out, in the order in which they are made. -/
def reached (env : String → Option Value) : Expr → List Comparison
  | compare l op r =>
    match l.valueIn env, r.valueIn env with
    | some v, some w => [⟨v, op, w⟩]
    | _, _ => []
  | operand _ => []
  | and a b =>
    match a.meaning env with
    | some (.ok true) => a.reached env ++ b.reached env
    | _ => a.reached env
  | or a b =>
    match a.meaning env with
    | some (.ok false) => a.reached env ++ b.reached env
    | _ => a.reached env
  | not a => a.reached env

/-- The literals of an expression. -/
def literals : Expr → List Value
  | compare l _ r => l.literals ++ r.literals
  | operand o => o.literals
  | and a b => a.literals ++ b.literals
  | or a b => a.literals ++ b.literals
  | not a => a.literals

theorem decided_of_meaning {env : String → Option Value} {e : Expr}
    {answer : Except RunError Bool} (h : e.meaning env = some answer) :
    Comparison.Decided (e.reached env) answer := by
  induction e generalizing answer with
  | compare l op r =>
    unfold meaning at h
    unfold reached
    cases hl : l.valueIn env with
    | none => simp [hl] at h
    | some v =>
      cases hr : r.valueIn env with
      | none => simp [hl, hr] at h
      | some w =>
        simp only [hl, hr] at h ⊢
        split at h
        · rename_i hop
          cases h
          exact Comparison.decided_answer hop
        · cases h
  | operand o =>
    unfold meaning at h
    split at h
    · rename_i b _
      cases h
      exact Comparison.decided_nil b
    · cases h
  | and a b iha ihb | or a b iha ihb =>
    unfold meaning at h
    unfold reached
    split at h
    · rename_i x y ha hb
      cases h
      rw [ha]
      -- the right side is reached when the left answers, and answers what does not stop the reading
      rcases x with err | (_ | _)
      all_goals first
        | exact iha ha
        | exact (iha ha).append_of_ok (ihb hb)
    · cases h
  | not a ih =>
    unfold meaning at h
    split at h
    · rename_i x ha
      cases h
      exact (ih ha).map_not
    · cases h

/-- What holds of every value of the environment and of every literal holds of both sides of every
comparison that is reached. -/
theorem forall_of_mem_reached {env : String → Option Value} {P : Value → Prop} {e : Expr}
    (henv : ∀ path v, env path = some v → P v) (hlit : ∀ v ∈ e.literals, P v) :
    ∀ x ∈ e.reached env, P x.left ∧ P x.right := by
  induction e with
  | compare l op r =>
    intro x hx
    unfold reached at hx
    split at hx
    · rename_i v w hv hw
      cases List.mem_singleton.mp hx
      exact ⟨Operand.of_valueIn henv (fun u hu => hlit u (List.mem_append_left _ hu)) hv,
        Operand.of_valueIn henv (fun u hu => hlit u (List.mem_append_right _ hu)) hw⟩
    · exact absurd hx (by simp)
  | operand o =>
    intro x hx
    exact absurd hx (by simp [reached])
  | and a b iha ihb | or a b iha ihb =>
    have ha := iha fun u hu => hlit u (List.mem_append_left _ hu)
    have hb := ihb fun u hu => hlit u (List.mem_append_right _ hu)
    intro x hx
    unfold reached at hx
    split at hx
    · exact (List.mem_append.mp hx).elim (ha x) (hb x)
    · exact ha x hx
  | not a ih => exact ih hlit

end Expr

namespace CompiledPredicate

theorem ofExpr_of_lower (source : String) {e : Expr} {shape : Shape} {body : CompiledExpr}
    (h : e.lower shape = .ok body) : ofExpr source e shape = .ok ⟨source, shape, body⟩ := by
  rw [ofExpr, h]
  rfl

theorem decided_run {source : String} {e : Expr} {c : Context} {p : CompiledPredicate}
    (h : ofExpr source e (.ofContext c) = .ok p) :
    Comparison.Decided (e.reached c.placed) (p.run c.values) ∧
      p.matchesContext c = (p.run c.values).mapError .run := by
  unfold ofExpr at h
  obtain ⟨body, hlower, hmeaning, -⟩ | ⟨⟨err, hlower⟩, -⟩ := e.lower_cases (c := c)
  · rw [hlower] at h
    cases h
    rw [run_values rfl]
    exact ⟨Expr.decided_of_meaning hmeaning, matchesContext_of_shape rfl⟩
  · rw [hlower] at h
    cases h

/-- **A compiled predicate does not go wrong.** Compiled for the shape of one context and run on any
context of that shape, it fails only at a comparison that is reached and has a value that is not a
number; it then fails with the first of these, and answers if there is none. -/
theorem matchesContext_decided {source : String} {e : Expr} {c₀ c : Context}
    {p : CompiledPredicate} (hp : ofExpr source e (.ofContext c₀) = .ok p)
    (hc : Shape.ofContext c = .ofContext c₀) :
    (match (e.reached c.placed).find? Comparison.hasNaN with
      | some x => p.matchesContext c = .error (.run x.fault)
      | none => ∃ b, p.matchesContext c = .ok b) ∧
    (∀ i, p.run c.values ≠ .error (.notBoolean i)) ∧
    (∀ expected found, p.run c.values ≠ .error (.wrongCount expected found)) ∧
    (∀ found compiled, p.matchesContext c ≠ .error (.shape found compiled)) ∧
    ((∀ f ∈ c.flatten, f.2.isNaN = false) → (∀ v ∈ e.literals, v.isNaN = false) →
      ∃ b, p.matchesContext c = .ok b) := by
  rw [← hc] at hp
  obtain ⟨hdecided, hmatches⟩ := decided_run hp
  unfold Comparison.Decided at hdecided
  rw [hmatches]
  cases hfind : (e.reached c.placed).find? Comparison.hasNaN with
  | some x =>
    rw [hfind] at hdecided
    rw [hdecided]
    refine ⟨rfl, by simp [Comparison.fault], by simp [Comparison.fault],
      by simp [Except.mapError], fun hvalues hlit => ?_⟩
    -- a comparison is decided by what is not a number only if some value is not
    have hplaced path v (hv : c.placed path = some v) : v.isNaN = false :=
      hvalues _ (Context.mem_flatten_of_placed hv)
    obtain ⟨hl, hr⟩ := Expr.forall_of_mem_reached hplaced hlit x (List.mem_of_find?_eq_some hfind)
    have hnan := List.find?_some hfind
    simp [Comparison.hasNaN, hl, hr] at hnan
  | none =>
    rw [hfind] at hdecided
    obtain ⟨b, hrun⟩ := hdecided
    rw [hrun]
    exact ⟨⟨b, rfl⟩, by simp, by simp, by simp [Except.mapError], fun _ _ => ⟨b, rfl⟩⟩

/-- A condition that is false leaves the answer to a comparison, with what is not a number. -/
theorem matchesContext_decided_of_nan :
    ∃ p, ofExpr "open or load < 2" (.or (.operand (.field "open"))
        (.compare (.field "load") .lt (.literal (.int 2))))
        (.ofContext (.ofSettings [("load", .float .zero), ("open", .bool true)])) = .ok p ∧
      p.matchesContext
          (.ofSettings [("load", .float ⟨0x7ff8000000000000⟩), ("open", .bool false)]) =
        .error (.run (.incomparable (.float ⟨0x7ff8000000000000⟩) .lt (.int 2))) := by
  have hlower : Expr.lower
      (.ofContext (.ofSettings [("load", .float .zero), ("open", .bool true)]))
      (.or (.operand (.field "open")) (.compare (.field "load") .lt (.literal (.int 2)))) =
        .ok (.or (.field 1) (.compare (.field 0) .lt (.literal (.int 2)))) := by
    cbv
  have hp := ofExpr_of_lower "open or load < 2" hlower
  refine ⟨_, hp, ?_⟩
  have hdecided := (matchesContext_decided hp
    (c := .ofSettings [("load", .float ⟨0x7ff8000000000000⟩), ("open", .bool false)]) (by cbv)).1
  have hfind : List.find? Comparison.hasNaN (Expr.reached (Context.placed
      (.ofSettings [("load", .float ⟨0x7ff8000000000000⟩), ("open", .bool false)]))
      (.or (.operand (.field "open")) (.compare (.field "load") .lt (.literal (.int 2))))) =
        some ⟨.float ⟨0x7ff8000000000000⟩, .lt, .int 2⟩ := by
    cbv
  rw [hfind] at hdecided
  exact hdecided

end CompiledPredicate

end GuardedConfig
