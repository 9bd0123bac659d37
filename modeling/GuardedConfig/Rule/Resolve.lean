import GuardedConfig.Rule.Evaluator

/-!
# Choosing a rule

The guards of a rule set are tried in order, and the first rule whose guard holds gives the value.
Later guards are not tried. A guard that fails ends the choice with its error: it is not passed
over. If no guard holds, the default gives the value, wherever in the set it stands.

Results:
* `resolve_of_two_defaults`: a set with two defaults is refused without a single question.
-/

namespace GuardedConfig

variable {σ : Type}

/-- The value of the first rule whose guard holds. Rules without a guard are passed over. -/
def firstMatch (ask : Evaluator σ) (context : Option Context) :
    List Rule → Attempt σ (Option String)
  | [] => pure none
  | r :: rs =>
    match r.predicate with
    | none => firstMatch ask context rs
    | some p => do
      if ← ask p context then pure (some r.value) else firstMatch ask context rs

/-- The value that a rule set gives in a context, if it gives one. -/
def RuleSet.resolve (s : RuleSet) (context : Option Context) (ask : Evaluator σ) :
    Attempt σ (Option String) :=
  match s.rules.filter Rule.isDefault with
  | _ :: _ :: _ => throw (.malformedRuleSet s.path .twoDefaults)
  | defaults => do
    match ← firstMatch ask context s.rules with
    | some v => pure (some v)
    | none => pure (defaults.head?.map Rule.value)

theorem resolve_of_two_defaults {s : RuleSet} {a b : Rule} {rest : List Rule}
    (h : s.rules.filter Rule.isDefault = a :: b :: rest) (context : Option Context)
    (ask : Evaluator σ) (state : σ) :
    s.resolve context ask state = (.error (.malformedRuleSet s.path .twoDefaults), state) := by
  simp only [RuleSet.resolve, h]
  rfl

end GuardedConfig
