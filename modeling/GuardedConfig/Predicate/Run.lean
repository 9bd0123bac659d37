import GuardedConfig.Predicate.Compile

/-!
# Running a compiled predicate

A compiled predicate is run on the values of a context laid out in the order of its shape. The
connectives are read from the left, and a right side that cannot change the answer is not run. A
comparison without an answer makes the whole run fail.

Results:
* `matchesContext_of_shape`: on a context of its shape a predicate does what its run does.
-/

namespace GuardedConfig

/-- Why a run has no answer. -/
inductive RunError where
  /-- The values do not fill the shape. -/
  | wrongCount (expected found : Nat)
  /-- A condition is not a truth value. -/
  | notBoolean (index : Nat)
  /-- Two values have no answer to a comparison. -/
  | incomparable (left : Value) (op : CompareOp) (right : Value)
  deriving DecidableEq

/-- The message of a failed run. -/
def RunError.message : RunError → String
  | wrongCount expected found =>
    "context has " ++ toString found ++ " fields but the predicate was compiled for "
      ++ toString expected
  | notBoolean index => "field slot " ++ toString index ++ " is not a boolean"
  | incomparable left op right =>
    "cannot compare " ++ left.text ++ " " ++ op.text ++ " " ++ right.text

/-- Why a predicate could not be evaluated. -/
inductive EvaluationFault where
  | run (e : RunError)
  | shape (found compiled : Shape)
  /-- A scripted evaluator has no answer to the predicate. -/
  | unscripted
  deriving DecidableEq

/-- The message of a failed evaluation. -/
def EvaluationFault.message : EvaluationFault → String
  | run e => e.message
  | shape found compiled =>
    "context shape " ++ found.text ++ " does not match compiled shape " ++ compiled.text
  | unscripted => "unscripted"

/-- The value in a place. -/
def Slot.value (values : List Value) : Slot → Except RunError Value
  | literal v => .ok v
  | field i =>
    match values[i]? with
    | some v => .ok v
    | none => .error (.wrongCount (i + 1) values.length)

/-- The answer of a compiled expression on values in the order of the shape. -/
def CompiledExpr.run (values : List Value) : CompiledExpr → Except RunError Bool
  | compare left op right => do
    let l ← left.value values
    let r ← right.value values
    match l.compare op r with
    | some b => .ok b
    | none => .error (.incomparable l op r)
  | field i =>
    match values[i]?.bind Value.asBool with
    | some b => .ok b
    | none => .error (.notBoolean i)
  | const b => .ok b
  | and a b =>
    match a.run values with
    | .ok true => b.run values
    | r => r
  | or a b =>
    match a.run values with
    | .ok false => b.run values
    | r => r
  | not a => (a.run values).map (!·)

namespace CompiledPredicate

/-- The answer of a predicate on values in the order of its shape. -/
def run (p : CompiledPredicate) (values : List Value) : Except RunError Bool :=
  if values.length = p.shape.length then p.body.run values
  else .error (.wrongCount p.shape.length values.length)

/-- The answer of a predicate on a context, which must have the shape it was compiled for. -/
def matchesContext (p : CompiledPredicate) (c : Context) : Except EvaluationFault Bool :=
  let found := Shape.ofContext c
  if found = p.shape then (p.run (c.flatten.map Prod.snd)).mapError .run
  else .error (.shape found p.shape)

theorem matchesContext_of_shape {p : CompiledPredicate} {c : Context}
    (h : Shape.ofContext c = p.shape) :
    p.matchesContext c = (p.body.run (c.flatten.map Prod.snd)).mapError .run := by
  have hl : c.flatten.length = p.shape.length := by rw [← h, Shape.length_ofContext]
  simp [matchesContext, h, run, hl]

end CompiledPredicate

end GuardedConfig
