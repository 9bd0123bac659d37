import GuardedConfig.Predicate.Parse
import GuardedConfig.Shape

/-!
# Predicates compiled for a shape

Compiling checks an expression against the shape of the contexts it will be run on: every field
must exist, both sides of a comparison must be of comparable kinds, and a bare operand must be a
truth value. The result refers to fields by their places in the shape. Of several faults the
leftmost is reported; within a comparison a missing field comes before a clash of kinds.

Results:
* `shape_of_compile`: a compiled predicate remembers the text and the shape it was made from.
-/

namespace GuardedConfig

/-- A side of a compiled comparison: the place of a field, or a literal. -/
inductive Slot where
  | field (index : Nat)
  | literal (value : Value)
  deriving DecidableEq

/-- A predicate with its fields replaced by places. -/
inductive CompiledExpr where
  | compare (left : Slot) (op : CompareOp) (right : Slot)
  | field (index : Nat)
  | const (b : Bool)
  | and (left right : CompiledExpr)
  | or (left right : CompiledExpr)
  | not (inner : CompiledExpr)
  deriving DecidableEq

/-- Why a predicate cannot be compiled for a shape. -/
inductive CompileError where
  | parse (e : ParseError)
  | undefinedField (path : String) (shape : Shape)
  | typeMismatch (left : ValueKind) (op : CompareOp) (right : ValueKind)
  | notBoolean (operand : Operand) (kind : ValueKind)
  deriving DecidableEq

/-- The message of a compile error. -/
def CompileError.message : CompileError → String
  | parse e => e.message
  | undefinedField path shape =>
    "undefined field '" ++ path ++ "' in context shape " ++ shape.text
  | typeMismatch left op right =>
    "cannot compare " ++ left.text ++ " " ++ op.text ++ " " ++ right.text
  | notBoolean operand kind =>
    "'" ++ operand.text ++ "' is " ++ kind.text ++ ", not a boolean condition"

/-- The place of an operand and its kind. -/
def Operand.place (shape : Shape) : Operand → Except CompileError (Slot × ValueKind)
  | literal v => .ok (.literal v, v.kind)
  | field path =>
    match shape.indexOf path with
    | none => .error (.undefinedField path shape)
    | some i =>
      match shape.kindAt i with
      | none => .error (.undefinedField path shape)
      | some kind => .ok (.field i, kind)

/-- An operand of kind boolean as a condition. -/
def Slot.condition : Slot → CompiledExpr
  | field i => .field i
  | literal v => .const (v.asBool.getD false)

/-- The expression with its operands placed, if it is well typed for the shape. -/
def Expr.lower (shape : Shape) : Expr → Except CompileError CompiledExpr
  | compare left op right => do
    let (l, lk) ← left.place shape
    let (r, rk) ← right.place shape
    if lk.comparableWith rk op then .ok (.compare l op r) else .error (.typeMismatch lk op rk)
  | operand o => do
    let (slot, kind) ← o.place shape
    if kind = .bool then .ok slot.condition else .error (.notBoolean o kind)
  | and a b => do
    let a ← a.lower shape
    let b ← b.lower shape
    .ok (.and a b)
  | or a b => do
    let a ← a.lower shape
    let b ← b.lower shape
    .ok (.or a b)
  | not a => do
    let a ← a.lower shape
    .ok (.not a)

/-- A predicate compiled for one shape, with the text it came from. -/
structure CompiledPredicate where
  source : String
  shape : Shape
  body : CompiledExpr
  deriving DecidableEq

namespace CompiledPredicate

/-- An expression compiled for a shape. The source is kept for messages. -/
def ofExpr (source : String) (e : Expr) (shape : Shape) : Except CompileError CompiledPredicate :=
  (e.lower shape).map fun body => ⟨source, shape, body⟩

/-- A text compiled for a shape. -/
def compile (source : String) (shape : Shape) : Except CompileError CompiledPredicate :=
  match parse source with
  | .ok e => ofExpr source e shape
  | .error e => .error (.parse e)

/-- A compiled predicate in messages. -/
def text (p : CompiledPredicate) : String :=
  p.source ++ " for " ++ p.shape.text

theorem shape_of_compile {source : String} {shape : Shape} {p : CompiledPredicate}
    (h : compile source shape = .ok p) : p.source = source ∧ p.shape = shape := by
  simp only [compile] at h
  split at h
  · rename_i e _
    simp only [ofExpr] at h
    cases hl : e.lower shape with
    | error _ => rw [hl] at h; cases h
    | ok body => rw [hl] at h; cases h; exact ⟨rfl, rfl⟩
  · cases h

end CompiledPredicate

end GuardedConfig
