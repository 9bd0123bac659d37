import GuardedConfig.Value

/-!
# Predicate expressions

The tree that a predicate text stands for: comparisons of fields and literals, bare operands used
as conditions, and the three connectives. Fields are still named by their paths; `text` writes an
expression with a pair of parentheses around every compound.
-/

namespace GuardedConfig

/-- One side of a comparison. -/
inductive Operand where
  | field (path : String)
  | literal (value : Value)
  deriving DecidableEq, Inhabited

/-- An operand as it is written. -/
def Operand.text : Operand → String
  | field path => path
  | literal value => value.text

/-- A predicate. -/
inductive Expr where
  | compare (left : Operand) (op : CompareOp) (right : Operand)
  /-- A bare operand used as a condition. -/
  | operand (o : Operand)
  | and (left right : Expr)
  | or (left right : Expr)
  | not (inner : Expr)
  deriving DecidableEq, Inhabited

namespace Expr

/-- An expression as it is written, every compound in parentheses. -/
def text : Expr → String
  | compare l op r => "(" ++ l.text ++ " " ++ op.text ++ " " ++ r.text ++ ")"
  | operand o => o.text
  | and a b => "(" ++ a.text ++ " AND " ++ b.text ++ ")"
  | or a b => "(" ++ a.text ++ " OR " ++ b.text ++ ")"
  | not a => "(NOT " ++ a.text ++ ")"

end Expr

/-- A field on the left of a comparison to be built. -/
structure FieldRef where
  path : String

namespace FieldRef

/-- The comparison of the field with a value. -/
def compare (f : FieldRef) (op : CompareOp) (v : Value) : Expr :=
  .compare (.field f.path) op (.literal v)

/-- The field is equal to a value. -/
def eq (f : FieldRef) (v : Value) : Expr := f.compare .eq v

/-- The field differs from a value. -/
def ne (f : FieldRef) (v : Value) : Expr := f.compare .ne v

/-- The field is greater than a value. -/
def gt (f : FieldRef) (v : Value) : Expr := f.compare .gt v

/-- The field is at least a value. -/
def ge (f : FieldRef) (v : Value) : Expr := f.compare .ge v

/-- The field is less than a value. -/
def lt (f : FieldRef) (v : Value) : Expr := f.compare .lt v

/-- The field is at most a value. -/
def le (f : FieldRef) (v : Value) : Expr := f.compare .le v

/-- The field itself is the condition. -/
def isTrue (f : FieldRef) : Expr := .operand (.field f.path)

end FieldRef

/-- The field at a path, ready to be compared. -/
def field (path : String) : FieldRef := ⟨path⟩

end GuardedConfig
