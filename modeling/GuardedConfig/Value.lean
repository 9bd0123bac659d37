import GuardedConfig.Binary64.Shortest

/-!
# Values, their kinds and their comparison

A context holds values of four kinds. Two values compare when both are numbers, both are texts, or
both are truth values and the operator is an equality; a float that is not a number compares with
nothing.

Results:
* `compare_bool`: truth values know equality only.
* `compare_eq_map`: any other comparison is read off the order of the two values.
-/

namespace GuardedConfig

/-- A typed leaf of a context, or a literal of a predicate. -/
inductive Value where
  | int (i : Int64)
  | float (x : Binary64)
  | bool (b : Bool)
  | str (s : String)
  deriving DecidableEq, Inhabited

/-- The kind of a value, its type without its content. -/
inductive ValueKind where
  | int
  | float
  | bool
  | str
  deriving DecidableEq

/-- The comparison operators of predicates. -/
inductive CompareOp where
  | eq
  | ne
  | gt
  | ge
  | lt
  | le
  deriving DecidableEq

namespace CompareOp

/-- Whether the operator asks for equality or its opposite. -/
def isEquality : CompareOp → Bool
  | eq | ne => true
  | _ => false

/-- Whether the operator holds of two values that stand in the given order. -/
def holds : CompareOp → Ordering → Bool
  | eq, o => o == .eq
  | ne, o => o != .eq
  | gt, o => o == .gt
  | ge, o => o != .lt
  | lt, o => o == .lt
  | le, o => o != .gt

/-- The operator as it is written. -/
def text : CompareOp → String
  | eq => "=="
  | ne => "!="
  | gt => ">"
  | ge => ">="
  | lt => "<"
  | le => "<="

end CompareOp

namespace ValueKind

/-- Whether values of the kind are numbers. -/
def isNumeric : ValueKind → Bool
  | int | float => true
  | _ => false

/-- Whether values of two kinds can be compared by an operator. -/
def comparableWith (a b : ValueKind) (op : CompareOp) : Bool :=
  match a, b with
  | .str, .str => true
  | .bool, .bool => op.isEquality
  | a, b => a.isNumeric && b.isNumeric

/-- The name of a kind in messages. -/
def text : ValueKind → String
  | int => "int"
  | float => "float"
  | bool => "bool"
  | str => "string"

end ValueKind

namespace Value

/-- The kind of a value. -/
def kind : Value → ValueKind
  | int _ => .int
  | float _ => .float
  | bool _ => .bool
  | str _ => .str

/-- The truth value, of a value that is one. -/
def asBool : Value → Option Bool
  | bool b => some b
  | _ => none

/-- The order of two numbers or of two texts. Whole numbers keep their exact order among
themselves; beside a float a whole number counts as the double nearest to it. Texts are ordered by
code points. -/
def order? : Value → Value → Option Ordering
  | int i, int j => some (compare i.toInt j.toInt)
  | float x, float y => x.order? y
  | int i, float y => (Binary64.ofInt i.toInt).order? y
  | float x, int j => x.order? (Binary64.ofInt j.toInt)
  | str s, str t => some (Ord.compare s t)
  | _, _ => none

/-- The answer of a comparison, if the two values have one. -/
def compare (a : Value) (op : CompareOp) (b : Value) : Option Bool :=
  match a, b, op with
  | bool p, bool q, .eq => some (p == q)
  | bool p, bool q, .ne => some (p != q)
  | a, b, op => (a.order? b).map op.holds

/-- Whether two values are alike as data: of one kind, and equal as numbers where they are floats.
So the two zeros are alike, and what is not a number is not alike itself. -/
def same : Value → Value → Bool
  | float x, float y => x.same y
  | a, b => a = b

/-- Floats in predicates and messages are written in places whatever their size, without a fraction
when they are whole; of two equally near shortest forms the greater is written. -/
def floatLayout : Binary64.Layout where
  inPlaces := fun _ => true
  keepsFraction := false
  tie := .up

/-- A value as it is written in predicates and messages. Texts stand between quotes as they are. -/
def text : Value → String
  | int i => toString i.toInt
  | float x => x.text floatLayout
  | bool b => if b then "true" else "false"
  | str s => "\"" ++ s ++ "\""

theorem kind_eq_bool {v : Value} (h : v.kind = .bool) : ∃ b, v = .bool b := by
  cases v with
  | bool b => exact ⟨b, rfl⟩
  | int _ | float _ | str _ => exact absurd h (by simp [kind])

theorem compare_bool (p q : Bool) (op : CompareOp) :
    (bool p).compare op (bool q) =
      if op.isEquality then some (op.holds (if p = q then .eq else .lt)) else none := by
  cases p <;> cases q <;> cases op <;> rfl

theorem compare_eq_map {a b : Value} (h : a.kind ≠ .bool ∨ b.kind ≠ .bool) (op : CompareOp) :
    a.compare op b = (a.order? b).map op.holds := by
  cases a <;> cases b <;> first | rfl | simp [kind] at h

end Value

end GuardedConfig
