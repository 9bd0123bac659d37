import GuardedConfig.Json.Load
import GuardedConfig.Tree.Basic

/-!
# Trees from documents

The members of an object become children in the order of the document, and the items of an array
children with the keys `0`, `1` and so on. Scalars become texts; a null makes a node without value.
-/

namespace GuardedConfig

mutual

/-- The node for a value. -/
def Json.toTree : Json → Tree
  | .null => .empty
  | .bool b => .node (some (if b then "true" else "false")) []
  | .number n => .node (some n.text) []
  | .string s => .node (some s) []
  | .array items => .node none (Json.itemNodes 0 items)
  | .object members => .node none (Json.memberNodes members)

/-- The nodes for the items of an array, with keys that count on from `i`. -/
def Json.itemNodes (i : Nat) : List Json → List (String × Tree)
  | [] => []
  | j :: js => (toString i, j.toTree) :: Json.itemNodes (i + 1) js

/-- The nodes for the members of an object. -/
def Json.memberNodes : List (String × Json) → List (String × Tree)
  | [] => []
  | (name, j) :: ms => (name, j.toTree) :: Json.memberNodes ms

end

namespace Tree

/-- The tree for a document, whose root has to be an object. -/
def ofJson (j : Json) : Except LoadError Tree :=
  j.members?.map fun _ => j.toTree

/-- The tree for the text of a document. -/
def load (text : String) : Except LoadError Tree :=
  (Json.load text).bind ofJson

end Tree

end GuardedConfig
