import GuardedConfig.Context
import GuardedConfig.Json.Load

/-!
# Contexts from documents

Every scalar of a document is set at the path of the member names and array indices that lead to
it, with dots between them, in the order of the document. Nulls and empty containers set nothing.
Whole numbers of 64 bits with a sign stay whole; every other number becomes a double.
-/

namespace GuardedConfig

/-- A number as a field value. -/
def JsonNumber.value : JsonNumber → Value
  | int i =>
    if -(signedLimit : Int) ≤ i ∧ i < signedLimit then .int (Int64.ofInt i)
    else .float (Binary64.ofInt i)
  | float x => .float x

mutual

/-- The settings that a value makes at a path. -/
def Json.settings (path : String) : Json → List (String × Value)
  | .null => []
  | .bool b => [(path, .bool b)]
  | .number n => [(path, n.value)]
  | .string s => [(path, .str s)]
  | .array items => Json.itemSettings path 0 items
  | .object members => Json.memberSettings path members

/-- The settings of the items of an array, with indices that count on from `i`. -/
def Json.itemSettings (path : String) (i : Nat) : List Json → List (String × Value)
  | [] => []
  | j :: js => j.settings (path ++ "." ++ toString i) ++ Json.itemSettings path (i + 1) js

/-- The settings of the members of an object. -/
def Json.memberSettings (path : String) : List (String × Json) → List (String × Value)
  | [] => []
  | (name, j) :: ms => j.settings (path ++ "." ++ name) ++ Json.memberSettings path ms

end

namespace Context

/-- The context for a document, whose root has to be an object. -/
def ofJson (j : Json) : Except LoadError Context :=
  j.members?.map fun ms => ofSettings (ms.flatMap fun m => m.2.settings m.1)

/-- The context for the text of a document. -/
def load (text : String) : Except LoadError Context :=
  (Json.load text).bind ofJson

end Context

end GuardedConfig
