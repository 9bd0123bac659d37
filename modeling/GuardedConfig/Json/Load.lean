import GuardedConfig.Json.Read

/-!
# Loading documents

Trees and contexts are loaded from documents whose root is an object.
-/

namespace GuardedConfig

/-- Why a document cannot be loaded. -/
inductive LoadError where
  | json (fault : JsonFault)
  /-- The root is something else than an object. -/
  | notAnObject (found : String)
  deriving DecidableEq

/-- What was found instead of an object, in a message. A text that is no document at all is told by
its fault alone. -/
def LoadError.message : LoadError → Option String
  | json _ => none
  | notAnObject found => some ("expected a JSON object, found " ++ found)

/-- The members of a value that is an object. -/
def Json.members? : Json → Except LoadError (List (String × Json))
  | object members => .ok members
  | j => .error (.notAnObject j.describe)

/-- The value that a text denotes. -/
def Json.load (text : String) : Except LoadError Json :=
  (Json.parse text).mapError .json

end GuardedConfig
