import GuardedConfig.Binary64.Shortest

/-!
# JSON values

The values of the data format that trees, contexts and options are loaded from. Whole numbers of
at most 64 bits stay whole; every other number is a double. The members of an object keep their
order.

Results:
* `putMember_names`: writing a member adds its name at the end, or leaves the names as they are.
-/

namespace GuardedConfig

/-- A number: whole, when its text is a whole number of at most 64 bits, else a double. -/
inductive JsonNumber where
  | int (i : Int)
  | float (x : Binary64)
  deriving DecidableEq

/-- A value of the data format. -/
inductive Json where
  | null
  | bool (b : Bool)
  | number (n : JsonNumber)
  | string (s : String)
  | array (items : List Json)
  | object (members : List (String × Json))
  deriving Inhabited

/-- Why a text is no value of the kind asked for. -/
inductive JsonFault where
  /-- The text breaks the rules of the format. -/
  | malformed
  /-- The text ends where more was needed. -/
  | cutOff
  /-- The text is well formed, but not of the form asked for. -/
  | unfit
  deriving DecidableEq

namespace JsonNumber

/-- Doubles keep a fraction and are written in places from `1e-5` up to, not including, `1e16`; of
two equally near shortest forms the even one is written. -/
def floatLayout : Binary64.Layout where
  inPlaces := fun e => -5 ≤ e && e < 16
  keepsFraction := true
  tie := .toEven

/-- A number as it is written. -/
def text : JsonNumber → String
  | int i => toString i
  | float x => x.text floatLayout

end JsonNumber

namespace Json

/-- What a value is, in messages. -/
def describe : Json → String
  | null => "null"
  | bool _ => "a boolean"
  | number _ => "a number"
  | string _ => "a string"
  | array _ => "an array"
  | object _ => "an object"

/-- The members with one written. A name that is there already keeps its place. -/
def putMember (name : String) (value : Json) :
    List (String × Json) → List (String × Json)
  | [] => [(name, value)]
  | (n, v) :: ms => if n = name then (n, value) :: ms else (n, v) :: putMember name value ms

/-- The members written one after the other, so that of a repeated one the last value counts. -/
def mergeMembers (ms : List (String × Json)) : List (String × Json) :=
  ms.foldl (fun acc m => putMember m.1 m.2 acc) []

mutual

/-- The value with the repeated members of all its objects merged. -/
def merged : Json → Json
  | array items => array (mergedItems items)
  | object members => object (mergeMembers (mergedMembers members))
  | j => j

/-- The items with all their objects merged. -/
def mergedItems : List Json → List Json
  | [] => []
  | j :: js => j.merged :: mergedItems js

/-- The members with the objects of their values merged. -/
def mergedMembers : List (String × Json) → List (String × Json)
  | [] => []
  | (name, j) :: ms => (name, j.merged) :: mergedMembers ms

end

theorem putMember_names (name : String) (value : Json) (ms : List (String × Json)) :
    (putMember name value ms).map Prod.fst =
      if name ∈ ms.map Prod.fst then ms.map Prod.fst else ms.map Prod.fst ++ [name] := by
  induction ms with
  | nil => simp [putMember]
  | cons m ms ih =>
    simp only [putMember]
    split
    · rename_i h
      simp [h]
    · rename_i h
      simp only [List.map_cons, ih, List.mem_cons, Ne.symm h, false_or]
      split <;> simp

end Json

end GuardedConfig
