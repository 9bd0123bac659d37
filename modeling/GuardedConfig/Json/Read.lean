import GuardedConfig.Json.Token

/-!
# Reading a JSON text

Tokens are taken one by one onto a stack of containers that are still open. The first token that
does not fit decides the fault; a text that ends while something is open is cut off. Containers may
be nested 127 deep when they are kept, and to any depth when they are passed over. A repeated member
keeps its first place and takes its last value.

Results:
* `readValue_length_lt`: reading a value takes at least one token.
-/

namespace GuardedConfig

/-- Whether a value is kept or passed over. -/
inductive JsonHandling where
  | keep
  | skip
  deriving DecidableEq

/-- A container that is still open, with what it holds so far, the newest first. -/
inductive JsonFrame where
  | array (items : List Json)
  | object (members : List (String × Json)) (name : String)

/-- What may come next. -/
inductive JsonAwaiting where
  | value
  /-- The first item of an array, or its end. -/
  | firstItem
  /-- The name of a member. -/
  | name
  /-- The name of the first member of an object, or the end of the object. -/
  | firstName
  | colon
  /-- A comma or the end of the container. -/
  | next

/-- The outcome of one token. -/
inductive JsonStep where
  | more (frames : List JsonFrame) (awaiting : JsonAwaiting)
  | done (value : Json)

namespace JsonStep

/-- The number of containers in one another at which keeping them is refused. -/
def nestingLimit : Nat := 128

/-- Puts a complete value into the innermost container. -/
def put (j : Json) : List JsonFrame → JsonStep
  | [] => done j
  | .array items :: fs => more (.array (j :: items) :: fs) .next
  | .object members name :: fs => more (.object ((name, j) :: members) "" :: fs) .next

/-- Opens a container. -/
def openContainer (h : JsonHandling) (f : JsonFrame) (awaiting : JsonAwaiting)
    (fs : List JsonFrame) : Except JsonFault JsonStep :=
  if h = .keep ∧ nestingLimit ≤ fs.length + 1 then .error .malformed
  else .ok (more (f :: fs) awaiting)

/-- What a scalar gives: its content when it is kept, and nothing when it is passed over. -/
def take (h : JsonHandling) (content : Except JsonFault Json) (skipped : Option JsonFault) :
    Except JsonFault Json :=
  match h, skipped with
  | .keep, _ => content
  | .skip, none => .ok .null
  | .skip, some f => .error f

/-- Takes the token that begins a value. -/
def value (h : JsonHandling) (fs : List JsonFrame) : JsonToken → Except JsonFault JsonStep
  | .openArray => openContainer h (.array []) .firstItem fs
  | .openObject => openContainer h (.object [] "") .firstName fs
  | .text content skipped => (take h (content.map .string) skipped).map (put · fs)
  | .scalar content skipped => (take h content skipped).map (put · fs)
  | _ => .error .malformed

/-- Takes the name of a member. -/
def name (h : JsonHandling) : List JsonFrame → JsonToken → Except JsonFault JsonStep
  | .object members _ :: fs, .text content skipped =>
    match h, content, skipped with
    | .keep, .ok s, _ => .ok (more (.object members s :: fs) .colon)
    | .keep, .error f, _ => .error f
    | .skip, _, none => .ok (more (.object members "" :: fs) .colon)
    | .skip, _, some f => .error f
  | _, _ => .error .malformed

/-- Takes one token. -/
def step (h : JsonHandling) (fs : List JsonFrame) (awaiting : JsonAwaiting) (t : JsonToken) :
    Except JsonFault JsonStep :=
  match awaiting, fs, t with
  | .firstItem, .array items :: outer, .closeArray => .ok (put (.array items.reverse) outer)
  | .firstName, .object members _ :: outer, .closeObject =>
    .ok (put (.object members.reverse) outer)
  | .next, .array items :: outer, .closeArray => .ok (put (.array items.reverse) outer)
  | .next, .array _ :: _, .comma => .ok (more fs .value)
  | .next, .object members _ :: outer, .closeObject => .ok (put (.object members.reverse) outer)
  | .next, .object _ _ :: _, .comma => .ok (more fs .name)
  | .next, _, _ => .error .malformed
  | .colon, _, .colon => .ok (more fs .value)
  | .colon, _, _ => .error .malformed
  | .value, _, t => value h fs t
  | .firstItem, _, t => value h fs t
  | .name, _, t => name h fs t
  | .firstName, _, t => name h fs t

end JsonStep

/-- The value at the front of a row of tokens, and the tokens after it. -/
def readValue (h : JsonHandling) (fs : List JsonFrame) (awaiting : JsonAwaiting) :
    List JsonToken → Except JsonFault (Json × List JsonToken)
  | [] => .error .cutOff
  | t :: ts =>
    match JsonStep.step h fs awaiting t with
    | .error f => .error f
    | .ok (.done j) => .ok (j, ts)
    | .ok (.more fs awaiting) => readValue h fs awaiting ts

theorem readValue_length_lt {h : JsonHandling} {fs : List JsonFrame} {awaiting : JsonAwaiting}
    {ts : List JsonToken} {r : Json × List JsonToken}
    (hr : readValue h fs awaiting ts = .ok r) : r.2.length < ts.length := by
  induction ts generalizing fs awaiting with
  | nil => cases hr
  | cons t ts ih =>
    simp only [readValue] at hr
    split at hr
    · cases hr
    · cases hr; exact Nat.lt_succ_self _
    · exact Nat.lt_succ_of_lt (ih hr)

/-- The value that a text denotes, with nothing after it. -/
def Json.parse (text : String) : Except JsonFault Json :=
  match readValue .keep [] .value (jsonTokens text.toList) with
  | .error f => .error f
  | .ok (j, []) => .ok j.merged
  | .ok (_, _ :: _) => .error .malformed

end GuardedConfig
