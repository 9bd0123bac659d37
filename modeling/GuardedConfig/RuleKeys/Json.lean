import GuardedConfig.Json.Read
import GuardedConfig.RuleKeys.Basic

/-!
# Rule keys from documents

A document gives the keys as an object, or as an array of up to three texts in the order marker,
guard, value. What is not given keeps its default. Members of other names are passed over, whatever
they hold. A repeated member, and a value that is no text, makes the document unfit; the fault that
comes first in the text counts.
-/

namespace GuardedConfig

namespace RuleKeys

/-- The three keys, by the names of their members. -/
inductive Member where
  | marker
  | guard
  | value
  deriving DecidableEq

/-- The key that a member name stands for. -/
def Member.ofName? (name : String) : Option Member :=
  if name = "rules_key" then some .marker
  else if name = "when_key" then some .guard
  else if name = "value_key" then some .value
  else none

/-- The keys with one of them given. -/
def put (keys : RuleKeys) (m : Member) (s : String) : RuleKeys :=
  match m with
  | .marker => { keys with marker := s }
  | .guard => { keys with guard := s }
  | .value => { keys with value := s }

/-- The text that a token holds where a text is asked for. -/
def textOf : JsonToken → Except JsonFault String
  | .text content _ => content
  | .scalar (.error f) _ => .error f
  | .scalar (.ok _) _ => .error .unfit
  | .openArray | .openObject => .error .unfit
  | _ => .error .malformed

/-- Reads the value of a member and goes on behind it. -/
def readMember (keys : RuleKeys) (m : Option Member) (ts : List JsonToken) :
    Except JsonFault (RuleKeys × List JsonToken) :=
  match m, ts with
  | some m, t :: ts => (textOf t).map fun s => (keys.put m s, ts)
  | some _, [] => .error .cutOff
  | none, ts => (readValue .skip [] .value ts).map fun r => (keys, r.2)

theorem readMember_length_lt {keys : RuleKeys} {m : Option Member} {ts : List JsonToken}
    {r : RuleKeys × List JsonToken} (h : readMember keys m ts = .ok r) :
    r.2.length < ts.length := by
  simp only [readMember] at h
  split at h
  · rename_i t ts
    cases ht : textOf t with
    | error _ => rw [ht] at h; cases h
    | ok _ => rw [ht] at h; cases h; exact Nat.lt_succ_self _
  · cases h
  · cases hv : readValue .skip [] .value ts with
    | error _ => rw [hv] at h; cases h
    | ok _ => rw [hv] at h; cases h; exact readValue_length_lt hv

/-- Reads the members of an object from a name on. `given` are the keys read before. -/
def readMembers (keys : RuleKeys) (given : List Member) (ts : List JsonToken) :
    Except JsonFault (RuleKeys × List JsonToken) :=
  match ts with
  | .text (.ok name) _ :: ts =>
    let m := Member.ofName? name
    if m.any (given.contains ·) then .error .unfit
    else
      match ts with
      | .colon :: ts =>
        match _h : readMember keys m ts with
        | .error f => .error f
        | .ok (keys, .comma :: ts) => readMembers keys (m.toList ++ given) ts
        | .ok (keys, .closeObject :: ts) => .ok (keys, ts)
        | .ok (_, []) => .error .cutOff
        | .ok (_, _ :: _) => .error .malformed
      | [] => .error .cutOff
      | _ => .error .malformed
  | .text (.error f) _ :: _ => .error f
  | [] => .error .cutOff
  | _ => .error .malformed
termination_by ts.length
decreasing_by
  have := readMember_length_lt _h
  simp only [List.length_cons] at this ⊢
  omega

/-- Reads the items of an array from an item on, for the given keys in order. After the last of
them the array has to end. -/
def readItems (keys : RuleKeys) : List Member → List JsonToken →
    Except JsonFault (RuleKeys × List JsonToken)
  | _, [] => .error .cutOff
  | [], _ :: _ => .error .malformed
  | m :: ms, t :: ts =>
    match textOf t with
    | .error f => .error f
    | .ok s =>
      match ts with
      | .closeArray :: ts => .ok (keys.put m s, ts)
      | .comma :: ts =>
        if ms.isEmpty then .error .malformed else readItems (keys.put m s) ms ts
      | [] => .error .cutOff
      | _ => .error .malformed

/-- Reads the keys at the front of a row of tokens. -/
def readKeys : List JsonToken → Except JsonFault (RuleKeys × List JsonToken)
  | [] => .error .cutOff
  | .openObject :: .closeObject :: ts => .ok ({}, ts)
  | .openObject :: ts => readMembers {} [] ts
  | .openArray :: .closeArray :: ts => .ok ({}, ts)
  | .openArray :: ts => readItems {} [.marker, .guard, .value] ts
  | .text (.error f) _ :: _ => .error f
  | .text (.ok _) _ :: _ => .error .unfit
  | .scalar (.error f) _ :: _ => .error f
  | .scalar (.ok _) _ :: _ => .error .unfit
  | _ => .error .malformed

/-- The keys that a document gives. -/
def load (text : String) : Except JsonFault RuleKeys :=
  match readKeys (jsonTokens text.toList) with
  | .error f => .error f
  | .ok (keys, []) => .ok keys
  | .ok (_, _ :: _) => .error .malformed

end RuleKeys

end GuardedConfig
