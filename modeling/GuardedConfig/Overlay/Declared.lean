import GuardedConfig.Rule.Basic
import GuardedConfig.RuleKeys.Basic
import GuardedConfig.Text.Digits
import GuardedConfig.Tree.Basic

/-!
# Rules declared in a tree

Below the marker of a rule-bearing node every child is the entry of one rule. Entries whose keys
are all numbers count in the order of the numbers, any others in the order of the tree.

Results:
* `entryKeys_perm`: ordering the entries loses none.
-/

namespace GuardedConfig

/-- The number that the key of an entry spells: decimal digits with an optional plus sign, of at
most 64 bits. -/
def entryNumber? (key : String) : Option Nat :=
  let digits :=
    match key.toList with
    | '+' :: ds => ds
    | ds => ds
  if digits.isEmpty || !digits.all Char.isDigit then none
  else
    let n := digitsValue digits
    if n < wordLimit then some n else none

/-- The keys of entries in the order of their rules. -/
def entryKeys (keys : List String) : List String :=
  if keys.all fun k => (entryNumber? k).isSome then
    keys.mergeSort fun a b => (entryNumber? a).getD 0 ≤ (entryNumber? b).getD 0
  else keys

theorem entryKeys_perm (keys : List String) : (entryKeys keys).Perm keys := by
  simp only [entryKeys]
  split
  · exact List.mergeSort_perm _ _
  · exact List.Perm.refl _

namespace Tree

/-- The rule that the entry under a key declares. -/
def ruleAt (t : Tree) (keys : RuleKeys) (marker key : String) : Except RuleError Rule :=
  let entry := Path.combine marker key
  match t.value (Path.combine entry keys.guard), t.value (Path.combine entry keys.value) with
  | guard, some value => .ok ⟨guard, value⟩
  | none, none => .error (.malformedRuleSet marker (.emptyEntry key keys.guard keys.value))
  | some _, none => .error (.malformedRuleSet marker (.entryWithoutValue key keys.value))

/-- The rules declared below a marker. -/
def ruleSetAt (t : Tree) (keys : RuleKeys) (marker : String) : Except RuleError RuleSet :=
  if (t.value marker).isSome then .error (.malformedRuleSet marker .markerHoldsValue)
  else do
    let rules ← (entryKeys (t.childKeys marker)).mapM (t.ruleAt keys marker)
    .ok ⟨marker, rules⟩

/-- Whether the node at a path bears rules. -/
def bearsRules (t : Tree) (keys : RuleKeys) (path : String) : Bool :=
  (t.childKeys path).contains keys.marker

end Tree

end GuardedConfig
