import GuardedConfig.Predicate.Run

/-!
# Rules, rule sets and their errors

A rule is a candidate value with a guard, the text of a predicate. A rule without a guard, or with
a blank one, is the default of its set. The order of a set is the order in which its guards are
tried. The path of a set says where it was read and goes into messages only.
-/

namespace GuardedConfig

/-- A candidate value with the text of the predicate that has to hold for it. -/
structure Rule where
  guard : Option String
  value : String
  deriving DecidableEq

namespace Rule

/-- The text of the guard, if it is not blank. -/
def predicate (r : Rule) : Option String :=
  r.guard.filter fun g => !blankText g

/-- Whether the rule is a default, one without a guard to try. -/
def isDefault (r : Rule) : Bool :=
  r.predicate.isNone

end Rule

/-- The rules of one node in the order of their declaration. -/
structure RuleSet where
  path : String
  rules : List Rule
  deriving DecidableEq

namespace RuleSet

/-- The number of rules. -/
def length (s : RuleSet) : Nat :=
  s.rules.length

/-- Whether there are no rules. -/
def isEmpty (s : RuleSet) : Bool :=
  s.rules.isEmpty

end RuleSet

/-- What is wrong with the declaration of a rule set. -/
inductive RuleSetFault where
  | twoDefaults
  /-- The marker of the rules has a value of its own. -/
  | markerHoldsValue
  | emptyEntry (key whenKey valueKey : String)
  | entryWithoutValue (key valueKey : String)
  deriving DecidableEq

/-- The message for a badly declared rule set. -/
def RuleSetFault.message : RuleSetFault → String
  | twoDefaults => "more than one default rule"
  | markerHoldsValue => "rules marker holds a scalar instead of rule entries"
  | emptyEntry key whenKey valueKey =>
    "entry '" ++ key ++ "' has neither '" ++ whenKey ++ "' nor '" ++ valueKey ++ "'"
  | entryWithoutValue key valueKey => "entry '" ++ key ++ "' has no '" ++ valueKey ++ "'"

/-- Why a rule-bearing node has no value. -/
inductive RuleError where
  | invalidPredicate
  | missingContext (predicate : String)
  | compilation (predicate : String) (cause : CompileError)
  | evaluation (predicate : String) (fault : EvaluationFault)
  | malformedRuleSet (path : String) (fault : RuleSetFault)
  deriving DecidableEq

/-- The message of a rule error. -/
def RuleError.message : RuleError → String
  | invalidPredicate => "predicate text is empty"
  | missingContext p => "no context available to evaluate '" ++ p ++ "'"
  | compilation p cause => "failed to compile '" ++ p ++ "': " ++ cause.message
  | evaluation p fault => "failed to evaluate '" ++ p ++ "': " ++ fault.message
  | malformedRuleSet path fault =>
    "malformed rule set at '" ++ path ++ "': " ++ fault.message

end GuardedConfig
