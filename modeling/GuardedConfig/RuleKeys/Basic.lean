/-!
# The keys of rule declarations

A node bears rules when it has a child under the marker key. Below the marker stands one entry for
each rule, with its guard and its value under two more keys.
-/

namespace GuardedConfig

/-- The keys under which rules are declared. -/
structure RuleKeys where
  /-- The key of the marker, below which the entries stand. -/
  marker : String := "_rules"
  /-- The key of the guard in an entry. -/
  guard : String := "when"
  /-- The key of the value in an entry. -/
  value : String := "value"
  deriving DecidableEq, Inhabited

end GuardedConfig
