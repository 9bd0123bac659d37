import GuardedConfig.Predicate.Cache
import GuardedConfig.Rule.Basic

/-!
# Evaluators

An evaluator answers a predicate text for a context, or fails. It may keep a state between
questions: the built-in one keeps the cache of compiled predicates, the scripted one the questions
it has been asked.

Results:
* `Cache.evaluate_blank`: a blank text is refused before anything else is looked at.
-/

namespace GuardedConfig

/-- A computation over a state of type `σ` that may end in a rule error. The state is kept even
then. -/
abbrev Attempt (σ : Type) := ExceptT RuleError (StateM σ)

/-- Answers a predicate text for a context. -/
abbrev Evaluator (σ : Type) := String → Option Context → Attempt σ Bool

namespace Cache

/-- The context to evaluate in. A predicate must not be blank and needs a context even if it names
no field. -/
def contextFor (predicate : String) (context : Option Context) : Except RuleError Context :=
  if blankText predicate then .error .invalidPredicate
  else
    match context with
    | some c => .ok c
    | none => .error (.missingContext predicate)

/-- The stored predicate for a text and the shape of a context, compiled at its first use. -/
def compiled (predicate : String) (context : Option Context) : Attempt Cache Artifact :=
  fun cache =>
    match contextFor predicate context with
    | .error e => (.error e, cache)
    | .ok c =>
      let r := cache.getOrCompile predicate (Shape.ofContext c)
      (r.1.mapError (.compilation predicate), r.2)

/-- The built-in evaluator: the predicate is compiled for the shape of the context, unless the
cache has it, and run on the context. -/
def evaluate : Evaluator Cache :=
  fun predicate context cache =>
    match contextFor predicate context with
    | .error e => (.error e, cache)
    | .ok c =>
      match cache.getOrCompile predicate (Shape.ofContext c) with
      | (.error e, cache) => (.error (.compilation predicate e), cache)
      | (.ok artifact, cache) =>
        let answer := artifact.compiled.run (c.flatten.map Prod.snd)
        (answer.mapError fun e => .evaluation predicate (.run e), cache)

theorem evaluate_blank {predicate : String} (h : blankText predicate = true)
    (context : Option Context) (cache : Cache) :
    evaluate predicate context cache = (.error .invalidPredicate, cache) := by
  simp [evaluate, contextFor, h]

end Cache

/-- A table of answers, with the questions asked so far. -/
structure Script where
  answers : List (String × Bool)
  /-- The predicates asked about, in order. -/
  seen : List String

namespace Script

/-- No answers and no questions yet. -/
def empty : Script := ⟨[], []⟩

instance : Inhabited Script := ⟨empty⟩

/-- The evaluator that answers from the table whatever the context. -/
def evaluate : Evaluator Script :=
  fun predicate _ script =>
    let answer :=
      match script.answers.lookup predicate with
      | some b => .ok b
      | none => .error (.evaluation predicate .unscripted)
    (answer, { script with seen := script.seen ++ [predicate] })

end Script

end GuardedConfig
