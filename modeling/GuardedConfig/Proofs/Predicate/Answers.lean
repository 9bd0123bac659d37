import GuardedConfig.Proofs.Predicate.Evaluation
import GuardedConfig.Proofs.Predicate.Reading
import GuardedConfig.Proofs.Predicate.Soundness

/-!
# What the built-in evaluator can fail with

The literals of a text that parses are numbers, truth values and texts: no spelling writes what is
not a number. So a text that compiles for the shape of a context whose floats are all numbers comes
to no comparison that has no answer, and running it answers.

Results:
* `Grammar.literals_of_parse`: no literal of a text that parses is not a number.
* `CompiledPredicate.run_answers`: a predicate that compiles for a context of numbers answers in it.
* `Cache.freshAnswer_cases`: the outcomes of the evaluator on a text that is not blank.
-/

namespace GuardedConfig

namespace Grammar

/-- An operand that can be written is no literal that is not a number. -/
theorem literals_of_begins {o : Operand} {cs rest : List Char} (h : Begins (.operand o) cs rest) :
    ∀ v ∈ o.literals, v.isNaN = false := by
  obtain ⟨-, w, -, hspells, -⟩ := h
  intro v hv
  cases hspells with
  | field _ => cases hv
  | bool _ | str _ | int _ _ =>
    rw [List.mem_singleton.mp hv]
    rfl
  | float _ _ =>
    rw [List.mem_singleton.mp hv]
    exact Binary64.isNaN_ofRatio _ _ _

theorem literals_of_derives {l : Level} {cs rest : List Char} {e : Expr}
    (h : Derives l cs e rest) : ∀ v ∈ e.literals, v.isNaN = false := by
  induction h with
  | or _ _ _ iha ihb | and _ _ _ iha ihb =>
    intro v hv
    exact (List.mem_append.mp hv).elim (iha v) (ihb v)
  | ofConj _ ih | ofUnary _ ih | ofPrimary _ ih | not _ _ ih | paren _ _ _ ih => exact ih
  | operand h => exact literals_of_begins h
  | compare hl _ hr =>
    intro v hv
    exact (List.mem_append.mp hv).elim (literals_of_begins hl v) (literals_of_begins hr v)

theorem literals_of_parse {text : String} {e : Expr} (h : parse text = .ok e) :
    ∀ v ∈ e.literals, v.isNaN = false := by
  unfold parse at h
  split at h
  · rename_i hread
    cases h
    obtain ⟨rest, hderives, -⟩ := renders_of_parseLexemes hread
    exact literals_of_derives hderives
  · cases h

end Grammar

/-- A context whose floats are all numbers. -/
def Context.AllNumbers (c : Context) : Prop :=
  ∀ f ∈ c.flatten, f.2.isNaN = false

namespace CompiledPredicate

/-- **A predicate that compiles for a context of numbers answers in it.** -/
theorem run_answers {text : String} {c : Context} {p : CompiledPredicate} (hc : c.AllNumbers)
    (h : compile text (.ofContext c) = .ok p) : ∃ b, p.run c.values = .ok b := by
  cases hparse : parse text with
  | error err =>
    rw [compile_of_parse_error hparse] at h
    cases h
  | ok e =>
    simp only [compile, hparse] at h
    obtain ⟨hdecided, -⟩ := decided_run h
    unfold Comparison.Decided at hdecided
    split at hdecided
    · -- the comparison that has no answer would have a value that is not a number
      rename_i x hfind
      have hplaced path v (hv : c.placed path = some v) : v.isNaN = false :=
        hc _ (Context.mem_flatten_of_placed hv)
      obtain ⟨hl, hr⟩ := Expr.forall_of_mem_reached hplaced (Grammar.literals_of_parse hparse) x
        (List.mem_of_find?_eq_some hfind)
      have hnan := List.find?_some hfind
      simp [Comparison.hasNaN, hl, hr] at hnan
    · exact hdecided

end CompiledPredicate

namespace Cache

theorem freshAnswer_none {predicate : String} (h : blankText predicate = false) :
    freshAnswer predicate none = .error (.missingContext predicate) := by
  simp [freshAnswer, contextFor, h]

/-- On a context of numbers a text that is not blank answers, or does not compile. -/
theorem freshAnswer_cases {predicate : String} (h : blankText predicate = false) {c : Context}
    (hc : c.AllNumbers) :
    (∃ b, freshAnswer predicate (some c) = .ok b) ∨
      ∃ cause, freshAnswer predicate (some c) = .error (.compilation predicate cause) := by
  cases hcompile : CompiledPredicate.compile predicate (.ofContext c) with
  | error cause => exact .inr ⟨cause, by simp [freshAnswer, contextFor, h, hcompile]⟩
  | ok p =>
    obtain ⟨b, hb⟩ := CompiledPredicate.run_answers hc hcompile
    exact .inl ⟨b, by simp [freshAnswer, contextFor, h, hcompile, hb, Except.mapError]⟩

/-- Answering keeps a cache one that comes about by asking for predicates. -/
theorem Reachable.snd_evaluate {cache : Cache} (h : cache.Reachable) (predicate : String)
    (context : Option Context) : (evaluate predicate context cache).2.Reachable := by
  unfold evaluate
  cases contextFor predicate context with
  | error e => exact h
  | ok c =>
    have hasked := h.getOrCompile predicate (.ofContext c)
    revert hasked
    simp only
    rcases cache.getOrCompile predicate (.ofContext c) with ⟨_ | a, cache'⟩ <;> exact id

end Cache

end GuardedConfig
