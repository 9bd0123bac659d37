import GuardedConfig.Proofs.Predicate.Meaning
import GuardedConfig.Rule.Evaluator

/-!
# Evaluating predicates through a cache

The built-in evaluator takes a predicate from its cache if it is there. A cache that has only been
asked for predicates holds nothing but what compiling would give again, so what it holds never
shows: the evaluator answers what the text means in the context.

Results:
* `Cache.Reachable.sound`: whatever has been asked for, every stored predicate is what compiling
  its text for its shape gives.
* `Cache.Sound.fst_evaluate`: on such a cache the evaluator answers as a fresh one.
* `Cache.evaluate_eq_meaning`: the evaluator agrees with the meaning of the parsed text.
-/

namespace GuardedConfig

namespace Cache

/-- Every stored predicate is what compiling its text for its shape gives. -/
def Sound (cache : Cache) : Prop :=
  ∀ e ∈ cache.entries, CompiledPredicate.compile e.1.predicate e.1.shape = .ok e.2.compiled

/-- The caches that come about by asking for predicates, whichever and in whatever order. -/
inductive Reachable : Cache → Prop
  | empty : Reachable empty
  | getOrCompile {cache : Cache} (predicate : String) (shape : Shape) :
      Reachable cache → Reachable (cache.getOrCompile predicate shape).2

theorem sound_empty : Sound empty := by
  intro e he
  exact absurd he (by simp [empty])

theorem Sound.compile_of_get? {cache : Cache} (h : cache.Sound) {key : CacheKey} {a : Artifact}
    (hget : cache.get? key = some a) :
    CompiledPredicate.compile key.predicate key.shape = .ok a.compiled := by
  unfold get? at hget
  obtain ⟨⟨k, b⟩, hfind, rfl⟩ := Option.map_eq_some_iff.mp hget
  have hk : k = key := by simpa using List.find?_some hfind
  subst hk
  exact h (k, b) (List.mem_of_find?_eq_some hfind)

theorem Sound.store {cache : Cache} (h : cache.Sound) {key : CacheKey} {p : CompiledPredicate}
    (hp : CompiledPredicate.compile key.predicate key.shape = .ok p) :
    (cache.store key p).Sound := by
  intro e he
  rcases List.mem_append.mp he with he | he
  · exact h e he
  · cases List.mem_singleton.mp he
    exact hp

/-- Asking a sound cache gives what compiling gives. -/
theorem Sound.map_getOrCompile {cache : Cache} (h : cache.Sound) (predicate : String)
    (shape : Shape) :
    (cache.getOrCompile predicate shape).1.map Artifact.compiled =
      CompiledPredicate.compile predicate shape := by
  unfold Cache.getOrCompile
  cases hget : cache.get? ⟨predicate, shape⟩ with
  | some a => exact (h.compile_of_get? hget).symm
  | none => cases CompiledPredicate.compile predicate shape <;> rfl

theorem Sound.getOrCompile {cache : Cache} (h : cache.Sound) (predicate : String)
    (shape : Shape) : (cache.getOrCompile predicate shape).2.Sound := by
  unfold Cache.getOrCompile
  cases cache.get? ⟨predicate, shape⟩ with
  | some a => exact h
  | none =>
    cases hc : CompiledPredicate.compile predicate shape with
    | ok p => exact h.store hc
    | error e => exact h

theorem Reachable.sound {cache : Cache} (h : Reachable cache) : cache.Sound := by
  induction h with
  | empty => exact sound_empty
  | getOrCompile predicate shape _ ih => exact ih.getOrCompile predicate shape

/-! ## The evaluator -/

/-- What an evaluator that remembers nothing answers. -/
def freshAnswer (predicate : String) (context : Option Context) : Except RuleError Bool :=
  match contextFor predicate context with
  | .error e => .error e
  | .ok c =>
    match CompiledPredicate.compile predicate (.ofContext c) with
    | .error e => .error (.compilation predicate e)
    | .ok p => (p.run c.values).mapError fun e => .evaluation predicate (.run e)

theorem Sound.fst_evaluate {cache : Cache} (h : cache.Sound) (predicate : String)
    (context : Option Context) :
    (evaluate predicate context cache).1 = freshAnswer predicate context := by
  unfold evaluate freshAnswer
  cases contextFor predicate context with
  | error e => rfl
  | ok c =>
    have hmap := h.map_getOrCompile predicate (.ofContext c)
    simp only [← hmap]
    rcases cache.getOrCompile predicate (.ofContext c) with ⟨_ | a, cache'⟩ <;> rfl

theorem Sound.snd_evaluate {cache : Cache} (h : cache.Sound) (predicate : String)
    (context : Option Context) : Sound (evaluate predicate context cache).2 := by
  unfold evaluate
  cases contextFor predicate context with
  | error e => exact h
  | ok c =>
    have hsound := h.getOrCompile predicate (.ofContext c)
    revert hsound
    simp only
    rcases cache.getOrCompile predicate (.ofContext c) with ⟨_ | a, cache'⟩ <;> exact id

theorem Sound.snd_compiled {cache : Cache} (h : cache.Sound) (predicate : String)
    (context : Option Context) : Sound (compiled predicate context cache).2 := by
  unfold compiled
  cases contextFor predicate context with
  | error e => exact h
  | ok c => exact h.getOrCompile predicate (.ofContext c)

end Cache

namespace CompiledPredicate

theorem compile_of_parse_error {text : String} {shape : Shape} {err : ParseError}
    (h : parse text = .error err) : compile text shape = .error (.parse err) := by
  simp [compile, h]

/-- A predicate compiled for the shape of a context, run on the values of the context, answers what
its text means in what stands in the places of the context. -/
theorem compile_cases {text : String} {e : Expr} (h : parse text = .ok e) (c : Context) :
    (∃ p, compile text (.ofContext c) = .ok p ∧ p.body.Mirrors c c.placed e ∧
      e.meaning c.placed = some (p.run c.values)) ∨
    (∃ err, compile text (.ofContext c) = .error err) ∧ e.meaning c.placed = none := by
  simp only [compile, h, ofExpr]
  obtain ⟨body, hlower, hmeaning, hmirrors⟩ | ⟨⟨err, hlower⟩, hmeaning⟩ := e.lower_cases (c := c)
  · refine .inl ⟨⟨text, .ofContext c, body⟩, by simp [hlower, Except.map], hmirrors, ?_⟩
    rw [run_values rfl]
    exact hmeaning
  · exact .inr ⟨⟨err, by simp [hlower, Except.map]⟩, hmeaning⟩

end CompiledPredicate

namespace Cache

/-- **The evaluator agrees with the meaning of predicates.** Whatever the cache has been asked for
before, on a regular context a blank text is refused, a text that does not parse or is not well
typed in the context does not compile, and any other text answers what it means where every field
has the value that its path leads to. The compiled form of the text has in each place the field
that is named there. -/
theorem evaluate_eq_meaning {cache : Cache} (hcache : Reachable cache) {c : Context}
    (hc : c.Regular) (text : String) :
    (blankText text = true → (evaluate text (some c) cache).1 = .error .invalidPredicate) ∧
    (blankText text = false →
      (∀ err, parse text = .error err →
        (evaluate text (some c) cache).1 = .error (.compilation text (.parse err))) ∧
      ∀ e, parse text = .ok e →
        (¬e.Typed c.get →
          ∃ cause, (evaluate text (some c) cache).1 = .error (.compilation text cause)) ∧
        (e.Typed c.get →
          ∃ answer, e.meaning c.get = some answer ∧
            (evaluate text (some c) cache).1 =
              answer.mapError fun fault => .evaluation text (.run fault))) ∧
    ∀ a, (cache.getOrCompile text (.ofContext c)).1 = .ok a →
      ∃ e, parse text = .ok e ∧ a.compiled.body.Mirrors c c.get e := by
  rw [hcache.sound.fst_evaluate, ← Context.placed_eq_get hc]
  refine ⟨fun hblank => ?_, fun hblank => ⟨fun err herr => ?_, fun e he => ?_⟩, fun a ha => ?_⟩
  · simp [freshAnswer, contextFor, hblank]
  · simp [freshAnswer, contextFor, hblank, CompiledPredicate.compile_of_parse_error herr]
  · rw [← Expr.isSome_meaning_iff]
    obtain ⟨p, hp, -, hmeaning⟩ | ⟨⟨err, herr⟩, hmeaning⟩ := CompiledPredicate.compile_cases he c
    · refine ⟨fun hnone => absurd (by simp [hmeaning]) hnone, fun _ => ⟨_, hmeaning, ?_⟩⟩
      simp [freshAnswer, contextFor, hblank, hp]
    · refine ⟨fun _ => ⟨err, ?_⟩, fun hsome => absurd hsome (by simp [hmeaning])⟩
      simp [freshAnswer, contextFor, hblank, herr]
  · have hcompile := hcache.sound.map_getOrCompile text (.ofContext c)
    rw [ha] at hcompile
    cases hparse : parse text with
    | error err =>
      rw [CompiledPredicate.compile_of_parse_error hparse] at hcompile
      cases hcompile
    | ok e =>
      obtain ⟨p, hp, hmirrors, -⟩ | ⟨⟨err, herr⟩, -⟩ := CompiledPredicate.compile_cases hparse c
      · rw [hp] at hcompile
        cases hcompile
        exact ⟨e, rfl, hmirrors⟩
      · rw [herr] at hcompile
        cases hcompile

/-- A text that the cache has for another shape, one with its fields in other places and of other
kinds. -/
theorem evaluate_eq_meaning_after_other_shape :
    (evaluate "plan.tier >= 2 && not plan.trial"
      (some (.ofSettings [("plan.tier", .int 3), ("plan.trial", .bool false)]))
      (empty.getOrCompile "plan.tier >= 2 && not plan.trial"
        (.ofContext (.ofSettings [("audience", .str "all"), ("plan.tier", .float .zero),
          ("plan.trial", .bool true)]))).2).1 =
      .ok true := by
  have hparse : parse "plan.tier >= 2 && not plan.trial" =
      .ok (.and (.compare (.field "plan.tier") .ge (.literal (.int 2)))
        (.not (.operand (.field "plan.trial")))) := by cbv
  have htrue : Expr.meaning
      (Context.get (.ofSettings [("plan.tier", .int 3), ("plan.trial", .bool false)]))
      (.and (.compare (.field "plan.tier") .ge (.literal (.int 2)))
        (.not (.operand (.field "plan.trial")))) = some (.ok true) := by cbv
  have htyped := Expr.isSome_meaning_iff.mp (Option.isSome_of_eq_some htrue)
  have hregular : Context.Regular
      (.ofSettings [("plan.tier", .int 3), ("plan.trial", .bool false)]) := by decide
  obtain ⟨-, hread, -⟩ := evaluate_eq_meaning (.getOrCompile _ _ .empty) hregular _
  obtain ⟨answer, hmeaning, hanswer⟩ := ((hread (by decide)).2 _ hparse).2 htyped
  rw [htrue] at hmeaning
  cases hmeaning
  exact hanswer

end Cache

end GuardedConfig
