import GuardedConfig.Proofs.Predicate.Lookups
import GuardedConfig.Proofs.Session.Run

/-!
# Compiled predicates and evaluators

A compiled predicate that a program holds can be run on a context itself, which compares the shape
of the context with its own, or its text can be given to an evaluator, which looks for a compiled
predicate by the shape of the context. On a context of the shape that the predicate was compiled
for, the two come to the same, whatever the caches have been asked for. On any other the predicate
refuses to run, even if it names no field in which the shapes differ.

Results:
* `Session.HeldFor.compile_eq`: whichever way a compiled predicate was come by, it is what compiling
  its text gives.
* `Cache.Sound.evaluate_eq_answer`: an evaluator answers what the compiled predicate answers.
* `Session.answer_eq_ask`: the two ways of running a predicate.
-/

namespace GuardedConfig

/-- What running a compiled predicate on a context comes to, with the errors of evaluators. -/
def CompiledPredicate.answer (p : CompiledPredicate) (c : Context) : Except RuleError Bool :=
  (p.matchesContext c).mapError (.evaluation p.source)

namespace CompiledPredicate

variable {p : CompiledPredicate} {c : Context}

theorem answer_of_shape (h : p.shape = .ofContext c) :
    p.answer c = (p.run c.values).mapError fun e => .evaluation p.source (.run e) := by
  have hrun : p.matchesContext c = (p.run c.values).mapError .run := by
    rw [matchesContext_of_shape h.symm, run_values h]
    rfl
  rw [answer, hrun]
  cases p.run c.values <;> rfl

theorem answer_of_other_shape (h : p.shape ≠ .ofContext c) :
    p.answer c = .error (.evaluation p.source (.shape (.ofContext c) p.shape)) := by
  rw [answer, matchesContext, if_neg (Ne.symm h)]
  rfl

end CompiledPredicate

namespace Cache

variable {cache : Cache}

/-- An evaluator that looks up only what compiling gives answers what the compiled predicate for the
shape of the context answers. -/
theorem Sound.evaluate_eq_answer (h : cache.Sound) {text : String} {c : Context}
    {p : CompiledPredicate} (hp : CompiledPredicate.compile text (.ofContext c) = .ok p) :
    (evaluate text (some c) cache).1 = p.answer c := by
  have hblank := CompiledPredicate.not_blank_of_compile hp
  have hcontext : contextFor text (some c) = .ok c := by simp [contextFor, hblank]
  obtain ⟨hsource, hshape⟩ := CompiledPredicate.shape_of_compile hp
  rw [h.fst_evaluate, CompiledPredicate.answer_of_shape hshape, hsource]
  simp only [freshAnswer, hcontext, hp]

theorem Sound.compile_of_getOrCompile (h : cache.Sound) {text : String} {shape : Shape}
    {a : Artifact} (ha : (cache.getOrCompile text shape).1 = .ok a) :
    CompiledPredicate.compile text shape = .ok a.compiled := by
  rw [← h.map_getOrCompile, ha]
  rfl

theorem Sound.compile_of_compiled (h : cache.Sound) {text : String} {c : Context} {a : Artifact}
    (ha : (compiled text (some c) cache).1 = .ok a) :
    CompiledPredicate.compile text (.ofContext c) = .ok a.compiled := by
  unfold compiled contextFor at ha
  cases hblank : blankText text with
  | true =>
    rw [hblank] at ha
    cases ha
  | false =>
    simp only [hblank, Bool.false_eq_true, if_false] at ha
    cases hget : (cache.getOrCompile text (.ofContext c)).1 with
    | error e =>
      rw [hget] at ha
      cases ha
    | ok b =>
      rw [hget] at ha
      cases ha
      exact h.compile_of_getOrCompile hget

end Cache

namespace Session

/-- A compiled predicate that was come by for a text and the shape of a context: by compiling, or
from a cache or an evaluator in a session after any operations. -/
inductive HeldFor (text : String) (c : Context) : CompiledPredicate → Prop
  | compiled {p : CompiledPredicate}
      (h : CompiledPredicate.compile text (.ofContext c) = .ok p) : HeldFor text c p
  | stored {actions : List Action} {r : Ref Cache} {a : Artifact}
      (h : ((empty.run actions).caches.read r).get? ⟨text, .ofContext c⟩ = some a) :
      HeldFor text c a.compiled
  | lookedUp {actions : List Action} {r : Ref Cache} {a : Artifact}
      (h : (onCache r (Cache.getOrCompile text (.ofContext c)) (empty.run actions)).1 = .ok a) :
      HeldFor text c a.compiled
  | asked {actions : List Action} {r : Ref Cache} {a : Artifact}
      (h : (onCache r (Cache.compiled text (some c)) (empty.run actions)).1 = .ok a) :
      HeldFor text c a.compiled

theorem HeldFor.compile_eq {text : String} {c : Context} {p : CompiledPredicate}
    (h : HeldFor text c p) : CompiledPredicate.compile text (.ofContext c) = .ok p := by
  have hsound (actions : List Action) (r : Ref Cache) :=
    (sound_run sound_empty actions).read r
  cases h with
  | compiled h => exact h
  | stored h => exact (hsound _ _).compile_of_get? h
  | lookedUp h => exact (hsound _ _).compile_of_getOrCompile h
  | asked h => exact (hsound _ _).compile_of_compiled h

/-- **Both ways of running a predicate agree.** Take any compiled predicate that a program may have
come by for a text and the shape of a context, and any context. If the context has that shape, the
predicate answers what every built-in evaluator answers to its text after any operations: the same
truth value, or the same error of the evaluation. If the shapes differ in any way, the predicate
answers that they do not match. -/
theorem answer_eq_ask {text : String} {c₀ : Context} {p : CompiledPredicate}
    (hp : HeldFor text c₀ p) (c : Context) :
    (Shape.ofContext c = .ofContext c₀ → ∀ actions r,
      p.answer c = (ask (.builtIn r) text (some c) (empty.run actions)).1) ∧
    (Shape.ofContext c ≠ .ofContext c₀ →
      p.answer c = .error (.evaluation text (.shape (.ofContext c) (.ofContext c₀)))) := by
  have hcompile := hp.compile_eq
  obtain ⟨hsource, hshape⟩ := CompiledPredicate.shape_of_compile hcompile
  refine ⟨fun hsame actions r => ?_, fun hother => ?_⟩
  · have hsound := (sound_run sound_empty actions).read r
    rw [← hsame] at hcompile
    exact (hsound.evaluate_eq_answer hcompile).symm
  · rw [← hshape] at hother
    rw [CompiledPredicate.answer_of_other_shape (Ne.symm hother), hsource, hshape]

/-- A predicate from a cache, on a context of its shape with what is not a number, and on a context
with another kind in a field that the predicate does not name. -/
theorem answer_eq_ask_of_nan :
    let c₀ : Context := .ofSettings [("load", .float .zero), ("tier", .int 1)]
    let nan : Context := .ofSettings [("load", .float ⟨0x7ff8000000000000⟩), ("tier", .int 2)]
    let other : Context := .ofSettings [("load", .float .zero), ("tier", .bool true)]
    ∃ p, HeldFor "load < 2" c₀ p ∧
      (ask (.builtIn ⟨0⟩) "load < 2" (some nan) (empty.run [.newCache,
        .getOrCompile ⟨0⟩ "load < 2" (.ofContext other)])).1 =
          .error (.evaluation "load < 2"
            (.run (.incomparable (.float ⟨0x7ff8000000000000⟩) .lt (.int 2)))) ∧
      p.answer other =
        .error (.evaluation "load < 2" (.shape (.ofContext other) (.ofContext c₀))) := by
  intro c₀ nan other
  have hparse : parse "load < 2" =
      .ok (.compare (.field "load") .lt (.literal (.int 2))) := by cbv
  have hp : CompiledPredicate.compile "load < 2" (.ofContext c₀) =
      .ok ⟨"load < 2", .ofContext c₀, .compare (.field 0) .lt (.literal (.int 2))⟩ := by
    have hlower : Expr.lower (.ofContext c₀) (.compare (.field "load") .lt (.literal (.int 2))) =
        .ok (.compare (.field 0) .lt (.literal (.int 2))) := by cbv
    simp only [CompiledPredicate.compile, hparse, CompiledPredicate.ofExpr, hlower, Except.map]
  have hlookedUp : (onCache ⟨0⟩ (Cache.getOrCompile "load < 2" (.ofContext c₀))
      (empty.run [.newCache])).1 =
        .ok ⟨0, "load < 2", .ofContext c₀, .compare (.field 0) .lt (.literal (.int 2))⟩ := by
    change (Cache.empty.getOrCompile "load < 2" (.ofContext c₀)).1 = _
    simp only [Cache.getOrCompile, hp]
    rfl
  have hheld := HeldFor.lookedUp hlookedUp
  have hsame : Shape.ofContext nan = .ofContext c₀ := by cbv
  have hother : Shape.ofContext other ≠ .ofContext c₀ := by
    have hbool : (Shape.ofContext other).kindAt 1 = some .bool := by cbv
    have hint : (Shape.ofContext c₀).kindAt 1 = some .int := by cbv
    intro h
    rw [h, hint] at hbool
    cases hbool
  have hvalues : nan.values = [.float ⟨0x7ff8000000000000⟩, .int 2] := by cbv
  refine ⟨_, hheld, ?_, (answer_eq_ask hheld other).2 hother⟩
  rw [← (answer_eq_ask hheld nan).1 hsame, CompiledPredicate.answer_of_shape hsame.symm,
    CompiledPredicate.run_values hsame.symm, hvalues]
  decide

end Session

end GuardedConfig
