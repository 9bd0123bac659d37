import GuardedConfig.Proofs.Predicate.Lookups
import GuardedConfig.Proofs.Session.Run

/-!
# Look-ups in a run

Evaluators and overlays share a cache by naming it, and all they do to it is to look up keys: an
operation leaves a cache as its look-ups leave it. Which keys a reading looks up is read off the
questions that its evaluator is asked.

Results:
* `Session.lookedUp_step`, `Session.lookedUp_run`: a cache after an operation, and after a run of
  them.
* `Session.cache_holds_lookUps`: what a cache holds after any run, and what it returns from then on.
* `Session.readSection_keeps_compiled`: a reading that ends in a compile error keeps what it had
  compiled before.
-/

namespace GuardedConfig

/-- The keys that an evaluator looks up in a cache to answer questions. -/
def EvaluatorRef.lookUps (r : Ref Cache) : EvaluatorRef → List Question → List CacheKey
  | .builtIn q, questions => if q = r then questions.filterMap Question.key? else []
  | .scripted _, _ | .answering _, _ => []

theorem EvaluatorRef.lookUps_append (r : Ref Cache) (e : EvaluatorRef)
    (questions more : List Question) :
    e.lookUps r (questions ++ more) = e.lookUps r questions ++ e.lookUps r more := by
  cases e with
  | builtIn q =>
    by_cases hq : q = r
    · simp [lookUps, hq]
    · simp [lookUps, hq]
  | scripted _ | answering _ => rfl

namespace Session

/-- The questions that a reading through an overlay asks, in order. -/
def questions {α : Type} (read : Attempt (Session × List Question) α) (s : Session) :
    List Question :=
  (read (s, [])).2.2

/-- The keys that an operation looks up in a cache, in order. -/
def stepLookUps (s : Session) (r : Ref Cache) : Action → List CacheKey
  | .getOrCompile q predicate shape => if q = r then [⟨predicate, shape⟩] else []
  | .compiled q predicate context => (EvaluatorRef.builtIn q).lookUps r [⟨predicate, context⟩]
  | .ask e predicate context => e.lookUps r [⟨predicate, context⟩]
  | .readSection o path =>
    o.evaluator.lookUps r (s.questions ((s.view o).recording.value path))
  | .readChildren o parent =>
    o.evaluator.lookUps r (s.questions ((s.view o).recording.children parent))
  | .readFlat o parent =>
    match (s.view o).recording.flatten parent (s, []) with
    | some (_, _, questions) => o.evaluator.lookUps r questions
    | none => []
  | _ => []

/-- The keys that operations look up in a cache, one operation after the other. -/
def runLookUps (s : Session) (r : Ref Cache) : List Action → List CacheKey
  | [] => []
  | a :: as => s.stepLookUps r a ++ (s.step a).runLookUps r as

/-! ## One operation -/

/-- The cache is there, and is what the look-ups make of another one. -/
def LookedUp (r : Ref Cache) (cache : Cache) (asked : List CacheKey) (t : Session) : Prop :=
  r.index < t.caches.cells.length ∧ t.caches.read r = asked.foldl Cache.lookUp cache

variable {r : Ref Cache} {cache : Cache} {asked : List CacheKey}

theorem LookedUp.onCache {α : Type} {t : Session} (h : LookedUp r cache asked t) (q : Ref Cache)
    {f : Cache → α × Cache} {more : List CacheKey}
    (hf : ∀ c, (f c).2 = more.foldl Cache.lookUp c) :
    LookedUp r cache (asked ++ if q = r then more else []) (onCache q f t).2 := by
  obtain ⟨hlt, hread⟩ := h
  refine ⟨by simpa [Session.onCache, Store.write] using hlt, ?_⟩
  by_cases hq : q = r
  · subst hq
    rw [if_pos rfl, List.foldl_append, ← hread, ← hf]
    exact Store.read_write_self hlt _
  · rw [if_neg hq, List.append_nil, ← hread]
    exact Store.read_write_of_ne (Ne.symm hq) _ _

theorem LookedUp.ask {t : Session} (h : LookedUp r cache asked t) (e : EvaluatorRef)
    (predicate : String) (context : Option Context) :
    LookedUp r cache (asked ++ e.lookUps r [⟨predicate, context⟩])
      (ask e predicate context t).2 := by
  cases e with
  | builtIn q => exact h.onCache q (Cache.snd_evaluate predicate context)
  | scripted _ | answering _ =>
    rw [EvaluatorRef.lookUps, List.append_nil]
    exact h

theorem lookedUp_poll {t : Session} (h : LookedUp r cache asked t) (source : Source) :
    LookedUp r cache asked (poll source t).2 := by
  cases source with
  | fixed _ | shared _ | absent | counting _ _ => exact h

/-- Whatever is read through an overlay, the cache is left as the questions so far leave it. -/
theorem keeps_recording (s : Session) (o : LiveOverlay) (r : Ref Cache) (cache : Cache) :
    (s.view o).recording.Keeps fun t => LookedUp r cache (o.evaluator.lookUps r t.2) t.1 where
  context t h := lookedUp_poll h o.source
  ask predicate context t h := by
    have hasked := h.ask o.evaluator predicate context
    rw [← EvaluatorRef.lookUps_append] at hasked
    exact hasked

theorem lookedUp_start {s : Session} (h : r.index < s.caches.cells.length) (e : EvaluatorRef) :
    LookedUp r (s.caches.read r) (e.lookUps r []) s := by
  refine ⟨h, ?_⟩
  cases e with
  | builtIn q => simp [EvaluatorRef.lookUps]
  | scripted _ | answering _ => rfl

theorem LookedUp.reading {α : Type} {s : Session} (h : r.index < s.caches.cells.length)
    {o : LiveOverlay} {read : Attempt Session α} {record : Attempt (Session × List Question) α}
    (halike : Attempt.Alike (fun t u => t.1 = u) record read)
    (hkeeps : record.Keeps fun t =>
      LookedUp r (s.caches.read r) (o.evaluator.lookUps r t.2) t.1) :
    LookedUp r (s.caches.read r) (o.evaluator.lookUps r (s.questions record)) (read s).2 := by
  rw [← (halike (s, []) s rfl).2]
  exact hkeeps (s, []) (lookedUp_start h o.evaluator)

theorem lookedUp_step {s : Session} (h : r.index < s.caches.cells.length) (a : Action) :
    LookedUp r (s.caches.read r) (s.stepLookUps r a) (s.step a) := by
  have hsame {t : Session} (ht : t.caches = s.caches) : LookedUp r (s.caches.read r) [] t := by
    refine ⟨ht ▸ h, by rw [ht]; rfl⟩
  cases a with
  | newCache =>
    refine ⟨?_, ?_⟩
    · simp [step, newCache, Store.add]; omega
    · simp [step, newCache, Store.add, Store.read, stepLookUps, List.getElem?_append_left h]
  | getOrCompile q predicate shape =>
    exact (hsame rfl).onCache q fun _ => rfl
  | compiled q predicate context =>
    exact (hsame rfl).onCache q (Cache.snd_compiled predicate context)
  | ask e predicate context => exact (hsame rfl).ask e predicate context
  | readSection o path =>
    rw [step, readSection_apply]
    exact .reading h ((s.view o).alike_recording.value path) ((keeps_recording s o r _).value path)
  | readChildren o parent =>
    rw [step, readChildren_apply]
    exact .reading h ((s.view o).alike_recording.children parent)
      ((keeps_recording s o r _).children parent)
  | readFlat o parent =>
    have halike := (s.view o).alike_recording
    rw [stepLookUps]
    cases hrecord : (s.view o).recording.flatten parent (s, []) with
    | none =>
      rw [step_readFlat_of_none (halike.flatten_eq_none rfl hrecord)]
      exact hsame rfl
    | some x =>
      obtain ⟨u, rfl, hread⟩ := halike.flatten_eq_some rfl hrecord
      rw [step_readFlat hread]
      exact (keeps_recording s o r _).flatten (lookedUp_start h o.evaluator) hrecord
  | remove q path =>
    rw [step, remove]
    split <;> exact hsame rfl
  | reload q text =>
    rw [step, reload]
    split <;> exact hsame rfl
  | newSignal | raise _ | newTree _ | setValue _ _ _ | replace _ _ | newShared _ | swapContext _ _
  | newCount | newScript _ => exact hsame rfl

/-! ## Runs -/

theorem lookedUp_run {s : Session} (h : r.index < s.caches.cells.length) (actions : List Action) :
    LookedUp r (s.caches.read r) (s.runLookUps r actions) (s.run actions) := by
  induction actions generalizing s with
  | nil => exact ⟨h, rfl⟩
  | cons a actions ih =>
    obtain ⟨hlt, hread⟩ := lookedUp_step h a
    obtain ⟨hlt', hread'⟩ := ih hlt
    refine ⟨hlt', ?_⟩
    rw [runLookUps, List.foldl_append, ← hread, ← hread']
    rfl

/-- **What a cache holds after any run.** Let a cache be made, and let any operations follow on
evaluators, overlays, trees and contexts. Then the cache holds, each in one entry and each once, the
keys that were looked up and compile, with what they compile to; it has compiled as often as it has
entries. A stored predicate is the only one with its number, and every later look-up of its key
returns it. A compilation that fails leaves the cache as it was, and so does an operation unless one
of its look-ups compiles a key that was not stored. -/
theorem cache_holds_lookUps (s : Session) (actions : List Action) :
    let r := s.caches.next
    let made := (newCache s).2
    let now := made.run actions
    let cache := now.caches.read r
    (∀ e ∈ cache.entries, e.2.compiled.source = e.1.predicate ∧ e.2.compiled.shape = e.1.shape ∧
      CompiledPredicate.compile e.1.predicate e.1.shape = .ok e.2.compiled) ∧
    (cache.keys.Nodup ∧
      ∀ key, key ∈ cache.keys ↔ key ∈ made.runLookUps r actions ∧ key.Compiles) ∧
    cache.compilations = cache.length ∧
    (∀ key a, cache.get? key = some a →
      (∀ other b, cache.get? other = some b → a.serial = b.serial → key = other) ∧
      ∀ later : List Action,
        let cache' := (now.run later).caches.read r
        cache'.get? key = some a ∧
        cache'.getOrCompile key.predicate key.shape = (.ok a, cache') ∧
        ∀ c, Shape.ofContext c = key.shape →
          Cache.compiled key.predicate (some c) cache' = (.ok a, cache')) ∧
    (∀ predicate shape cause, (cache.getOrCompile predicate shape).1 = .error cause →
      (cache.getOrCompile predicate shape).2 = cache) ∧
    (∀ predicate context cause, (Cache.compiled predicate context cache).1 = .error cause →
      (Cache.compiled predicate context cache).2 = cache) ∧
    (∀ predicate context text cause,
      (Cache.evaluate predicate context cache).1 = .error (.compilation text cause) →
      (Cache.evaluate predicate context cache).2 = cache) ∧
    ∀ a, (∀ key ∈ now.stepLookUps r a, key.Compiles → key ∈ cache.keys) →
      (now.step a).caches.read r = cache := by
  intro r made now cache
  have hmade : r.index < made.caches.cells.length := by
    simp [r, made, newCache, Store.add, Store.next]
  have hempty : made.caches.read r = .empty := Store.read_add_self s.caches .empty
  obtain ⟨hnow, hread⟩ := lookedUp_run hmade actions
  have hholds : cache.Holds (made.runLookUps r actions) := by
    have hlookUps := Cache.holds_empty.lookUps (made.runLookUps r actions)
    rwa [← hempty, ← hread] at hlookUps
  refine ⟨fun e he => ?_, ⟨hholds.nodup, hholds.mem_keys⟩, hholds.compilations,
    fun key a ha => ⟨fun other b hb => hholds.serial_inj ha hb, fun later => ?_⟩,
    fun _ _ _ => Cache.getOrCompile_of_error, fun _ _ _ => Cache.compiled_of_error,
    fun _ _ _ _ => Cache.evaluate_of_compilation_error, fun a ha => ?_⟩
  · have hcompile := hholds.sound e he
    obtain ⟨hsource, hshape⟩ := CompiledPredicate.shape_of_compile hcompile
    exact ⟨hsource, hshape, hcompile⟩
  · obtain ⟨-, hlater⟩ := lookedUp_run hnow later
    have hstays := Cache.get?_lookUps ha (now.runLookUps r later)
    have hsound := (hholds.lookUps (now.runLookUps r later)).sound
    rw [← hlater] at hstays hsound
    exact ⟨hstays, Cache.getOrCompile_of_get? hstays,
      fun c hc => Cache.compiled_of_get? hsound hstays hc⟩
  · rw [(lookedUp_step hnow a).2]
    exact Cache.lookUps_of_stored_or_not_compiles ha

/-- A predicate that was compiled for one context is returned for another of its shape, after a text
that does not compile and a reading that asks about it. -/
theorem cache_holds_lookUps_of_shared :
    let made := (newCache (empty.run [.newTree (.ofPairs [("fee:_rules:0:when", "tier >= 2"),
      ("fee:_rules:0:value", "0")])])).2
    let now := made.run [
      .getOrCompile ⟨0⟩ "tier >= 2" (.ofContext (.ofSettings [("tier", .int 1)])),
      .ask (.builtIn ⟨0⟩) "tier >=" (some (.ofSettings [("tier", .int 1)]))]
    let later := now.run [
      .readSection ⟨⟨0⟩, {}, .fixed (.ofSettings [("tier", .int 3)]), .builtIn ⟨0⟩⟩ "fee"]
    (Cache.compiled "tier >= 2" (some (.ofSettings [("tier", .int 5)]))
      (later.caches.read ⟨0⟩)).1.map Artifact.serial = .ok 0 := by
  intro made now later
  obtain ⟨-, -, -, hkept, -⟩ := cache_holds_lookUps
    (empty.run [.newTree (.ofPairs [("fee:_rules:0:when", "tier >= 2"),
      ("fee:_rules:0:value", "0")])])
    [.getOrCompile ⟨0⟩ "tier >= 2" (.ofContext (.ofSettings [("tier", .int 1)])),
      .ask (.builtIn ⟨0⟩) "tier >=" (some (.ofSettings [("tier", .int 1)]))]
  have hstored : ((now.caches.read ⟨0⟩).get? ⟨"tier >= 2",
      .ofContext (.ofSettings [("tier", .int 1)])⟩).map Artifact.serial = some 0 := by
    decide +kernel
  obtain ⟨a, ha, hserial⟩ := Option.map_eq_some_iff.mp hstored
  obtain ⟨-, -, hcompiled⟩ := (hkept _ a ha).2
    [.readSection ⟨⟨0⟩, {}, .fixed (.ofSettings [("tier", .int 3)]), .builtIn ⟨0⟩⟩ "fee"]
  have hagain := hcompiled (.ofSettings [("tier", .int 5)]) (by decide +kernel)
  exact (congrArg (fun x => x.1.map Artifact.serial) hagain).trans (congrArg Except.ok hserial)

/-- A reading that ends in the compile error of its second guard keeps what the first one compiled
to. -/
theorem readSection_keeps_compiled :
    let s := empty.run [.newTree (.ofPairs [("fee:_rules:vip:when", "vip"),
      ("fee:_rules:vip:value", "0"), ("fee:_rules:low:when", "tier > 2"),
      ("fee:_rules:low:value", "5")]), .newCache]
    let o : LiveOverlay := ⟨⟨0⟩, {}, .fixed (.ofSettings [("vip", .bool false)]), .builtIn ⟨0⟩⟩
    (∃ cause, (readSection o "fee" s).1.map Section.value =
      .error (.compilation "tier > 2" cause)) ∧
    (s.caches.read ⟨0⟩).length = 0 ∧
    ((s.step (.readSection o "fee")).caches.read ⟨0⟩).length = 1 := by
  intro s o
  refine ⟨⟨.undefinedField "tier" (.ofContext (.ofSettings [("vip", .bool false)])), ?_⟩, ?_, ?_⟩
  all_goals decide +kernel

end Session

end GuardedConfig
