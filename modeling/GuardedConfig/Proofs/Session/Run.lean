import GuardedConfig.Proofs.Overlay.Returns
import GuardedConfig.Proofs.Predicate.Evaluation
import GuardedConfig.Session.Basic

/-!
# Runs of a session

What a program does to the live objects is a list of operations, each on the objects that its
references name. Reading through an overlay is one of them: it may poll a source, compile
predicates into a cache and be noted in a script, but the content of the trees, the signals and the
shared contexts stay as they are.

Results:
* `Session.keeps_view`: reading through an overlay leaves trees, signals and shared contexts alone.
* `Session.sound_run`: after any run every cache holds only what compiling would give.
-/

namespace GuardedConfig

/-- One operation on the live objects. -/
inductive Action where
  | newSignal
  | raise (r : Ref Signal)
  | newTree (t : Tree)
  | setValue (r : Ref TreeCell) (path value : String)
  | remove (r : Ref TreeCell) (path : String)
  | replace (r : Ref TreeCell) (pairs : List (String × String))
  | reload (r : Ref TreeCell) (text : String)
  | newShared (c : Option Context)
  /-- Puts a context into a shared place, or empties it. -/
  | swapContext (r : Ref SharedContext) (c : Option Context)
  | newCount
  | newCache
  | newScript (answers : List (String × Bool))
  /-- Asks a cache itself for a compiled predicate. -/
  | getOrCompile (r : Ref Cache) (predicate : String) (shape : Shape)
  /-- Asks the built-in evaluator for a compiled predicate. -/
  | compiled (r : Ref Cache) (predicate : String) (context : Option Context)
  | ask (e : EvaluatorRef) (predicate : String) (context : Option Context)
  | readSection (o : LiveOverlay) (path : String)
  | readChildren (o : LiveOverlay) (parent : String)
  | readFlat (o : LiveOverlay) (parent : String)

namespace Session

/-- The session after an operation, whatever the operation returned. One that never returns counts
as not made. -/
def step (s : Session) : Action → Session
  | .newSignal => (newSignal s).2
  | .raise r => (raise r s).2
  | .newTree t => (newTree t s).2
  | .setValue r path value => (setValue r path value s).2
  | .remove r path => (remove r path s).2
  | .replace r pairs => (replace r pairs s).2
  | .reload r text => (reload r text s).2
  | .newShared c => (newShared c s).2
  | .swapContext r c => (swapContext r c s).2
  | .newCount => (newCount s).2
  | .newCache => (newCache s).2
  | .newScript answers => (newScript answers s).2
  | .getOrCompile r predicate shape => (onCache r (Cache.getOrCompile predicate shape) s).2
  | .compiled r predicate context => (onCache r (Cache.compiled predicate context) s).2
  | .ask e predicate context => (ask e predicate context s).2
  | .readSection o path => (readSection o path s).2
  | .readChildren o parent => (readChildren o parent s).2
  | .readFlat o parent => ((readFlat o parent s).map Prod.snd).getD s

/-- The session after operations made one after the other. -/
def run (s : Session) (actions : List Action) : Session :=
  actions.foldl step s

/-! ## Caches -/

/-- Every cache holds only what compiling would give. -/
def Sound (s : Session) : Prop :=
  ∀ cache ∈ s.caches.cells, cache.Sound

theorem sound_empty : Sound empty := by
  intro cache h
  exact absurd h (by simp [empty, Store.empty])

theorem Sound.read {s : Session} (h : s.Sound) (r : Ref Cache) : (s.caches.read r).Sound := by
  unfold Store.read
  cases hr : s.caches.cells[r.index]? with
  | none => exact Cache.sound_empty
  | some cache => exact h cache (List.mem_of_getElem? hr)

theorem Sound.onCache {α : Type} {s : Session} (h : s.Sound) (r : Ref Cache)
    {f : Cache → α × Cache} (hf : ∀ cache, cache.Sound → (f cache).2.Sound) :
    (onCache r f s).2.Sound := by
  intro cache hcache
  rcases List.mem_or_eq_of_mem_set hcache with hmem | rfl
  · exact h cache hmem
  · exact hf _ (h.read r)

/-! ## Reading -/

/-- What reading through overlays leaves alone. -/
structure SameContent (s t : Session) : Prop where
  trees : t.trees = s.trees
  signals : t.signals = s.signals
  shared : t.shared = s.shared

/-- Sessions that reading through overlays may lead to, from a session whose caches are sound. -/
def ReadFrom (s t : Session) : Prop :=
  t.Sound ∧ s.SameContent t

theorem Sound.readFrom {s : Session} (h : s.Sound) : s.ReadFrom s :=
  ⟨h, rfl, rfl, rfl⟩

theorem readFrom_poll {s t : Session} (h : s.ReadFrom t) (source : Source) :
    s.ReadFrom (poll source t).2 := by
  cases source with
  | fixed _ | shared _ | absent => exact h
  | counting path r => exact ⟨h.1, h.2.trees, h.2.signals, h.2.shared⟩

theorem keeps_ask (s : Session) (e : EvaluatorRef) (predicate : String)
    (context : Option Context) : (ask e predicate context).Keeps s.ReadFrom := by
  intro t h
  cases e with
  | builtIn r =>
    refine ⟨h.1.onCache r fun cache hcache => ?_, h.2.trees, h.2.signals, h.2.shared⟩
    exact hcache.snd_evaluate predicate context
  | scripted _ | answering _ => exact ⟨h.1, h.2.trees, h.2.signals, h.2.shared⟩

theorem keeps_view (s : Session) (o : LiveOverlay) : (s.view o).Keeps s.ReadFrom where
  context _ h := readFrom_poll h o.source
  ask := keeps_ask s o.evaluator

theorem readSection_apply (o : LiveOverlay) (path : String) (s : Session) :
    readSection o path s =
      (((s.view o).value path s).1.map fun v => ⟨o, path, v⟩, ((s.view o).value path s).2) :=
  Attempt.bind_pure_apply _ _ s

theorem readChildren_apply (o : LiveOverlay) (parent : String) (s : Session) :
    readChildren o parent s =
      (((s.view o).children parent s).1.map fun cs => cs.map fun c => ⟨o, c.1, c.2⟩,
        ((s.view o).children parent s).2) :=
  Attempt.bind_pure_apply _ _ s

theorem Sound.readFrom_readSection {s : Session} (h : s.Sound) (o : LiveOverlay) (path : String) :
    s.ReadFrom (readSection o path s).2 := by
  rw [readSection_apply]
  exact (keeps_view s o).value path s h.readFrom

theorem Sound.readFrom_readChildren {s : Session} (h : s.Sound) (o : LiveOverlay)
    (parent : String) : s.ReadFrom (readChildren o parent s).2 := by
  rw [readChildren_apply]
  exact (keeps_view s o).children parent s h.readFrom

theorem step_readFlat {s : Session} {o : LiveOverlay} {parent : String}
    {r : Except RuleError Listing × Session} (h : readFlat o parent s = some r) :
    s.step (.readFlat o parent) = r.2 := by
  rw [step, h]
  rfl

theorem step_readFlat_of_none {s : Session} {o : LiveOverlay} {parent : String}
    (h : readFlat o parent s = none) : s.step (.readFlat o parent) = s := by
  rw [step, h]
  rfl

theorem Sound.readFrom_readFlat {s : Session} (h : s.Sound) (o : LiveOverlay) (parent : String) :
    s.ReadFrom (s.step (.readFlat o parent)) := by
  cases hr : readFlat o parent s with
  | none =>
    rw [step_readFlat_of_none hr]
    exact h.readFrom
  | some r =>
    rw [step_readFlat hr]
    exact (keeps_view s o).flatten h.readFrom hr

/-! ## Runs -/

theorem sound_step {s : Session} (h : s.Sound) (a : Action) : (s.step a).Sound := by
  cases a with
  | newCache =>
    intro cache hcache
    rcases List.mem_append.mp hcache with hmem | hmem
    · exact h cache hmem
    · rw [List.mem_singleton.mp hmem]
      exact Cache.sound_empty
  | getOrCompile r predicate shape =>
    exact h.onCache r fun cache hcache => hcache.getOrCompile predicate shape
  | compiled r predicate context =>
    exact h.onCache r fun cache hcache => hcache.snd_compiled predicate context
  | ask e predicate context => exact (keeps_ask s e predicate context s h.readFrom).1
  | readSection o path => exact (h.readFrom_readSection o path).1
  | readChildren o parent => exact (h.readFrom_readChildren o parent).1
  | readFlat o parent => exact (h.readFrom_readFlat o parent).1
  | remove r path =>
    rw [step, remove]
    split <;> exact h
  | reload r text =>
    rw [step, reload]
    split <;> exact h
  | newSignal | raise _ | newTree _ | setValue _ _ _ | replace _ _ | newShared _ | swapContext _ _
  | newCount | newScript _ => exact h

/-- After any run every cache holds only what compiling would give. -/
theorem sound_run {s : Session} (h : s.Sound) (actions : List Action) : (s.run actions).Sound := by
  induction actions generalizing s with
  | nil => exact h
  | cons a actions ih => exact ih (sound_step h a)

end Session

end GuardedConfig
