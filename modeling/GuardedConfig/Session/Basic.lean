import GuardedConfig.Context.Json
import GuardedConfig.Overlay.Basic
import GuardedConfig.Session.Store
import GuardedConfig.Tree.Json

/-!
# Sessions

A session is the state behind the objects that change while a program runs: trees that are edited,
signals that tell of edits, shared contexts that are swapped, caches, scripts, and the counters of
polling sources. Everything else is a value: an overlay names the objects it reads, a section keeps
what was read, a reload token keeps the generation it was issued at.

Results:
* `hasChanged_new`: a token that was just issued sees no change.
* `remove_of_absent`: removing what is not there changes nothing.
-/

namespace GuardedConfig

/-- A counter of changes. It wraps around after `2 ^ 64` of them. -/
structure Signal where
  generation : UInt64
  deriving DecidableEq, Inhabited

/-- The signal after one more change. -/
def Signal.raise (s : Signal) : Signal := ⟨s.generation + 1⟩

/-- A tree that can be edited, with the signal that its edits raise. -/
structure TreeCell where
  tree : Tree
  signal : Ref Signal
  deriving Inhabited

/-- The number of times that a source has been polled. -/
structure PollCount where
  count : Nat
  deriving DecidableEq, Inhabited

/-- A place for a context that can be swapped. -/
structure SharedContext where
  context : Option Context
  deriving Inhabited

/-- The live objects. -/
structure Session where
  signals : Store Signal
  trees : Store TreeCell
  shared : Store SharedContext
  caches : Store Cache
  scripts : Store Script
  counts : Store PollCount

/-- The generation of a signal at the moment a token was issued. -/
structure ReloadToken where
  signal : Ref Signal
  issuedAt : UInt64
  deriving DecidableEq

/-- Where an overlay takes its contexts from. -/
inductive Source where
  | fixed (context : Context)
  | shared (place : Ref SharedContext)
  /-- A source that gives the number of earlier polls under a path. -/
  | counting (path : String) (count : Ref PollCount)
  | absent

/-- What an overlay asks about predicates. -/
inductive EvaluatorRef where
  | builtIn (cache : Ref Cache)
  | scripted (script : Ref Script)
  /-- An evaluator of the program that answers from the predicate and the context alone. -/
  | answering (answers : String → Option Context → Except RuleError Bool)

/-- An overlay by the objects it reads. -/
structure LiveOverlay where
  tree : Ref TreeCell
  keys : RuleKeys
  source : Source
  evaluator : EvaluatorRef

/-- A node as it was read. -/
structure Section where
  overlay : LiveOverlay
  path : String
  value : Option String

/-- The last key of the path of a section. -/
def Section.key (s : Section) : String :=
  Path.keyOf s.path

namespace Session

/-- The session without objects. -/
def empty : Session := ⟨.empty, .empty, .empty, .empty, .empty, .empty⟩

/-! ## Signals and tokens -/

/-- Makes a signal. -/
def newSignal : StateM Session (Ref Signal) :=
  fun s => (s.signals.next, { s with signals := s.signals.add default })

/-- Counts a change. -/
def raise (r : Ref Signal) : StateM Session Unit :=
  fun s => ((), { s with signals := s.signals.write r (s.signals.read r).raise })

/-- The number of changes so far. -/
def generation (s : Session) (r : Ref Signal) : UInt64 :=
  (s.signals.read r).generation

/-- A token of a signal. -/
def tokenOfSignal (s : Session) (r : Ref Signal) : ReloadToken :=
  ⟨r, s.generation r⟩

/-- A token of a tree. -/
def tokenOfTree (s : Session) (r : Ref TreeCell) : ReloadToken :=
  s.tokenOfSignal (s.trees.read r).signal

/-- Whether the signal of a token has been raised since the token was issued. -/
def hasChanged (s : Session) (t : ReloadToken) : Bool :=
  s.generation t.signal ≠ t.issuedAt

/-- Whether two tokens have one signal. -/
def sameSource (a b : ReloadToken) : Bool :=
  a.signal = b.signal

theorem hasChanged_new (s : Session) (r : Ref Signal) :
    s.hasChanged (s.tokenOfSignal r) = false := by
  simp [hasChanged, tokenOfSignal]

/-! ## Trees -/

/-- Makes a tree with the given content and a signal of its own. -/
def newTree (t : Tree) : StateM Session (Ref TreeCell) := do
  let signal ← newSignal
  fun s => (s.trees.next, { s with trees := s.trees.add ⟨t, signal⟩ })

/-- The content of a tree. -/
def tree (s : Session) (r : Ref TreeCell) : Tree :=
  (s.trees.read r).tree

/-- Gives a tree new content, which counts as a change. -/
def putTree (r : Ref TreeCell) (t : Tree) : StateM Session Unit :=
  fun s =>
    let cell := s.trees.read r
    raise cell.signal { s with trees := s.trees.write r { cell with tree := t } }

/-- Sets a value in a tree. -/
def setValue (r : Ref TreeCell) (path value : String) : StateM Session Unit :=
  fun s => putTree r ((s.tree r).set path value) s

/-- Removes a node with all below it. Whether there was one. -/
def remove (r : Ref TreeCell) (path : String) : StateM Session Bool :=
  fun s =>
    match (s.tree r).remove? path with
    | none => (false, s)
    | some t => (true, (putTree r t s).2)

/-- Replaces the content of a tree by values set one after the other. -/
def replace (r : Ref TreeCell) (pairs : List (String × String)) : StateM Session Unit :=
  putTree r (Tree.ofPairs pairs)

/-- Replaces the content of a tree by a document. A text that does not load changes nothing. -/
def reload (r : Ref TreeCell) (text : String) : StateM Session (Except LoadError Unit) :=
  fun s =>
    match Tree.load text with
    | .error e => (.error e, s)
    | .ok t => (.ok (), (putTree r t s).2)

theorem remove_of_absent {s : Session} {r : Ref TreeCell} {path : String}
    (h : (s.tree r).remove? path = none) : remove r path s = (false, s) := by
  simp [remove, h]

/-! ## Contexts -/

/-- Makes a shared context. -/
def newShared (c : Option Context) : StateM Session (Ref SharedContext) :=
  fun s => (s.shared.next, { s with shared := s.shared.add ⟨c⟩ })

/-- The context of the moment in a shared place. -/
def currentContext (s : Session) (r : Ref SharedContext) : Option Context :=
  (s.shared.read r).context

/-- Puts a context into a shared place, or empties it. The context that was there before. -/
def swapContext (r : Ref SharedContext) (c : Option Context) : StateM Session (Option Context) :=
  fun s => (s.currentContext r, { s with shared := s.shared.write r ⟨c⟩ })

/-- Makes the counter of a polling source. -/
def newCount : StateM Session (Ref PollCount) :=
  fun s => (s.counts.next, { s with counts := s.counts.add default })

/-- The number of polls of a source so far. Only polling sources count. -/
def polls (s : Session) : Source → Nat
  | .counting _ r => (s.counts.read r).count
  | _ => 0

/-- Takes the context of the moment from a source. -/
def poll : Source → StateM Session (Option Context)
  | .fixed c => pure (some c)
  | .absent => pure none
  | .shared r => fun s => (s.currentContext r, s)
  | .counting path r => fun s =>
    let n := (s.counts.read r).count
    let c := Context.empty.set path (.int (Int64.ofNat n))
    (some c, { s with counts := s.counts.write r ⟨n + 1⟩ })

/-! ## Evaluators -/

/-- Makes a cache. -/
def newCache : StateM Session (Ref Cache) :=
  fun s => (s.caches.next, { s with caches := s.caches.add .empty })

/-- Makes a script with the given answers. -/
def newScript (answers : List (String × Bool)) : StateM Session (Ref Script) :=
  fun s => (s.scripts.next, { s with scripts := s.scripts.add ⟨answers, []⟩ })

/-- Lets a computation over a cache change the cache in a cell. -/
def onCache {α : Type} (r : Ref Cache) (f : Cache → α × Cache) : StateM Session α :=
  fun s =>
    let x := f (s.caches.read r)
    (x.1, { s with caches := s.caches.write r x.2 })

/-- Lets a computation over a script change the script in a cell. -/
def onScript {α : Type} (r : Ref Script) (f : Script → α × Script) : StateM Session α :=
  fun s =>
    let x := f (s.scripts.read r)
    (x.1, { s with scripts := s.scripts.write r x.2 })

/-- The evaluator that a reference names. -/
def ask : EvaluatorRef → Evaluator Session
  | .builtIn r => fun predicate context => onCache r (Cache.evaluate predicate context)
  | .scripted r => fun predicate context => onScript r (Script.evaluate predicate context)
  | .answering answers => fun predicate context s => (answers predicate context, s)

/-! ## Overlays and sections -/

/-- The overlay over the content that its tree has now. -/
def view (s : Session) (o : LiveOverlay) : Overlay Session where
  tree := s.tree o.tree
  keys := o.keys
  context := poll o.source
  ask := ask o.evaluator

/-- Reads the node at a path. -/
def readSection (o : LiveOverlay) (path : String) : Attempt Session Section :=
  fun s => (do let v ← (s.view o).value path; pure ⟨o, path, v⟩ : Attempt Session Section) s

/-- Reads the node under a key below a section. -/
def readBelow (x : Section) (key : String) : Attempt Session Section :=
  readSection x.overlay (Path.combine x.path key)

/-- Reads the children of a node. -/
def readChildren (o : LiveOverlay) (parent : String) : Attempt Session (List Section) :=
  fun s =>
    (do
      let cs ← (s.view o).children parent
      pure (cs.map fun c => ⟨o, c.1, c.2⟩) : Attempt Session (List Section)) s

/-- Lists all values below a node, if the recursion ends. -/
def readFlat (o : LiveOverlay) (parent : String) (s : Session) :
    Option (Except RuleError Listing × Session) :=
  (s.view o).flatten parent s

/-- The value that a path holds in the tree itself. Rules are not looked for. -/
def rawValue (s : Session) (o : LiveOverlay) (path : String) : Option String :=
  (s.tree o.tree).value path

/-- Whether a section has the value it was read with, or its node has children now. -/
def sectionExists (s : Session) (x : Section) : Bool :=
  x.value.isSome || !((s.tree x.overlay.tree).childKeys x.path).isEmpty

end Session

end GuardedConfig
