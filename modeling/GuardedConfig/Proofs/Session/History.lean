import GuardedConfig.Proofs.Session.Run

/-!
# Reading does not depend on history

An overlay with the built-in evaluator and a source that does not change by being asked reads what
an overlay that was just built, with a cache of its own, reads over the content of the tree and the
context of the moment. What the cache holds by then, and what made it, cannot be told from a
reading.

Results:
* `Session.alike_fresh`: in a session with sound caches the two overlays cannot be told apart.
* `Session.read_eq_fresh`: after any run every reading comes to what the fresh overlay reads.
-/

namespace GuardedConfig

/-- A source that gives the same context however often it is asked, while no operation changes
it. -/
def Source.Steady : Source → Prop
  | .counting _ _ => False
  | .fixed _ | .shared _ | .absent => True

namespace Session

/-- An overlay with the options of another, over the content and the context of the moment, that
keeps its compiled predicates to itself. -/
def fresh (s : Session) (o : LiveOverlay) : Overlay Cache where
  tree := s.tree o.tree
  keys := o.keys
  context := pure (poll o.source s).1
  ask := Cache.evaluate

theorem poll_of_readFrom {s t : Session} (h : s.ReadFrom t) {source : Source}
    (hsource : source.Steady) : (poll source t).1 = (poll source s).1 := by
  cases source with
  | fixed _ | absent => rfl
  | shared r =>
    change t.currentContext r = s.currentContext r
    rw [currentContext, currentContext, h.2.shared]
  | counting path r => exact absurd hsource (by simp [Source.Steady])

theorem alike_evaluate (s : Session) (r : Ref Cache) :
    Evaluator.Alike (fun t cache => s.ReadFrom t ∧ cache.Sound) (ask (.builtIn r))
      Cache.evaluate := by
  rintro predicate context t cache ⟨ht, hcache⟩
  refine ⟨?_, keeps_ask s (.builtIn r) predicate context t ht,
    hcache.snd_evaluate predicate context⟩
  rw [hcache.fst_evaluate]
  exact (ht.1.read r).fst_evaluate predicate context

theorem alike_fresh (s : Session) {o : LiveOverlay} (hsource : o.source.Steady) {r : Ref Cache}
    (hask : o.evaluator = .builtIn r) :
    (s.view o).Alike (fun t cache => s.ReadFrom t ∧ cache.Sound) (s.fresh o) where
  tree := rfl
  keys := rfl
  context := by
    rintro t cache ⟨ht, hcache⟩
    exact ⟨poll_of_readFrom ht hsource, readFrom_poll ht o.source, hcache⟩
  ask := by
    rw [view, hask]
    exact alike_evaluate s r

/-- **Readings do not depend on history.** After any run of operations on trees, shared contexts,
caches and overlays, reading a section, the children of a node or all values below a node through
an overlay with the built-in evaluator and a fixed, shared or absent context comes to the value or
the error that a fresh overlay with an empty cache comes to. Reading all values below a node returns
if and only if it does for the fresh overlay. -/
theorem read_eq_fresh (actions : List Action) (o : LiveOverlay) (hsource : o.source.Steady)
    {r : Ref Cache} (hask : o.evaluator = .builtIn r) :
    let s := empty.run actions
    (∀ path, (readSection o path s).1 =
      ((s.fresh o).value path .empty).1.map fun v => ⟨o, path, v⟩) ∧
    (∀ parent, (readChildren o parent s).1 =
      ((s.fresh o).children parent .empty).1.map fun cs => cs.map fun c => ⟨o, c.1, c.2⟩) ∧
    ∀ parent, (readFlat o parent s).map Prod.fst =
      ((s.fresh o).flatten parent .empty).map Prod.fst := by
  intro s
  have halike := alike_fresh s hsource hask
  have hstart : s.ReadFrom s ∧ Cache.empty.Sound :=
    ⟨(sound_run sound_empty actions).readFrom, Cache.sound_empty⟩
  refine ⟨fun path => ?_, fun parent => ?_, fun parent => ?_⟩
  · rw [readSection_apply, (halike.value path s .empty hstart).1]
  · rw [readChildren_apply, (halike.children parent s .empty hstart).1]
  · exact halike.map_fst_flatten parent hstart

/-- A fee read for one context, and again after the context was swapped for one of another shape. -/
theorem read_eq_fresh_after_swap :
    ((readSection ⟨⟨0⟩, {}, .shared ⟨0⟩, .builtIn ⟨0⟩⟩ "fee" (empty.run [
      .newTree (.ofPairs [("fee:_rules:vip:when", "tier >= 2"), ("fee:_rules:vip:value", "0"),
        ("fee:_rules:else:value", "10")]),
      .newShared (some (.ofSettings [("tier", .float .zero)])),
      .newCache,
      .readSection ⟨⟨0⟩, {}, .shared ⟨0⟩, .builtIn ⟨0⟩⟩ "fee",
      .swapContext ⟨0⟩ (some (.ofSettings [("tier", .int 2)]))])).1.map Section.value).toOption =
      some (some "0") := by
  obtain ⟨hsection, -, -⟩ := read_eq_fresh _ ⟨⟨0⟩, {}, .shared ⟨0⟩, .builtIn ⟨0⟩⟩ trivial rfl
  rw [hsection]
  decide +kernel

end Session

end GuardedConfig
