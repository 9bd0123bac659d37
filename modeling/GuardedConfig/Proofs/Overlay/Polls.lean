import GuardedConfig.Proofs.Overlay.Calls
import GuardedConfig.Proofs.Rule.Questions

/-!
# One poll for every rule set that is resolved

A source of contexts may give another one each time it is asked. A trace shows when that happens: it
has the polls of the source and the questions to the evaluator in the order in which they were made,
beside the state, so that it changes no reading. The trace of a reading is made of one piece for
each node with a well declared rule set that was read: the poll, and then questions about guards of
the set, all with the context that was polled.

Results:
* `Tree.wellDeclared_iff`: a node is well declared if its rules can be read.
* `Overlay.trace_value`: the piece of the trace that reading one node makes.
* `Overlay.trace_reads`: the pieces that reading nodes one after the other makes.
* `Overlay.polls_once_per_resolution`: the traces of a row of calls.
-/

namespace GuardedConfig

open GuardedConfig.Path (combine)

variable {σ : Type}

/-! ## Traces -/

/-- What a reading does that a trace shows. -/
inductive Event where
  /-- The source was asked for the context of the moment and gave this. -/
  | polled (context : Option Context)
  | asked (question : Question)
  deriving DecidableEq

/-- Whether an event is a poll. -/
def Event.isPoll : Event → Bool
  | polled _ => true
  | asked _ => false

namespace Overlay

/-- The overlay with a trace of what it does beside its state. -/
def traced (o : Overlay σ) : Overlay (σ × List Event) where
  tree := o.tree
  keys := o.keys
  context := fun s =>
    let x := o.context s.1
    (x.1, x.2, s.2 ++ [.polled x.1])
  ask := fun predicate context s =>
    let x := o.ask predicate context s.1
    (x.1, x.2, s.2 ++ [.asked ⟨predicate, context⟩])

theorem alike_traced (o : Overlay σ) : o.traced.Alike (fun s t => s.1 = t) o where
  tree := rfl
  keys := rfl
  context := by
    rintro s _ rfl
    exact ⟨rfl, rfl⟩
  ask := by
    rintro predicate context s _ rfl
    exact ⟨rfl, rfl⟩

end Overlay

/-- One resolution of a rule set: the node above its marker, the context that was polled and the
predicates that were asked about. -/
structure Resolution where
  path : String
  context : Option Context
  predicates : List String

namespace Resolution

/-- What a trace shows of a resolution. -/
def events (r : Resolution) : List Event :=
  .polled r.context :: r.predicates.map fun p => .asked ⟨p, r.context⟩

/-- The predicates are guards of the rules that an overlay reads at the path, from the first one
on. -/
def Of (o : Overlay σ) (r : Resolution) : Prop :=
  ∃ rules, o.tree.ruleSetAt o.keys (combine r.path o.keys.marker) = .ok rules ∧
    r.predicates <+: (guarded rules.rules).map Prod.fst

theorem countP_events (r : Resolution) : r.events.countP Event.isPoll = 1 := by
  rw [events, List.countP_cons_of_pos rfl, List.countP_map]
  simp [Event.isPoll, Function.comp_def]

end Resolution

/-! ## Well declared nodes -/

namespace Tree

/-- Whether a node has the marker as a child, with no value at the marker and a value in each of its
entries. -/
def wellDeclared (t : Tree) (keys : RuleKeys) (path : String) : Bool :=
  let marker := combine path keys.marker
  (t.childKeys path).contains keys.marker && (t.value marker).isNone &&
    (t.childKeys marker).all fun k => (t.value (combine (combine marker k) keys.value)).isSome

variable {t : Tree} {keys : RuleKeys}

theorem ruleAt_ok_iff {marker key : String} :
    (∃ r, t.ruleAt keys marker key = .ok r) ↔
      (t.value (combine (combine marker key) keys.value)).isSome := by
  unfold ruleAt
  dsimp only
  cases t.value (combine (combine marker key) keys.value) with
  | some v => simp
  | none => cases t.value (combine (combine marker key) keys.guard) <;> simp

theorem mapM_ok_iff {α β ε : Type} {f : α → Except ε β} {as : List α} :
    (∃ bs, as.mapM f = .ok bs) ↔ ∀ a ∈ as, ∃ b, f a = .ok b := by
  induction as with
  | nil => exact ⟨fun _ a ha => absurd ha (by simp), fun _ => ⟨[], rfl⟩⟩
  | cons a as ih =>
    rw [List.mapM_cons, List.forall_mem_cons, ← ih]
    cases f a with
    | error e => simp [bind, Except.bind]
    | ok b => cases as.mapM f <;> simp [bind, Except.bind, pure, Except.pure]

theorem wellDeclared_iff {path : String} :
    t.wellDeclared keys path = true ↔ t.bearsRules keys path = true ∧
      ∃ rules, t.ruleSetAt keys (combine path keys.marker) = .ok rules := by
  have hentries : (∃ rs, (entryKeys (t.childKeys (combine path keys.marker))).mapM
      (t.ruleAt keys (combine path keys.marker)) = .ok rs) ↔
      ∀ k ∈ t.childKeys (combine path keys.marker),
        (t.value (combine (combine (combine path keys.marker) k) keys.value)).isSome := by
    rw [mapM_ok_iff]
    refine forall_congr' fun k => ?_
    rw [(entryKeys_perm _).mem_iff, ruleAt_ok_iff]
  rw [wellDeclared, Bool.and_eq_true, Bool.and_eq_true, List.all_eq_true, ← hentries, and_assoc,
    bearsRules, ruleSetAt]
  refine and_congr_right fun _ => ?_
  cases t.value (combine path keys.marker) with
  | some v => simp
  | none =>
    cases (entryKeys (t.childKeys (combine path keys.marker))).mapM
      (t.ruleAt keys (combine path keys.marker)) <;> simp [bind, Except.bind]

end Tree

/-! ## The trace of one reading -/

namespace Overlay

variable (o : Overlay σ)

/-- Trying guards asks about them in order, all with the context that they are tried in. -/
theorem trace_firstMatch (context : Option Context) (rules : List Rule) (s : σ × List Event) :
    ∃ ps, ps <+: (guarded rules).map Prod.fst ∧
      (firstMatch o.traced.ask context rules s).2.2 =
        s.2 ++ ps.map fun p => .asked ⟨p, context⟩ := by
  induction rules generalizing s with
  | nil => exact ⟨[], List.prefix_refl _, (List.append_nil _).symm⟩
  | cons r rules ih =>
    cases hp : r.predicate with
    | none =>
      rw [guarded_cons_of_default hp, firstMatch, hp]
      exact ih s
    | some p =>
      rw [guarded_cons_of_guard hp, List.map_cons, firstMatch, hp]
      dsimp only
      rw [Attempt.bind_apply]
      rcases hask : o.ask p context s.1 with ⟨answer, t⟩
      have htraced : o.traced.ask p context s = (answer, t, s.2 ++ [.asked ⟨p, context⟩]) := by
        rw [traced]
        dsimp only
        rw [hask]
      have hone : [p] <+: p :: (guarded rules).map Prod.fst :=
        List.cons_prefix_cons.mpr ⟨rfl, List.nil_prefix⟩
      rw [htraced]
      rcases answer with _ | (_ | _)
      · exact ⟨[p], hone, rfl⟩
      · -- the guard is refused, and the others are tried behind its question
        obtain ⟨ps, hps, hrest⟩ := ih (t, s.2 ++ [.asked ⟨p, context⟩])
        exact ⟨p :: ps, List.cons_prefix_cons.mpr ⟨rfl, hps⟩,
          hrest.trans (List.append_assoc _ _ _)⟩
      · exact ⟨[p], hone, rfl⟩

theorem trace_resolve (rules : RuleSet) (context : Option Context) (s : σ × List Event) :
    ∃ ps, ps <+: (guarded rules.rules).map Prod.fst ∧
      (rules.resolve context o.traced.ask s).2.2 =
        s.2 ++ ps.map fun p => .asked ⟨p, context⟩ := by
  by_cases hmany : 2 ≤ (rules.rules.filter Rule.isDefault).length
  · rw [RuleSet.resolve_of_many_defaults hmany]
    exact ⟨[], List.nil_prefix, (List.append_nil _).symm⟩
  · rw [RuleSet.resolve_of_default (by omega)]
    exact o.trace_firstMatch context rules.rules s

/-- **The piece of a trace that reading a node makes**: one poll and its questions where the node is
well declared, and nothing otherwise. -/
theorem trace_value (path : String) (s : σ) (log : List Event) :
    ∃ rs : List Resolution,
      (o.traced.value path (s, log)).2.2 = log ++ rs.flatMap Resolution.events ∧
      rs.map Resolution.path = [path].filter (o.tree.wellDeclared o.keys) ∧
      ∀ r ∈ rs, r.Of o := by
  by_cases hdeclared : o.tree.wellDeclared o.keys path = true
  · obtain ⟨hbears, rules, hrules⟩ := Tree.wellDeclared_iff.mp hdeclared
    obtain ⟨ps, hps, htrace⟩ := o.trace_resolve rules (o.context s).1
      ((o.context s).2, log ++ [.polled (o.context s).1])
    refine ⟨[⟨path, (o.context s).1, ps⟩], ?_, ?_, ?_⟩
    · rw [value_of_rules (o := o.traced) hbears hrules, List.flatMap_singleton, Resolution.events,
        List.append_cons]
      exact htrace
    · rw [List.filter_cons_of_pos hdeclared]
      rfl
    · intro r hr
      rw [List.mem_singleton.mp hr]
      exact ⟨rules, hrules, hps⟩
  · refine ⟨[], ?_, ?_, fun r hr => absurd hr (by simp)⟩
    · rw [List.flatMap_nil, List.append_nil]
      cases hbears : o.tree.bearsRules o.keys path with
      | false => rw [value_of_plain (o := o.traced) hbears]
      | true =>
        cases hrules : o.tree.ruleSetAt o.keys (combine path o.keys.marker) with
        | error e => rw [value_of_malformed (o := o.traced) hbears hrules]
        | ok rules => exact absurd (Tree.wellDeclared_iff.mpr ⟨hbears, rules, hrules⟩) hdeclared
    · rw [List.filter_cons_of_neg hdeclared]
      rfl

/-! ## The trace of several readings -/

/-- The paths that are read when paths are read one after the other: all up to the first that fails,
and that one. -/
def reached (o : Overlay σ) : List String → σ → List String
  | [], _ => []
  | path :: paths, s =>
    path :: match o.value path s with
      | (.ok _, s') => o.reached paths s'
      | (.error _, _) => []

theorem trace_reads (paths : List String) (s : σ) (log : List Event) :
    ∃ rs : List Resolution,
      (o.traced.reads paths (s, log)).2.2 = log ++ rs.flatMap Resolution.events ∧
      rs.map Resolution.path = (o.reached paths s).filter (o.tree.wellDeclared o.keys) ∧
      ∀ r ∈ rs, r.Of o := by
  induction paths generalizing s log with
  | nil => exact ⟨[], (List.append_nil _).symm, rfl, fun r hr => absurd hr (by simp)⟩
  | cons path paths ih =>
    obtain ⟨rs, htrace, hpaths, hof⟩ := o.trace_value path s log
    obtain ⟨hout, hstate⟩ := o.alike_traced.value path (s, log) s rfl
    rw [reads, reached, Attempt.bind_apply]
    rcases htraced : o.traced.value path (s, log) with ⟨outcome, t, log'⟩
    rw [htraced] at htrace hout hstate
    have hvalue : o.value path s = (outcome, t) := Prod.ext hout.symm hstate.symm
    rw [hvalue]
    cases outcome with
    | error e => exact ⟨rs, htrace, hpaths, hof⟩
    | ok v =>
      obtain ⟨more, htrace', hpaths', hof'⟩ := ih t log'
      refine ⟨rs ++ more, ?_, ?_, fun r hr => (List.mem_append.mp hr).elim (hof r) (hof' r)⟩
      · rw [List.flatMap_append, ← List.append_assoc, ← htrace]
        exact htrace'
      · rw [List.map_append, hpaths, hpaths', ← List.filter_append]
        rfl

end Overlay

/-! ## The traces of a row of calls -/

namespace Overlay

variable (o : Overlay σ)

/-- The paths that each of a row of calls reads, below a node down to a number of levels. A call
that fails does not end the row, but one that does not return does. -/
def visited (levels : Nat) : List Call → σ → List (List String)
  | [], _ => []
  | c :: calls, s =>
    match o.call c s with
    | some (_, s') =>
      o.reached (c.paths o.tree o.keys.marker levels) s :: visited levels calls s'
    | none => []

/-- The traces of a row of calls, up to one that does not return. -/
def traces : List Call → σ → List (List Event)
  | [], _ => []
  | c :: calls, s =>
    match o.traced.call c (s, []) with
    | some (_, s', log) => log :: traces calls s'
    | none => []

theorem traced_call (c : Call) (s : σ) (log : List Event) :
    (o.traced.call c (s, log)).map (fun x => (x.1, x.2.1)) = o.call c s := by
  have hcall := o.alike_traced.call c (s := (s, log)) rfl
  generalize o.traced.call c (s, log) = x, o.call c s = y at hcall ⊢
  cases hcall with
  | some hrel => exact congrArg some (Prod.ext hrel.1 hrel.2)
  | none => rfl

/-- What the trace of one call is made of. -/
theorem trace_call {c : Call} {s : σ} {x : Except RuleError Unit × σ × List Event}
    (h : o.traced.call c (s, []) = some x) :
    o.tree.EnoughLevels fun levels =>
      ∃ rs : List Resolution, x.2.2 = rs.flatMap Resolution.events ∧
        rs.map Resolution.path =
          (o.reached (c.paths o.tree o.keys.marker levels) s).filter
            (o.tree.wellDeclared o.keys) ∧
        ∀ r ∈ rs, r.Of o := by
  refine (call_eq_reads o.traced h).imp fun levels hreads => ?_
  rw [← hreads]
  exact o.trace_reads _ s []

/-- What the traces of a row of calls are made of. -/
theorem trace_calls (calls : List Call) (s : σ) :
    o.tree.EnoughLevels fun levels =>
      ∃ rss : List (List Resolution),
        o.traces calls s = rss.map (List.flatMap Resolution.events) ∧
        rss.map (List.map Resolution.path) =
          (o.visited levels calls s).map (List.filter (o.tree.wellDeclared o.keys)) ∧
        ∀ rs ∈ rss, ∀ r ∈ rs, r.Of o := by
  induction calls generalizing s with
  | nil => exact .of_forall fun _ => ⟨[], rfl, rfl, fun rs hrs => absurd hrs (by simp)⟩
  | cons c calls ih =>
    have hcall := o.traced_call c s []
    cases htraced : o.traced.call c (s, []) with
    | none =>
      rw [htraced] at hcall
      refine .of_forall fun levels => ⟨[], ?_, ?_, fun rs hrs => absurd hrs (by simp)⟩
      · rw [traces, htraced, List.map_nil]
      · rw [visited, ← hcall]
        rfl
    | some x =>
      obtain ⟨r, s', log⟩ := x
      rw [htraced] at hcall
      refine ((o.trace_call htraced).and (ih s')).imp ?_
      rintro levels ⟨⟨rs, htrace, hpaths, hof⟩, rss, htraces, hvisited, hofs⟩
      refine ⟨rs :: rss, ?_, ?_, List.forall_mem_cons.mpr ⟨hof, hofs⟩⟩
      · rw [traces, htraced, List.map_cons, ← htraces, ← htrace]
      · rw [visited, ← hcall, List.map_cons, hpaths, hvisited]
        rfl

theorem length_traces (hroot : "" ∉ o.tree.childKeys "") (calls : List Call) (s : σ) :
    (o.traces calls s).length = calls.length := by
  induction calls generalizing s with
  | nil => rfl
  | cons c calls ih =>
    obtain ⟨⟨r, s', log⟩, htraced⟩ := call_returns (o := o.traced) hroot c (s, [])
    rw [traces, htraced]
    exact congrArg (· + 1) (ih s')

theorem countP_flatMap_events (rs : List Resolution) :
    (rs.flatMap Resolution.events).countP Event.isPoll = rs.length := by
  induction rs with
  | nil => rfl
  | cons r rs ih =>
    rw [List.flatMap_cons, List.countP_append, ih, r.countP_events, List.length_cons, Nat.add_comm]

/-- **The source is polled once for every rule set that is resolved.** A call that returns reads its
paths in order, below a node in pre-order, up to and including the first that fails. Of these, each
well declared node makes one piece of the trace: a poll, and then questions about guards of its
rules in their order, all with the context that was polled. No other node makes any. So a call polls
as often as it reads a well declared node, and tracing changes no call. Every call returns, and
reads no more levels below a node than the tree has and one, unless the root has a child with the
empty key. -/
theorem polls_once_per_resolution (calls : List Call) (s : σ) :
    (o.tree.EnoughLevels fun levels =>
      (∃ rss : List (List Resolution),
        o.traces calls s = rss.map (List.flatMap Resolution.events) ∧
        rss.map (List.map Resolution.path) =
          (o.visited levels calls s).map (List.filter (o.tree.wellDeclared o.keys)) ∧
        ∀ rs ∈ rss, ∀ r ∈ rs, r.Of o) ∧
      (o.traces calls s).map (List.countP Event.isPoll) =
        (o.visited levels calls s).map (List.countP (o.tree.wellDeclared o.keys))) ∧
    (∀ c r, o.call c s = some r → o.tree.EnoughLevels fun levels =>
      o.reads (c.paths o.tree o.keys.marker levels) s = r) ∧
    (∀ levels parent, o.tree.pathsBelow o.keys.marker (levels + 1) parent =
      (o.tree.listedBelow o.keys.marker parent).flatMap fun path =>
        path :: o.tree.pathsBelow o.keys.marker levels path) ∧
    (∀ parent, (parent = "" → "" ∉ o.tree.keysAt []) →
      o.tree.preorder o.keys.marker parent =
        (o.tree.listedBelow o.keys.marker parent).flatMap fun path =>
          path :: o.tree.preorder o.keys.marker path) ∧
    (∀ c log, (o.traced.call c (s, log)).map (fun x => (x.1, x.2.1)) = o.call c s) ∧
    ("" ∉ o.tree.childKeys "" → (o.traces calls s).length = calls.length) := by
  refine ⟨(o.trace_calls calls s).imp ?_, fun c r => o.call_eq_reads, fun _ _ => rfl,
    fun _ => Tree.preorder_eq, fun c => o.traced_call c s,
    fun hroot => o.length_traces hroot calls s⟩
  rintro levels ⟨rss, htraces, hvisited, hof⟩
  refine ⟨⟨rss, htraces, hvisited, hof⟩, ?_⟩
  -- a call polls once for each of its pieces
  have hlength := congrArg (List.map List.length) hvisited
  rw [List.map_map, List.map_map] at hlength
  rw [htraces, List.map_map]
  refine Eq.trans (List.map_congr_left fun rs _ => ?_) (hlength.trans ?_)
  · exact (countP_flatMap_events rs).trans (List.length_map _).symm
  · exact List.map_congr_left fun paths _ => List.countP_eq_length_filter.symm

/-- A root with rules and with a child of the empty key: flattening starts again at the root until a
guard has no context. It reads `a` and the root twice and polls four times. A later call for `c`,
which is badly declared, polls nothing, and one for `a`, which has a default only, polls once. -/
theorem polls_once_per_resolution_of_empty_key :
    let o : Overlay Nat := {
      tree := .ofPairs [("a:_rules:all:value", "1"), ("_rules:vip:when", "vip"),
        ("_rules:vip:value", "0"), (":x", "2"), ("c:_rules", "7")]
      keys := {}
      context := fun n => (if n < 3 then some (.ofSettings [("vip", .bool true)]) else none, n + 1)
      ask := fun predicate context n => ((Cache.evaluate predicate context .empty).1, n) }
    let calls := [.flatten "", .value "c", .value "a"]
    (o.flatten "" 0).map Prod.fst = some (.error (.missingContext "vip")) ∧
      (o.traces calls 0).map (List.countP Event.isPoll) = [4, 0, 1] ∧
      o.tree.EnoughLevels fun levels =>
        (o.visited levels calls 0).map (List.countP (o.tree.wellDeclared o.keys)) = [4, 0, 1] := by
  intro o calls
  let c : Context := .ofSettings [("vip", .bool true)]
  let log : List Event := [.polled (some c), .polled (some c), .asked ⟨"vip", some c⟩,
    .polled (some c), .polled none, .asked ⟨"vip", none⟩]
  have hkey : "a" ≠ o.traced.keys.marker := by decide
  have hempty : "" ≠ o.traced.keys.marker := by decide
  have hroot : o.traced.tree.childKeys "" = ["a", "_rules", "", "c"] := by decide +kernel
  have ha : o.traced.tree.childKeys "a" = ["_rules"] := by decide +kernel
  have h0 : o.traced.value "a" (0, []) = (.ok (some "1"), 1, log.take 1) :=
    Prod.ext (by decide +kernel) (by decide +kernel)
  have h1 : o.traced.value "" (1, log.take 1) = (.ok (some "0"), 2, log.take 3) :=
    Prod.ext (by decide +kernel) (by decide +kernel)
  have h2 : o.traced.value "a" (2, log.take 3) = (.ok (some "1"), 3, log.take 4) :=
    Prod.ext (by decide +kernel) (by decide +kernel)
  have h3 : o.traced.value "" (3, log.take 4) = (.error (.missingContext "vip"), 4, log) :=
    Prod.ext (by decide +kernel) (by decide +kernel)
  have hend l s : o.traced.Ends 1 "a" (o.traced.tree.childKeys "a") l s (.ok l, s) := by
    rw [ha]
    exact .marker rfl .done
  have hagain l : ∃ depth, o.traced.Ends depth "" (o.traced.tree.childKeys "") l
      (2, log.take 3) (.error (.missingContext "vip"), 4, log) := by
    rw [hroot]
    exact ⟨_, .next hkey h2 (hend _ _) (.marker rfl (.unread hempty h3))⟩
  have hflat : o.traced.flatten "" (0, []) = some (.error (.missingContext "vip"), 4, log) := by
    obtain ⟨depth, hagain⟩ := hagain [("a", "1")]
    rw [flatten_eq_some_iff]
    unfold Returns
    rw [hroot]
    exact ⟨_, .next hkey h0 (hend _ _) (.marker rfl (.stopped hempty h1 hagain))⟩
  have htraces : o.traces calls 0 = [log, [], [.polled none]] := by
    unfold traces
    rw [call_flatten hflat]
    decide +kernel
  obtain ⟨u, -, hfails⟩ := o.alike_traced.flatten_eq_some (t := 0) rfl hflat
  obtain ⟨hpolls, -⟩ := o.polls_once_per_resolution calls 0
  have hcounts : (o.traces calls 0).map (List.countP Event.isPoll) = [4, 0, 1] := by
    rw [htraces]
    rfl
  exact ⟨congrArg (Option.map Prod.fst) hfails, hcounts,
    hpolls.imp fun levels h => h.2.symm.trans hcounts⟩

end Overlay

end GuardedConfig
