import GuardedConfig.Proofs.Overlay.Polls
import GuardedConfig.Proofs.Session.Run

/-!
# The counter of a polling source

A session counts how often a polling source was asked. What the counter says is what the traces of
the calls show: it goes up by one for every well declared node that a call reads.

Results:
* `Session.counted_traced`: the counter after a reading is the one before with the polls of the
  trace.
* `Session.counts_of_step`: the counter after one call.
* `Session.polls_of_calls`: the counter after a row of calls.
-/

namespace GuardedConfig

open Overlay (Call)

/-- The operation that makes a call through an overlay. -/
def Overlay.Call.action (o : LiveOverlay) : Call → Action
  | .value path => .readSection o path
  | .children parent => .readChildren o parent
  | .flatten parent => .readFlat o parent

namespace Session

theorem step_action {s : Session} {o : LiveOverlay} {c : Call} {r : Except RuleError Unit × Session}
    (h : (s.view o).call c s = some r) : s.step (c.action o) = r.2 := by
  cases c with
  | value path =>
    cases h
    exact congrArg Prod.snd (readSection_apply o path s)
  | children parent =>
    cases h
    exact congrArg Prod.snd (readChildren_apply o parent s)
  | flatten parent =>
    obtain ⟨x, hx, rfl⟩ := Option.map_eq_some_iff.mp h
    exact step_readFlat hx

/-- Trees are as in another session, and a counter has gone up by the polls of a trace. -/
structure Counted (s : Session) (r : Ref PollCount) (t : Session × List Event) : Prop where
  trees : t.1.trees = s.trees
  made : r.index < t.1.counts.cells.length
  count : (t.1.counts.read r).count = (s.counts.read r).count + t.2.countP Event.isPoll

/-- **The counter keeps up with the trace.** -/
theorem counted_traced (s : Session) {o : LiveOverlay} {field : String} {r : Ref PollCount}
    (hsource : o.source = .counting field r) : (s.view o).traced.Keeps (s.Counted r) where
  context := by
    rintro ⟨t, log⟩ ⟨htrees, hmade, hcount⟩
    unfold Overlay.traced view
    dsimp only
    rw [hsource]
    refine ⟨htrees, by simpa [poll, Store.write] using hmade, ?_⟩
    have hread : ((poll (.counting field r) t).2.counts.read r).count =
        (t.counts.read r).count + 1 :=
      congrArg PollCount.count (Store.read_write_self hmade _)
    rw [hread, hcount, List.countP_append]
    rfl
  ask := by
    rintro predicate context ⟨t, log⟩ ⟨htrees, hmade, hcount⟩
    have hlog : (log ++ [Event.asked ⟨predicate, context⟩]).countP Event.isPoll =
        log.countP Event.isPoll := by
      rw [List.countP_append]
      rfl
    rw [← hlog] at hcount
    unfold Overlay.traced view
    cases o.evaluator with
    | builtIn _ | scripted _ | answering _ => exact ⟨htrees, hmade, hcount⟩

theorem counted_call {s : Session} {o : LiveOverlay} {field : String} {r : Ref PollCount}
    (hsource : o.source = .counting field r) (hr : r.index < s.counts.cells.length) {c : Call}
    {x : Except RuleError Unit × Session × List Event}
    (h : (s.view o).traced.call c (s, []) = some x) : s.Counted r x.2 := by
  obtain ⟨levels, hreads⟩ := (Overlay.call_eq_reads _ h).exists_levels
  rw [← hreads]
  exact (counted_traced s hsource).reads _ (s, []) ⟨rfl, hr, rfl⟩

/-- What one call that returns does to a session: the overlay sees the same tree, the counter is
still there and has gone up by the well declared nodes that were read. -/
theorem counts_of_step {s : Session} {o : LiveOverlay} {field : String} {r : Ref PollCount}
    (hsource : o.source = .counting field r) (hr : r.index < s.counts.cells.length) {c : Call}
    {x : Except RuleError Unit × Session} (h : (s.view o).call c s = some x) :
    (s.step (c.action o)).tree o.tree = s.tree o.tree ∧
      r.index < (s.step (c.action o)).counts.cells.length ∧
      (s.tree o.tree).EnoughLevels fun levels =>
        ((s.step (c.action o)).counts.read r).count = (s.counts.read r).count +
          ((s.view o).reached (c.paths (s.tree o.tree) o.keys.marker levels) s).countP
            ((s.tree o.tree).wellDeclared o.keys) := by
  obtain ⟨⟨y, t, log⟩, htraced, hx⟩ := Option.map_eq_some_iff.mp
    (((s.view o).traced_call c s []).trans h)
  obtain ⟨htrees, hmade, hcount⟩ := counted_call hsource hr htraced
  have hstep : s.step (c.action o) = t := by
    rw [step_action h, ← hx]
  rw [hstep]
  refine ⟨?_, hmade, ((s.view o).trace_call htraced).imp ?_⟩
  · unfold tree
    rw [htrees]
  · rintro levels ⟨rs, hevents, hpaths, -⟩
    have hlength := congrArg List.length hpaths
    rw [List.length_map] at hlength
    rw [hcount, hevents, Overlay.countP_flatMap_events, hlength, List.countP_eq_length_filter]
    rfl

/-- **The counter after a row of calls** that all return is the one before with the well declared
nodes that the calls read. -/
theorem polls_of_calls {s : Session} {o : LiveOverlay} {field : String} {r : Ref PollCount}
    (hsource : o.source = .counting field r) (hr : r.index < s.counts.cells.length)
    {calls : List Call} (hreturn : ((s.view o).traces calls s).length = calls.length) :
    (s.tree o.tree).EnoughLevels fun levels =>
      (s.run (calls.map (Call.action o))).polls o.source =
        s.polls o.source + (((s.view o).visited levels calls s).map
          (List.countP ((s.tree o.tree).wellDeclared o.keys))).sum := by
  induction calls generalizing s with
  | nil => exact .of_forall fun _ => rfl
  | cons c calls ih =>
    rw [Overlay.traces] at hreturn
    cases htraced : (s.view o).traced.call c (s, []) with
    | none =>
      rw [htraced] at hreturn
      cases hreturn
    | some x =>
      obtain ⟨y, t, log⟩ := x
      rw [htraced] at hreturn
      have hcall : (s.view o).call c s = some (y, t) := by
        rw [← (s.view o).traced_call c s [], htraced]
        rfl
      obtain ⟨htree, hmade, hcount⟩ := counts_of_step hsource hr hcall
      rw [step_action hcall] at htree hmade hcount
      dsimp only at htree hmade hcount
      have hview : t.view o = s.view o := by
        unfold view
        rw [htree]
      have hpolls (u : Session) : u.polls o.source = (u.counts.read r).count := by
        rw [hsource]
        rfl
      have hrest := ih hmade (hview ▸ Nat.succ.inj hreturn)
      rw [hview, htree] at hrest
      refine (hcount.and hrest).imp ?_
      rintro levels ⟨hone, hmore⟩
      calc (s.run ((c :: calls).map (Call.action o))).polls o.source
          = (t.run (calls.map (Call.action o))).polls o.source := by
            rw [List.map_cons, run, List.foldl_cons, step_action hcall]
            rfl
        _ = t.polls o.source + (((s.view o).visited levels calls t).map
              (List.countP ((s.tree o.tree).wellDeclared o.keys))).sum := hmore
        _ = _ := by
            rw [hpolls t, hone, hpolls s, Overlay.visited, hcall]
            dsimp only
            rw [List.map_cons, List.sum_cons, Nat.add_assoc]
            rfl

end Session

end GuardedConfig
