import GuardedConfig.Proofs.Overlay.Calls
import GuardedConfig.Proofs.Predicate.Answers
import GuardedConfig.Proofs.Rule.Questions

/-!
# Which errors can surface

An overlay with the built-in evaluator that reads in contexts of numbers fails in three ways only: a
rule set is badly declared, a guard does not compile for the context, or there is no context and a
guard to try. A blank guard is never asked about, since it makes its rule a default, and a guard
that compiles answers.

Results:
* `Overlay.Recalls`: overlays whose evaluator answers as one without a memory does.
* `Overlay.Recalls.value_error`: why one node has no value.
* `Overlay.reads_error`: an error of several readings is that of the first node that fails.
* `Overlay.read_errors`: the errors of a call.
-/

namespace GuardedConfig

open GuardedConfig.Path (combine)

/-! ## Badly declared rules -/

theorem exists_of_mapM_error {α β ε : Type} {f : α → Except ε β} {as : List α} {e : ε}
    (h : as.mapM f = .error e) : ∃ a ∈ as, f a = .error e := by
  induction as with
  | nil => cases h
  | cons a as ih =>
    rw [List.mapM_cons] at h
    cases ha : f a with
    | error d =>
      rw [ha] at h
      cases h
      exact ⟨a, List.mem_cons_self, ha⟩
    | ok b =>
      rw [ha] at h
      cases has : as.mapM f with
      | error d =>
        rw [has] at h
        cases h
        obtain ⟨c, hc, hfail⟩ := ih has
        exact ⟨c, List.mem_cons_of_mem a hc, hfail⟩
      | ok bs =>
        rw [has] at h
        cases h

/-- Rules that cannot be read are badly declared. -/
theorem Tree.malformed_of_ruleSetAt {t : Tree} {keys : RuleKeys} {marker : String} {e : RuleError}
    (h : t.ruleSetAt keys marker = .error e) : ∃ fault, e = .malformedRuleSet marker fault := by
  unfold ruleSetAt at h
  split at h
  · cases h
    exact ⟨_, rfl⟩
  · cases hrules : (entryKeys (t.childKeys marker)).mapM (t.ruleAt keys marker) with
    | ok rules =>
      rw [hrules] at h
      cases h
    | error d =>
      rw [hrules] at h
      cases h
      obtain ⟨k, -, hk⟩ := exists_of_mapM_error hrules
      unfold ruleAt at hk
      dsimp only at hk
      split at hk
      all_goals cases hk
      all_goals exact ⟨_, rfl⟩

/-! ## Guards -/

/-- A guard that is tried is not blank. -/
theorem not_blank_of_mem_guarded {rules : List Rule} {g : String × String} (h : g ∈ guarded rules) :
    blankText g.1 = false := by
  obtain ⟨r, -, hr⟩ := List.mem_filterMap.mp h
  obtain ⟨p, hp, rfl⟩ := Option.map_eq_some_iff.mp hr
  unfold Rule.predicate at hp
  obtain ⟨-, hblank⟩ := Option.filter_eq_some_iff.mp hp
  simpa using hblank

namespace Overlay

variable {σ : Type} {P : σ → Prop} {o : Overlay σ}

/-- From every state with a property, which reading keeps, the evaluator answers as one that
remembers nothing does. -/
structure Recalls (P : σ → Prop) (o : Overlay σ) : Prop extends o.Keeps P where
  answers : ∀ predicate context s, P s →
    (o.ask predicate context s).1 = Cache.freshAnswer predicate context

theorem Recalls.of_refused (h : o.Recalls P) {context : Option Context} {ps : List String} {s t : σ}
    (hs : P s) (hrefused : Refused o.ask context ps s t) : P t := by
  induction hrefused with
  | nil s => exact hs
  | @cons p ps s t u first _ ih =>
    have hkept := h.ask p context s hs
    rw [first] at hkept
    exact ih hkept

/-- Without a context the first guard fails. -/
theorem Recalls.not_refused (h : o.Recalls P) {p : String} {ps : List String} {s t : σ} (hs : P s)
    (hblank : blankText p = false) : ¬Refused o.ask none (p :: ps) s t := by
  intro hrefused
  cases hrefused with
  | @cons _ _ _ u _ first _ =>
    have hanswer := h.answers p none s hs
    rw [first, Cache.freshAnswer_none hblank] at hanswer
    cases hanswer

/-- Why trying guards fails: a guard does not compile, or there is no context for the first one. -/
theorem Recalls.firstMatch_error (h : o.Recalls P) {context : Option Context}
    (hcontext : ∀ c, context = some c → c.AllNumbers) {rules : List Rule} {s : σ} (hs : P s)
    {e : RuleError} (he : (firstMatch o.ask context rules s).1 = .error e) :
    (∃ p cause, e = .compilation p cause) ∨
      context = none ∧ ∃ p, (guarded rules).head?.map Prod.fst = some p ∧
        e = .missingContext p := by
  obtain ⟨t, -, hnone⟩ | ⟨before, p, v, after, t, answer, u, hsplit, hrefused, hask, -, hfirst⟩ :=
    firstMatch_cases o.ask context rules s
  · rw [hnone] at he
    cases he
  · have hanswer := h.answers p context t (h.of_refused hs hrefused)
    rw [hask] at hanswer
    have hfails : answer = .error e := by
      rw [hfirst] at he
      cases answer with
      | ok b => cases he
      | error d =>
        cases he
        rfl
    have hblank {g : String × String} (hg : g ∈ before ++ (p, v) :: after) :
        blankText g.1 = false := not_blank_of_mem_guarded (hsplit ▸ hg)
    have hp : blankText p = false := hblank (g := (p, v)) (by simp)
    cases context with
    | some c =>
      obtain ⟨b, hb⟩ | ⟨cause, hcause⟩ := Cache.freshAnswer_cases hp (hcontext c rfl)
      · rw [hfails, hb] at hanswer
        cases hanswer
      · rw [hfails, hcause] at hanswer
        cases hanswer
        exact .inl ⟨p, cause, rfl⟩
    | none =>
      rw [hfails, Cache.freshAnswer_none hp] at hanswer
      cases hanswer
      refine .inr ⟨rfl, p, ?_, rfl⟩
      cases before with
      | nil =>
        rw [hsplit]
        rfl
      | cons g before => exact absurd hrefused (h.not_refused hs (hblank (by simp)))

/-! ## One node -/

/-- A node has a well declared rule set that can be resolved and has a guard to try, the first one
being `p`. -/
structure Guarded (o : Overlay σ) (path p : String) (rules : RuleSet) : Prop where
  bears : o.tree.bearsRules o.keys path = true
  declared : o.tree.ruleSetAt o.keys (combine path o.keys.marker) = .ok rules
  oneDefault : (rules.rules.filter Rule.isDefault).length ≤ 1
  first : (guarded rules.rules).head?.map Prod.fst = some p

/-- **Why a node has no value**: its rules are badly declared, a guard does not compile, or the
source gives no context for the first guard. -/
theorem Recalls.value_error (h : o.Recalls P)
    (hcontext : ∀ s c, P s → (o.context s).1 = some c → c.AllNumbers) {path : String} {s : σ}
    (hs : P s) {e : RuleError} (he : (o.value path s).1 = .error e) :
    (∃ marker fault, e = .malformedRuleSet marker fault) ∨
      (∃ p cause, e = .compilation p cause) ∨
      (o.context s).1 = none ∧ ∃ p rules, o.Guarded path p rules ∧ e = .missingContext p := by
  cases hbears : o.tree.bearsRules o.keys path with
  | false =>
    rw [value_of_plain hbears] at he
    cases he
  | true =>
    cases hrules : o.tree.ruleSetAt o.keys (combine path o.keys.marker) with
    | error d =>
      obtain ⟨fault, rfl⟩ := Tree.malformed_of_ruleSetAt hrules
      rw [value_of_malformed hbears hrules] at he
      cases he
      exact .inl ⟨_, fault, rfl⟩
    | ok rules =>
      rw [value_of_rules hbears hrules] at he
      by_cases hmany : 2 ≤ (rules.rules.filter Rule.isDefault).length
      · rw [RuleSet.resolve_of_many_defaults hmany] at he
        cases he
        exact .inl ⟨_, _, rfl⟩
      · have hone : (rules.rules.filter Rule.isDefault).length ≤ 1 := by omega
        rw [RuleSet.resolve_of_default hone] at he
        have hfirst : (firstMatch o.ask (o.context s).1 rules.rules (o.context s).2).1 =
            .error e := by
          revert he
          cases (firstMatch o.ask (o.context s).1 rules.rules (o.context s).2).1 with
          | error d => exact id
          | ok v => exact fun he => nomatch he
        obtain hcompile | ⟨hnone, p, hp, rfl⟩ :=
          h.firstMatch_error (fun c hc => hcontext s c hs hc) (h.context s hs) hfirst
        · exact .inr (.inl hcompile)
        · exact .inr (.inr ⟨hnone, p, rules, ⟨hbears, hrules, hone, hp⟩, rfl⟩)

/-! ## Several nodes -/

/-- Reading paths one after the other fails with the error of the first that fails. -/
theorem reads_error {paths : List String} {s : σ} {e : RuleError}
    (h : (o.reads paths s).1 = .error e) :
    ∃ before path after t, paths = before ++ path :: after ∧ o.reads before s = (.ok (), t) ∧
      (o.value path t).1 = .error e := by
  induction paths generalizing s with
  | nil => cases h
  | cons path paths ih =>
    unfold reads at h
    rw [Attempt.bind_apply] at h
    rcases hvalue : o.value path s with ⟨d | v, t⟩
    · rw [hvalue] at h
      cases h
      exact ⟨[], path, paths, s, rfl, rfl, by rw [hvalue]⟩
    · rw [hvalue] at h
      obtain ⟨before, q, after, u, rfl, hbefore, hq⟩ := ih h
      refine ⟨path :: before, q, after, u, rfl, ?_, hq⟩
      unfold reads
      rw [Attempt.bind_apply, hvalue]
      exact hbefore

/-- Why reading paths one after the other fails. If there is no context, it is for the first path
that fails. -/
theorem Recalls.reads_error (h : o.Recalls P)
    (hcontext : ∀ s c, P s → (o.context s).1 = some c → c.AllNumbers) {paths : List String} {s : σ}
    (hs : P s) {e : RuleError} (he : (o.reads paths s).1 = .error e) :
    (∃ marker fault, e = .malformedRuleSet marker fault) ∨
      (∃ p cause, e = .compilation p cause) ∨
      ∃ p, e = .missingContext p ∧ ∃ before path after t rules,
        paths = before ++ path :: after ∧ o.reads before s = (.ok (), t) ∧
        (o.context t).1 = none ∧ o.Guarded path p rules := by
  obtain ⟨before, path, after, t, hpaths, hbefore, hvalue⟩ := Overlay.reads_error he
  have ht := h.toKeeps.reads before s hs
  rw [hbefore] at ht
  obtain hmalformed | hcompile | ⟨hnone, p, rules, hguarded, rfl⟩ :=
    h.value_error hcontext ht hvalue
  · exact .inl hmalformed
  · exact .inr (.inl hcompile)
  · exact .inr (.inr ⟨p, rfl, before, path, after, t, rules, hpaths, hbefore, hnone, hguarded⟩)

/-! ## The built-in evaluator -/

/-- An overlay with any source of contexts and the built-in evaluator on a cache. -/
def builtIn {τ : Type} (tree : Tree) (keys : RuleKeys) (source : StateM τ (Option Context)) :
    Overlay (τ × Cache) where
  tree := tree
  keys := keys
  context := fun s =>
    let x := source s.1
    (x.1, x.2, s.2)
  ask := fun predicate context s =>
    let x := Cache.evaluate predicate context s.2
    (x.1, s.1, x.2)

variable {τ : Type}

theorem recalls_builtIn (tree : Tree) (keys : RuleKeys) (source : StateM τ (Option Context)) :
    (builtIn tree keys source).Recalls fun s => s.2.Reachable where
  context _ h := h
  ask predicate context _ h := h.snd_evaluate predicate context
  answers predicate context _ h := h.sound.fst_evaluate predicate context

/-- **Which errors can surface.** Let an overlay with any tree and any keys use the built-in
evaluator on a cache that comes about by asking for predicates, and a source that gives no context
or one whose floats are all numbers. A call that fails does so with a badly declared rule set, with
a guard that does not compile, or without a context. In the last case the paths before some path
were read, and the source gave no context for this one, which has a well declared rule set with a
guard to try: the one that is named. The cache stays one that comes about by asking for
predicates. -/
theorem read_errors (tree : Tree) (keys : RuleKeys) {source : StateM τ (Option Context)}
    (hsource : ∀ t c, (source t).1 = some c → c.AllNumbers) {cache : Cache}
    (hcache : cache.Reachable) (t : τ) (call : Call) :
    let o := builtIn tree keys source
    ∀ r, o.call call (t, cache) = some r →
      (∀ e, r.1 = .error e →
        (∃ marker fault, e = .malformedRuleSet marker fault) ∨
        (∃ p cause, e = .compilation p cause) ∨
        ∃ p, e = .missingContext p ∧ tree.EnoughLevels fun levels =>
          ∃ before path after u cache' rules,
            call.paths tree keys.marker levels = before ++ path :: after ∧
            o.reads before (t, cache) = (.ok (), u, cache') ∧
            (source u).1 = none ∧ o.Guarded path p rules) ∧
      r.2.2.Reachable := by
  intro o r hr
  have hrecalls := recalls_builtIn tree keys source
  have hreads := call_eq_reads o hr
  obtain ⟨levels, hlevels⟩ := hreads.exists_levels
  refine ⟨fun e he => ?_, ?_⟩
  · have hfails {levels : Nat}
        (h : o.reads (call.paths tree keys.marker levels) (t, cache) = r) :=
      hrecalls.reads_error (fun s c _ => hsource s.1 c) hcache (h ▸ he)
    obtain hmalformed | hcompile | ⟨p, rfl, -⟩ := hfails hlevels
    · exact .inl hmalformed
    · exact .inr (.inl hcompile)
    · refine .inr (.inr ⟨p, rfl, hreads.imp fun levels h => ?_⟩)
      obtain ⟨_, _, h⟩ | ⟨_, _, h⟩ | ⟨q, h, before, path, after, u, rules, hpaths, hbefore, hnone,
        hguarded⟩ := hfails h
      · cases h
      · cases h
      · cases h
        exact ⟨before, path, after, u.1, u.2, rules, hpaths, hbefore, hnone, hguarded⟩
  · rw [← hlevels]
    exact hrecalls.toKeeps.reads _ (t, cache) hcache

/-- A source that gives a context once only: the first fee is read in it, and the guard of the
second has none to be tried in. -/
theorem read_errors_of_lost_context :
    let tree := Tree.ofPairs [("fee:_rules:low:when", "tier >= 1.5"), ("fee:_rules:low:value", "0"),
      ("late:_rules:else:value", "7"), ("late:_rules:vip:when", "vip"),
      ("late:_rules:vip:value", "5")]
    let c : Context := .ofSettings [("tier", .int 2)]
    let source : StateM Nat (Option Context) := fun n => (if n = 0 then some c else none, n + 1)
    let cache := (Cache.empty.getOrCompile "tier >= 1.5" (.ofContext c)).2
    let o := builtIn tree {} source
    (∀ n d, (source n).1 = some d → d.AllNumbers) ∧ cache.Reachable ∧
      (o.call (.flatten "") (0, cache)).map Prod.fst = some (.error (.missingContext "vip")) ∧
      ∃ path u rules, (source u).1 = none ∧ o.Guarded path "vip" rules := by
  intro tree c source cache o
  have hsource n d (hd : (source n).1 = some d) : d.AllNumbers := by
    have hc : c.AllNumbers := by
      unfold Context.AllNumbers
      decide +kernel
    dsimp only [source] at hd
    split at hd
    · cases hd
      exact hc
    · cases hd
  have hcache : cache.Reachable := .getOrCompile _ _ .empty
  have hroot : "" ∉ o.tree.childKeys "" := by decide +kernel
  have hwritten : (o.writesBelow (o.tree.height + 1) "" (0, cache)).1 =
      .error (.missingContext "vip") := by decide +kernel
  have hflat := flatten_eq_written hroot "" (0, cache)
  rw [hwritten] at hflat
  have hcall := call_flatten hflat
  obtain ⟨herrors, -⟩ := read_errors tree {} hsource hcache 0 (.flatten "") _ hcall
  obtain ⟨_, _, h⟩ | ⟨_, _, h⟩ | ⟨p, h, hpaths⟩ := herrors _ rfl
  · cases h
  · cases h
  · cases h
    obtain ⟨-, -, path, -, u, -, rules, -, -, hnone, hguarded⟩ := hpaths.exists_levels
    exact ⟨hsource, hcache, congrArg (Option.map Prod.fst) hcall, path, u, rules, hnone, hguarded⟩

end Overlay

end GuardedConfig
