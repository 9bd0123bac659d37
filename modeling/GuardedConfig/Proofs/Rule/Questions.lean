import GuardedConfig.Proofs.Overlay.Alike

/-!
# The questions of a rule set

Which predicates are asked about can be seen by recording them: an evaluator is replaced by one that
answers the same and keeps a list of the questions beside its state. What is read through the
recording evaluator is what is read through the other one, so the record is that of the reading
itself.

Results:
* `Evaluator.alike_recording`: recording changes no answer.
* `firstMatch_cases`: the guards are tried in order, up to the first that is not refused.
* `RuleSet.resolve_congr`: only the guarded values in their order and the defaults count.
* `RuleSet.resolve_asks_in_order`: the value or the error of a rule set with the questions that it
  takes.
-/

namespace GuardedConfig

variable {σ : Type}

/-- A predicate text with the context that it is to be evaluated in. -/
structure Question where
  predicate : String
  context : Option Context
  deriving DecidableEq

/-- The evaluator that keeps the questions it is asked, in order, beside the state. -/
def Evaluator.recording (ask : Evaluator σ) : Evaluator (σ × List Question) :=
  fun predicate context s =>
    let x := ask predicate context s.1
    (x.1, x.2, s.2 ++ [⟨predicate, context⟩])

theorem Evaluator.alike_recording (ask : Evaluator σ) :
    Evaluator.Alike (fun s t => s.1 = t) ask.recording ask := by
  rintro predicate context s _ rfl
  exact ⟨rfl, rfl⟩

/-- The overlay with its evaluator recording. -/
def Overlay.recording (o : Overlay σ) : Overlay (σ × List Question) where
  tree := o.tree
  keys := o.keys
  context := fun s => ((o.context s.1).1, (o.context s.1).2, s.2)
  ask := o.ask.recording

theorem Overlay.alike_recording (o : Overlay σ) :
    o.recording.Alike (fun s t => s.1 = t) o where
  tree := rfl
  keys := rfl
  context := by
    rintro s _ rfl
    exact ⟨rfl, rfl⟩
  ask := o.ask.alike_recording

/-! ## Refusals -/

/-- All texts are answered with false, one after the other, which leads from one state to
another. -/
inductive Refused (ask : Evaluator σ) (context : Option Context) : List String → σ → σ → Prop
  | nil (s : σ) : Refused ask context [] s s
  | cons {p : String} {ps : List String} {s t u : σ} (first : ask p context s = (.ok false, t))
      (rest : Refused ask context ps t u) : Refused ask context (p :: ps) s u

theorem Refused.of_recording {ask : Evaluator σ} {context : Option Context} {ps : List String}
    {s t : σ × List Question} (h : Refused ask.recording context ps s t) :
    Refused ask context ps s.1 t.1 ∧ t.2 = s.2 ++ ps.map (⟨·, context⟩) := by
  induction h with
  | nil s => exact ⟨.nil s.1, by simp⟩
  | cons first rest ih =>
    unfold Evaluator.recording at first
    obtain ⟨hanswer, rfl⟩ := Prod.mk.inj first
    obtain ⟨hrefused, hquestions⟩ := ih
    refine ⟨.cons (Prod.ext hanswer rfl) hrefused, ?_⟩
    rw [hquestions, List.map_cons, List.append_assoc, List.singleton_append]

/-! ## Guards in order -/

/-- The texts of the guards in the order of their declaration, each with the value it guards. -/
def guarded (rules : List Rule) : List (String × String) :=
  rules.filterMap fun r => r.predicate.map (·, r.value)

theorem guarded_cons_of_default {r : Rule} (h : r.predicate = none) (rules : List Rule) :
    guarded (r :: rules) = guarded rules := by
  simp [guarded, h]

theorem guarded_cons_of_guard {r : Rule} {p : String} (h : r.predicate = some p)
    (rules : List Rule) : guarded (r :: rules) = (p, r.value) :: guarded rules := by
  simp [guarded, h]

theorem guarded_append (rules later : List Rule) :
    guarded (rules ++ later) = guarded rules ++ guarded later :=
  List.filterMap_append

/-- Trying guards: all are refused, or the first that is not gives its value or its error. -/
theorem firstMatch_cases (ask : Evaluator σ) (context : Option Context) (rules : List Rule)
    (s : σ) :
    (∃ t, Refused ask context ((guarded rules).map Prod.fst) s t ∧
      firstMatch ask context rules s = (.ok none, t)) ∨
    ∃ before p v after t answer u, guarded rules = before ++ (p, v) :: after ∧
      Refused ask context (before.map Prod.fst) s t ∧ ask p context t = (answer, u) ∧
      answer ≠ .ok false ∧
      firstMatch ask context rules s = (answer.map fun _ => some v, u) := by
  induction rules generalizing s with
  | nil => exact .inl ⟨s, .nil s, rfl⟩
  | cons r rs ih =>
    cases hp : r.predicate with
    | none =>
      rw [guarded_cons_of_default hp]
      have hskip : firstMatch ask context (r :: rs) = firstMatch ask context rs := by
        rw [firstMatch, hp]
      rw [hskip]
      exact ih s
    | some p =>
      rw [guarded_cons_of_guard hp]
      have htry : firstMatch ask context (r :: rs) s =
          (ask p context >>= fun holds =>
            if holds then pure (some r.value) else firstMatch ask context rs) s := by
        rw [firstMatch, hp]
      rw [htry, Attempt.bind_apply]
      rcases hask : ask p context s with ⟨_ | (_ | _), t⟩
      · exact .inr ⟨[], p, r.value, _, s, _, t, rfl, .nil s, hask, by simp, rfl⟩
      · -- a refusal is one more in front of what the other guards come to
        obtain ⟨u, hrefused, hnone⟩ |
          ⟨before, q, v, after, u, answer, w, hsplit, hrefused, hrest⟩ := ih t
        · exact .inl ⟨u, .cons hask hrefused, hnone⟩
        · refine .inr ⟨(p, r.value) :: before, q, v, after, u, answer, w, ?_, .cons hask hrefused,
            hrest⟩
          rw [hsplit, List.cons_append]
      · exact .inr ⟨[], p, r.value, _, s, _, t, rfl, .nil s, hask, by simp, rfl⟩

theorem firstMatch_congr (ask : Evaluator σ) (context : Option Context) {rules others : List Rule}
    (h : guarded rules = guarded others) :
    firstMatch ask context rules = firstMatch ask context others := by
  have hguards (rules : List Rule) : firstMatch ask context rules =
      (guarded rules).foldr (fun g rest => do
        if ← ask g.1 context then pure (some g.2) else rest) (pure none) := by
    induction rules with
    | nil => rfl
    | cons r rs ih =>
      cases hp : r.predicate with
      | none => rw [guarded_cons_of_default hp, ← ih, firstMatch, hp]
      | some p => rw [guarded_cons_of_guard hp, List.foldr_cons, ← ih, firstMatch, hp]
  rw [hguards, hguards, h]

namespace RuleSet

/-! ## Rule sets -/

theorem resolve_of_many_defaults {s : RuleSet} (h : 2 ≤ (s.rules.filter Rule.isDefault).length)
    (context : Option Context) (ask : Evaluator σ) (state : σ) :
    s.resolve context ask state = (.error (.malformedRuleSet s.path .twoDefaults), state) := by
  match hd : s.rules.filter Rule.isDefault with
  | [] | [_] => simp [hd] at h
  | _ :: _ :: _ => exact resolve_of_two_defaults hd context ask state

/-- Without a second default the value is that of the first rule whose guard holds, or else of the
default. -/
theorem resolve_of_default {s : RuleSet} (h : (s.rules.filter Rule.isDefault).length ≤ 1)
    (context : Option Context) (ask : Evaluator σ) (state : σ) :
    s.resolve context ask state =
      ((firstMatch ask context s.rules state).1.map
          (·.or ((s.rules.find? Rule.isDefault).map Rule.value)),
        (firstMatch ask context s.rules state).2) := by
  rw [← List.head?_filter]
  unfold resolve
  match hd : s.rules.filter Rule.isDefault with
  | _ :: _ :: _ => simp [hd] at h
  | [] | [_] =>
    dsimp only
    rw [Attempt.bind_apply]
    rcases firstMatch ask context s.rules state with ⟨_ | (_ | v), t⟩ <;> rfl

/-- The questions that are asked to resolve a rule set, in order. -/
def questions (s : RuleSet) (context : Option Context) (ask : Evaluator σ) (state : σ) :
    List Question :=
  (s.resolve context ask.recording (state, [])).2.2

/-- What the recording evaluator comes to is what the other one comes to, with its questions. -/
theorem resolve_of_recording {s : RuleSet} {context : Option Context} {ask : Evaluator σ}
    {state : σ} {outcome : Except RuleError (Option String)} {t : σ × List Question}
    (h : s.resolve context ask.recording (state, []) = (outcome, t)) :
    s.resolve context ask state = (outcome, t.1) ∧ s.questions context ask state = t.2 := by
  obtain ⟨hout, hstate⟩ := ask.alike_recording.resolve context s (state, []) state rfl
  rw [h] at hout hstate
  exact ⟨Prod.ext hout.symm hstate.symm, by rw [questions, h]⟩

/-! ## The place of the default -/

/-- Rules with the same guarded values and the same defaults are resolved alike. -/
theorem resolve_congr {rules others : List Rule} (hguards : guarded rules = guarded others)
    (hdefaults : rules.filter Rule.isDefault = others.filter Rule.isDefault) (path : String)
    (context : Option Context) (ask : Evaluator σ) :
    RuleSet.resolve ⟨path, rules⟩ context ask = RuleSet.resolve ⟨path, others⟩ context ask := by
  rw [resolve, resolve, hdefaults, firstMatch_congr ask context hguards]

theorem guarded_of_default {d : Rule} (h : d.isDefault = true) (before after : List Rule) :
    guarded (before ++ d :: after) = guarded (before ++ after) := by
  have hnone : d.predicate = none := by simpa [Rule.isDefault] using h
  rw [guarded_append, guarded_append, guarded_cons_of_default hnone]

theorem length_defaults_of_default {d : Rule} (h : d.isDefault = true)
    (before after : List Rule) :
    ((before ++ d :: after).filter Rule.isDefault).length =
      ((before ++ after).filter Rule.isDefault).length + 1 := by
  rw [(List.perm_middle.filter _).length_eq, List.filter_cons_of_pos h, List.length_cons]

/-- Where a default stands among the rules does not show. -/
theorem resolve_move_default {d : Rule} (hd : d.isDefault = true)
    {before after before' after' : List Rule} (hrest : before' ++ after' = before ++ after)
    (path : String) (context : Option Context) (ask : Evaluator σ) :
    RuleSet.resolve ⟨path, before' ++ d :: after'⟩ context ask =
      RuleSet.resolve ⟨path, before ++ d :: after⟩ context ask := by
  have hlength := length_defaults_of_default hd before after
  have hlength' := length_defaults_of_default hd before' after'
  rw [hrest] at hlength'
  by_cases hother : (before ++ after).filter Rule.isDefault = []
  · have hother' := hrest ▸ hother
    rw [List.filter_append, List.append_eq_nil_iff] at hother hother'
    refine resolve_congr ?_ ?_ path context ask
    · rw [guarded_of_default hd, guarded_of_default hd, hrest]
    · rw [List.filter_append, List.filter_append, List.filter_cons_of_pos hd,
        List.filter_cons_of_pos hd, hother.1, hother.2, hother'.1, hother'.2]
  · -- with another default the set is refused, whatever the order
    have hpos := List.length_pos_iff.mpr hother
    have hmany : 2 ≤ ((before ++ d :: after).filter Rule.isDefault).length := by omega
    have hmany' : 2 ≤ ((before' ++ d :: after').filter Rule.isDefault).length := by omega
    funext state
    rw [resolve_of_many_defaults hmany', resolve_of_many_defaults hmany]

/-! ## Resolving -/

/-- **The guards are asked about in order, up to the first that is not refused.** A set with two
defaults is refused without a question. Any other asks about its guards in the order of their
declaration, each with the context it is resolved in, and stops at the first that holds or fails:
it has the value of the rule that holds, or the error of the guard that fails, and if all are
refused the value of its default. Where the default stands shows neither in what the set comes to
nor in its questions. -/
theorem resolve_asks_in_order (s : RuleSet) (context : Option Context) (ask : Evaluator σ)
    (state : σ) :
    (2 ≤ (s.rules.filter Rule.isDefault).length →
      s.resolve context ask state = (.error (.malformedRuleSet s.path .twoDefaults), state) ∧
      s.questions context ask state = []) ∧
    ((s.rules.filter Rule.isDefault).length ≤ 1 →
      (∃ final, Refused ask context ((guarded s.rules).map Prod.fst) state final ∧
        s.resolve context ask state =
          (.ok ((s.rules.find? Rule.isDefault).map Rule.value), final) ∧
        s.questions context ask state = (guarded s.rules).map (⟨·.1, context⟩)) ∨
      ∃ before p v after reached answer final,
        guarded s.rules = before ++ (p, v) :: after ∧
        Refused ask context (before.map Prod.fst) state reached ∧
        ask p context reached = (answer, final) ∧ answer ≠ .ok false ∧
        s.resolve context ask state = (answer.map fun _ => some v, final) ∧
        s.questions context ask state = (before ++ [(p, v)]).map (⟨·.1, context⟩)) ∧
    ∀ before d after before' after', s.rules = before ++ d :: after → d.isDefault = true →
      before' ++ after' = before ++ after →
      RuleSet.resolve ⟨s.path, before' ++ d :: after'⟩ context ask state =
        s.resolve context ask state ∧
      RuleSet.questions ⟨s.path, before' ++ d :: after'⟩ context ask state =
        s.questions context ask state := by
  refine ⟨fun hmany => ?_, fun hsingle => ?_, ?_⟩
  · exact resolve_of_recording (resolve_of_many_defaults hmany context ask.recording (state, []))
  · have hresolve := resolve_of_default hsingle context ask.recording (state, [])
    obtain ⟨⟨final, asked⟩, hrefused, hnone⟩ |
      ⟨before, p, v, after, ⟨reached, asked⟩, answer, final, hsplit, hrefused, hask, hanswer,
        hfirst⟩ := firstMatch_cases ask.recording context s.rules (state, [])
    · obtain ⟨hrefused, hasked⟩ := hrefused.of_recording
      rw [hnone] at hresolve
      obtain ⟨hout, hquestions⟩ := resolve_of_recording hresolve
      refine .inl ⟨final, hrefused, hout, ?_⟩
      rw [hquestions, hasked, List.nil_append, List.map_map, Function.comp_def]
    · obtain ⟨hrefused, hasked⟩ := hrefused.of_recording
      obtain ⟨hanswered, rfl⟩ := Prod.mk.inj hask
      rw [hfirst] at hresolve
      obtain ⟨hout, hquestions⟩ := resolve_of_recording hresolve
      refine .inr ⟨before, p, v, after, reached, answer, _, hsplit, hrefused,
        Prod.ext hanswered rfl, hanswer, ?_, ?_⟩
      · rw [hout]
        cases answer <;> rfl
      · rw [hquestions, hasked]
        simp [Function.comp_def]
  · rintro before d after before' after' hrules hd hrest
    obtain ⟨path, rules⟩ := s
    cases hrules
    rw [questions, questions, resolve_move_default hd hrest, resolve_move_default hd hrest]
    exact ⟨rfl, rfl⟩

/-- A default in front of three guards, of which the second holds, comes to what it comes to behind
them; beside another default nothing is asked. -/
theorem resolve_asks_in_order_of_default_first :
    let rules : List Rule := [⟨some "vip", "0"⟩, ⟨some "staff", "5"⟩, ⟨some "guest", "7"⟩]
    let script : Script := ⟨[("vip", false), ("staff", true)], []⟩
    (RuleSet.resolve ⟨"fee:_rules", rules ++ [⟨none, "10"⟩]⟩ none Script.evaluate script).1 =
      .ok (some "5") ∧
    RuleSet.questions ⟨"fee:_rules", rules ++ [⟨none, "10"⟩]⟩ none Script.evaluate script =
      [⟨"vip", none⟩, ⟨"staff", none⟩] ∧
    RuleSet.questions ⟨"fee:_rules", ⟨some " ", "12"⟩ :: ⟨none, "10"⟩ :: rules⟩ none
      Script.evaluate script = [] := by
  intro rules script
  obtain ⟨-, -, hmove⟩ := resolve_asks_in_order ⟨"fee:_rules", ⟨none, "10"⟩ :: rules⟩ none
    Script.evaluate script
  obtain ⟨hout, hquestions⟩ := hmove [] ⟨none, "10"⟩ rules rules [] rfl rfl (List.append_nil _)
  obtain ⟨hmany, -⟩ := resolve_asks_in_order
    ⟨"fee:_rules", ⟨some " ", "12"⟩ :: ⟨none, "10"⟩ :: rules⟩ none Script.evaluate script
  rw [hout, hquestions]
  exact ⟨by decide, by decide, (hmany (by decide)).2⟩

end RuleSet

end GuardedConfig
