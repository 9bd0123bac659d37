import GuardedConfig.Proofs.Predicate.Evaluation
import GuardedConfig.Proofs.Predicate.Lexemes

/-!
# The laws of the connectives

In a context an expression comes to a truth value, to a fault of the run, or to a fault of
compiling. A connective combines what its sides come to, from the left: a fault of compiling counts
on either side, a fault of the run only where the left side leaves the answer open. The laws of
De Morgan, of double negation and of grouping hold of what is combined so, faults included. That the
sides may be exchanged is no law: it shows in which of two faults is met.

* `Expr.links`: the expressions that a chain of one connective joins, however it is grouped.
* `Expr.Regrouped`: two expressions that differ only in how such chains are grouped, at any depth.

Results:
* `Expr.answer_join`, `Expr.answer_not`: what a compound comes to, by what its parts come to.
* `Expr.answer_eq_links`: what a chain comes to, by its links alone.
* `Expr.outcome_laws`: the laws, and what they mean for predicate texts that differ in grouping.
-/

namespace GuardedConfig

/-- The connectives of two sides. -/
inductive Connective where
  | conj
  | disj
  deriving DecidableEq

namespace Connective

/-- The other connective. -/
def dual : Connective → Connective
  | conj => disj
  | disj => conj

/-- Two expressions joined by the connective. -/
def join : Connective → Expr → Expr → Expr
  | conj => .and
  | disj => .or

/-- The truth value of a left side that decides the answer. -/
def stop : Connective → Bool
  | conj => false
  | disj => true

end Connective

/-! ## Combined answers -/

section Answers

variable (stop : Bool) (x y z : Except RunError Bool)

theorem shortCircuit_assoc :
    shortCircuit stop (shortCircuit stop x y) z = shortCircuit stop x (shortCircuit stop y z) := by
  cases x with
  | error e => rfl
  | ok b => cases b <;> cases stop <;> rfl

theorem map_not_shortCircuit :
    (shortCircuit stop x y).map (!·) = shortCircuit (!stop) (x.map (!·)) (y.map (!·)) := by
  cases x with
  | error e => rfl
  | ok b => cases b <;> cases stop <;> rfl

/-- A right side that leaves the answer open changes nothing. -/
theorem shortCircuit_open : shortCircuit stop x (.ok !stop) = x := by
  cases x with
  | error e => rfl
  | ok b => cases b <;> cases stop <;> rfl

end Answers

/-- What an expression comes to in a context: a fault of compiling, or what the run comes to. -/
abbrev Answer := Except CompileError (Except RunError Bool)

namespace Answer

/-- The answer with its truth value inverted. -/
def negate (x : Answer) : Answer :=
  x.map fun r => r.map (!·)

/-- The answer of a connective: both sides have to compile. -/
def combine (k : Connective) (x y : Answer) : Answer := do
  let a ← x
  let b ← y
  .ok (shortCircuit k.stop a b)

/-- The answer that decides nothing. -/
def undecided (k : Connective) : Answer :=
  .ok (.ok !k.stop)

variable (k : Connective) (x y z : Answer)

theorem negate_negate : x.negate.negate = x := by
  rcases x with _ | _ | (_ | _) <;> rfl

theorem negate_combine : (combine k x y).negate = combine k.dual x.negate y.negate := by
  rcases x with _ | a
  · rfl
  · rcases y with _ | b
    · rfl
    · have hstop : k.dual.stop = !k.stop := by cases k <;> rfl
      change Except.ok _ = Except.ok (shortCircuit k.dual.stop _ _)
      rw [hstop]
      exact congrArg Except.ok (map_not_shortCircuit k.stop a b)

theorem combine_assoc : combine k (combine k x y) z = combine k x (combine k y z) := by
  rcases x with _ | a
  · rfl
  · rcases y with _ | b
    · rfl
    · rcases z with _ | c
      · rfl
      · exact congrArg Except.ok (shortCircuit_assoc k.stop a b c)

theorem combine_undecided : combine k x (undecided k) = x := by
  rcases x with _ | a
  · rfl
  · exact congrArg Except.ok (shortCircuit_open k.stop a)

theorem undecided_combine : combine k (undecided k) x = x := by
  rcases x with _ | a
  · rfl
  · cases k <;> rfl

end Answer

/-! ## What expressions come to -/

namespace Expr

/-- What an expression comes to on the values of a context. -/
def answer (c : Context) (e : Expr) : Answer :=
  (e.lower (.ofContext c)).map (·.run c.values)

/-- What an expression comes to when it is compiled for the shape of a context and matched against
the context. -/
def outcome (source : String) (c : Context) (e : Expr) :
    Except CompileError (Except EvaluationFault Bool) :=
  (CompiledPredicate.ofExpr source e (.ofContext c)).map (·.matchesContext c)

variable {c : Context}

theorem outcome_eq_answer (source : String) (e : Expr) :
    e.outcome source c = (e.answer c).map fun r => r.mapError .run := by
  unfold outcome answer CompiledPredicate.ofExpr
  cases e.lower (.ofContext c) with
  | error err => rfl
  | ok body => exact congrArg Except.ok (CompiledPredicate.matchesContext_of_shape rfl)

theorem answer_join (k : Connective) (a b : Expr) :
    (k.join a b).answer c = Answer.combine k (a.answer c) (b.answer c) := by
  have hcompiled {make : CompiledExpr → CompiledExpr → CompiledExpr}
      (hrun : ∀ x y, (make x y).run c.values =
        shortCircuit k.stop (x.run c.values) (y.run c.values)) :
      (do
        let x ← a.lower (.ofContext c)
        let y ← b.lower (.ofContext c)
        .ok (make x y) : Except CompileError CompiledExpr).map (·.run c.values) =
        Answer.combine k (a.answer c) (b.answer c) := by
    unfold answer
    cases a.lower (.ofContext c) with
    | error err => rfl
    | ok x =>
      cases b.lower (.ofContext c) with
      | error err => rfl
      | ok y => exact congrArg Except.ok (hrun x y)
  cases k with
  | conj => exact hcompiled fun x y => CompiledExpr.run_and x y c.values
  | disj => exact hcompiled fun x y => CompiledExpr.run_or x y c.values

theorem answer_not (a : Expr) : (Expr.not a).answer c = (a.answer c).negate := by
  unfold answer
  rw [lower]
  cases a.lower (.ofContext c) <;> rfl

theorem answer_not_not (a : Expr) : (Expr.not (.not a)).answer c = a.answer c := by
  rw [answer_not, answer_not, Answer.negate_negate]

/-- De Morgan's law of either connective. -/
theorem answer_not_join (k : Connective) (a b : Expr) :
    (Expr.not (k.join a b)).answer c = (k.dual.join (.not a) (.not b)).answer c := by
  rw [answer_not, answer_join, Answer.negate_combine, answer_join, answer_not, answer_not]

theorem answer_join_join (k : Connective) (a b d : Expr) :
    (k.join (k.join a b) d).answer c = (k.join a (k.join b d)).answer c := by
  simp only [answer_join, Answer.combine_assoc]

/-! ## Grouping -/

/-- The expressions that a chain of the connective joins, in order. Any other expression is a chain
of one. -/
def links (k : Connective) : Expr → List Expr
  | and a b => if k = .conj then a.links k ++ b.links k else [.and a b]
  | or a b => if k = .disj then a.links k ++ b.links k else [.or a b]
  | e => [e]

theorem answer_eq_links (k : Connective) (e : Expr) :
    e.answer c =
      (e.links k).foldr (fun x y => Answer.combine k (x.answer c) y) (Answer.undecided k) := by
  have hone (e : Expr) :
      e.answer c = [e].foldr (fun x y => Answer.combine k (x.answer c) y) (Answer.undecided k) :=
    (Answer.combine_undecided k _).symm
  -- a fold may start later, behind a first part of the chain
  have hlater (es : List Expr) (y : Answer) :
      es.foldr (fun x y => Answer.combine k (x.answer c) y) y =
        Answer.combine k
          (es.foldr (fun x y => Answer.combine k (x.answer c) y) (Answer.undecided k)) y := by
    induction es with
    | nil => exact (Answer.undecided_combine k y).symm
    | cons e es ih => rw [List.foldr_cons, ih, List.foldr_cons, Answer.combine_assoc]
  induction e with
  | compare l op r => exact hone _
  | operand o => exact hone _
  | not a _ => exact hone _
  | and a b iha ihb =>
    cases k with
    | conj => rw [links, if_pos rfl, List.foldr_append, hlater, ← iha, ← ihb, ← answer_join]; rfl
    | disj => exact hone _
  | or a b iha ihb =>
    cases k with
    | conj => exact hone _
    | disj => rw [links, if_pos rfl, List.foldr_append, hlater, ← iha, ← ihb, ← answer_join]; rfl

/-- Two expressions that differ only in how chains of equal connectives are grouped. -/
inductive Regrouped : Expr → Expr → Prop
  /-- Chains with the same links. -/
  | links {a b : Expr} (k : Connective) (h : a.links k = b.links k) : Regrouped a b
  | join {a a' b b' : Expr} (k : Connective) (ha : Regrouped a a') (hb : Regrouped b b') :
      Regrouped (k.join a b) (k.join a' b')
  | not {a b : Expr} (h : Regrouped a b) : Regrouped (.not a) (.not b)
  | trans {a b d : Expr} (hab : Regrouped a b) (hbd : Regrouped b d) : Regrouped a d

theorem Regrouped.answer_eq {a b : Expr} (h : Regrouped a b) : a.answer c = b.answer c := by
  induction h with
  | links k h => rw [answer_eq_links k, h, ← answer_eq_links]
  | join k _ _ iha ihb => rw [answer_join, iha, ihb, ← answer_join]
  | not _ ih => rw [answer_not, ih, ← answer_not]
  | trans _ _ ihab ihbd => rw [ihab, ihbd]

end Expr

/-! ## Predicate texts -/

/-- The same error about another predicate. -/
def RuleError.about (predicate : String) : RuleError → RuleError
  | missingContext _ => .missingContext predicate
  | compilation _ cause => .compilation predicate cause
  | evaluation _ fault => .evaluation predicate fault
  | e => e

/-- A text that parses is not blank. -/
theorem blankText_of_parse {text : String} {e : Expr} (h : parse text = .ok e) :
    blankText text = false := by
  cases hblank : blankText text with
  | false => rfl
  | true =>
    have hnone := Grammar.lexemes_of_blank (List.all_eq_true.mp hblank)
    rw [parse, hnone] at h
    cases h

namespace Cache

theorem freshAnswer_of_parse {text : String} {e : Expr} (h : parse text = .ok e)
    (context : Option Context) :
    freshAnswer text context =
      match context with
      | none => .error (.missingContext text)
      | some c =>
        match e.answer c with
        | .error cause => .error (.compilation text cause)
        | .ok r => r.mapError fun fault => .evaluation text (.run fault) := by
  unfold freshAnswer contextFor
  rw [blankText_of_parse h]
  cases context with
  | none => rfl
  | some c =>
    rw [if_neg Bool.false_ne_true]
    simp only [CompiledPredicate.compile, h, CompiledPredicate.ofExpr, Expr.answer]
    cases e.lower (.ofContext c) with
    | error err => rfl
    | ok body =>
      have hrun := CompiledPredicate.run_values (c := c) (p := ⟨text, .ofContext c, body⟩) rfl
      exact congrArg (Except.mapError _) hrun

/-- Predicates that come to the same are answered alike, but for the text that an error quotes. -/
theorem freshAnswer_about {text text' : String} {e e' : Expr} (h : parse text = .ok e)
    (h' : parse text' = .ok e') (heq : ∀ c, e.answer c = e'.answer c)
    (context : Option Context) :
    freshAnswer text' context = (freshAnswer text context).mapError (.about text') := by
  rw [freshAnswer_of_parse h, freshAnswer_of_parse h']
  cases context with
  | none => rfl
  | some c =>
    simp only [heq c]
    rcases e'.answer c with _ | _ | _ <;> rfl

end Cache

namespace Expr

/-- **The laws of the connectives.** In every context the two sides of each law have one outcome:
the same truth value, the same fault of compiling or the same fault of the run. So have two
expressions that differ only in how chains of equal connectives are grouped, and predicate texts for
them are answered alike, whatever the caches have been asked for before. -/
theorem outcome_laws :
    (∀ (source : String) (c : Context) (a b d : Expr),
      outcome source c (.not (.and a b)) = outcome source c (.or (.not a) (.not b)) ∧
      outcome source c (.not (.or a b)) = outcome source c (.and (.not a) (.not b)) ∧
      outcome source c (.not (.not a)) = outcome source c a ∧
      outcome source c (.and (.and a b) d) = outcome source c (.and a (.and b d)) ∧
      outcome source c (.or (.or a b) d) = outcome source c (.or a (.or b d))) ∧
    ∀ a b : Expr, Regrouped a b →
      (∀ source c, outcome source c a = outcome source c b) ∧
      ∀ text text', parse text = .ok a → parse text' = .ok b →
        ∀ cache cache' : Cache, cache.Reachable → cache'.Reachable → ∀ context,
          (Cache.evaluate text' context cache').1 =
            (Cache.evaluate text context cache).1.mapError (.about text') := by
  refine ⟨fun source c a b d => ?_, fun a b h => ⟨fun source c => ?_, ?_⟩⟩
  · simp only [outcome_eq_answer]
    refine ⟨?_, ?_, ?_, ?_, ?_⟩
    · exact congrArg _ (answer_not_join .conj a b)
    · exact congrArg _ (answer_not_join .disj a b)
    · exact congrArg _ (answer_not_not a)
    · exact congrArg _ (answer_join_join .conj a b d)
    · exact congrArg _ (answer_join_join .disj a b d)
  · rw [outcome_eq_answer, outcome_eq_answer, h.answer_eq]
  · intro text text' htext htext' cache cache' hcache hcache' context
    rw [hcache.sound.fst_evaluate, hcache'.sound.fst_evaluate]
    exact Cache.freshAnswer_about htext htext' (fun c => h.answer_eq) context

/-- A chain that comes to what is not a number, with and without parentheses. -/
theorem outcome_laws_of_fault :
    let left : Expr := .and (.and (.operand (.field "vip"))
      (.compare (.field "tier") .gt (.literal (.int 2))))
      (.compare (.field "load") .lt (.literal (.int 1)))
    let right : Expr := .and (.operand (.field "vip"))
      (.and (.compare (.field "tier") .gt (.literal (.int 2)))
        (.compare (.field "load") .lt (.literal (.int 1))))
    let c : Context := .ofSettings
      [("load", .float ⟨0x7ff8000000000000⟩), ("tier", .int 3), ("vip", .bool true)]
    Regrouped left right ∧ parse "vip and tier > 2 and load < 1" = .ok left ∧
      parse "vip and (tier > 2 and load < 1)" = .ok right ∧
      (Cache.evaluate "vip and (tier > 2 and load < 1)" (some c) .empty).1 =
        .error (.evaluation "vip and (tier > 2 and load < 1)"
          (.run (.incomparable (.float ⟨0x7ff8000000000000⟩) .lt (.int 1)))) := by
  intro left right c
  have hgroups : Regrouped left right := .links .conj rfl
  have hleft : parse "vip and tier > 2 and load < 1" = .ok left := by cbv
  have hright : parse "vip and (tier > 2 and load < 1)" = .ok right := by cbv
  refine ⟨hgroups, hleft, hright, ?_⟩
  have hlower : left.lower (.ofContext c) = .ok (.and (.and (.field 2)
      (.compare (.field 1) .gt (.literal (.int 2))))
      (.compare (.field 0) .lt (.literal (.int 1)))) := by cbv
  have hvalues : c.values = [.float ⟨0x7ff8000000000000⟩, .int 3, .bool true] := by cbv
  have hanswer : left.answer c =
      .ok (.error (.incomparable (.float ⟨0x7ff8000000000000⟩) .lt (.int 1))) := by
    rw [answer, hlower, hvalues]
    rfl
  rw [(outcome_laws.2 _ _ hgroups).2 _ _ hleft hright _ _ .empty .empty,
    Cache.sound_empty.fst_evaluate, Cache.freshAnswer_of_parse hleft]
  simp only [hanswer]
  rfl

end Expr

end GuardedConfig
