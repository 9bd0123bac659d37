import GuardedConfig.Predicate.Run
import GuardedConfig.Proofs.Context.Leaves

/-!
# What a predicate means

The meaning of an expression in an environment that gives values to fields, without any shape or
place: an expression with a type fault has none, any other is read from the left, and a right side
that cannot change the answer is not read. Compiling for the shape of a context and running on its
values comes to the same, in the environment of what stands in the places of the context.

Results:
* `Expr.isSome_meaning_iff`: exactly the well typed expressions have a meaning.
* `Expr.lower_cases`: compiling for the shape of a context fails on exactly the expressions without
  a meaning there; any other compiles to what answers its meaning, with every place the place of the
  field that stands there in the expression.
-/

namespace GuardedConfig

/-- The value of an operand. -/
def Operand.valueIn (env : String → Option Value) : Operand → Option Value
  | field path => env path
  | literal v => some v

/-- What a comparison of two values answers. -/
def Value.answer (v : Value) (op : CompareOp) (w : Value) : Except RunError Bool :=
  match v.compare op w with
  | some b => .ok b
  | none => .error (.incomparable v op w)

/-- The answer of a connective: the right side counts only if the left answers, and answers what
does not stop the reading. -/
def shortCircuit (stop : Bool) (x y : Except RunError Bool) : Except RunError Bool :=
  match x with
  | .ok b => if b = stop then .ok b else y
  | .error e => .error e

theorem CompiledExpr.run_and (a b : CompiledExpr) (values : List Value) :
    (and a b).run values = shortCircuit false (a.run values) (b.run values) := by
  rw [run]
  rcases a.run values with _ | (_ | _) <;> rfl

theorem CompiledExpr.run_or (a b : CompiledExpr) (values : List Value) :
    (or a b).run values = shortCircuit true (a.run values) (b.run values) := by
  rw [run]
  rcases a.run values with _ | (_ | _) <;> rfl

namespace Expr

/-- Every field has a value, both sides of every comparison are of comparable kinds, and every bare
operand is a truth value, read or not. -/
def Typed (env : String → Option Value) : Expr → Prop
  | compare l op r =>
    ∃ v w, l.valueIn env = some v ∧ r.valueIn env = some w ∧ v.kind.comparableWith w.kind op = true
  | operand o => ∃ b, o.valueIn env = some (.bool b)
  | and a b => a.Typed env ∧ b.Typed env
  | or a b => a.Typed env ∧ b.Typed env
  | not a => a.Typed env

/-- What an expression answers, if it is well typed. -/
def meaning (env : String → Option Value) : Expr → Option (Except RunError Bool)
  | compare l op r =>
    match l.valueIn env, r.valueIn env with
    | some v, some w => if v.kind.comparableWith w.kind op then some (v.answer op w) else none
    | _, _ => none
  | operand o =>
    match o.valueIn env with
    | some (.bool b) => some (.ok b)
    | _ => none
  | and a b =>
    match a.meaning env, b.meaning env with
    | some x, some y => some (shortCircuit false x y)
    | _, _ => none
  | or a b =>
    match a.meaning env, b.meaning env with
    | some x, some y => some (shortCircuit true x y)
    | _, _ => none
  | not a =>
    match a.meaning env with
    | some x => some (x.map (!·))
    | none => none

theorem isSome_meaning_iff {env : String → Option Value} {e : Expr} :
    (e.meaning env).isSome ↔ e.Typed env := by
  induction e with
  | compare l op r =>
    unfold meaning Typed
    cases l.valueIn env <;> cases r.valueIn env <;> simp
  | operand o =>
    unfold meaning Typed
    split
    · rename_i b h
      exact iff_of_true rfl ⟨b, h⟩
    · rename_i h
      exact iff_of_false (by simp) fun ⟨b, hb⟩ => h b hb
  | and a b iha ihb =>
    unfold meaning Typed
    rw [← iha, ← ihb]
    cases a.meaning env <;> cases b.meaning env <;> simp
  | or a b iha ihb =>
    unfold meaning Typed
    rw [← iha, ← ihb]
    cases a.meaning env <;> cases b.meaning env <;> simp
  | not a ih =>
    unfold meaning Typed
    rw [← ih]
    cases a.meaning env <;> simp

end Expr

/-- A slot stands for an operand in a context and an environment: a place for the field that the
context lists there, with the value that the environment gives to the field. -/
inductive Slot.StandsFor (c : Context) (env : String → Option Value) : Slot → Operand → Prop
  | literal (v : Value) : StandsFor c env (.literal v) (.literal v)
  | field {i : Nat} {path : String} {v : Value} (listed : c.flatten[i]? = some (path, v))
      (named : env path = some v) : StandsFor c env (.field i) (.field path)

/-- A compiled expression is built like an expression, with slots that stand for its operands. -/
inductive CompiledExpr.Mirrors (c : Context) (env : String → Option Value) :
    CompiledExpr → Expr → Prop
  | compare {l r : Slot} {left right : Operand} (op : CompareOp) :
      l.StandsFor c env left → r.StandsFor c env right →
      Mirrors c env (.compare l op r) (.compare left op right)
  | field {i : Nat} {path : String} :
      (Slot.field i).StandsFor c env (.field path) →
      Mirrors c env (.field i) (.operand (.field path))
  | const (b : Bool) : Mirrors c env (.const b) (.operand (.literal (.bool b)))
  | and {a b : CompiledExpr} {x y : Expr} :
      Mirrors c env a x → Mirrors c env b y → Mirrors c env (.and a b) (.and x y)
  | or {a b : CompiledExpr} {x y : Expr} :
      Mirrors c env a x → Mirrors c env b y → Mirrors c env (.or a b) (.or x y)
  | not {a : CompiledExpr} {x : Expr} : Mirrors c env a x → Mirrors c env (.not a) (.not x)

section Lowering

variable (c : Context)

/-- The values of the context in the order of its shape. -/
def Context.values : List Value :=
  c.flatten.map Prod.snd

variable {c}

theorem Slot.StandsFor.value {env : String → Option Value} {slot : Slot} {o : Operand}
    (h : slot.StandsFor c env o) :
    ∃ v, slot.value c.values = .ok v ∧ o.valueIn env = some v := by
  cases h with
  | literal v => exact ⟨v, rfl, rfl⟩
  | field listed named =>
    rename_i v
    exact ⟨v, by simp [Slot.value, Context.values, listed], named⟩

/-- Placing an operand: either its slot stands for it and has the kind of its value, or it is a
field without a value. -/
theorem Operand.place_cases (o : Operand) :
    (∃ slot v, o.place (.ofContext c) = .ok (slot, v.kind) ∧ o.valueIn c.placed = some v ∧
      slot.StandsFor c c.placed o) ∨
    (∃ err, o.place (.ofContext c) = .error err) ∧ o.valueIn c.placed = none := by
  cases o with
  | literal v => exact .inl ⟨.literal v, v, rfl, rfl, .literal v⟩
  | field path =>
    cases hi : (Shape.ofContext c).indexOf path with
    | none =>
      refine .inr ⟨⟨.undefinedField path (.ofContext c), ?_⟩, Context.placed_of_indexOf_eq_none hi⟩
      simp [place, hi]
    | some i =>
      obtain ⟨v, hlisted, hkind, hplaced⟩ := Context.flatten_of_indexOf hi
      refine .inl ⟨.field i, v, ?_, hplaced, .field hlisted hplaced⟩
      simp [place, hi, hkind]

theorem Slot.condition_spec {env : String → Option Value} {slot : Slot} {o : Operand} {b : Bool}
    (h : slot.StandsFor c env o) (hb : o.valueIn env = some (.bool b)) :
    slot.condition.run c.values = .ok b ∧ slot.condition.Mirrors c env (.operand o) := by
  cases h with
  | literal v =>
    cases hb
    exact ⟨rfl, .const b⟩
  | field listed named =>
    cases named.symm.trans hb
    refine ⟨?_, .field (.field listed named)⟩
    simp [condition, CompiledExpr.run, Context.values, listed, Value.asBool]

namespace Expr

/-- Compiling an expression for the shape of a context either gives an expression built alike that
answers what the expression means, or fails, and then the expression has no meaning. -/
def Lowers (c : Context) (e : Expr) : Prop :=
  (∃ body, e.lower (.ofContext c) = .ok body ∧ e.meaning c.placed = some (body.run c.values) ∧
    body.Mirrors c c.placed e) ∨
  (∃ err, e.lower (.ofContext c) = .error err) ∧ e.meaning c.placed = none

theorem lowers_compare (l : Operand) (op : CompareOp) (r : Operand) :
    Lowers c (.compare l op r) := by
  unfold Lowers lower meaning
  obtain ⟨ls, v, hl, hlv, hls⟩ | ⟨⟨err, hl⟩, hlv⟩ := l.place_cases (c := c)
  · obtain ⟨rs, w, hr, hrv, hrs⟩ | ⟨⟨err, hr⟩, hrv⟩ := r.place_cases (c := c)
    · obtain ⟨v', hv, hlv'⟩ := hls.value
      obtain ⟨w', hw, hrw'⟩ := hrs.value
      cases hlv.symm.trans hlv'
      cases hrv.symm.trans hrw'
      rw [hl, hr, hlv, hrv]
      by_cases hop : v.kind.comparableWith w.kind op = true
      · refine .inl ⟨.compare ls op rs, by simp [bind, Except.bind, hop], ?_, .compare op hls hrs⟩
        cases hc : v.compare op w <;>
          simp [hop, CompiledExpr.run, hv, hw, bind, Except.bind, Value.answer, hc]
      · refine .inr ⟨⟨.typeMismatch v.kind op w.kind, ?_⟩, by simp [hop]⟩
        simp [bind, Except.bind, hop]
    · exact .inr ⟨⟨err, by simp [hl, hr, bind, Except.bind]⟩, by simp [hlv, hrv]⟩
  · exact .inr ⟨⟨err, by simp [hl, bind, Except.bind]⟩, by simp [hlv]⟩

theorem lowers_operand (o : Operand) : Lowers c (.operand o) := by
  unfold Lowers lower meaning
  obtain ⟨slot, v, ho, hov, hslot⟩ | ⟨⟨err, ho⟩, hov⟩ := o.place_cases (c := c)
  · by_cases hk : v.kind = .bool
    · obtain ⟨b, rfl⟩ := Value.kind_eq_bool hk
      obtain ⟨hrun, hmirror⟩ := Slot.condition_spec hslot hov
      exact .inl ⟨slot.condition, by simp [ho, hk, bind, Except.bind], by simp [hov, hrun],
        hmirror⟩
    · refine .inr ⟨⟨.notBoolean o v.kind, by simp [ho, hk, bind, Except.bind]⟩, ?_⟩
      rw [hov]
      cases v with
      | bool b => exact absurd rfl hk
      | int _ | float _ | str _ => rfl
  · exact .inr ⟨⟨err, by simp [ho, bind, Except.bind]⟩, by simp [hov]⟩

/-- Both connectives of two sides compile their sides from the left and are read alike, up to the
truth value that stops the reading. -/
theorem lowers_connective {a b e : Expr} {make : CompiledExpr → CompiledExpr → CompiledExpr}
    {stop : Bool}
    (hlower : e.lower (.ofContext c) = do
      let x ← a.lower (.ofContext c)
      let y ← b.lower (.ofContext c)
      .ok (make x y))
    (hmeaning : e.meaning c.placed =
      match a.meaning c.placed, b.meaning c.placed with
      | some x, some y => some (shortCircuit stop x y)
      | _, _ => none)
    (hrun : ∀ x y values, (make x y).run values = shortCircuit stop (x.run values) (y.run values))
    (hmirrors : ∀ {x y}, x.Mirrors c c.placed a → y.Mirrors c c.placed b →
      (make x y).Mirrors c c.placed e)
    (ha : Lowers c a) (hb : Lowers c b) : Lowers c e := by
  unfold Lowers
  rw [hlower, hmeaning]
  obtain ⟨x, hx, hax, hxa⟩ | ⟨⟨err, hx⟩, hax⟩ := ha
  · obtain ⟨y, hy, hby, hyb⟩ | ⟨⟨err, hy⟩, hby⟩ := hb
    · refine .inl ⟨make x y, by simp [hx, hy, bind, Except.bind], ?_, hmirrors hxa hyb⟩
      rw [hax, hby, hrun]
    · exact .inr ⟨⟨err, by simp [hx, hy, bind, Except.bind]⟩, by simp [hax, hby]⟩
  · exact .inr ⟨⟨err, by simp [hx, bind, Except.bind]⟩, by simp [hax]⟩

theorem lower_cases (e : Expr) : Lowers c e := by
  induction e with
  | compare l op r => exact lowers_compare l op r
  | operand o => exact lowers_operand o
  | and a b iha ihb => exact lowers_connective rfl rfl CompiledExpr.run_and .and iha ihb
  | or a b iha ihb => exact lowers_connective rfl rfl CompiledExpr.run_or .or iha ihb
  | not a ih =>
    unfold Lowers lower meaning
    obtain ⟨x, ha, hma, hxa⟩ | ⟨⟨err, ha⟩, hma⟩ := ih
    · exact .inl ⟨.not x, by simp [ha, bind, Except.bind], by simp [hma, CompiledExpr.run],
        .not hxa⟩
    · exact .inr ⟨⟨err, by simp [ha, bind, Except.bind]⟩, by simp [hma]⟩

end Expr

/-- The values of a context fill the shape of the context. -/
theorem CompiledPredicate.run_values {p : CompiledPredicate} (h : p.shape = .ofContext c) :
    p.run c.values = p.body.run c.values := by
  have hlength : c.values.length = p.shape.length := by
    rw [h, Shape.length_ofContext, Context.values, List.length_map]
  rw [run, if_pos hlength]

end Lowering

end GuardedConfig
