import Mathlib
import GuardedConfig.Predicate.Compile

/-!
# Compiling as type checking

A shape gives kinds to fields, and through them to operands. An expression is well typed for a shape
if every field in it is listed, both sides of every comparison are of comparable kinds, and every
condition is a truth value; whether a side would ever be read does not count. What can be wrong is
said of comparisons and conditions one by one, and the one that stands furthest to the left counts.

Results:
* `Operand.place_cases_of_shape`: an operand is placed with a kind that it has, unless it is a field
  that is not listed.
* `Atom.Fault.unique`, `FirstFault.unique`: of all faults one is reported.
* `Expr.checks_lower`: what compiling an expression comes to, by its comparisons and conditions.
* `CompiledPredicate.ofExpr_typed_or_first_fault`: exactly the well typed expressions compile, and
  any other fails with its first fault.
-/

namespace GuardedConfig

/-! ## Kinds -/

/-- No field of the shape has the path. -/
def Shape.Lacks (shape : Shape) (path : String) : Prop :=
  ∀ f ∈ shape.fields, f.1 ≠ path

/-- The kind of an operand in a shape: a literal has its own, a field the one it is listed with. -/
inductive Operand.HasKind (shape : Shape) : Operand → ValueKind → Prop
  | literal (v : Value) : HasKind shape (.literal v) v.kind
  | field {path : String} {kind : ValueKind} (listed : (path, kind) ∈ shape.fields) :
      HasKind shape (.field path) kind

/-- The fields of an operand. -/
def Operand.fields : Operand → List String
  | field path => [path]
  | literal _ => []

/-- A part of an expression that has no parts of its own. -/
inductive Atom where
  | comparison (left : Operand) (op : CompareOp) (right : Operand)
  | condition (o : Operand)

/-- The fields of a comparison or a condition. -/
def Atom.fields : Atom → List String
  | comparison l _ r => l.fields ++ r.fields
  | condition o => o.fields

namespace Expr

/-- The comparisons and conditions of an expression from the left to the right. -/
def atoms : Expr → List Atom
  | compare l op r => [.comparison l op r]
  | operand o => [.condition o]
  | and a b => a.atoms ++ b.atoms
  | or a b => a.atoms ++ b.atoms
  | not a => a.atoms

/-- The fields that occur in an expression. -/
def fields : Expr → List String
  | compare l _ r => l.fields ++ r.fields
  | operand o => o.fields
  | and a b => a.fields ++ b.fields
  | or a b => a.fields ++ b.fields
  | not a => a.fields

/-- An expression that may be run on the contexts of a shape, whichever of its parts are read. -/
structure WellTyped (shape : Shape) (e : Expr) : Prop where
  fields : ∀ path ∈ e.fields, ∃ kind, (path, kind) ∈ shape.fields
  comparisons : ∀ l op r, .comparison l op r ∈ e.atoms →
    ∃ a b, l.HasKind shape a ∧ r.HasKind shape b ∧ a.comparableWith b op = true
  conditions : ∀ o, .condition o ∈ e.atoms → o.HasKind shape .bool

theorem fields_eq (e : Expr) : e.fields = e.atoms.flatMap Atom.fields := by
  induction e with
  | compare l op r => simp [fields, atoms, Atom.fields]
  | operand o => simp [fields, atoms, Atom.fields]
  | and a b iha ihb | or a b iha ihb => rw [fields, atoms, List.flatMap_append, iha, ihb]
  | not a ih => rw [fields, atoms, ih]

end Expr

namespace Atom

variable {shape : Shape}

/-- A comparison of comparable kinds, or a condition that is a truth value. -/
def WellTyped (shape : Shape) : Atom → Prop
  | comparison l op r =>
    ∃ a b, l.HasKind shape a ∧ r.HasKind shape b ∧ a.comparableWith b op = true
  | condition o => o.HasKind shape .bool

/-- What is wrong with a comparison or a condition. In a comparison the left side comes before the
right one, and a missing field before a clash of kinds. -/
inductive Fault (shape : Shape) : Atom → CompileError → Prop
  | left {path : String} {op : CompareOp} {r : Operand} (missing : shape.Lacks path) :
      Fault shape (.comparison (.field path) op r) (.undefinedField path shape)
  | right {l : Operand} {a : ValueKind} {op : CompareOp} {path : String}
      (typed : l.HasKind shape a) (missing : shape.Lacks path) :
      Fault shape (.comparison l op (.field path)) (.undefinedField path shape)
  | clash {l r : Operand} {a b : ValueKind} {op : CompareOp} (left : l.HasKind shape a)
      (right : r.HasKind shape b) (kinds : a.comparableWith b op = false) :
      Fault shape (.comparison l op r) (.typeMismatch a op b)
  | undefined {path : String} (missing : shape.Lacks path) :
      Fault shape (.condition (.field path)) (.undefinedField path shape)
  | notBoolean {o : Operand} {kind : ValueKind} (typed : o.HasKind shape kind)
      (other : kind ≠ .bool) : Fault shape (.condition o) (.notBoolean o kind)

end Atom

/-- The error of the first of some atoms that is faulty. -/
inductive FirstFault (shape : Shape) : List Atom → CompileError → Prop
  | here {x : Atom} {later : List Atom} {err : CompileError} (fault : x.Fault shape err) :
      FirstFault shape (x :: later) err
  | later {x : Atom} {later : List Atom} {err : CompileError} (typed : x.WellTyped shape)
      (fault : FirstFault shape later err) : FirstFault shape (x :: later) err

section Kinds

variable {shape : Shape}

theorem Expr.wellTyped_iff {e : Expr} :
    e.WellTyped shape ↔ ∀ x ∈ e.atoms, x.WellTyped shape := by
  constructor
  · intro h x hx
    cases x with
    | comparison l op r => exact h.comparisons l op r hx
    | condition o => exact h.conditions o hx
  · intro h
    refine ⟨fun path hpath => ?_, fun l op r hx => h _ hx, fun o hx => h _ hx⟩
    have hlisted {o : Operand} {kind : ValueKind} (ho : o.HasKind shape kind)
        (hmem : path ∈ o.fields) : ∃ kind, (path, kind) ∈ shape.fields := by
      cases ho with
      | literal v => exact absurd hmem (by simp [Operand.fields])
      | field listed =>
        rw [List.mem_singleton.mp hmem]
        exact ⟨_, listed⟩
    rw [Expr.fields_eq] at hpath
    obtain ⟨x, hx, hmem⟩ := List.mem_flatMap.mp hpath
    cases x with
    | comparison l op r =>
      obtain ⟨a, b, hl, hr, -⟩ := h _ hx
      rcases List.mem_append.mp hmem with hmem | hmem
      · exact hlisted hl hmem
      · exact hlisted hr hmem
    | condition o => exact hlisted (h _ hx) hmem

/-- A field that has a kind is listed. -/
theorem Operand.HasKind.not_lacks {path : String} {kind : ValueKind}
    (h : (Operand.field path).HasKind shape kind) : ¬shape.Lacks path := by
  cases h with
  | field listed => exact fun hlacks => hlacks _ listed rfl

/-! ## One error at most -/

variable (hdistinct : (shape.fields.map Prod.fst).Nodup)

include hdistinct

theorem Operand.HasKind.unique {o : Operand} {a b : ValueKind} (ha : o.HasKind shape a)
    (hb : o.HasKind shape b) : a = b := by
  cases ha with
  | literal v =>
    cases hb
    rfl
  | field listed =>
    cases hb with
    | field listed' =>
      exact congrArg Prod.snd (List.inj_on_of_nodup_map hdistinct listed listed' rfl)

theorem Atom.Fault.not_wellTyped {x : Atom} {err : CompileError} (h : x.Fault shape err) :
    ¬x.WellTyped shape := by
  cases h with
  | left missing =>
    rintro ⟨a, b, hl, -, -⟩
    exact hl.not_lacks missing
  | right typed missing =>
    rintro ⟨a, b, -, hr, -⟩
    exact hr.not_lacks missing
  | clash left right kinds =>
    rintro ⟨a, b, hl, hr, hkinds⟩
    rw [hl.unique hdistinct left, hr.unique hdistinct right, kinds] at hkinds
    cases hkinds
  | undefined missing => exact fun ho => Operand.HasKind.not_lacks ho missing
  | notBoolean typed other => exact fun ho => other (typed.unique hdistinct ho)

theorem Atom.Fault.unique {x : Atom} {err err' : CompileError} (h : x.Fault shape err)
    (h' : x.Fault shape err') : err = err' := by
  cases h with
  | left missing =>
    cases h' with
    | left _ => rfl
    | right typed _ => exact absurd missing typed.not_lacks
    | clash left _ _ => exact absurd missing left.not_lacks
  | right typed missing =>
    cases h' with
    | left missing' => exact absurd missing' typed.not_lacks
    | right _ _ => rfl
    | clash _ right _ => exact absurd missing right.not_lacks
  | clash left right _ =>
    cases h' with
    | left missing => exact absurd missing left.not_lacks
    | right _ missing => exact absurd missing right.not_lacks
    | clash left' right' _ =>
      rw [left.unique hdistinct left', right.unique hdistinct right']
  | undefined missing =>
    cases h' with
    | undefined _ => rfl
    | notBoolean typed _ => exact absurd missing typed.not_lacks
  | notBoolean typed _ =>
    cases h' with
    | undefined missing => exact absurd missing typed.not_lacks
    | notBoolean typed' _ => rw [typed.unique hdistinct typed']

theorem FirstFault.exists_not_wellTyped {xs : List Atom} {err : CompileError}
    (h : FirstFault shape xs err) : ∃ x ∈ xs, ¬x.WellTyped shape := by
  induction h with
  | here fault => exact ⟨_, List.mem_cons_self, fault.not_wellTyped hdistinct⟩
  | later _ _ ih =>
    obtain ⟨x, hx, hfault⟩ := ih
    exact ⟨x, List.mem_cons_of_mem _ hx, hfault⟩

theorem FirstFault.unique {xs : List Atom} {err err' : CompileError}
    (h : FirstFault shape xs err) (h' : FirstFault shape xs err') : err = err' := by
  induction h with
  | here fault =>
    cases h' with
    | here fault' => exact fault.unique hdistinct fault'
    | later typed _ => exact absurd typed (fault.not_wellTyped hdistinct)
  | later typed _ ih =>
    cases h' with
    | here fault' => exact absurd typed (fault'.not_wellTyped hdistinct)
    | later _ fault' => exact ih fault'

end Kinds

/-! ## What compiling comes to -/

section Compiling

variable {shape : Shape}

theorem Operand.place_cases_of_shape (shape : Shape) (o : Operand) :
    (∃ slot kind, o.place shape = .ok (slot, kind) ∧ o.HasKind shape kind) ∨
    ∃ path, o = .field path ∧ shape.Lacks path ∧
      o.place shape = .error (.undefinedField path shape) := by
  cases o with
  | literal v => exact .inl ⟨.literal v, v.kind, rfl, .literal v⟩
  | field path =>
    cases hi : shape.indexOf path with
    | none =>
      exact .inr ⟨path, rfl, Shape.indexOf_eq_none_iff.mp hi, by simp [place, hi]⟩
    | some i =>
      obtain ⟨kind, hf⟩ := Shape.fst_of_indexOf hi
      have hkind : shape.kindAt i = some kind := by simp [Shape.kindAt, hf]
      exact .inl ⟨.field i, kind, by simp [place, hi, hkind], .field (List.mem_of_getElem? hf)⟩

theorem FirstFault.append {xs : List Atom} {err : CompileError} (h : FirstFault shape xs err)
    (more : List Atom) : FirstFault shape (xs ++ more) err := by
  induction h with
  | here fault => exact .here fault
  | later typed _ ih => exact .later typed ih

theorem FirstFault.behind {xs : List Atom} (hxs : ∀ x ∈ xs, x.WellTyped shape) {ys : List Atom}
    {err : CompileError} (h : FirstFault shape ys err) : FirstFault shape (xs ++ ys) err := by
  induction xs with
  | nil => exact h
  | cons x xs ih =>
    exact .later (hxs x List.mem_cons_self) (ih fun y hy => hxs y (List.mem_cons_of_mem x hy))

/-- An outcome that success gives where all atoms are well typed, and otherwise the first fault. -/
def Checks {α : Type} (shape : Shape) (xs : List Atom) : Except CompileError α → Prop
  | .ok _ => ∀ x ∈ xs, x.WellTyped shape
  | .error err => FirstFault shape xs err

theorem Checks.map {α β : Type} {xs : List Atom} {r : Except CompileError α}
    (h : Checks shape xs r) (f : α → β) : Checks shape xs (r.map f) := by
  cases r with
  | ok a => exact h
  | error err => exact h

/-- Two sides, of which the right one is checked if the left one passes. -/
theorem Checks.both {α : Type} {xs ys : List Atom} {r s : Except CompileError α}
    (hr : Checks shape xs r) (hs : Checks shape ys s) (make : α → α → α) :
    Checks shape (xs ++ ys) (do
      let a ← r
      let b ← s
      .ok (make a b)) := by
  cases r with
  | error err => exact FirstFault.append hr ys
  | ok a =>
    cases s with
    | error err => exact FirstFault.behind hr hs
    | ok b => exact fun x hx => (List.mem_append.mp hx).elim (hr x) (hs x)

namespace Expr

theorem checks_compare (l : Operand) (op : CompareOp) (r : Operand) :
    Checks shape (atoms (.compare l op r)) ((compare l op r).lower shape) := by
  unfold lower
  obtain ⟨ls, a, hl, hlk⟩ | ⟨path, rfl, hlacks, hl⟩ := l.place_cases_of_shape shape
  · obtain ⟨rs, b, hr, hrk⟩ | ⟨path, rfl, hlacks, hr⟩ := r.place_cases_of_shape shape
    · rw [hl, hr]
      cases hkinds : a.comparableWith b op with
      | true =>
        simp only [bind, Except.bind, hkinds, if_true]
        intro x hx
        rw [List.mem_singleton.mp hx]
        exact ⟨a, b, hlk, hrk, hkinds⟩
      | false =>
        simp only [bind, Except.bind, hkinds]
        exact .here (.clash hlk hrk hkinds)
    · rw [hl, hr]
      exact .here (.right hlk hlacks)
  · rw [hl]
    exact .here (.left hlacks)

theorem checks_operand (o : Operand) :
    Checks shape (atoms (.operand o)) ((operand o).lower shape) := by
  unfold lower
  obtain ⟨slot, kind, ho, hkind⟩ | ⟨path, rfl, hlacks, ho⟩ := o.place_cases_of_shape shape
  · rw [ho]
    by_cases hbool : kind = .bool
    · subst hbool
      intro x hx
      rw [List.mem_singleton.mp hx]
      exact hkind
    · simp only [bind, Except.bind, if_neg hbool]
      exact .here (.notBoolean hkind hbool)
  · rw [ho]
    exact .here (.undefined hlacks)

theorem checks_lower (e : Expr) : Checks shape e.atoms (e.lower shape) := by
  induction e with
  | compare l op r => exact checks_compare l op r
  | operand o => exact checks_operand o
  | and a b iha ihb => exact iha.both ihb .and
  | or a b iha ihb => exact iha.both ihb .or
  | not a ih =>
    have hmap : (not a).lower shape = (a.lower shape).map CompiledExpr.not := by
      cases h : a.lower shape <;> simp [lower, h, bind, Except.bind, Except.map]
    rw [hmap]
    exact ih.map CompiledExpr.not

end Expr

end Compiling

namespace CompiledPredicate

/-- **Compiling is type checking.** For a shape that lists no path twice, an expression compiles
exactly if it is well typed; any other fails with the error of its leftmost comparison or condition
that is faulty. -/
theorem ofExpr_typed_or_first_fault {shape : Shape}
    (hdistinct : (shape.fields.map Prod.fst).Nodup) (source : String) (e : Expr) :
    ((∃ p, ofExpr source e shape = .ok p) ↔ e.WellTyped shape) ∧
    ∀ err, ofExpr source e shape = .error err ↔ FirstFault shape e.atoms err := by
  have hchecks : Checks shape e.atoms (ofExpr source e shape) := e.checks_lower.map _
  rw [Expr.wellTyped_iff]
  cases hr : ofExpr source e shape with
  | ok p =>
    rw [hr] at hchecks
    refine ⟨iff_of_true ⟨p, rfl⟩ hchecks, fun err => iff_of_false (by simp) fun hfault => ?_⟩
    obtain ⟨x, hx, hnot⟩ := hfault.exists_not_wellTyped hdistinct
    exact hnot (hchecks x hx)
  | error cause =>
    rw [hr] at hchecks
    refine ⟨iff_of_false (by simp) fun htyped => ?_, fun err => ?_⟩
    · obtain ⟨x, hx, hnot⟩ := FirstFault.exists_not_wellTyped hdistinct hchecks
      exact hnot (htyped x hx)
    · constructor
      · rintro ⟨⟩
        exact hchecks
      · exact fun hfault => congrArg Except.error (FirstFault.unique hdistinct hchecks hfault)

/-- A text beside a number is refused where it would never be read, before a field that is
missing. -/
theorem ofExpr_typed_or_first_fault_of_two_faults :
    ofExpr "vip or region > 1 and missing"
        (.or (.operand (.field "vip")) (.and (.compare (.field "region") .gt (.literal (.int 1)))
          (.operand (.field "missing"))))
        (.ofContext (.ofSettings [("region", .str "eu"), ("vip", .bool true)])) =
      .error (.typeMismatch .str .gt .int) := by
  have hfields : (Shape.ofContext
      (.ofSettings [("region", .str "eu"), ("vip", .bool true)])).fields =
        [("region", .str), ("vip", .bool)] := by cbv
  refine ((ofExpr_typed_or_first_fault ?_ _ _).2 _).mpr ?_
  · rw [hfields]
    decide
  · refine .later (.field ?_) (.here (.clash (.field ?_) (.literal (.int 1)) rfl))
    all_goals
      rw [hfields]
      decide

end CompiledPredicate

end GuardedConfig
