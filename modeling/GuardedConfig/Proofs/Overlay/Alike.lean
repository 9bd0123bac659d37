import Mathlib
import GuardedConfig.Overlay.Basic

/-!
# Overlays that read alike

An overlay looks at its state only through its context source and its evaluator. Two overlays over
states of different types that have the same tree and the same keys, and whose sources and
evaluators cannot be told apart from related states, read the same values and end in the same
errors.

Results:
* `Attempt.Alike.bind`, `Attempt.Alike.mapM`: attempts made of attempts that are alike are alike.
* `Overlay.Alike.value`, `Overlay.Alike.children`: overlays that are alike read alike.
* `Overlay.Keeps.value`, `Overlay.Keeps.children`: reading keeps what the source and the evaluator
  keep.
* `Overlay.value_of_same`: of the tree, only the value and the rules at a path count for reading it.
-/

namespace GuardedConfig

section Attempts

variable {σ τ α β : Type}

namespace Attempt

/-- Two attempts that come to the same outcome from related states and leave related states. -/
def Alike (R : σ → τ → Prop) (x : Attempt σ α) (y : Attempt τ α) : Prop :=
  ∀ s t, R s t → (x s).1 = (y t).1 ∧ R (x s).2 (y t).2

theorem bind_apply (x : Attempt σ α) (f : α → Attempt σ β) (s : σ) :
    (x >>= f) s =
      match x s with
      | (.ok a, s') => f a s'
      | (.error e, s') => (.error e, s') := by
  change (match x s with | (r, s') => ExceptT.bindCont f r s') = _
  rcases x s with ⟨_ | a, s'⟩ <;> rfl

theorem bind_pure_apply (x : Attempt σ α) (f : α → β) (s : σ) :
    (x >>= fun a => pure (f a)) s = ((x s).1.map f, (x s).2) := by
  rw [bind_apply]
  rcases x s with ⟨_ | a, s'⟩ <;> rfl

/-- An attempt that keeps a property of the state, whatever it comes to. -/
def Keeps (P : σ → Prop) (x : Attempt σ α) : Prop :=
  ∀ s, P s → P (x s).2

theorem keeps_iff_alike {P : σ → Prop} {x : Attempt σ α} :
    x.Keeps P ↔ Alike (fun s t => s = t ∧ P s) x x := by
  constructor
  · rintro h s _ ⟨rfl, hs⟩
    exact ⟨rfl, rfl, h s hs⟩
  · intro h s hs
    exact (h s s ⟨rfl, hs⟩).2.2

namespace Alike

variable {R : σ → τ → Prop} {x : Attempt σ α} {y : Attempt τ α}

theorem pure (a : α) : Alike R (Pure.pure a) (Pure.pure a) :=
  fun _ _ h => ⟨rfl, h⟩

theorem throw (e : RuleError) : Alike R (MonadExcept.throw e : Attempt σ α) (MonadExcept.throw e) :=
  fun _ _ h => ⟨rfl, h⟩

theorem ofExcept (r : Except RuleError α) :
    Alike R (ExceptT.mk (Pure.pure r) : Attempt σ α) (ExceptT.mk (Pure.pure r)) :=
  fun _ _ h => ⟨rfl, h⟩

theorem bind {f : α → Attempt σ β} {g : α → Attempt τ β} (hx : Alike R x y)
    (hf : ∀ a, Alike R (f a) (g a)) : Alike R (x >>= f) (y >>= g) := by
  intro s t hst
  obtain ⟨hout, hR⟩ := hx s t hst
  rw [bind_apply, bind_apply]
  rcases hxs : x s with ⟨r, s'⟩
  rcases hyt : y t with ⟨r', t'⟩
  rw [hxs, hyt] at hout hR
  cases hout
  cases r with
  | ok a => exact hf a s' t' hR
  | error e => exact ⟨rfl, hR⟩

theorem map (f : α → β) (hx : Alike R x y) : Alike R (f <$> x) (f <$> y) := by
  rw [map_eq_pure_bind, map_eq_pure_bind]
  exact hx.bind fun a => pure (f a)

theorem mapM {f : α → Attempt σ β} {g : α → Attempt τ β} (hf : ∀ a, Alike R (f a) (g a))
    (l : List α) : Alike R (l.mapM f) (l.mapM g) := by
  induction l with
  | nil =>
    rw [List.mapM_nil, List.mapM_nil]
    exact pure []
  | cons a l ih =>
    rw [List.mapM_cons, List.mapM_cons]
    exact (hf a).bind fun b => ih.bind fun bs => pure (b :: bs)

theorem lift {x : StateM σ α} {y : StateM τ α}
    (h : ∀ s t, R s t → (x s).1 = (y t).1 ∧ R (x s).2 (y t).2) :
    Alike R (ExceptT.lift x) (ExceptT.lift y) := by
  intro s t hst
  obtain ⟨hout, hR⟩ := h s t hst
  exact ⟨congrArg Except.ok hout, hR⟩

end Alike

end Attempt

/-- Two evaluators that answer every question alike. -/
def Evaluator.Alike (R : σ → τ → Prop) (a : Evaluator σ) (b : Evaluator τ) : Prop :=
  ∀ predicate context, Attempt.Alike R (a predicate context) (b predicate context)

variable {R : σ → τ → Prop} {a : Evaluator σ} {b : Evaluator τ}

theorem Evaluator.Alike.firstMatch (h : Evaluator.Alike R a b) (context : Option Context)
    (rules : List Rule) :
    Attempt.Alike R (firstMatch a context rules) (firstMatch b context rules) := by
  induction rules with
  | nil => exact .pure none
  | cons r rs ih =>
    unfold GuardedConfig.firstMatch
    cases r.predicate with
    | none => exact ih
    | some p =>
      refine (h p context).bind fun holds => ?_
      cases holds with
      | true => exact .pure _
      | false => exact ih

theorem Evaluator.Alike.resolve (h : Evaluator.Alike R a b) (context : Option Context)
    (s : RuleSet) : Attempt.Alike R (s.resolve context a) (s.resolve context b) := by
  unfold RuleSet.resolve
  split
  · exact .throw _
  · refine (h.firstMatch context s.rules).bind fun found => ?_
    cases found with
    | some v => exact .pure _
    | none => exact .pure _

end Attempts

namespace Overlay

variable {σ τ : Type}

/-- Two overlays over the same tree, with the same keys, that ask alike. -/
structure Alike (R : σ → τ → Prop) (a : Overlay σ) (b : Overlay τ) : Prop where
  tree : a.tree = b.tree
  keys : a.keys = b.keys
  context : ∀ s t, R s t → (a.context s).1 = (b.context t).1 ∧ R (a.context s).2 (b.context t).2
  ask : Evaluator.Alike R a.ask b.ask

namespace Alike

variable {R : σ → τ → Prop} {a : Overlay σ} {b : Overlay τ}

theorem resolveAt (h : a.Alike R b) (path : String) :
    Attempt.Alike R (a.resolveAt path) (b.resolveAt path) := by
  unfold Overlay.resolveAt
  rw [h.tree, h.keys]
  exact (Attempt.Alike.ofExcept _).bind fun rules =>
    (Attempt.Alike.lift h.context).bind fun context => h.ask.resolve context rules

theorem value (h : a.Alike R b) (path : String) :
    Attempt.Alike R (a.value path) (b.value path) := by
  unfold Overlay.value
  rw [h.tree, h.keys]
  split
  · exact h.resolveAt path
  · exact .pure _

theorem children (h : a.Alike R b) (parent : String) :
    Attempt.Alike R (a.children parent) (b.children parent) := by
  unfold Overlay.children
  rw [h.tree]
  exact .mapM (fun k => (h.value _).bind fun v => .pure _) _

end Alike

/-- An overlay whose source and evaluator keep a property of the state. -/
structure Keeps (P : σ → Prop) (o : Overlay σ) : Prop where
  context : ∀ s, P s → P (o.context s).2
  ask : ∀ predicate context, (o.ask predicate context).Keeps P

namespace Keeps

variable {P : σ → Prop} {o : Overlay σ}

theorem alike (h : o.Keeps P) : o.Alike (fun s t => s = t ∧ P s) o where
  tree := rfl
  keys := rfl
  context := by
    rintro s _ ⟨rfl, hs⟩
    exact ⟨rfl, rfl, h.context s hs⟩
  ask predicate context := Attempt.keeps_iff_alike.mp (h.ask predicate context)

theorem value (h : o.Keeps P) (path : String) : (o.value path).Keeps P :=
  Attempt.keeps_iff_alike.mpr (h.alike.value path)

theorem children (h : o.Keeps P) (parent : String) : (o.children parent).Keeps P :=
  Attempt.keeps_iff_alike.mpr (h.alike.children parent)

end Keeps

/-- Over another tree a path reads alike if the two trees show the same value and the same rules
there. -/
theorem value_of_same (o : Overlay σ) {t' : Tree} {path : String}
    (hbears : t'.bearsRules o.keys path = o.tree.bearsRules o.keys path)
    (hrules : o.tree.bearsRules o.keys path = true →
      t'.ruleSetAt o.keys (Path.combine path o.keys.marker) =
        o.tree.ruleSetAt o.keys (Path.combine path o.keys.marker))
    (hvalue : t'.value path = o.tree.value path) :
    ({ o with tree := t' } : Overlay σ).value path = o.value path := by
  unfold value
  dsimp only
  rw [hbears, hvalue]
  by_cases h : o.tree.bearsRules o.keys path = true
  · rw [if_pos h, if_pos h]
    unfold resolveAt
    dsimp only
    rw [hrules h]
  · rw [if_neg h, if_neg h]

end Overlay

end GuardedConfig
