import GuardedConfig.Proofs.Overlay.Recursion

/-!
# Calls

A program reads through an overlay by calls of three kinds: for one node, for the children of a
node, and for all values below a node. A call that returns does what reading its paths in order
does, if enough levels of paths are read. How many are enough is known from the tree, unless the
root has a child with the empty key; then it is as many as it takes until a path fails.

Results:
* `Tree.EnoughLevels`: what holds of enough levels of paths.
* `Overlay.call_eq_reads`: a call by the paths that it reads.
* `Overlay.call_returns`: a call returns, unless the root has a child with the empty key.
* `Overlay.Alike.call`: overlays that are alike make the same of every call.
-/

namespace GuardedConfig

open GuardedConfig.Path (combine)

namespace Tree

variable {t : Tree} {p q : Nat → Prop}

/-- What holds of enough levels of paths: of some number of levels and of every greater one. Unless
the root has a child with the empty key, one level more than the tree has is enough. -/
def EnoughLevels (t : Tree) (p : Nat → Prop) : Prop :=
  ∃ depth, ("" ∉ t.childKeys "" → depth ≤ t.height + 1) ∧ ∀ levels ≥ depth, p levels

namespace EnoughLevels

theorem of_forall (h : ∀ levels, p levels) : t.EnoughLevels p :=
  ⟨0, fun _ => Nat.zero_le _, fun levels _ => h levels⟩

theorem imp (h : t.EnoughLevels p) (hpq : ∀ levels, p levels → q levels) : t.EnoughLevels q := by
  obtain ⟨depth, hdepth, hp⟩ := h
  exact ⟨depth, hdepth, fun levels hlevels => hpq levels (hp levels hlevels)⟩

theorem and (hp : t.EnoughLevels p) (hq : t.EnoughLevels q) :
    t.EnoughLevels fun levels => p levels ∧ q levels := by
  obtain ⟨depth, hdepth, hp⟩ := hp
  obtain ⟨depth', hdepth', hq⟩ := hq
  refine ⟨max depth depth', fun hroot => max_le (hdepth hroot) (hdepth' hroot),
    fun levels hlevels => ?_⟩
  exact ⟨hp levels (le_of_max_le_left hlevels), hq levels (le_of_max_le_right hlevels)⟩

theorem exists_levels (h : t.EnoughLevels p) : ∃ levels, p levels := by
  obtain ⟨depth, -, hp⟩ := h
  exact ⟨depth, hp depth le_rfl⟩

end EnoughLevels

end Tree

namespace Overlay

variable {σ τ : Type}

/-- A call that reads through an overlay. -/
inductive Call where
  | value (path : String)
  | children (parent : String)
  | flatten (parent : String)

/-- The paths that a call reads if none of them fails, in order; below a node, down to a number of
levels. -/
def Call.paths (t : Tree) (marker : String) (levels : Nat) : Call → List String
  | value path => [path]
  | children parent => (t.childKeys parent).map (combine parent)
  | flatten parent => t.pathsBelow marker levels parent

/-- What a call does to the state, and how it fails, if it returns. -/
def call (o : Overlay σ) (c : Call) (s : σ) : Option (Except RuleError Unit × σ) :=
  match c with
  | .value path => some ((o.value path).effect s)
  | .children parent => some ((o.children parent).effect s)
  | .flatten parent => (o.flatten parent s).map fun r => (r.1.map fun _ => (), r.2)

theorem call_flatten {o : Overlay σ} {parent : String} {s : σ} {r : Except RuleError Listing × σ}
    (h : o.flatten parent s = some r) :
    o.call (.flatten parent) s = some (r.1.map fun _ => (), r.2) :=
  congrArg (Option.map _) h

/-- **A call does what reading its paths one after the other does**, with enough levels. -/
theorem call_eq_reads (o : Overlay σ) {c : Call} {s : σ} {r : Except RuleError Unit × σ}
    (h : o.call c s = some r) :
    o.tree.EnoughLevels fun levels => o.reads (c.paths o.tree o.keys.marker levels) s = r := by
  cases c with
  | value path =>
    cases h
    exact .of_forall fun _ => congrFun (o.effect_value path).symm s
  | children parent =>
    cases h
    exact .of_forall fun _ => congrFun (o.effect_children parent).symm s
  | flatten parent =>
    obtain ⟨x, hx, rfl⟩ := Option.map_eq_some_iff.mp h
    obtain ⟨depth, hreturns⟩ := flatten_eq_some_iff.mp hx
    refine ⟨depth, fun hroot => hreturns.depth_le hroot, fun levels hlevels => ?_⟩
    obtain ⟨below, rfl⟩ := Nat.exists_eq_add_one.mpr
      (Nat.lt_of_lt_of_le hreturns.depth_pos hlevels)
    exact hreturns.reads_eq hlevels

theorem call_returns {o : Overlay σ} (hroot : "" ∉ o.tree.childKeys "") (c : Call) (s : σ) :
    ∃ r, o.call c s = some r := by
  cases c with
  | value path | children parent => exact ⟨_, rfl⟩
  | flatten parent => exact ⟨_, call_flatten (flatten_eq_written hroot parent s)⟩

/-- **Overlays that are alike make the same of every call**: it returns through both with the same
outcome, or through neither. -/
theorem Alike.call {R : σ → τ → Prop} {a : Overlay σ} {b : Overlay τ} (h : a.Alike R b) (c : Call)
    {s : σ} {t : τ} (hR : R s t) :
    Option.Rel (fun x y => x.1 = y.1 ∧ R x.2 y.2) (a.call c s) (b.call c t) := by
  cases c with
  | value path =>
    obtain ⟨hout, hstate⟩ := h.value path s t hR
    exact .some ⟨congrArg (Except.map _) hout, hstate⟩
  | children parent =>
    obtain ⟨hout, hstate⟩ := h.children parent s t hR
    exact .some ⟨congrArg (Except.map _) hout, hstate⟩
  | flatten parent =>
    have hflat := h.flatten parent hR
    unfold Overlay.call
    dsimp only
    generalize a.flatten parent s = x, b.flatten parent t = y at hflat ⊢
    cases hflat with
    | some hrel =>
      obtain ⟨hout, hstate⟩ := hrel
      exact .some ⟨congrArg (Except.map _) hout, hstate⟩
    | none => exact .none

end Overlay

end GuardedConfig
