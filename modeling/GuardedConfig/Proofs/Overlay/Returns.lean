import GuardedConfig.Proofs.Overlay.Alike

/-!
# What flattening returns

Flattening may call itself again and again without end. `Overlay.Ends` tells which calls end, how
they end, and with how many calls in one another, with no bound on the calls. What flattening
returns is what its call ends in, and it returns nothing if that does not end.

Results:
* `Overlay.Ends.unique`: a call ends in one way only.
* `Overlay.flatten_eq_some_iff`: flattening returns what its call ends in.
* `Overlay.Alike.flatten`: of two overlays that are alike both return the same or neither returns.
* `Overlay.Keeps.flatten`: flattening keeps what the source and the evaluator keep.
-/

namespace GuardedConfig.Overlay

open GuardedConfig.Path (combine)

variable {σ τ : Type} {o : Overlay σ}

/-! ## Calls that end -/

/-- A call for what is below a path, with some children still to go through, a listing that it
writes to and a state, ends with a result and a state. The depth is the number of calls in one
another, the call itself included. -/
inductive Ends (o : Overlay σ) : (depth : Nat) → (parent : String) → (keys : List String) →
    Listing → σ → Except RuleError Listing × σ → Prop
  | done {parent : String} {l : Listing} {s : σ} : Ends o 1 parent [] l s (.ok l, s)
  | marker {depth : Nat} {parent k : String} {keys : List String} {l : Listing} {s : σ}
      {r : Except RuleError Listing × σ} (hk : k = o.keys.marker)
      (rest : Ends o depth parent keys l s r) : Ends o depth parent (k :: keys) l s r
  /-- The child does not read. -/
  | unread {parent k : String} {keys : List String} {l : Listing} {s t : σ} {e : RuleError}
      (hk : k ≠ o.keys.marker) (read : o.value (combine parent k) s = (.error e, t)) :
      Ends o 1 parent (k :: keys) l s (.error e, t)
  /-- Something below the child does not read. -/
  | stopped {depth : Nat} {parent k : String} {keys : List String} {l : Listing} {s t u : σ}
      {v : Option String} {e : RuleError} (hk : k ≠ o.keys.marker)
      (read : o.value (combine parent k) s = (.ok v, t))
      (call : Ends o depth (combine parent k) (o.tree.childKeys (combine parent k)) l t
        (.error e, u)) :
      Ends o (depth + 1) parent (k :: keys) l s (.error e, u)
  /-- The value of the child is written after what is below it. -/
  | next {depth depth' : Nat} {parent k : String} {keys : List String} {l below : Listing}
      {s t u : σ} {v : Option String} {r : Except RuleError Listing × σ}
      (hk : k ≠ o.keys.marker) (read : o.value (combine parent k) s = (.ok v, t))
      (call : Ends o depth (combine parent k) (o.tree.childKeys (combine parent k)) l t
        (.ok below, u))
      (rest : Ends o depth' parent keys (v.elim below (Listing.put (combine parent k) · below)) u
        r) :
      Ends o (max (depth + 1) depth') parent (k :: keys) l s r

/-- Flattening at a path returns. -/
def Returns (o : Overlay σ) (depth : Nat) (parent : String) (s : σ)
    (r : Except RuleError Listing × σ) : Prop :=
  o.Ends depth parent (o.tree.childKeys parent) [] s r

theorem Ends.unique {depth depth' : Nat} {parent : String} {keys : List String} {l : Listing}
    {s : σ} {r r' : Except RuleError Listing × σ} (h : o.Ends depth parent keys l s r)
    (h' : o.Ends depth' parent keys l s r') : depth = depth' ∧ r = r' := by
  induction h generalizing depth' r' with
  | done =>
    cases h'
    exact ⟨rfl, rfl⟩
  | marker hk _ ih =>
    cases h' with
    | marker _ rest => exact ih rest
    | unread hk' _ | stopped hk' _ _ | next hk' _ _ _ => exact absurd hk hk'
  | unread hk read =>
    cases h' with
    | marker hk' _ => exact absurd hk' hk
    | unread _ read' =>
      cases read.symm.trans read'
      exact ⟨rfl, rfl⟩
    | stopped _ read' _ | next _ read' _ _ => cases read.symm.trans read'
  | stopped hk read _ ih =>
    cases h' with
    | marker hk' _ => exact absurd hk' hk
    | unread _ read' => cases read.symm.trans read'
    | stopped _ read' call' =>
      cases read.symm.trans read'
      obtain ⟨rfl, hr⟩ := ih call'
      cases hr
      exact ⟨rfl, rfl⟩
    | next _ read' call' _ =>
      cases read.symm.trans read'
      cases (ih call').2
  | next hk read _ _ ihcall ihrest =>
    cases h' with
    | marker hk' _ => exact absurd hk' hk
    | unread _ read' => cases read.symm.trans read'
    | stopped _ read' call' =>
      cases read.symm.trans read'
      cases (ihcall call').2
    | next _ read' call' rest' =>
      cases read.symm.trans read'
      obtain ⟨rfl, hr⟩ := ihcall call'
      cases hr
      obtain ⟨rfl, rfl⟩ := ihrest rest'
      exact ⟨rfl, rfl⟩

theorem Ends.depth_pos {depth : Nat} {parent : String} {keys : List String} {l : Listing} {s : σ}
    {r : Except RuleError Listing × σ} (h : o.Ends depth parent keys l s r) : 0 < depth := by
  induction h with
  | done | unread _ _ | stopped _ _ _ _ => exact Nat.succ_pos _
  | marker _ _ ih => exact ih
  | next _ _ _ _ _ ih => exact lt_max_of_lt_right ih

/-! ## What comes back -/

theorem exists_ends {parent : String} {keys : List String} {l : Listing} {s : σ}
    {r : Except RuleError Listing × σ} (h : o.flattenThrough parent keys l s = some r) :
    ∃ depth, o.Ends depth parent keys l s r := by
  refine flattenThrough.partial_correctness o
    (fun parent keys l s r => ∃ depth, o.Ends depth parent keys l s r) ?_ parent keys l s r h
  intro rest ih parent keys l s r hr
  cases keys with
  | nil =>
    cases hr
    exact ⟨1, .done⟩
  | cons k keys =>
    dsimp only at hr
    by_cases hk : k = o.keys.marker
    · rw [if_pos hk] at hr
      obtain ⟨depth, hends⟩ := ih _ _ _ _ _ hr
      exact ⟨depth, .marker hk hends⟩
    · rw [if_neg hk] at hr
      rcases hread : o.value (combine parent k) s with ⟨e | v, t⟩
      · rw [hread] at hr
        cases hr
        exact ⟨1, .unread hk hread⟩
      · rw [hread] at hr
        obtain ⟨⟨called, u⟩, hcall, hr⟩ := Option.bind_eq_some_iff.mp hr
        obtain ⟨depth, hcall⟩ := ih _ _ _ _ _ hcall
        cases called with
        | error e =>
          cases hr
          exact ⟨depth + 1, .stopped hk hread hcall⟩
        | ok below =>
          obtain ⟨depth', hrest⟩ := ih _ _ _ _ _ hr
          exact ⟨max (depth + 1) depth', .next hk hread hcall hrest⟩

theorem Ends.flattenThrough_eq {depth : Nat} {parent : String} {keys : List String} {l : Listing}
    {s : σ} {r : Except RuleError Listing × σ} (h : o.Ends depth parent keys l s r) :
    o.flattenThrough parent keys l s = some r := by
  induction h with
  | done => rw [flattenThrough]
  | marker hk _ ih =>
    rw [flattenThrough, if_pos hk]
    exact ih
  | unread hk read =>
    rw [flattenThrough, if_neg hk]
    dsimp only
    rw [read]
  | stopped hk read _ ih =>
    rw [flattenThrough, if_neg hk]
    dsimp only
    rw [read]
    dsimp only
    rw [ih]
    rfl
  | next hk read _ _ ihcall ihrest =>
    rw [flattenThrough, if_neg hk]
    dsimp only
    rw [read]
    dsimp only
    rw [ihcall]
    exact ihrest

/-- **Flattening returns what its call ends in**, and nothing if that does not end. -/
theorem flatten_eq_some_iff {parent : String} {s : σ} {r : Except RuleError Listing × σ} :
    o.flatten parent s = some r ↔ ∃ depth, o.Returns depth parent s r :=
  ⟨exists_ends, fun ⟨_, h⟩ => h.flattenThrough_eq⟩

/-! ## Overlays that are alike -/

namespace Alike

variable {R : σ → τ → Prop} {a : Overlay σ} {b : Overlay τ}

theorem symm (h : a.Alike R b) : b.Alike (fun t s => R s t) a where
  tree := h.tree.symm
  keys := h.keys.symm
  context t s hR := ⟨(h.context s t hR).1.symm, (h.context s t hR).2⟩
  ask predicate context t s hR :=
    ⟨(h.ask predicate context s t hR).1.symm, (h.ask predicate context s t hR).2⟩

/-- A call that ends through one overlay ends alike through the other. -/
theorem ends (h : a.Alike R b) {depth : Nat} {parent : String} {keys : List String} {l : Listing}
    {s : σ} {r : Except RuleError Listing × σ} (hends : a.Ends depth parent keys l s r) {t : τ}
    (hR : R s t) : ∃ u, R r.2 u ∧ b.Ends depth parent keys l t (r.1, u) := by
  have hread {path : String} {s s' : σ} {t : τ} {v : Except RuleError (Option String)}
      (hR : R s t) (read : a.value path s = (v, s')) :
      ∃ t', R s' t' ∧ b.value path t = (v, t') := by
    obtain ⟨hout, hstate⟩ := h.value path s t hR
    rw [read] at hout hstate
    exact ⟨_, hstate, Prod.ext hout.symm rfl⟩
  induction hends generalizing t with
  | done => exact ⟨t, hR, .done⟩
  | marker hk _ ih =>
    obtain ⟨u, hu, hrest⟩ := ih hR
    exact ⟨u, hu, .marker (hk.trans (congrArg RuleKeys.marker h.keys)) hrest⟩
  | unread hk read =>
    obtain ⟨t', ht', hb⟩ := hread hR read
    exact ⟨t', ht', .unread (h.keys ▸ hk) hb⟩
  | stopped hk read _ ih =>
    obtain ⟨t', ht', hb⟩ := hread hR read
    obtain ⟨u, hu, hcall⟩ := ih ht'
    rw [h.tree] at hcall
    exact ⟨u, hu, .stopped (h.keys ▸ hk) hb hcall⟩
  | next hk read _ _ ihcall ihrest =>
    obtain ⟨t', ht', hb⟩ := hread hR read
    obtain ⟨u, hu, hcall⟩ := ihcall ht'
    obtain ⟨u', hu', hrest⟩ := ihrest hu
    rw [h.tree] at hcall
    exact ⟨u', hu', .next (h.keys ▸ hk) hb hcall hrest⟩

/-- What flattening through one overlay returns, it returns through the other. -/
theorem flatten_eq_some (h : a.Alike R b) {parent : String} {s : σ} {t : τ} (hR : R s t)
    {r : Except RuleError Listing × σ} (hr : a.flatten parent s = some r) :
    ∃ u, R r.2 u ∧ b.flatten parent t = some (r.1, u) := by
  obtain ⟨depth, hreturns⟩ := flatten_eq_some_iff.mp hr
  obtain ⟨u, hu, hends⟩ := h.ends hreturns hR
  rw [h.tree] at hends
  exact ⟨u, hu, flatten_eq_some_iff.mpr ⟨depth, hends⟩⟩

theorem flatten_eq_none (h : a.Alike R b) {parent : String} {s : σ} {t : τ} (hR : R s t)
    (hnone : a.flatten parent s = none) : b.flatten parent t = none := by
  cases hb : b.flatten parent t with
  | none => rfl
  | some r =>
    obtain ⟨u, -, ha⟩ := h.symm.flatten_eq_some hR hb
    cases hnone.symm.trans ha

/-- **Overlays that are alike flatten alike**: both return the same outcome, or neither returns. -/
theorem flatten (h : a.Alike R b) (parent : String) {s : σ} {t : τ} (hR : R s t) :
    Option.Rel (fun x y => x.1 = y.1 ∧ R x.2 y.2) (a.flatten parent s) (b.flatten parent t) := by
  cases ha : a.flatten parent s with
  | none =>
    rw [h.flatten_eq_none hR ha]
    exact .none
  | some r =>
    obtain ⟨u, hu, hb⟩ := h.flatten_eq_some hR ha
    rw [hb]
    exact .some ⟨rfl, hu⟩

theorem map_fst_flatten (h : a.Alike R b) (parent : String) {s : σ} {t : τ} (hR : R s t) :
    (a.flatten parent s).map Prod.fst = (b.flatten parent t).map Prod.fst := by
  have hflat := h.flatten parent hR
  generalize a.flatten parent s = x, b.flatten parent t = y at hflat ⊢
  cases hflat with
  | none => rfl
  | some hrel => exact congrArg some hrel.1

end Alike

theorem Keeps.flatten {P : σ → Prop} (h : o.Keeps P) {parent : String} {s : σ} (hs : P s)
    {r : Except RuleError Listing × σ} (hr : o.flatten parent s = some r) : P r.2 := by
  obtain ⟨u, hu, -⟩ := h.alike.flatten_eq_some ⟨rfl, hs⟩ hr
  exact hu.2

end GuardedConfig.Overlay
