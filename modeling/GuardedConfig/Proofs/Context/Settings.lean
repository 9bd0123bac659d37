import GuardedConfig.Proofs.Context.Levels
import GuardedConfig.Proofs.Predicate.Answers

/-!
# Settings of a context

A path leads through all the levels whose names come before its last one. So a setting gives the
value at its path and takes away every value that the path leads through or that is reached through
the path, and two settings touch each other only if the names of one path are the first names of the
other.

Results:
* `Entries.get_insert`, `get_set`: the value at a path after a setting.
* `Entries.insert_insert`: a setting leaves no trace of an earlier one at its path or below it.
* `Entries.insert_comm`: settings apart from each other can be made in any order.
* `get_after_set`: a setting is seen at its path, on the way there and below it, and nowhere else.
* `same_self_iff`: a context is alike itself if its floats are all numbers.
* `set_twice`: which settings make one context.
-/

namespace GuardedConfig

/-- A value is alike itself if it is no float or a float that is a number. -/
theorem Value.same_self_iff {v : Value} : v.same v = true ↔ v.isNaN = false := by
  cases v with
  | float x => cases hx : x.isNaN <;> simp [same, isNaN, Binary64.same, Binary64.order?, hx]
  | int _ | bool _ | str _ => simp [same, isNaN]

namespace Entries

variable {es : Entries}

/-- The value at a row of names after a setting: there, on the way there or below it, elsewhere. -/
theorem get_insert (h : es.Sorted) (v : Value) {p : List String} (hp : p ≠ []) (q : List String) :
    (es.insert v p).get q =
      if q = p then some v else if p <+: q ∨ q <+: p then none else es.get q := by
  induction p generalizing es q with
  | nil => exact absurd rfl hp
  | cons n ms ih =>
    cases q with
    | nil => simp [get_nil]
    | cons k ns =>
      rw [get_cons (h.insert v _), entryAt_insert h]
      by_cases hk : k = n
      · subst hk
        rw [if_pos rfl, Option.bind_some]
        cases ms with
        | nil => by_cases hns : ns = [] <;> simp [Entry.put, Entry.get, hns]
        | cons m ms =>
          rw [Entry.put, Entry.get, ih (h.below k) (by simp)]
          by_cases hns : ns = []
          · simp [hns]
          · rw [get_below h k hns]
            simp [List.cons_prefix_cons]
      · rw [if_neg hk, ← get_cons h]
        simp [List.cons_prefix_cons, hk, Ne.symm hk]

/-- A setting leaves no trace of an earlier one at its own names or with more names behind them. -/
theorem insert_insert (h : es.Sorted) (v w : Value) {p q : List String} (hq : q ≠ [])
    (hqp : q <+: p) : (es.insert v p).insert w q = es.insert w q := by
  induction q generalizing es p with
  | nil => exact absurd rfl hq
  | cons n ns ih =>
    cases p with
    | nil => exact absurd hqp (by simp)
    | cons k ms =>
      obtain ⟨rfl, hrest⟩ := List.cons_prefix_cons.mp hqp
      have hput : Entry.put w ns (some (Entry.put v ms (es.entryAt n))) =
          Entry.put w ns (es.entryAt n) := by
        cases ns with
        | nil => rfl
        | cons m ns =>
          obtain ⟨ms, rfl⟩ := hrest
          exact congrArg Entry.level (ih (h.below n) (by simp) ⟨ms, rfl⟩)
      refine ((h.insert v _).insert w _).ext (h.insert w _) fun k => ?_
      rw [entryAt_insert (h.insert v _), entryAt_insert h, entryAt_insert h, entryAt_insert h,
        if_pos rfl, hput]
      split <;> rfl

/-- Settings at rows of which neither begins with the other can be made in any order. -/
theorem insert_comm (h : es.Sorted) (v w : Value) {p q : List String} (hpq : ¬p <+: q)
    (hqp : ¬q <+: p) : (es.insert v p).insert w q = (es.insert w q).insert v p := by
  induction p generalizing es q with
  | nil => exact absurd List.nil_prefix hpq
  | cons m ms ih =>
    cases q with
    | nil => exact absurd List.nil_prefix hqp
    | cons n ns =>
      refine ((h.insert v _).insert w _).ext ((h.insert w _).insert v _) fun k => ?_
      rw [entryAt_insert (h.insert v _), entryAt_insert (h.insert w _)]
      simp only [entryAt_insert h]
      by_cases hnm : n = m
      · -- the rows part further on, in the level below the name they share
        subst hnm
        have hms : ¬ms <+: ns := fun hrest => hpq (List.cons_prefix_cons.mpr ⟨rfl, hrest⟩)
        have hns : ¬ns <+: ms := fun hrest => hqp (List.cons_prefix_cons.mpr ⟨rfl, hrest⟩)
        have hput : Entry.put w ns (some (Entry.put v ms (es.entryAt n))) =
            Entry.put v ms (some (Entry.put w ns (es.entryAt n))) := by
          cases ms with
          | nil => exact absurd List.nil_prefix hms
          | cons m ms =>
            cases ns with
            | nil => exact absurd List.nil_prefix hns
            | cons l ns => exact congrArg Entry.level (ih (h.below n) hms hns)
        by_cases hk : k = n
        · simp only [if_pos hk, if_true, hput]
        · simp only [if_neg hk]
      · rw [if_neg hnm, if_neg (Ne.symm hnm)]
        by_cases hk : k = n
        · rw [if_pos hk, if_neg (hk ▸ hnm), if_pos hk]
        · rw [if_neg hk, if_neg hk]

theorem same_self_iff : es.same es = true ↔ ∀ f ∈ es.named, f.2.isNaN = false := by
  induction es with
  | nil => simp [same, named]
  | leaf k v rest ih =>
    simp only [same, named, decide_true, Bool.true_and, Bool.and_eq_true, Value.same_self_iff, ih,
      List.forall_mem_cons]
  | nested k below rest ihb ih =>
    simp only [same, named, decide_true, Bool.true_and, Bool.and_eq_true, ihb, ih,
      List.forall_mem_append, List.forall_mem_map]

end Entries

namespace Context

variable (c : Context)

/-- Of two paths, the names of neither are the first names of the other, nor are the two equal. -/
def Apart (p q : String) : Prop :=
  ¬segments p <+: segments q ∧ ¬segments q <+: segments p

instance (p q : String) : Decidable (Apart p q) :=
  inferInstanceAs (Decidable (_ ∧ _))

/-- A path leads through another: its names begin with those of the other and go on. -/
def LeadsThrough (p q : String) : Prop :=
  segments q <+: segments p ∧ segments q ≠ segments p

instance (p q : String) : Decidable (LeadsThrough p q) :=
  inferInstanceAs (Decidable (_ ∧ _))

theorem Apart.symm {p q : String} (h : Apart p q) : Apart q p :=
  And.symm h

theorem segments_injective : Function.Injective segments := by
  intro p q h
  rw [← join_segments p, h, join_segments]

theorem segments_ne_nil (p : String) : segments p ≠ [] :=
  Pieces.cut_ne_nil '.' p

theorem leadsThrough_or_apart {p q : String} (h : q ≠ p) :
    LeadsThrough p q ∨ LeadsThrough q p ∨ Apart p q := by
  have hne : segments q ≠ segments p := fun heq => h (segments_injective heq)
  by_cases hqp : segments q <+: segments p
  · exact .inl ⟨hqp, hne⟩
  · by_cases hpq : segments p <+: segments q
    · exact .inr (.inl ⟨hpq, hne.symm⟩)
    · exact .inr (.inr ⟨hpq, hqp⟩)

theorem LeadsThrough.not_apart {p q : String} (h : LeadsThrough p q) : ¬Apart p q :=
  fun hapart => hapart.2 h.1

/-- A context is its entries. -/
theorem ext {a b : Context} (h : a.entries = b.entries) : a = b := by
  cases a
  cases b
  cases h
  rfl

/-- The value at a path after a setting. -/
theorem get_set (p q : String) (v : Value) :
    (c.set p v).get q = if q = p then some v else if Apart p q then c.get q else none := by
  have hget := Entries.get_insert c.sorted v (segments_ne_nil p) (segments q)
  refine hget.trans ?_
  simp only [segments_injective.eq_iff, Apart, ← not_or, ite_not]
  rfl

/-- **A setting is seen at its path, and takes away what stands in its way.** After it the path has
the value, the paths that it leads through and those that lead through it have none, and every other
path has the value that it had. -/
theorem get_after_set (p q : String) (v : Value) :
    (c.set p v).get p = some v ∧
    (LeadsThrough p q ∨ LeadsThrough q p → (c.set p v).get q = none) ∧
    (q ≠ p → ¬(LeadsThrough p q ∨ LeadsThrough q p) → (c.set p v).get q = c.get q) := by
  refine ⟨by rw [get_set, if_pos rfl], fun h => ?_, fun hne h => ?_⟩
  · have hne : q ≠ p := by
      rintro rfl
      rcases h with h | h <;> exact h.2 rfl
    have hnot : ¬Apart p q := by
      rcases h with h | h
      · exact h.not_apart
      · exact fun hapart => h.not_apart hapart.symm
    rw [get_set, if_neg hne, if_neg hnot]
  · rcases leadsThrough_or_apart hne with hway | hway | hapart
    · exact absurd (.inl hway) h
    · exact absurd (.inr hway) h
    · rw [get_set, if_neg hne, if_pos hapart]

/-- A setting whose way is blocked by a value, beside a path that begins with the same text. -/
theorem get_after_set_of_value_in_the_way :
    let c := ofSettings [("user", .str "old"), ("user-x", .int 1)]
    let d := c.set "user.age" (.int 30)
    d.get "user.age" = some (.int 30) ∧
    (LeadsThrough "user.age" "user" ∧ d.get "user" = none) ∧
    "user-x" ≠ "user.age" ∧
    ¬(LeadsThrough "user.age" "user-x" ∨ LeadsThrough "user-x" "user.age") ∧
    d.get "user-x" = c.get "user-x" := by
  intro c d
  obtain ⟨hself, hway, -⟩ := get_after_set c "user.age" "user" (.int 30)
  obtain ⟨-, -, hother⟩ := get_after_set c "user.age" "user-x" (.int 30)
  have hleads : LeadsThrough "user.age" "user" := by decide +kernel
  have hne : "user-x" ≠ "user.age" := by decide
  have hapart : ¬(LeadsThrough "user.age" "user-x" ∨ LeadsThrough "user-x" "user.age") := by
    decide +kernel
  exact ⟨hself, ⟨hleads, hway (.inl hleads)⟩, hne, hapart, hother hne hapart⟩

/-! ## Settings one after the other -/

/-- The context after settings, made one after the other. From the empty context these are
`ofSettings`. -/
def setAll (settings : List (String × Value)) : Context :=
  settings.foldl (fun c s => c.set s.1 s.2) c

theorem set_of_prefix {p q : String} (h : segments q <+: segments p) (v w : Value) :
    (c.set p v).set q w = c.set q w :=
  ext (Entries.insert_insert c.sorted v w (segments_ne_nil q) h)

theorem set_comm {p q : String} (h : Apart p q) (v w : Value) :
    (c.set p v).set q w = (c.set q w).set p v :=
  ext (Entries.insert_comm c.sorted v w h.1 h.2)

theorem setAll_perm {s t : List (String × Value)} (hperm : s.Perm t)
    (hs : s.Pairwise fun x y => Apart x.1 y.1) : c.setAll s = c.setAll t := by
  have hsymm : Std.Symm fun x y : String × Value => Apart x.1 y.1 := ⟨fun _ _ => Apart.symm⟩
  refine hperm.foldl_eq' (fun x hx y hy c => ?_) c
  by_cases hxy : x = y
  · rw [hxy]
  · exact c.set_comm (hs.forall hx hy hxy) x.2 y.2

/-! ## Contexts that are alike -/

theorem same_self_iff : c.same c = true ↔ c.AllNumbers := by
  rw [same, Entries.same_self_iff]
  unfold AllNumbers
  simp only [mem_flatten, Entries.leaves_eq_map, List.forall_mem_map]

/-- One context, come to in two ways. Comparing the two finds them alike if all its floats are
numbers, and only then, since what is not a number is not alike itself. -/
def Coincide (a b : Context) : Prop :=
  a = b ∧ (a.same b = true ↔ a.AllNumbers)

theorem coincide_of_eq {a b : Context} (h : a = b) : Coincide a b :=
  ⟨h, h ▸ a.same_self_iff⟩

/-- **Which settings make one context.** Two settings apart from each other make one context in
both orders, and any number of them in all orders; a setting at a path makes the context that it
makes without an earlier one at the path or below it. -/
theorem set_twice (p q : String) (v w : Value) :
    (Apart p q → Coincide ((c.set p v).set q w) ((c.set q w).set p v)) ∧
    (segments q <+: segments p → Coincide ((c.set p v).set q w) (c.set q w)) ∧
    ∀ s t : List (String × Value), s.Perm t → (s.Pairwise fun x y => Apart x.1 y.1) →
      Coincide (c.setAll s) (c.setAll t) := by
  refine ⟨fun h => ?_, fun h => ?_, fun s t hperm hs => ?_⟩
  · exact coincide_of_eq (c.set_comm h v w)
  · exact coincide_of_eq (c.set_of_prefix h v w)
  · exact coincide_of_eq (c.setAll_perm hperm hs)

/-- Settings across a value that stands in the way, in a context with what is not a number. -/
theorem set_twice_of_value_in_the_way :
    let c := ofSettings [("plan", .str "basic"), ("load", .float ⟨0x7ff8000000000000⟩)]
    let s : List (String × Value) := [("plan.tier", .int 2), ("", .bool true), ("plan.", .int 0)]
    let t : List (String × Value) := [("plan.", .int 0), ("plan.tier", .int 2), ("", .bool true)]
    (Apart "plan.tier" "plan-b" ∧
      Coincide ((c.set "plan.tier" (.int 2)).set "plan-b" (.int 3))
        ((c.set "plan-b" (.int 3)).set "plan.tier" (.int 2))) ∧
    (segments "plan" <+: segments "plan.tier" ∧
      Coincide ((c.set "plan.tier" (.int 2)).set "plan" (.int 3)) (c.set "plan" (.int 3))) ∧
    s.Perm t ∧ (s.Pairwise fun x y => Apart x.1 y.1) ∧ Coincide (c.setAll s) (c.setAll t) := by
  intro c s t
  obtain ⟨hcomm, -, hperm⟩ := set_twice c "plan.tier" "plan-b" (.int 2) (.int 3)
  obtain ⟨-, hprefix, -⟩ := set_twice c "plan.tier" "plan" (.int 2) (.int 3)
  have hapart : Apart "plan.tier" "plan-b" := by decide +kernel
  have hway : segments "plan" <+: segments "plan.tier" := by decide +kernel
  have hst : s.Perm t := by decide
  have hs : s.Pairwise fun x y => Apart x.1 y.1 := by decide +kernel
  exact ⟨⟨hapart, hcomm hapart⟩, ⟨hway, hprefix hway⟩, hst, hs, hperm s t hst hs⟩

/-- The same settings in two orders, one of them of what is not a number, are not found alike. -/
theorem not_same_of_nan :
    ¬(Apart "load" "tier" →
      ((empty.set "load" (.float ⟨0x7ff8000000000000⟩)).set "tier" (.int 1)).same
        ((empty.set "tier" (.int 1)).set "load" (.float ⟨0x7ff8000000000000⟩)) = true) := by
  decide +kernel

end Context

end GuardedConfig
