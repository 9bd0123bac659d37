import Mathlib
import GuardedConfig.Proofs.Tree.Views

/-!
# Trees as logs of changes

What a tree shows is settled by the log of the changes that made it. An entry of the log counts for
a row of keys as long as no later entry clears everything or removes the row or a node above it:
the last such entry that sets the row gives its value, there is a node if one of them sets the row
or a row below it, and the children stand in the order in which such entries first reach them.

Results:
* `Edit.apply_eq_foldl`: an edit of a tree is a row of changes.
* `Recorded.apply`: every change keeps a tree in step with its log.
* `edits_refine_log`: after any edits, values, nodes, the order of children and what can be removed
  are read off the log.
-/

namespace GuardedConfig.Tree

/-- A change of one row of keys, or of everything. -/
inductive Change where
  | clear
  | set (row : List String) (value : String)
  | remove (row : List String)

namespace Change

/-- The tree after a change. -/
def apply (t : Tree) : Change → Tree
  | clear => empty
  | set row v => t.setAt v row
  | remove row => t.removeAt row

/-- A change that takes a row of keys away: it clears everything, or removes the row or a node above
it. The root is not removed. -/
def Ends (row : List String) : Change → Prop
  | clear => True
  | set _ _ => False
  | remove gone => gone ≠ [] ∧ gone <+: row

/-- A change that reaches a row of keys: it sets the row or a row below it. -/
def Reaches (row : List String) : Change → Prop
  | set target _ => row <+: target
  | _ => False

/-- A change that sets a row of keys itself. -/
def Sets (row : List String) : Change → Prop
  | set target _ => target = row
  | _ => False

end Change

/-! ## Entries that count -/

/-- An entry of a log is of one sort, and no entry after it of another. -/
def Stands (sort ends : Change → Prop) (log : List Change) (i : Nat) : Prop :=
  (∃ c, log[i]? = some c ∧ sort c) ∧ ∀ j c, i < j → log[j]? = some c → ¬ends c

/-- An entry that reaches a row, later than everything that takes the row away. -/
def Made (log : List Change) (row : List String) (i : Nat) : Prop :=
  Stands (Change.Reaches row) (Change.Ends row) log i

/-- The first of the entries that reach a row, later than everything that takes the row away. -/
def FirstMade (log : List Change) (row : List String) (i : Nat) : Prop :=
  Made log row i ∧ ∀ j, Made log row j → i ≤ j

/-- The last entry that sets a row sets this value, later than everything that takes the row
away. -/
def LastSet (log : List Change) (row : List String) (v : String) : Prop :=
  ∃ i, Stands (· = .set row v) (fun c => c.Ends row ∨ c.Sets row) log i

theorem Stands.lt {sort ends : Change → Prop} {log : List Change} {i : Nat}
    (h : Stands sort ends log i) : i < log.length := by
  obtain ⟨⟨c, hc, -⟩, -⟩ := h
  exact (List.getElem?_eq_some_iff.mp hc).1

theorem getElem?_concat_iff {log : List Change} {c d : Change} {i : Nat} :
    (log ++ [c])[i]? = some d ↔ log[i]? = some d ∨ (i = log.length ∧ d = c) := by
  rcases Nat.lt_trichotomy i log.length with hi | rfl | hi
  · rw [List.getElem?_append_left hi]
    exact (or_iff_left fun h => Nat.ne_of_lt hi h.1).symm
  · simp [eq_comm]
  · have hlen : (log ++ [c]).length ≤ i := by simpa using hi
    simp [List.getElem?_eq_none hlen, List.getElem?_eq_none (Nat.le_of_lt hi), Nat.ne_of_gt hi]

/-- A new entry counts if it is of the sort; the others go on counting unless it ends them. -/
theorem stands_concat {sort ends : Change → Prop} {log : List Change} {c : Change} {i : Nat} :
    Stands sort ends (log ++ [c]) i ↔
      (Stands sort ends log i ∧ ¬ends c) ∨ (i = log.length ∧ sort c) := by
  unfold Stands
  simp only [getElem?_concat_iff]
  constructor
  · rintro ⟨⟨d, hd | ⟨hi, rfl⟩, hsort⟩, hlater⟩
    · have hlt := (List.getElem?_eq_some_iff.mp hd).1
      have hold j e (hj : i < j) (he : log[j]? = some e) : ¬ends e := hlater j e hj (.inl he)
      exact .inl ⟨⟨⟨d, hd, hsort⟩, hold⟩, hlater log.length c hlt (.inr ⟨rfl, rfl⟩)⟩
    · exact .inr ⟨hi, hsort⟩
  · rintro (⟨⟨⟨d, hd, hsort⟩, hlater⟩, hc⟩ | ⟨rfl, hsort⟩)
    · refine ⟨⟨d, .inl hd, hsort⟩, ?_⟩
      rintro j e hj (he | ⟨-, rfl⟩)
      · exact hlater j e hj he
      · exact hc
    · refine ⟨⟨c, .inr ⟨rfl, rfl⟩, hsort⟩, ?_⟩
      rintro j e hj (he | ⟨rfl, -⟩)
      · have hlt := (List.getElem?_eq_some_iff.mp he).1
        omega
      · exact absurd hj (Nat.lt_irrefl _)

theorem exists_made_concat {log : List Change} {c : Change} {row : List String} :
    (∃ i, Made (log ++ [c]) row i) ↔
      ((∃ i, Made log row i) ∧ ¬c.Ends row) ∨ c.Reaches row := by
  unfold Made
  simp only [stands_concat, exists_or, exists_and_right, exists_eq, true_and]

theorem lastSet_concat {log : List Change} {c : Change} {row : List String} {v : String} :
    LastSet (log ++ [c]) row v ↔
      (LastSet log row v ∧ ¬(c.Ends row ∨ c.Sets row)) ∨ c = .set row v := by
  unfold LastSet
  simp only [stands_concat, exists_or, exists_and_right, exists_eq, true_and]

/-! ## A tree in step with its log -/

/-- One row was reached before another: by an earlier entry than any that reaches the other. -/
def Sooner (log : List Change) (row other : List String) : Prop :=
  ∀ j, Made log other j → ∃ i < j, Made log row i

/-- A tree shows what its log says. -/
structure Recorded (t : Tree) (log : List Change) : Prop where
  value : ∀ row v, t.valueAt row = some v ↔ LastSet log row v
  keys : ∀ row k, k ∈ t.keysAt row ↔ ∃ i, Made log (row ++ [k]) i
  once : ∀ row, (t.keysAt row).Nodup
  order : ∀ row, (t.keysAt row).Pairwise fun k l => Sooner log (row ++ [k]) (row ++ [l])

/-- An entry that does not take the earlier row away leaves its lead: a new entry comes last. -/
theorem Sooner.concat {log : List Change} {c : Change} {row other : List String}
    (h : Sooner log row other) (hmade : ∃ i, Made log row i) (hc : ¬c.Ends row) :
    Sooner (log ++ [c]) row other := by
  intro j hj
  rcases stands_concat.mp hj with ⟨hj, -⟩ | ⟨rfl, -⟩
  · obtain ⟨i, hij, hi⟩ := h j hj
    exact ⟨i, hij, stands_concat.mpr (.inl ⟨hi, hc⟩)⟩
  · obtain ⟨i, hi⟩ := hmade
    exact ⟨i, hi.lt, stands_concat.mpr (.inl ⟨hi, hc⟩)⟩

theorem recorded_empty : Recorded empty [] where
  value row v := by simp [valueAt_empty, LastSet, Stands]
  keys row k := by simp [keysAt_empty, Made, Stands]
  once row := by simp [keysAt_empty]
  order row := by simp [keysAt_empty]

theorem recorded_clear (log : List Change) :
    Recorded empty (log ++ [.clear]) where
  value row v := by simp [valueAt_empty, lastSet_concat, Change.Ends]
  keys row k := by simp [keysAt_empty, exists_made_concat, Change.Ends, Change.Reaches]
  once row := by simp [keysAt_empty]
  order row := by simp [keysAt_empty]

theorem Recorded.set {t : Tree} {log : List Change} (h : Recorded t log) (target : List String)
    (v : String) : Recorded (t.setAt v target) (log ++ [.set target v]) := by
  have hstay row : ¬(Change.set target v).Ends row := id
  have hlead row {k l : String} (hk : k ∈ t.keysAt row)
      (hkl : Sooner log (row ++ [k]) (row ++ [l])) :
      Sooner (log ++ [.set target v]) (row ++ [k]) (row ++ [l]) :=
    hkl.concat ((h.keys row k).mp hk) (hstay _)
  refine ⟨?_, ?_, ?_, ?_⟩
  · intro row w
    rw [valueAt_setAt, lastSet_concat, ← h.value]
    by_cases hrow : row = target
    · simp [hrow, Change.Sets]
    · simp [hrow, Change.Sets, Change.Ends, Ne.symm hrow]
  · intro row k
    have hmade : (∃ i, Made (log ++ [.set target v]) (row ++ [k]) i) ↔
        k ∈ t.keysAt row ∨ row ++ [k] <+: target := by
      simp only [exists_made_concat, h.keys, hstay, not_false_eq_true, and_true, Change.Reaches]
    rw [hmade]
    obtain ⟨hin, hkeys⟩ | ⟨l, hl, -, hkeys⟩ := keysAt_setAt t v target row
    · rw [hkeys]
      exact ⟨.inl, fun hk => hk.elim id (hin k)⟩
    · rw [hkeys, List.mem_append, List.mem_singleton]
      refine or_congr_right ⟨?_, fun hk => next_key_unique hk hl⟩
      rintro rfl
      exact hl
  · intro row
    exact nodup_keysAt_setAt (h.once row) v target
  · intro row
    obtain ⟨-, hkeys⟩ | ⟨l, -, hl, hkeys⟩ := keysAt_setAt t v target row
    · rw [hkeys]
      exact (h.order row).imp_of_mem fun hk _ hkl => hlead row hk hkl
    · rw [hkeys]
      refine List.pairwise_append.mpr
        ⟨(h.order row).imp_of_mem fun hk _ hkl => hlead row hk hkl, by simp, ?_⟩
      intro k hk l' hl'
      rw [List.mem_singleton.mp hl']
      -- Nothing in the log reached the new key, so all others are sooner.
      exact hlead row hk fun j hj => absurd ((h.keys row l).mpr ⟨j, hj⟩) hl

theorem Recorded.remove {t : Tree} {log : List Change} (h : Recorded t log) (gone : List String) :
    Recorded (t.removeAt gone) (log ++ [.remove gone]) := by
  refine ⟨?_, ?_, ?_, ?_⟩
  · intro row v
    rw [valueAt_removeAt, lastSet_concat, ← h.value]
    by_cases hrow : gone ≠ [] ∧ gone <+: row
    · simp [hrow, Change.Ends]
    · simp [hrow, Change.Ends, Change.Sets]
  · intro row k
    rw [keysAt_removeAt, List.mem_filter, exists_made_concat, h.keys, decide_eq_true_eq]
    exact (or_iff_left id).symm
  · intro row
    rw [keysAt_removeAt]
    exact (h.once row).filter _
  · intro row
    rw [keysAt_removeAt]
    refine ((h.order row).filter _).imp_of_mem ?_
    intro k l hk hl hsooner
    obtain ⟨hk, hstay⟩ := List.mem_filter.mp hk
    rw [decide_eq_true_eq] at hstay
    exact hsooner.concat ((h.keys row k).mp hk) hstay

theorem Recorded.apply {t : Tree} {log : List Change} (h : Recorded t log) (c : Change) :
    Recorded (c.apply t) (log ++ [c]) := by
  cases c with
  | clear => exact recorded_clear log
  | set row v => exact h.set row v
  | remove row => exact h.remove row

/-- A tree in step with its log stays so through further changes. -/
theorem Recorded.foldl {t : Tree} {log : List Change} (h : Recorded t log) (changes : List Change) :
    Recorded (changes.foldl Change.apply t) (log ++ changes) := by
  induction changes generalizing t log with
  | nil => simpa using h
  | cons c changes ih => simpa using ih (h.apply c)

/-! ## Edits -/

/-- What can be done to a tree. -/
inductive Edit where
  | set (path value : String)
  | remove (path : String)
  | replace (pairs : List (String × String))

/-- The tree after an edit. -/
def Edit.apply (t : Tree) : Edit → Tree
  | set path v => t.set path v
  | remove path => (t.remove? path).getD t
  | replace pairs => ofPairs pairs

/-- Values set one after the other in a cleared tree. -/
def filling (pairs : List (String × String)) : List Change :=
  .clear :: pairs.map fun p => .set (Path.segments p.1) p.2

/-- The changes that an edit makes. -/
def Edit.changes : Edit → List Change
  | set path v => [.set (Path.segments path) v]
  | remove path => [.remove (Path.segments path)]
  | replace pairs => filling pairs

/-- A new tree, with values or without. -/
def created : Option (List (String × String)) → Tree
  | none => empty
  | some pairs => ofPairs pairs

/-- The changes that make a new tree. -/
def creation : Option (List (String × String)) → List Change
  | none => []
  | some pairs => filling pairs

theorem foldl_filling (t : Tree) (pairs : List (String × String)) :
    (filling pairs).foldl Change.apply t = ofPairs pairs := by
  rw [filling, List.foldl_cons, List.foldl_map]
  rfl

theorem Edit.apply_eq_foldl (t : Tree) (e : Edit) : e.apply t = e.changes.foldl Change.apply t := by
  cases e with
  | set path v => rfl
  | remove path => rfl
  | replace pairs => exact (foldl_filling t pairs).symm

theorem recorded_created (start : Option (List (String × String))) :
    Recorded (created start) (creation start) := by
  cases start with
  | none => exact recorded_empty
  | some pairs =>
    have h := recorded_empty.foldl (filling pairs)
    rwa [foldl_filling] at h

theorem Recorded.edits {t : Tree} {log : List Change} (h : Recorded t log) (edits : List Edit) :
    Recorded (edits.foldl Edit.apply t) (log ++ edits.flatMap Edit.changes) := by
  induction edits generalizing t log with
  | nil => simpa using h
  | cons e edits ih =>
    rw [List.foldl_cons, List.flatMap_cons, ← List.append_assoc, e.apply_eq_foldl]
    exact ih (h.foldl e.changes)

/-! ## What the log tells -/

theorem Recorded.isSome_follow_iff {t : Tree} {log : List Change} (h : Recorded t log)
    {row : List String} (hrow : row ≠ []) : (t.follow row).isSome ↔ ∃ i, Made log row i := by
  obtain ⟨above, k, rfl⟩ := (List.eq_nil_or_concat row).resolve_left hrow
  rw [List.concat_eq_append, ← mem_keysAt_iff, h.keys]

/-- The keys at a row stand in the order of the entries that first reach them. -/
theorem Recorded.pairwise_firstMade {t : Tree} {log : List Change} (h : Recorded t log)
    (row : List String) :
    (t.keysAt row).Pairwise fun k l =>
      ∀ i j, FirstMade log (row ++ [k]) i → FirstMade log (row ++ [l]) j → i < j := by
  refine (h.order row).imp ?_
  intro k l hsooner i j hi hj
  obtain ⟨i', hlt, hi'⟩ := hsooner j hj.1
  exact Nat.lt_of_le_of_lt (hi.2 i' hi') hlt

theorem isSome_remove?_iff {t : Tree} {path : String} :
    (t.remove? path).isSome ↔ path ≠ "" ∧ (t.find? path).isSome := by
  have hroot : Path.segments path = [] ↔ path = "" := by
    by_cases hp : path = ""
    · simp [hp, Path.segments_empty]
    · simp [hp, Path.segments_of_ne, Pieces.cut_ne_nil]
  unfold remove? find?
  rw [Option.isSome_iff_ne_none, ne_eq, removeAt?_eq_none_iff, hroot, not_or,
    Option.isSome_iff_ne_none]

/-- **A tree refines the log of its changes.** For a new tree with or without values, any edits and
any path: the value is the last one set since the path was last taken away; a row of keys leads to
a node if an entry that counts sets it or a row below it; the keys of the children are those that
lead to nodes, each once, in the order in which the entries that count first reach them; and
removing finds the node unless it is missing or the root. -/
theorem edits_refine_log (start : Option (List (String × String))) (edits : List Edit)
    (path : String) :
    let t := edits.foldl Edit.apply (created start)
    let log := creation start ++ edits.flatMap Edit.changes
    let row := Path.segments path
    (∀ v, t.value path = some v ↔ LastSet log row v) ∧
      (∀ other ≠ [], (t.follow other).isSome ↔ ∃ i, Made log other i) ∧
      (t.childKeys path).Nodup ∧
      (∀ k, k ∈ t.childKeys path ↔ (t.follow (row ++ [k])).isSome) ∧
      ((t.childKeys path).Pairwise fun k l =>
        ∀ i j, FirstMade log (row ++ [k]) i → FirstMade log (row ++ [l]) j → i < j) ∧
      ((t.remove? path).isSome ↔ path ≠ "" ∧ (t.find? path).isSome) := by
  intro t log row
  have h : Recorded t log := (recorded_created start).edits edits
  exact ⟨h.value row, fun _ => h.isSome_follow_iff, h.once row, fun _ => mem_keysAt_iff,
    h.pairwise_firstMade row, isSome_remove?_iff⟩

/-- A key that is made again goes behind its siblings. -/
example : (([.set "a:x" "1", .set "a:y" "2", .remove "a:x", .set "a:x:z" "3"] : List Edit).foldl
    Edit.apply empty).childKeys "a" = ["y", "x"] := by decide +kernel

end GuardedConfig.Tree
