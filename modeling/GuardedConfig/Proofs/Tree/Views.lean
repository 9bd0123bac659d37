import Mathlib
import GuardedConfig.Tree.Basic

/-!
# What a tree shows at rows of keys

A tree is seen through two views: the value and the keys of the children at every row of keys. Each
operation is told by what it does to the two views at every row, the changed one and all others.

Results:
* `mem_keysAt_iff`: the keys at a row are those that lead on to a node.
* `valueAt_setAt`, `keysAt_setAt`: setting a value shows at its row, and where the row needs a new
  key.
* `follow_setAt_apart`, `follow_setAt_append`, `follow_of_removeAt?`: what a change leaves of
  a node that it is not about, and what it does to one on its way.
* `valueAt_removeAt`, `keysAt_removeAt`: removing takes away everything at a row and below it, and
  nothing where there is no node.
-/

namespace GuardedConfig.Tree

/-- The value at a row of keys. -/
def valueAt (t : Tree) (row : List String) : Option String :=
  (t.follow row).bind ownValue

/-- The keys of the children at a row of keys, in order. There are none where there is no node. -/
def keysAt (t : Tree) (row : List String) : List String :=
  match t.follow row with
  | some n => n.children.map Prod.fst
  | none => []

/-- Keys with one more behind them, unless it is there. -/
def addKey (k : String) (keys : List String) : List String :=
  if k ∈ keys then keys else keys ++ [k]

/-! ## Following a row -/

theorem isSome_lookup_iff {k : String} {cs : List (String × Tree)} :
    (cs.lookup k).isSome ↔ k ∈ cs.map Prod.fst := by
  induction cs with
  | nil => simp
  | cons c cs ih =>
    obtain ⟨l, c⟩ := c
    by_cases h : k = l
    · simp [h]
    · have hb : (k == l) = false := by simpa using h
      simp only [List.lookup_cons, hb, List.map_cons, List.mem_cons, h, false_or, ih]

theorem follow_cons (t : Tree) (k : String) (row : List String) :
    t.follow (k :: row) = (t.children.lookup k).bind (·.follow row) := by
  rw [follow]
  cases t.children.lookup k <;> rfl

theorem valueAt_empty (row : List String) : empty.valueAt row = none := by
  cases row <;> rfl

theorem keysAt_empty (row : List String) : empty.keysAt row = [] := by
  cases row <;> rfl

theorem keysAt_nil (t : Tree) : t.keysAt [] = t.children.map Prod.fst := rfl

/-- Below a key that is missing there is as much as below an empty node. -/
theorem valueAt_cons (t : Tree) (k : String) (row : List String) :
    t.valueAt (k :: row) = ((t.children.lookup k).getD empty).valueAt row := by
  unfold valueAt
  rw [follow_cons]
  cases t.children.lookup k with
  | none => exact (valueAt_empty row).symm
  | some c => rfl

theorem keysAt_cons (t : Tree) (k : String) (row : List String) :
    t.keysAt (k :: row) = ((t.children.lookup k).getD empty).keysAt row := by
  unfold keysAt
  rw [follow_cons]
  cases t.children.lookup k with
  | none => exact (keysAt_empty row).symm
  | some c => rfl

theorem valueAt_eq_none {t : Tree} {row : List String} (h : t.follow row = none) :
    t.valueAt row = none := by
  rw [valueAt, h, Option.bind_none]

theorem follow_eq_none_below {t : Tree} {row other : List String} (h : t.follow row = none)
    (hpre : row <+: other) : t.follow other = none := by
  obtain ⟨rest, rfl⟩ := hpre
  rw [follow_append, h, Option.bind_none]

theorem mem_keysAt_iff {t : Tree} {row : List String} {k : String} :
    k ∈ t.keysAt row ↔ (t.follow (row ++ [k])).isSome := by
  rw [follow_append]
  unfold keysAt
  cases t.follow row with
  | none => simp
  | some n =>
    rw [← isSome_lookup_iff, Option.bind_some, follow_cons]
    cases n.children.lookup k <;> rfl

/-! ## Setting -/

theorem lookup_alter_of_ne {k l : String} (h : l ≠ k) (f : Tree → Tree)
    (cs : List (String × Tree)) : (alter k f cs).lookup l = cs.lookup l := by
  have hb : (l == k) = false := by simpa using h
  induction cs with
  | nil => simp [alter, List.lookup_cons, hb]
  | cons c cs ih =>
    obtain ⟨k', c⟩ := c
    simp only [alter]
    split
    · rename_i hk
      subst hk
      rw [List.lookup_cons, hb, List.lookup_cons, hb]
    · rw [List.lookup_cons, List.lookup_cons, ih]

theorem keys_alter (k : String) (f : Tree → Tree) (cs : List (String × Tree)) :
    (alter k f cs).map Prod.fst = addKey k (cs.map Prod.fst) := by
  induction cs with
  | nil => simp [alter, addKey]
  | cons c cs ih =>
    obtain ⟨k', c⟩ := c
    by_cases h : k' = k
    · simp [alter, addKey, h]
    · simp only [alter, if_neg h, List.map_cons, ih, addKey, List.mem_cons, Ne.symm h, false_or]
      split <;> rfl

theorem valueAt_setAt (t : Tree) (v : String) (row other : List String) :
    (t.setAt v row).valueAt other = if other = row then some v else t.valueAt other := by
  induction row generalizing t other with
  | nil =>
    cases other with
    | nil => rfl
    | cons o os =>
      rw [valueAt_cons, valueAt_cons, if_neg (by simp)]
      rfl
  | cons r rs ih =>
    cases other with
    | nil => rfl
    | cons o os =>
      rw [valueAt_cons, valueAt_cons, setAt, children]
      by_cases ho : o = r
      · subst ho
        rw [lookup_alter_self, Option.getD_some, ih]
        simp
      · rw [lookup_alter_of_ne ho, if_neg (by simp [ho])]

/-- On the way to the row of a value the next key is added if it is missing. -/
theorem keysAt_setAt_on_way {other row : List String} {k : String} (h : other ++ [k] <+: row)
    (t : Tree) (v : String) : (t.setAt v row).keysAt other = addKey k (t.keysAt other) := by
  induction other generalizing t row with
  | nil =>
    obtain ⟨rest, rfl⟩ := h
    exact keys_alter k _ t.children
  | cons o os ih =>
    cases row with
    | nil => exact absurd h (by simp)
    | cons r rs =>
      obtain ⟨rfl, hrest⟩ := List.cons_prefix_cons.mp h
      rw [keysAt_cons, keysAt_cons, setAt, children, lookup_alter_self, Option.getD_some, ih hrest]

theorem keysAt_setAt_off_way {other row : List String} (h : ∀ k, ¬other ++ [k] <+: row)
    (t : Tree) (v : String) : (t.setAt v row).keysAt other = t.keysAt other := by
  induction row generalizing t other with
  | nil =>
    cases other with
    | nil => rfl
    | cons o os =>
      rw [keysAt_cons, keysAt_cons]
      rfl
  | cons r rs ih =>
    cases other with
    | nil => exact absurd (by simp) (h r)
    | cons o os =>
      rw [keysAt_cons, keysAt_cons, setAt, children]
      by_cases ho : o = r
      · subst ho
        have hrest k : ¬os ++ [k] <+: rs := fun hk => h k (List.cons_prefix_cons.mpr ⟨rfl, hk⟩)
        rw [lookup_alter_self, Option.getD_some, ih hrest]
      · rw [lookup_alter_of_ne ho]

/-- At most one key leads from a row towards another row. -/
theorem next_key_unique {row target : List String} {k l : String}
    (hk : row ++ [k] <+: target) (hl : row ++ [l] <+: target) : k = l := by
  have h := List.prefix_of_prefix_length_le hk hl (by simp)
  simpa using List.IsPrefix.eq_of_length h (by simp)

/-- Setting a value keeps the keys at a row, or adds one behind them: the key that leads on to the
row of the value. -/
theorem keysAt_setAt (t : Tree) (v : String) (row other : List String) :
    ((∀ k, other ++ [k] <+: row → k ∈ t.keysAt other) ∧
        (t.setAt v row).keysAt other = t.keysAt other) ∨
      ∃ k, other ++ [k] <+: row ∧ k ∉ t.keysAt other ∧
        (t.setAt v row).keysAt other = t.keysAt other ++ [k] := by
  by_cases h : ∃ k, other ++ [k] <+: row
  · obtain ⟨k, hk⟩ := h
    have hkeys := keysAt_setAt_on_way hk t v
    unfold addKey at hkeys
    by_cases hmem : k ∈ t.keysAt other
    · rw [if_pos hmem] at hkeys
      exact .inl ⟨fun l hl => next_key_unique hk hl ▸ hmem, hkeys⟩
    · rw [if_neg hmem] at hkeys
      exact .inr ⟨k, hk, hmem, hkeys⟩
  · have hno k : ¬other ++ [k] <+: row := fun hk => h ⟨k, hk⟩
    exact .inl ⟨fun k hk => absurd hk (hno k), keysAt_setAt_off_way hno t v⟩

theorem nodup_keysAt_setAt {t : Tree} {other : List String} (h : (t.keysAt other).Nodup)
    (v : String) (row : List String) : ((t.setAt v row).keysAt other).Nodup := by
  obtain ⟨-, hkeys⟩ | ⟨k, -, hk, hkeys⟩ := keysAt_setAt t v row other
  · rw [hkeys]
    exact h
  · rw [hkeys]
    exact List.concat_eq_append ▸ h.concat hk

/-- A node that is not on the way to a value is left as it is. -/
theorem follow_setAt_apart {other row : List String} (h : ¬other <+: row) (t : Tree)
    (v : String) : (t.setAt v row).follow other = t.follow other := by
  induction row generalizing t other with
  | nil =>
    cases other with
    | nil => exact absurd List.nil_prefix h
    | cons o os =>
      rw [follow_cons, follow_cons]
      rfl
  | cons r rs ih =>
    cases other with
    | nil => exact absurd List.nil_prefix h
    | cons o os =>
      rw [follow_cons, follow_cons, setAt, children]
      by_cases ho : o = r
      · subst ho
        have hrest : ¬os <+: rs := fun hos => h (List.cons_prefix_cons.mpr ⟨rfl, hos⟩)
        rw [lookup_alter_self, Option.bind_some, ih hrest]
        cases t.children.lookup o with
        | none =>
          cases os with
          | nil => exact absurd List.nil_prefix hrest
          | cons l ls => rfl
        | some c => rfl
      · rw [lookup_alter_of_ne ho]

/-- At a node on the way to a value, the rest of the way is set in what is there. -/
theorem follow_setAt_append (t : Tree) (v : String) (row rest : List String) :
    (t.setAt v (row ++ rest)).follow row = some (((t.follow row).getD empty).setAt v rest) := by
  induction row generalizing t with
  | nil => rfl
  | cons r rs ih =>
    rw [List.cons_append, follow_cons, setAt, children, lookup_alter_self, Option.bind_some, ih,
      follow_cons]
    cases t.children.lookup r with
    | none => cases rs <;> rfl
    | some c => rfl

/-! ## Removing -/

theorem lookup_filter_ne (k l : String) (cs : List (String × Tree)) :
    (cs.filter fun c => c.1 ≠ k).lookup l = if l = k then none else cs.lookup l := by
  induction cs with
  | nil => simp
  | cons c cs ih =>
    obtain ⟨k', c⟩ := c
    by_cases hk : k' = k
    · subst hk
      rw [List.filter_cons_of_neg (by simp), ih]
      by_cases hl : l = k'
      · simp [hl]
      · have hb : (l == k') = false := by simpa using hl
        simp [hl, List.lookup_cons, hb]
    · rw [List.filter_cons_of_pos (by simpa using hk), List.lookup_cons, List.lookup_cons, ih]
      by_cases hl : l = k'
      · simp [hl, hk]
      · have hb : (l == k') = false := by simpa using hl
        simp [hb]

theorem removeAt?_eq_none_iff {t : Tree} {row : List String} :
    t.removeAt? row = none ↔ row = [] ∨ t.follow row = none := by
  induction row generalizing t with
  | nil => simp [removeAt?]
  | cons k row ih =>
    cases row with
    | nil =>
      rw [removeAt?, follow_cons]
      cases t.children.lookup k <;> simp [follow]
    | cons l row =>
      rw [removeAt?, follow_cons]
      cases t.children.lookup k with
      | none => simp
      | some c => simp [ih]

/-- A removal takes a child of the root away, or a node from below a child. -/
theorem removeAt?_cases {t t' : Tree} {k : String} {ks : List String}
    (h : t.removeAt? (k :: ks) = some t') :
    (ks = [] ∧ t' = node t.ownValue (t.children.filter fun c => c.1 ≠ k)) ∨
      ∃ c c', t.children.lookup k = some c ∧ c.removeAt? ks = some c' ∧
        t' = node t.ownValue (alter k (fun _ => c') t.children) := by
  cases ks with
  | nil =>
    simp only [removeAt?] at h
    split at h
    · cases h
      exact .inl ⟨rfl, rfl⟩
    · cases h
  | cons l ks =>
    simp only [removeAt?] at h
    split at h
    · cases h
    · rename_i c hc
      obtain ⟨c', hc', rfl⟩ := Option.map_eq_some_iff.mp h
      exact .inr ⟨c, c', hc, hc', rfl⟩

/-! What a removal leaves of the root and of its children. -/

theorem ownValue_of_removeAt? {t t' : Tree} {k : String} {ks : List String}
    (h : t.removeAt? (k :: ks) = some t') : t'.ownValue = t.ownValue := by
  obtain ⟨-, rfl⟩ | ⟨c, c', -, -, rfl⟩ := removeAt?_cases h <;> rfl

theorem lookup_of_removeAt?_of_ne {t t' : Tree} {k o : String} {ks : List String}
    (h : t.removeAt? (k :: ks) = some t') (ho : o ≠ k) :
    t'.children.lookup o = t.children.lookup o := by
  obtain ⟨-, rfl⟩ | ⟨c, c', -, -, rfl⟩ := removeAt?_cases h
  · rw [children, lookup_filter_ne, if_neg ho]
  · rw [children, lookup_alter_of_ne ho]

/-- The child that a removal is about is gone, or has lost a node below it. -/
theorem lookup_self_of_removeAt? {t t' : Tree} {k : String} {ks : List String}
    (h : t.removeAt? (k :: ks) = some t') :
    (ks = [] ∧ t'.children.lookup k = none) ∨
      ∃ c c', t.children.lookup k = some c ∧ c.removeAt? ks = some c' ∧
        t'.children.lookup k = some c' := by
  obtain ⟨hks, rfl⟩ | ⟨c, c', hc, hc', rfl⟩ := removeAt?_cases h
  · exact .inl ⟨hks, by rw [children, lookup_filter_ne, if_pos rfl]⟩
  · exact .inr ⟨c, c', hc, hc', by rw [children, lookup_alter_self]⟩

theorem keys_of_removeAt? {t t' : Tree} {k : String} {ks : List String}
    (h : t.removeAt? (k :: ks) = some t') :
    t'.keysAt [] = (t.keysAt []).filter fun l => ¬k :: ks <+: [l] := by
  obtain ⟨rfl, rfl⟩ | ⟨c, c', hc, hc', rfl⟩ := removeAt?_cases h
  · rw [keysAt_nil, keysAt_nil, children, List.filter_map]
    simp [Function.comp_def, eq_comm]
  · have hk : k ∈ t.children.map Prod.fst := isSome_lookup_iff.mp (by rw [hc]; rfl)
    have hks : ks ≠ [] := by
      rintro rfl
      cases hc'
    rw [keysAt_nil, keysAt_nil, children, keys_alter, addKey, if_pos hk]
    exact (List.filter_eq_self.mpr (by simp [hks])).symm

/-- Where a node is removed, everything at its row and below is gone, and nothing else. -/
theorem valueAt_of_removeAt? {t t' : Tree} {row : List String} (h : t.removeAt? row = some t')
    (other : List String) : t'.valueAt other = if row <+: other then none else t.valueAt other := by
  induction row generalizing t t' other with
  | nil => exact absurd h (by simp [removeAt?])
  | cons k ks ih =>
    cases other with
    | nil =>
      rw [if_neg (by simp)]
      exact ownValue_of_removeAt? h
    | cons o os =>
      simp only [valueAt_cons, List.cons_prefix_cons]
      by_cases ho : o = k
      · subst ho
        obtain ⟨rfl, hgone⟩ | ⟨c, c', hc, hc', hsome⟩ := lookup_self_of_removeAt? h
        · simp [hgone, valueAt_empty]
        · rw [hsome, hc, Option.getD_some, Option.getD_some, ih hc']
          simp
      · rw [lookup_of_removeAt?_of_ne h ho, if_neg fun hk => ho hk.1.symm]

theorem keysAt_of_removeAt? {t t' : Tree} {row : List String} (h : t.removeAt? row = some t')
    (other : List String) :
    t'.keysAt other = (t.keysAt other).filter fun k => ¬row <+: other ++ [k] := by
  induction row generalizing t t' other with
  | nil => exact absurd h (by simp [removeAt?])
  | cons k ks ih =>
    cases other with
    | nil => exact keys_of_removeAt? h
    | cons o os =>
      simp only [keysAt_cons, List.cons_append, List.cons_prefix_cons]
      by_cases ho : o = k
      · subst ho
        obtain ⟨rfl, hgone⟩ | ⟨c, c', hc, hc', hsome⟩ := lookup_self_of_removeAt? h
        · simp [hgone, keysAt_empty]
        · rw [hsome, hc, Option.getD_some, Option.getD_some, ih hc']
          simp
      · rw [lookup_of_removeAt?_of_ne h ho]
        simp [Ne.symm ho]

/-- A removal leaves a node that is neither above nor below the removed one as it is. -/
theorem follow_of_removeAt? {t t' : Tree} {row other : List String} (h : t.removeAt? row = some t')
    (hbelow : ¬row <+: other) (habove : ¬other <+: row) : t'.follow other = t.follow other := by
  induction row generalizing t t' other with
  | nil => exact absurd List.nil_prefix hbelow
  | cons k ks ih =>
    cases other with
    | nil => exact absurd List.nil_prefix habove
    | cons o os =>
      rw [follow_cons, follow_cons]
      by_cases ho : o = k
      · subst ho
        simp only [List.cons_prefix_cons, true_and] at hbelow habove
        obtain ⟨rfl, -⟩ | ⟨c, c', hc, hc', hsome⟩ := lookup_self_of_removeAt? h
        · exact absurd List.nil_prefix hbelow
        · rw [hsome, hc, Option.bind_some, Option.bind_some, ih hc' hbelow habove]
      · rw [lookup_of_removeAt?_of_ne h ho]

/-- The tree after a removal that finds a node, or not. -/
def removeAt (t : Tree) (row : List String) : Tree := (t.removeAt? row).getD t

theorem valueAt_removeAt (t : Tree) (row other : List String) :
    (t.removeAt row).valueAt other =
      if row ≠ [] ∧ row <+: other then none else t.valueAt other := by
  unfold removeAt
  cases h : t.removeAt? row with
  | some t' =>
    have hrow : row ≠ [] := by
      rintro rfl
      cases h
    simp only [Option.getD_some, valueAt_of_removeAt? h, ne_eq, hrow, not_false_eq_true, true_and]
  | none =>
    rw [Option.getD_none]
    split
    · rename_i hpre
      rcases removeAt?_eq_none_iff.mp h with hnil | hnone
      · exact absurd hnil hpre.1
      · exact valueAt_eq_none (follow_eq_none_below hnone hpre.2)
    · rfl

theorem keysAt_removeAt (t : Tree) (row other : List String) :
    (t.removeAt row).keysAt other =
      (t.keysAt other).filter fun k => ¬(row ≠ [] ∧ row <+: other ++ [k]) := by
  unfold removeAt
  cases h : t.removeAt? row with
  | some t' =>
    have hrow : row ≠ [] := by
      rintro rfl
      cases h
    simp only [Option.getD_some, keysAt_of_removeAt? h, ne_eq, hrow, not_false_eq_true, true_and]
  | none =>
    rw [Option.getD_none]
    refine (List.filter_eq_self.mpr fun k hk => ?_).symm
    rw [decide_eq_true_eq]
    intro hpre
    rcases removeAt?_eq_none_iff.mp h with hnil | hnone
    · exact hpre.1 hnil
    · have hsome := mem_keysAt_iff.mp hk
      rw [follow_eq_none_below hnone hpre.2] at hsome
      cases hsome

end GuardedConfig.Tree
