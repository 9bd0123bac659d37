import GuardedConfig.Text.Pieces
import GuardedConfig.Value

/-!
# Contexts

A context maps dotted field paths to values. It is a tree of names: setting a value at a path makes
the levels above it as needed and takes away whatever stood in the way, be it a value where a level
is needed or a level where the value goes. Names of one level are kept in order, each once, and no
name holds a dot.

Results:
* `Entries.Sorted.insert`: setting a value keeps the names of every level in order.
* `Entries.Undotted.insert`: setting a value under names without dots brings in no dot.
* `mem_flatten`: listing sorts the leaves and loses none.
* `pairwise_flatten`: the listing ascends by path.
-/

namespace GuardedConfig

/-- The names of one level of a context, each with a value or with a level below it. -/
inductive Entries where
  | nil
  | leaf (name : String) (value : Value) (rest : Entries)
  | nested (name : String) (below : Entries) (rest : Entries)
  deriving DecidableEq, Inhabited

namespace Entries

/-- The names of the level itself. -/
def names : Entries → List String
  | nil => []
  | leaf k _ rest => k :: rest.names
  | nested k _ rest => k :: rest.names

/-- The names of every level are strictly ascending. -/
def Sorted : Entries → Prop
  | nil => True
  | leaf k _ rest => (∀ n ∈ rest.names, k < n) ∧ rest.Sorted
  | nested k below rest => (∀ n ∈ rest.names, k < n) ∧ below.Sorted ∧ rest.Sorted

/-- No name of any level holds a dot. -/
def Undotted : Entries → Prop
  | nil => True
  | leaf k _ rest => '.' ∉ k.toList ∧ rest.Undotted
  | nested k below rest => '.' ∉ k.toList ∧ below.Undotted ∧ rest.Undotted

/-- A value under a path of names, in front of the rest of its level. -/
def chain (v : Value) : List String → Entries → Entries
  | [], rest => rest
  | [k], rest => leaf k v rest
  | k :: l :: ks, rest => nested k (chain v (l :: ks) nil) rest

/-- The level with a value set under a path of names. -/
def insert (v : Value) : Entries → List String → Entries
  | es, [] => es
  | nil, p :: ps => chain v (p :: ps) nil
  | leaf k w rest, p :: ps =>
    if p < k then chain v (p :: ps) (leaf k w rest)
    else if p = k then chain v (p :: ps) rest
    else leaf k w (rest.insert v (p :: ps))
  | nested k below rest, p :: ps =>
    if p < k then chain v (p :: ps) (nested k below rest)
    else if p = k then
      match ps with
      | [] => leaf p v rest
      | q :: qs => nested k (below.insert v (q :: qs)) rest
    else nested k below (rest.insert v (p :: ps))

/-- The value under a path of names, if the path leads to one. -/
def get : Entries → List String → Option Value
  | nil, _ => none
  | leaf k v rest, ps => if ps = [k] then some v else rest.get ps
  | nested k below rest, ps =>
    if ps.head? = some k then
      if ps.tail = [] then none else below.get ps.tail
    else rest.get ps

/-- The path of a name below a level. A level whose own path is empty adds no dot. -/
def fieldPath (above name : String) : String :=
  if above = "" then name else above ++ "." ++ name

/-- The values below a level with their full paths, level by level in the order of the names. -/
def leaves (above : String) : Entries → List (String × Value)
  | nil => []
  | leaf k v rest => (fieldPath above k, v) :: rest.leaves above
  | nested k below rest => below.leaves (fieldPath above k) ++ rest.leaves above

/-- Whether two levels have the same names with values that are alike. -/
def same : Entries → Entries → Bool
  | nil, nil => true
  | leaf k v rest, leaf k' v' rest' => k = k' && v.same v' && rest.same rest'
  | nested k below rest, nested k' below' rest' =>
    k = k' && below.same below' && rest.same rest'
  | _, _ => false

theorem names_chain {v : Value} {p : String} {ps : List String} {rest : Entries} :
    (chain v (p :: ps) rest).names = p :: rest.names := by
  cases ps <;> rfl

theorem mem_names_insert {v : Value} {es : Entries} {p : String} {ps : List String} {n : String}
    (h : n ∈ (es.insert v (p :: ps)).names) : n = p ∨ n ∈ es.names := by
  induction es with
  | nil => simpa [insert, names_chain, names] using h
  | leaf k w rest ih =>
    simp only [insert] at h
    split at h
    · simpa [names_chain] using h
    · split at h
      · rcases (by simpa [names_chain] using h : n = p ∨ n ∈ rest.names) with h | h
        · exact .inl h
        · exact .inr (List.mem_cons_of_mem _ h)
      · rcases List.mem_cons.1 h with h | h
        · exact .inr (h ▸ List.mem_cons_self ..)
        · exact (ih h).imp id (List.mem_cons_of_mem _)
  | nested k below rest _ ih =>
    simp only [insert] at h
    split at h
    · simpa [names_chain] using h
    · split at h
      · rename_i hk
        split at h
        · rcases List.mem_cons.1 h with h | h
          · exact .inl h
          · exact .inr (List.mem_cons_of_mem _ h)
        · exact .inr h
      · rcases List.mem_cons.1 h with h | h
        · exact .inr (h ▸ List.mem_cons_self ..)
        · exact (ih h).imp id (List.mem_cons_of_mem _)

theorem sorted_chain {v : Value} {p : String} {ps : List String} {rest : Entries}
    (hr : rest.Sorted) (h : ∀ n ∈ rest.names, p < n) : (chain v (p :: ps) rest).Sorted := by
  induction ps generalizing p rest with
  | nil => exact ⟨h, hr⟩
  | cons q qs ih => exact ⟨h, ih trivial (by simp [names]), hr⟩

theorem names_gt_of_lt {p k : String} {rest : Entries} (hp : p < k)
    (h : ∀ n ∈ rest.names, k < n) : ∀ n ∈ k :: rest.names, p < n := by
  intro n hn
  rcases List.mem_cons.1 hn with hn | hn
  · exact hn ▸ hp
  · exact String.lt_trans hp (h n hn)

theorem lt_of_not_lt {p k : String} (h : ¬p < k) (hne : p ≠ k) : k < p :=
  Decidable.byContradiction fun h' =>
    hne (String.le_antisymm (String.not_lt.1 h') (String.not_lt.1 h))

theorem Sorted.insert {es : Entries} (h : es.Sorted) (v : Value) (path : List String) :
    (es.insert v path).Sorted := by
  induction es generalizing path with
  | nil =>
    cases path with
    | nil => exact h
    | cons p ps => exact sorted_chain trivial (by simp [names])
  | leaf k w rest ih =>
    cases path with
    | nil => exact h
    | cons p ps =>
      simp only [Entries.insert]
      split
      · rename_i hp
        exact sorted_chain h (names_gt_of_lt hp h.1)
      · split
        · rename_i hk
          exact sorted_chain h.2 (hk ▸ h.1)
        · rename_i hlt hne
          refine ⟨fun n hn => ?_, ih h.2 _⟩
          rcases mem_names_insert hn with hn | hn
          · exact hn ▸ lt_of_not_lt hlt hne
          · exact h.1 n hn
  | nested k below rest ihb ih =>
    cases path with
    | nil => exact h
    | cons p ps =>
      simp only [Entries.insert]
      split
      · rename_i hp
        exact sorted_chain h (names_gt_of_lt hp h.1)
      · split
        · rename_i hk
          split
          · exact ⟨hk ▸ h.1, h.2.2⟩
          · exact ⟨h.1, ihb h.2.1 _, h.2.2⟩
        · rename_i hlt hne
          refine ⟨fun n hn => ?_, h.2.1, ih h.2.2 _⟩
          rcases mem_names_insert hn with hn | hn
          · exact hn ▸ lt_of_not_lt hlt hne
          · exact h.1 n hn

theorem undotted_chain {v : Value} {ps : List String} {rest : Entries}
    (hps : ∀ p ∈ ps, '.' ∉ p.toList) (hr : rest.Undotted) : (chain v ps rest).Undotted := by
  induction ps generalizing rest with
  | nil => exact hr
  | cons p ps ih =>
    have hp := hps p List.mem_cons_self
    cases ps with
    | nil => exact ⟨hp, hr⟩
    | cons q qs => exact ⟨hp, ih (fun q hq => hps q (List.mem_cons_of_mem p hq)) trivial, hr⟩

theorem Undotted.insert {es : Entries} (h : es.Undotted) (v : Value) {path : List String}
    (hp : ∀ p ∈ path, '.' ∉ p.toList) : (es.insert v path).Undotted := by
  induction es generalizing path with
  | nil =>
    cases path with
    | nil => exact h
    | cons p ps => exact undotted_chain hp trivial
  | leaf k w rest ih =>
    cases path with
    | nil => exact h
    | cons p ps =>
      rw [Entries.insert]
      split
      · exact undotted_chain hp h
      · split
        · exact undotted_chain hp h.2
        · exact ⟨h.1, ih h.2 hp⟩
  | nested k below rest ihb ih =>
    cases path with
    | nil => exact h
    | cons p ps =>
      simp only [Entries.insert]
      split
      · exact undotted_chain hp h
      · split
        · split
          · exact ⟨hp p List.mem_cons_self, h.2.2⟩
          · exact ⟨h.1, ihb h.2.1 fun r hr => hp r (List.mem_cons_of_mem p hr), h.2.2⟩
        · exact ⟨h.1, h.2.1, ih h.2.2 hp⟩

end Entries

/-- A mapping of dotted field paths to values. -/
structure Context where
  entries : Entries
  sorted : entries.Sorted
  undotted : entries.Undotted

namespace Context

/-- The context without fields. -/
def empty : Context := ⟨.nil, trivial, trivial⟩

instance : Inhabited Context := ⟨empty⟩

instance : DecidableEq Context := fun a b =>
  decidable_of_iff (a.entries = b.entries) (by cases a; cases b; simp)

/-- The names that lead to a field. -/
def segments (path : String) : List String :=
  Pieces.cut '.' path

/-- The context with a value at a path. -/
def set (c : Context) (path : String) (v : Value) : Context where
  entries := c.entries.insert v (segments path)
  sorted := c.sorted.insert v (segments path)
  undotted := c.undotted.insert v fun _ => Pieces.not_mem_of_mem_cut

/-- The value at a path. A level is no value. -/
def get (c : Context) (path : String) : Option Value :=
  c.entries.get (segments path)

/-- Whether the context has no entry at all. -/
def isEmpty (c : Context) : Bool :=
  c.entries = .nil

/-- The context with the given settings, made one after the other. -/
def ofSettings (settings : List (String × Value)) : Context :=
  settings.foldl (fun c s => c.set s.1 s.2) empty

/-- All fields with their values, in the order of the full paths. -/
def flatten (c : Context) : List (String × Value) :=
  (c.entries.leaves "").mergeSort fun a b => a.1 ≤ b.1

/-- Whether two contexts have the same fields with values that are alike. -/
def same (a b : Context) : Bool :=
  a.entries.same b.entries

theorem mem_flatten {c : Context} {f : String × Value} :
    f ∈ c.flatten ↔ f ∈ c.entries.leaves "" :=
  (List.mergeSort_perm _ _).mem_iff

theorem pairwise_flatten (c : Context) : c.flatten.Pairwise fun a b => a.1 ≤ b.1 := by
  have trans : ∀ a b d : String × Value,
      decide (a.1 ≤ b.1) = true → decide (b.1 ≤ d.1) = true → decide (a.1 ≤ d.1) = true := by
    simp only [decide_eq_true_eq]
    exact fun a b d => String.le_trans
  have total : ∀ a b : String × Value, (decide (a.1 ≤ b.1) || decide (b.1 ≤ a.1)) = true := by
    simp only [Bool.or_eq_true, decide_eq_true_eq]
    exact fun a b => String.le_total a.1 b.1
  have h := List.pairwise_mergeSort trans total (c.entries.leaves "")
  simp only [decide_eq_true_eq] at h
  exact h

end Context

end GuardedConfig
