import Mathlib
import GuardedConfig.Shape

/-!
# Leaves of a context by name and by place

A value of a context can be asked for by its path, and it has a place in the listing of the
context. The listing writes a path from the names that lead to the value, and an empty name at the
front leaves no dot behind; so two values get one listed path, or a value gets the path of another,
only if a path that starts with a dot leads to a value.

Results:
* `Entries.get_eq_some_iff`: looking a value up by names finds exactly the values below the level.
* `mem_flatten_iff_get`: the listing of a regular context holds exactly what its paths lead to.
* `placed_eq_get`: what stands in the place of a field of a regular context is what its path leads
  to.
-/

namespace GuardedConfig

namespace Entries

/-- The values below a level with the names that lead to them. -/
def named : Entries → List (List String × Value)
  | nil => []
  | leaf k v rest => ([k], v) :: rest.named
  | nested k below rest => (below.named.map fun f => (k :: f.1, f.2)) ++ rest.named

theorem exists_cons_of_mem_named {es : Entries} {f : List String × Value} (h : f ∈ es.named) :
    ∃ n ∈ es.names, ∃ ns, f.1 = n :: ns := by
  induction es with
  | nil => exact absurd h (by simp [named])
  | leaf k v rest ih =>
    rcases List.mem_cons.mp h with rfl | h
    · exact ⟨k, List.mem_cons_self, [], rfl⟩
    · obtain ⟨n, hn, ns, hf⟩ := ih h
      exact ⟨n, List.mem_cons_of_mem k hn, ns, hf⟩
  | nested k below rest _ ih =>
    rcases List.mem_append.mp h with h | h
    · obtain ⟨g, _, rfl⟩ := List.mem_map.mp h
      exact ⟨k, List.mem_cons_self, g.1, rfl⟩
    · obtain ⟨n, hn, ns, hf⟩ := ih h
      exact ⟨n, List.mem_cons_of_mem k hn, ns, hf⟩

theorem ne_nil_of_mem_named {es : Entries} {f : List String × Value} (h : f ∈ es.named) :
    f.1 ≠ [] := by
  obtain ⟨n, _, ns, hf⟩ := exists_cons_of_mem_named h
  simp [hf]

/-- The names that lead to a value further on in a level start with none of the earlier names. -/
theorem not_mem_named_of_lt {rest : Entries} {k : String} (h : ∀ n ∈ rest.names, k < n)
    (ns : List String) (v : Value) : (k :: ns, v) ∉ rest.named := by
  intro hmem
  obtain ⟨n, hn, _, hf⟩ := exists_cons_of_mem_named hmem
  injection hf with hk _
  exact String.lt_irrefl k (h k (hk ▸ hn))

theorem get_eq_some_iff {es : Entries} (h : es.Sorted) {ns : List String} {v : Value} :
    es.get ns = some v ↔ (ns, v) ∈ es.named := by
  induction es generalizing ns with
  | nil => simp [get, named]
  | leaf k w rest ih =>
    unfold get named
    by_cases hns : ns = [k]
    · subst hns
      have := not_mem_named_of_lt h.1 [] v
      simp only [if_pos, List.mem_cons, this, or_false, Option.some.injEq, Prod.mk.injEq, true_and]
      exact eq_comm
    · simp [hns, ih h.2]
  | nested k below rest ihb ih =>
    unfold get named
    rw [List.mem_append, List.mem_map]
    cases ns with
    | nil =>
      simp [ih h.2.2]
    | cons n ns =>
      by_cases hn : n = k
      · subst hn
        have hrest := not_mem_named_of_lt h.1 ns v
        cases ns with
        | nil =>
          refine iff_of_false (by simp) ?_
          rintro (⟨f, hf, heq⟩ | hmem)
          · obtain ⟨m, _, ms, hm⟩ := exists_cons_of_mem_named hf
            simp [hm] at heq
          · exact hrest hmem
        | cons m ms =>
          simp only [List.head?_cons, if_true, List.tail_cons, reduceCtorEq, if_false, hrest,
            or_false, ihb h.2.1]
          constructor
          · exact fun hmem => ⟨(m :: ms, v), hmem, rfl⟩
          · rintro ⟨⟨ms, w⟩, hmem, heq⟩
            cases heq
            exact hmem
      · rw [if_neg (by simpa using hn), ih h.2.2]
        constructor
        · exact .inr
        · rintro (⟨f, _, heq⟩ | hmem)
          · injection heq with heq _
            injection heq with hk _
            exact absurd hk.symm hn
          · exact hmem

theorem Undotted.not_mem {es : Entries} (h : es.Undotted) {f : List String × Value}
    (hf : f ∈ es.named) : ∀ n ∈ f.1, '.' ∉ n.toList := by
  induction es generalizing f with
  | nil => exact absurd hf (by simp [named])
  | leaf k v rest ih =>
    rcases List.mem_cons.mp hf with rfl | hf
    · simpa using h.1
    · exact ih h.2 hf
  | nested k below rest ihb ih =>
    rcases List.mem_append.mp hf with hf | hf
    · obtain ⟨g, hg, rfl⟩ := List.mem_map.mp hf
      rintro n (_ | ⟨_, hn⟩)
      · exact h.1
      · exact ihb h.2.1 hg n hn
    · exact ih h.2.2 hf

theorem leaves_eq_map (es : Entries) (above : String) :
    es.leaves above = es.named.map fun f => (f.1.foldl fieldPath above, f.2) := by
  induction es generalizing above with
  | nil => rfl
  | leaf k v rest ih => simp [leaves, named, ih]
  | nested k below rest ihb ih => simp [leaves, named, ihb, ih, Function.comp_def]

end Entries

namespace Context

open Entries (fieldPath)

theorem joinList_extend (sep : Char) (p q : List Char) (ps : List (List Char)) :
    Pieces.joinList sep ((p ++ sep :: q) :: ps) = Pieces.joinList sep (p :: q :: ps) := by
  cases ps <;> simp [Pieces.joinList]

/-- Below a level with a path of its own the listed path joins the names with dots. -/
theorem foldl_fieldPath {above : String} (h : above ≠ "") (ns : List String) :
    ns.foldl fieldPath above = Pieces.join '.' (above :: ns) := by
  induction ns generalizing above with
  | nil => simp [Pieces.join, Pieces.joinList]
  | cons n ns ih =>
    have hne : above ++ "." ++ n ≠ "" := by
      intro hempty
      have := congrArg String.toList hempty
      simp at this
    rw [List.foldl_cons, fieldPath, if_neg h, ih hne]
    simp only [Pieces.join, List.map_cons, String.toList_append, List.append_assoc]
    exact congrArg String.ofList (joinList_extend '.' above.toList n.toList _)

/-- Names make up the path they are listed by, unless the path that leads there starts with a
dot. -/
theorem foldl_fieldPath_root {ns : List String} (hne : ns ≠ [])
    (h : (Pieces.join '.' ns).toList.head? ≠ some '.') :
    ns.foldl fieldPath "" = Pieces.join '.' ns := by
  cases ns with
  | nil => exact absurd rfl hne
  | cons n ns =>
    rw [List.foldl_cons, fieldPath, if_pos rfl]
    by_cases hn : n = ""
    · subst hn
      cases ns with
      | nil => rfl
      | cons m ms => exact absurd (by simp [Pieces.join, Pieces.joinList]) h
    · exact foldl_fieldPath hn ns

/-- No path that starts with a dot leads to a value. -/
def Regular (c : Context) : Prop :=
  ∀ path v, c.get path = some v → path.toList.head? ≠ some '.'

/-- The names of a value, joined with dots, are a path that leads to it. -/
theorem get_join {c : Context} {ns : List String} {v : Value} (h : (ns, v) ∈ c.entries.named) :
    c.get (Pieces.join '.' ns) = some v := by
  rw [get, segments, Pieces.cut_join (Entries.ne_nil_of_mem_named h) (c.undotted.not_mem h)]
  exact (Entries.get_eq_some_iff c.sorted).mpr h

theorem mem_named_of_get {c : Context} {path : String} {v : Value} (h : c.get path = some v) :
    (segments path, v) ∈ c.entries.named :=
  (Entries.get_eq_some_iff c.sorted).mp h

theorem join_segments (path : String) : Pieces.join '.' (segments path) = path :=
  Pieces.join_cut '.' path

theorem regular_iff {c : Context} :
    c.Regular ↔ ∀ f ∈ c.entries.named, (Pieces.join '.' f.1).toList.head? ≠ some '.' := by
  constructor
  · intro hc f hf
    exact hc _ _ (get_join hf)
  · intro h path v hget
    have hhead := h _ (mem_named_of_get hget)
    rwa [join_segments] at hhead

instance (c : Context) : Decidable c.Regular :=
  decidable_of_iff _ regular_iff.symm

theorem mem_flatten_iff_get {c : Context} (hc : c.Regular) {path : String} {v : Value} :
    (path, v) ∈ c.flatten ↔ c.get path = some v := by
  rw [mem_flatten, Entries.leaves_eq_map, List.mem_map]
  constructor
  · rintro ⟨⟨ns, w⟩, hmem, heq⟩
    obtain ⟨hpath, rfl⟩ := Prod.mk.inj heq
    have hget := get_join hmem
    rw [← hpath, foldl_fieldPath_root (Entries.ne_nil_of_mem_named hmem) (hc _ _ hget)]
    exact hget
  · intro hget
    have hhead : (Pieces.join '.' (segments path)).toList.head? ≠ some '.' := by
      rw [join_segments]
      exact hc path v hget
    have hroot := foldl_fieldPath_root (Pieces.cut_ne_nil '.' path) hhead
    have hlisted := hroot.trans (join_segments path)
    exact ⟨(segments path, v), mem_named_of_get hget, Prod.ext hlisted rfl⟩

/-- The value in the place that the shape of the context gives to a field. -/
def placed (c : Context) (path : String) : Option Value :=
  ((Shape.ofContext c).indexOf path).bind fun i => c.flatten[i]?.map Prod.snd

theorem flatten_of_indexOf {c : Context} {path : String} {i : Nat}
    (h : (Shape.ofContext c).indexOf path = some i) :
    ∃ v, c.flatten[i]? = some (path, v) ∧ (Shape.ofContext c).kindAt i = some v.kind ∧
      c.placed path = some v := by
  obtain ⟨kind, hf⟩ := Shape.fst_of_indexOf h
  rw [Shape.ofContext, List.getElem?_map, Option.map_eq_some_iff] at hf
  obtain ⟨⟨p, v⟩, hget, heq⟩ := hf
  obtain ⟨rfl, rfl⟩ := Prod.mk.inj heq
  refine ⟨v, hget, ?_, ?_⟩
  · simp [Shape.kindAt, Shape.ofContext, hget]
  · simp [placed, h, hget]

theorem placed_of_indexOf_eq_none {c : Context} {path : String}
    (h : (Shape.ofContext c).indexOf path = none) : c.placed path = none := by
  simp [placed, h]

theorem mem_flatten_of_placed {c : Context} {path : String} {v : Value}
    (h : c.placed path = some v) : (path, v) ∈ c.flatten := by
  cases hi : (Shape.ofContext c).indexOf path with
  | none => rw [placed_of_indexOf_eq_none hi] at h; cases h
  | some i =>
    obtain ⟨w, hlisted, -, hplaced⟩ := flatten_of_indexOf hi
    cases hplaced.symm.trans h
    exact List.mem_of_getElem? hlisted

/-- **A place never holds another field.** The place of a field in the shape of a regular context
is the place of the value that its path leads to, and a field without a place has no value. -/
theorem placed_eq_get {c : Context} (hc : c.Regular) : c.placed = c.get := by
  funext path
  cases hi : (Shape.ofContext c).indexOf path with
  | some i =>
    obtain ⟨v, hf, -, hp⟩ := flatten_of_indexOf hi
    rw [hp, (mem_flatten_iff_get hc).mp (List.mem_of_getElem? hf)]
  | none =>
    rw [placed_of_indexOf_eq_none hi]
    cases hv : c.get path with
    | none => rfl
    | some v =>
      have hmem := (mem_flatten_iff_get hc).mpr hv
      exact absurd rfl (Shape.indexOf_eq_none_iff.mp hi _ (List.mem_map_of_mem hmem))

end Context

end GuardedConfig
