import GuardedConfig.Context

/-!
# Shapes of contexts

The shape of a context is its fields in order, each with the kind of its value. Predicates are
compiled for a shape; the place of a field in the shape is the place of its value in the listing of
any context with that shape. A place is found by halving the stretch of fields it may lie in.

Results:
* `length_ofContext`: the shape has as many fields as the context lists.
* `fst_of_indexOf`: the field at the place of a path has that path.
* `indexOf_eq_none_iff`: a field has no place exactly when the shape does not list it.
-/

namespace GuardedConfig

/-- The fields of a context with the kinds of their values, in order. -/
structure Shape where
  fields : List (String × ValueKind)
  sorted : fields.Pairwise fun a b => a.1 ≤ b.1
  deriving DecidableEq

namespace Shape

/-- The shape of a context. -/
def ofContext (c : Context) : Shape where
  fields := c.flatten.map fun f => (f.1, f.2.kind)
  sorted := List.pairwise_map.mpr c.pairwise_flatten

/-- The last place of a field that is not after the path, among the `size` places from `base` on, if
there is one there; otherwise `base`. -/
def narrow (fields : List (String × ValueKind)) (path : String) (base size : Nat) : Nat :=
  if size ≤ 1 then base
  else
    let middle := base + size / 2
    if fields[middle]?.any fun f => path < f.1 then narrow fields path base (size - size / 2)
    else narrow fields path middle (size - size / 2)
termination_by size

/-- The place of a field, counted from zero. -/
def indexOf (s : Shape) (path : String) : Option Nat :=
  let i := narrow s.fields path 0 s.fields.length
  if s.fields[i]?.any fun f => f.1 = path then some i else none

/-- The kind of the field at a place. -/
def kindAt (s : Shape) (i : Nat) : Option ValueKind :=
  s.fields[i]?.map Prod.snd

/-- The number of fields. -/
def length (s : Shape) : Nat :=
  s.fields.length

/-- Whether there are no fields. -/
def isEmpty (s : Shape) : Bool :=
  s.fields.isEmpty

/-- A shape in messages: every field with its kind, between braces. -/
def text (s : Shape) : String :=
  "\x7b" ++ ", ".intercalate (s.fields.map fun f => f.1 ++ ": " ++ f.2.text) ++ "\x7d"

theorem length_ofContext (c : Context) : (ofContext c).length = c.flatten.length := by
  simp [ofContext, length]

theorem fst_of_indexOf {s : Shape} {path : String} {i : Nat} (h : s.indexOf path = some i) :
    ∃ kind, s.fields[i]? = some (path, kind) := by
  simp only [indexOf] at h
  split at h
  · rename_i hp
    cases h
    obtain ⟨⟨p, kind⟩, hf, hp⟩ := (Option.any_eq_true _ _).mp hp
    exact ⟨kind, by rw [hf, ← of_decide_eq_true hp]⟩
  · exact absurd h (by simp)

/-- The paths of the fields do not descend. -/
theorem le_of_lt_index {fields : List (String × ValueKind)}
    (hs : fields.Pairwise fun a b => a.1 ≤ b.1) {i j : Nat} {f g : String × ValueKind}
    (hf : fields[i]? = some f) (hg : fields[j]? = some g) (hij : i < j) : f.1 ≤ g.1 := by
  obtain ⟨hi, rfl⟩ := List.getElem?_eq_some_iff.mp hf
  obtain ⟨hj, rfl⟩ := List.getElem?_eq_some_iff.mp hg
  exact List.pairwise_iff_getElem.mp hs i j hi hj hij

/-- Where halving ends, if every field behind the stretch is after the path: no field behind that
place has the path, and if the place is not the first, its field is not after the path. -/
theorem narrow_spec {fields : List (String × ValueKind)}
    (hs : fields.Pairwise fun a b => a.1 ≤ b.1) (path : String) {base size : Nat}
    (hsize : 0 < size) (hlen : base + size ≤ fields.length)
    (hbase : base = 0 ∨ ∃ f, fields[base]? = some f ∧ f.1 ≤ path)
    (hbehind : ∀ j f, base + size ≤ j → fields[j]? = some f → path < f.1) :
    (narrow fields path base size = 0 ∨
      ∃ f, fields[narrow fields path base size]? = some f ∧ f.1 ≤ path) ∧
    ∀ j f, narrow fields path base size < j → fields[j]? = some f → path < f.1 := by
  fun_induction narrow fields path base size with
  | case1 base size h =>
    exact ⟨hbase, fun j f hj => hbehind j f (by omega)⟩
  | case2 base size h middle hm ih =>
    obtain ⟨g, hg, hlt⟩ := (Option.any_eq_true _ _).mp hm
    refine ih (by omega) (by omega) hbase fun j f hj hf => ?_
    have hlt : path < g.1 := of_decide_eq_true hlt
    rcases Nat.lt_or_eq_of_le (show middle ≤ j by omega) with hj | rfl
    · -- a field after one that is after the path is after the path
      have hle := le_of_lt_index hs hg hf hj
      exact String.not_le.mp fun hle' => String.not_le.mpr hlt (String.le_trans hle hle')
    · rw [hg] at hf
      cases hf
      exact hlt
  | case3 base size h middle hm ih =>
    refine ih (by omega) (by omega) (.inr ?_) fun j f hj hf => hbehind j f (by omega) hf
    have hmid : middle < fields.length := by omega
    refine ⟨fields[middle], List.getElem?_eq_getElem hmid, ?_⟩
    rw [List.getElem?_eq_getElem hmid] at hm
    exact String.not_lt.mp fun hlt => hm (decide_eq_true hlt)

/-- Halving ends at a field with the path, if there is one. -/
theorem narrow_of_mem {s : Shape} {path : String} {j : Nat} {kind : ValueKind}
    (hf : s.fields[j]? = some (path, kind)) :
    ∃ g, s.fields[narrow s.fields path 0 s.fields.length]? = some g ∧ g.1 = path := by
  have hlen := (List.getElem?_eq_some_iff.mp hf).1
  obtain ⟨hend, hbehind⟩ :=
    narrow_spec s.sorted path (Nat.zero_lt_of_lt hlen) (Nat.le_of_eq (Nat.zero_add _)) (.inl rfl)
      fun k g hk hg => by
        rw [List.getElem?_eq_none (by omega)] at hg
        cases hg
  have hj : j ≤ narrow s.fields path 0 s.fields.length := by
    refine Nat.le_of_not_lt fun hlt => ?_
    exact String.lt_irrefl path (hbehind j _ hlt hf)
  rcases Nat.lt_or_eq_of_le hj with hj | hj
  · rcases hend with hzero | ⟨g, hg, hle⟩
    · omega
    · exact ⟨g, hg, String.le_antisymm hle (le_of_lt_index s.sorted hf hg hj)⟩
  · exact ⟨(path, kind), hj ▸ hf, rfl⟩

theorem indexOf_eq_none_iff {s : Shape} {path : String} :
    s.indexOf path = none ↔ ∀ f ∈ s.fields, f.1 ≠ path := by
  constructor
  · rintro h ⟨p, kind⟩ hf rfl
    obtain ⟨j, hj⟩ := List.mem_iff_getElem?.mp hf
    obtain ⟨g, hg, hp⟩ := narrow_of_mem hj
    simp [indexOf, hg, hp] at h
  · intro h
    cases hi : s.indexOf path with
    | none => rfl
    | some i =>
      obtain ⟨kind, hf⟩ := fst_of_indexOf hi
      exact absurd rfl (h _ (List.mem_of_getElem? hf))

end Shape

end GuardedConfig
