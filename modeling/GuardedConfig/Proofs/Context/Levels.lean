import Mathlib
import GuardedConfig.Context

/-!
# Levels of a context

A level of a context is a finite map: under each of its names stands a value or a level below. A
setting changes what stands under its first name and nothing else there, and a value is found under
the first name of its path; so a law of settings need only be looked at name by name.

Results:
* `Entries.Sorted.ext`: levels with the same under every name are equal.
* `Entries.entryAt_insert`: what stands under a name after a setting.
* `Entries.get_cons`: a value is what the further names lead to from the first.
-/

namespace GuardedConfig

/-- What stands under a name of a level. -/
inductive Entry where
  | value (v : Value)
  | level (below : Entries)

namespace Entry

/-- The level under a name. Where none stands, a setting would start from the empty one. -/
def below : Option Entry → Entries
  | some (level es) => es
  | _ => .nil

/-- What stands under a name after a value is set there, with the names that follow. -/
def put (v : Value) : List String → Option Entry → Entry
  | [], _ => value v
  | n :: ns, old => level ((below old).insert v (n :: ns))

/-- The value that the names that follow lead to. -/
def get : Entry → List String → Option Value
  | value v, ns => if ns = [] then some v else none
  | level es, ns => es.get ns

/-- The names of every level are strictly ascending. -/
def Sorted : Entry → Prop
  | value _ => True
  | level es => es.Sorted

end Entry

namespace Entries

/-- What stands under a name. -/
def entryAt : Entries → String → Option Entry
  | nil, _ => none
  | leaf k v rest, n => if n = k then some (.value v) else rest.entryAt n
  | nested k below rest, n => if n = k then some (.level below) else rest.entryAt n

/-! ## A level as its first name and the rest -/

/-- A name with what stands under it, in front of the rest of its level. -/
def cons (n : String) : Entry → Entries → Entries
  | .value v, rest => leaf n v rest
  | .level below, rest => nested n below rest

/-- Induction along one level, whatever stands under its names. -/
@[elab_as_elim]
theorem consInduction {motive : Entries → Prop} (nil : motive nil)
    (cons : ∀ n e rest, motive rest → motive (cons n e rest)) (es : Entries) : motive es := by
  induction es with
  | nil => exact nil
  | leaf k v rest ih => exact cons k (.value v) rest ih
  | nested k below rest _ ih => exact cons k (.level below) rest ih

theorem names_cons (n : String) (e : Entry) (rest : Entries) :
    (cons n e rest).names = n :: rest.names := by
  cases e <;> rfl

theorem sorted_cons {n : String} {e : Entry} {rest : Entries} :
    (cons n e rest).Sorted ↔ (∀ m ∈ rest.names, n < m) ∧ e.Sorted ∧ rest.Sorted := by
  cases e with
  | value v => simp [cons, Sorted, Entry.Sorted]
  | level below => rfl

theorem entryAt_cons (n : String) (e : Entry) (rest : Entries) (m : String) :
    (cons n e rest).entryAt m = if m = n then some e else rest.entryAt m := by
  cases e <;> rfl

theorem chain_cons (v : Value) (p : String) (ps : List String) (rest : Entries) :
    chain v (p :: ps) rest = cons p (.put v ps none) rest := by
  cases ps <;> rfl

theorem insert_cons (v : Value) (n : String) (e : Entry) (rest : Entries) (p : String)
    (ps : List String) :
    (cons n e rest).insert v (p :: ps) =
      if p < n then cons p (.put v ps none) (cons n e rest)
      else if p = n then cons p (.put v ps (some e)) rest
      else cons n e (rest.insert v (p :: ps)) := by
  cases e with
  | value w =>
    -- a value in the way counts as nothing
    have hput : Entry.put v ps (some (.value w)) = Entry.put v ps none := by
      cases ps <;> rfl
    simp only [cons, insert, chain_cons, hput]
  | level below =>
    simp only [cons, insert, chain_cons]
    split
    · rfl
    · split
      · rename_i hp
        cases ps <;> simp [Entry.put, Entry.below, hp]
      · rfl

/-! ## What stands under a name -/

theorem entryAt_eq_none_iff {es : Entries} {n : String} : es.entryAt n = none ↔ n ∉ es.names := by
  induction es using consInduction with
  | nil => simp [entryAt, names]
  | cons k e rest ih =>
    rw [entryAt_cons, names_cons, List.mem_cons, not_or, ← ih]
    by_cases hn : n = k <;> simp [hn]

theorem Sorted.of_entryAt {es : Entries} (h : es.Sorted) {n : String} {e : Entry}
    (he : es.entryAt n = some e) : e.Sorted := by
  induction es using consInduction with
  | nil => cases he
  | cons k f rest ih =>
    obtain ⟨-, hf, hrest⟩ := sorted_cons.mp h
    rw [entryAt_cons] at he
    split at he
    · cases he
      exact hf
    · exact ih hrest he

theorem Sorted.below {es : Entries} (h : es.Sorted) (n : String) :
    (Entry.below (es.entryAt n)).Sorted := by
  cases he : es.entryAt n with
  | none => trivial
  | some e =>
    cases e with
    | value v => trivial
    | level below => exact h.of_entryAt he

/-- The first name of a level that has all names of another does not come after the first there. -/
theorem first_le {n m : String} {e f : Entry} {rest rest' : Entries}
    (h : (cons m f rest').Sorted)
    (hall : ∀ k, (cons n e rest).entryAt k = (cons m f rest').entryAt k) : m ≤ n := by
  have hmem : n ∈ (cons m f rest').names := by
    by_contra habsent
    have hnone := (hall n).trans (entryAt_eq_none_iff.mpr habsent)
    simp [entryAt_cons] at hnone
  rw [names_cons] at hmem
  rcases List.mem_cons.mp hmem with rfl | hmem
  · exact le_rfl
  · exact ((sorted_cons.mp h).1 n hmem).le

/-- **A level is what stands under its names.** -/
theorem Sorted.ext {es fs : Entries} (hes : es.Sorted) (hfs : fs.Sorted)
    (h : ∀ n, es.entryAt n = fs.entryAt n) : es = fs := by
  induction es using consInduction generalizing fs with
  | nil =>
    induction fs using consInduction with
    | nil => rfl
    | cons m f rest' _ => exact absurd (h m) (by simp [entryAt, entryAt_cons])
  | cons n e rest ih =>
    induction fs using consInduction with
    | nil => exact absurd (h n) (by simp [entryAt, entryAt_cons])
    | cons m f rest' _ =>
      have hfirst : n = m := le_antisymm (first_le hes fun k => (h k).symm) (first_le hfs h)
      subst hfirst
      have hentry : e = f := by simpa [entryAt_cons] using h n
      obtain ⟨hlt, -, hrest⟩ := sorted_cons.mp hes
      obtain ⟨hlt', -, hrest'⟩ := sorted_cons.mp hfs
      have hbehind : rest = rest' := by
        refine ih hrest hrest' fun k => ?_
        by_cases hk : k = n
        · -- the first name stands in neither rest
          subst hk
          rw [entryAt_eq_none_iff.mpr fun hmem => lt_irrefl k (hlt k hmem),
            entryAt_eq_none_iff.mpr fun hmem => lt_irrefl k (hlt' k hmem)]
        · simpa [entryAt_cons, hk] using h k
      rw [hentry, hbehind]

/-! ## Settings and values by the first name -/

/-- A setting changes what stands under its first name, and nothing else of the level. -/
theorem entryAt_insert {es : Entries} (h : es.Sorted) (v : Value) (p : String) (ps : List String)
    (n : String) :
    (es.insert v (p :: ps)).entryAt n =
      if n = p then some (.put v ps (es.entryAt p)) else es.entryAt n := by
  induction es using consInduction with
  | nil => rw [insert, chain_cons, entryAt_cons]; rfl
  | cons k e rest ih =>
    obtain ⟨hlt, -, hrest⟩ := sorted_cons.mp h
    rw [insert_cons]
    split
    · rename_i hp
      -- a name before the first one stands nowhere in the level
      have hnew : (cons k e rest).entryAt p = none := by
        rw [entryAt_eq_none_iff, names_cons]
        exact fun hmem => lt_irrefl p (names_gt_of_lt hp hlt p hmem)
      rw [entryAt_cons, hnew]
    · split
      · rename_i hp
        subst hp
        simp only [entryAt_cons, if_true]
        split <;> rfl
      · rename_i hp
        simp only [entryAt_cons, ih hrest, if_neg hp]
        split
        · rename_i hn
          rw [if_neg (hn ▸ Ne.symm hp)]
        · rfl

theorem get_nil (es : Entries) : es.get [] = none := by
  induction es with
  | nil => rfl
  | leaf k v rest ih => simp [get, ih]
  | nested k below rest _ ih => simp [get, ih]

/-- A value is found under the first name of its path. -/
theorem get_cons {es : Entries} (h : es.Sorted) (n : String) (ns : List String) :
    es.get (n :: ns) = (es.entryAt n).bind fun e => e.get ns := by
  induction es with
  | nil => rfl
  | leaf k v rest ih =>
    have hrest := ih h.2
    by_cases hn : n = k
    · subst hn
      have hnone : rest.entryAt n = none :=
        entryAt_eq_none_iff.mpr fun hmem => lt_irrefl n (h.1 n hmem)
      rw [hnone] at hrest
      simp [get, entryAt, Entry.get, hrest]
    · simp [get, entryAt, hn, hrest]
  | nested k below rest _ ih =>
    by_cases hn : n = k
    · subst hn
      by_cases hns : ns = []
      · simp [get, entryAt, Entry.get, hns, get_nil]
      · simp [get, entryAt, Entry.get, hns]
    · simpa [get, entryAt, hn, Ne.symm hn] using ih h.2.2

/-- More than one name leads into the level below the first. -/
theorem get_below {es : Entries} (h : es.Sorted) (n : String) {ns : List String} (hns : ns ≠ []) :
    (Entry.below (es.entryAt n)).get ns = es.get (n :: ns) := by
  rw [get_cons h]
  cases es.entryAt n with
  | none => rfl
  | some e =>
    cases e with
    | value v => simp [Entry.below, Entry.get, get, hns]
    | level below => rfl

end Entries

end GuardedConfig
