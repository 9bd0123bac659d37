import Mathlib
import GuardedConfig.Proofs.Json.Rows
import GuardedConfig.Proofs.Tree.Log
import GuardedConfig.Proofs.Tree.Visible

/-!
# Loaded trees

The tree of a document shows the document at every path: what the names and indices of the path lead
to, with its text if it is a scalar and the keys of its parts, and nothing where they lead to
nothing. Loaded or made anew, and edited in any way after that, a tree never has a key twice among
the children of a node.

Results:
* `distinct_iff`: no node has a key twice if no row shows one twice.
* `Reachable.distinct`: this holds of every tree that loading and edits come to.
* `load_shows_document`: a loaded tree and its document, path by path.
-/

namespace GuardedConfig

/-- The keys of the parts of a value: the names of the members in their order, or the numerals of
the indices. -/
def Json.keys : Json → List String
  | .array items => numerals items.length
  | .object members => members.map Prod.fst
  | _ => []

theorem Json.keys_parts (j : Json) : j.parts.map Prod.fst = j.keys := by
  cases j with
  | null | bool _ | number _ | string _ => rfl
  | array items => exact keys_itemParts items
  | object members => rfl

namespace Tree

/-! ## Keys of children -/

/-- No node of the tree has a key twice among its children. -/
inductive Distinct : Tree → Prop
  | mk {t : Tree} (keys : (t.children.map Prod.fst).Nodup)
      (below : ∀ c ∈ t.children, c.2.Distinct) : Distinct t

theorem Distinct.nodup_keysAt {t : Tree} (h : t.Distinct) (row : List String) :
    (t.keysAt row).Nodup := by
  induction row generalizing t with
  | nil =>
    obtain ⟨hkeys, -⟩ := h
    exact hkeys
  | cons k row ih =>
    rw [keysAt_cons]
    cases hchild : t.children.lookup k with
    | none =>
      rw [Option.getD_none, keysAt_empty]
      exact List.nodup_nil
    | some c =>
      obtain ⟨-, hbelow⟩ := h
      exact ih (hbelow (k, c) (mem_of_lookup hchild))

theorem distinct_of_keysAt : (t : Tree) → (∀ row, (t.keysAt row).Nodup) → t.Distinct
  | node v cs, h => by
    have hkeys : (cs.map Prod.fst).Nodup := h []
    refine .mk hkeys fun c (hc : c ∈ cs) => distinct_of_keysAt c.2 fun row => ?_
    -- a row of the child is a row of the node behind the key of the child
    have hrow := h (c.1 :: row)
    rwa [keysAt_cons, children, lookup_of_mem hkeys hc] at hrow
  termination_by t => sizeOf t
  decreasing_by
    have hsize := List.sizeOf_lt_of_mem hc
    obtain ⟨k, c⟩ := c
    simp only [node.sizeOf_spec, Prod.mk.sizeOf_spec] at hsize ⊢
    omega

theorem distinct_iff {t : Tree} : t.Distinct ↔ ∀ row, (t.keysAt row).Nodup :=
  ⟨Distinct.nodup_keysAt, distinct_of_keysAt t⟩

/-! ## Trees that loading and edits come to -/

theorem distinct_toTree {j : Json} (h : j.Distinct) : j.toTree.Distinct := by
  induction h with
  | @mk j hkeys _ ih =>
    refine .mk ?_ fun c hc => ?_
    · rw [Json.children_toTree, List.map_map]
      exact hkeys
    · rw [Json.children_toTree] at hc
      obtain ⟨p, hp, rfl⟩ := List.mem_map.mp hc
      exact ih p hp

theorem Distinct.apply {t : Tree} (h : t.Distinct) (c : Change) : (c.apply t).Distinct := by
  rw [distinct_iff] at h ⊢
  intro row
  cases c with
  | clear =>
    rw [Change.apply, keysAt_empty]
    exact List.nodup_nil
  | set target v => exact nodup_keysAt_setAt (h row) v target
  | remove gone =>
    rw [Change.apply, keysAt_removeAt]
    exact (h row).filter _

theorem Distinct.edit {t : Tree} (h : t.Distinct) (e : Edit) : (e.apply t).Distinct := by
  rw [e.apply_eq_foldl]
  generalize e.changes = changes
  induction changes generalizing t with
  | nil => exact h
  | cons c changes ih => exact ih (h.apply c)

/-- The trees that begin empty or as a loaded document and are edited from there. -/
inductive Reachable : Tree → Prop
  | empty : Reachable empty
  | loaded {text : String} {t : Tree} (h : load text = .ok t) : Reachable t
  | edited {t : Tree} (h : Reachable t) (e : Edit) : Reachable (e.apply t)

theorem distinct_of_load {text : String} {t : Tree} (h : load text = .ok t) : t.Distinct := by
  rw [load] at h
  cases hdoc : Json.load text with
  | error e =>
    rw [hdoc] at h
    cases h
  | ok j =>
    rw [hdoc] at h
    exact toTree_of_ofJson h ▸ distinct_toTree (Json.distinct_load hdoc)

theorem Reachable.distinct {t : Tree} (h : Reachable t) : t.Distinct := by
  induction h with
  | empty => exact .mk List.nodup_nil fun _ hc => nomatch hc
  | loaded h => exact distinct_of_load h
  | edited _ e ih => exact ih.edit e

/-! ## A loaded tree beside its document -/

theorem value_ofRow (t : Tree) {row : List String} (h : Path.IsRow row) :
    t.value (Path.ofRow row) = t.valueAt row := by
  change t.valueAt (Path.segments (Path.ofRow row)) = _
  rw [Path.segments_ofRow h]

theorem childKeys_ofRow (t : Tree) {row : List String} (h : Path.IsRow row) :
    t.childKeys (Path.ofRow row) = t.keysAt row := by
  change t.keysAt (Path.segments (Path.ofRow row)) = _
  rw [Path.segments_ofRow h]

theorem shows_part {j part : Json} {row : List String} (h : j.follow row = some part) :
    j.toTree.valueAt row = part.text? ∧ j.toTree.keysAt row = part.keys := by
  rw [Json.valueAt_toTree, Json.keysAt_toTree, h]
  exact ⟨rfl, part.keys_parts⟩

theorem shows_nothing {j : Json} {row : List String} (h : j.follow row = none) :
    j.toTree.valueAt row = none ∧ j.toTree.keysAt row = [] := by
  rw [Json.valueAt_toTree, Json.keysAt_toTree, h]
  exact ⟨rfl, rfl⟩

/-- **A loaded tree shows its document.** At the path of a row of keys the tree has the text and the
keys of what the row leads to in the document, and nothing if the row leads to nothing. And in no
tree that loading and edits come to does a node have a key twice among its children. -/
theorem load_shows_document :
    (∀ members, (Json.object members).Distinct →
      ∃ t, ofJson (.object members) = .ok t ∧
        (∀ text, Json.load text = .ok (.object members) → load text = .ok t) ∧
        ∀ row, Path.IsRow row →
          (∀ part, (Json.object members).Leads row part →
            t.value (Path.ofRow row) = part.text? ∧ t.childKeys (Path.ofRow row) = part.keys) ∧
          ((∀ part, ¬(Json.object members).Leads row part) →
            t.value (Path.ofRow row) = none ∧ t.childKeys (Path.ofRow row) = [])) ∧
    ∀ t, Reachable t → t.Distinct := by
  refine ⟨fun members hdistinct => ⟨_, rfl, ?_, fun row hrow => ?_⟩, fun t => Reachable.distinct⟩
  · intro text htext
    rw [load, htext]
    rfl
  · have hfollow {part : Json} :
        (Json.object members).Leads row part ↔ (Json.object members).follow row = some part :=
      Json.leads_iff_follow hdistinct
    rw [value_ofRow _ hrow, childKeys_ofRow _ hrow]
    refine ⟨fun part hleads => shows_part (hfollow.mp hleads), fun hnone => shows_nothing ?_⟩
    exact Option.eq_none_iff_forall_ne_some.mpr fun part hpart => hnone part (hfollow.mpr hpart)

/-- An empty name below an array, a null and an index that is not written canonically, in a document
whose tree is edited afterwards. -/
theorem load_shows_document_of_nested :
    let text := "\x7b\"a\": [null, \x7b\"\": 1\x7d], \"b\": \x7b\x7d\x7d"
    let doc : Json := .object [
      ("a", .array [.null, .object [("", .number (.int 1))]]), ("b", .object [])]
    Json.load text = .ok doc ∧ doc.Distinct ∧
      ∃ t, load text = .ok t ∧
        (Path.IsRow ["a", "1", ""] ∧ t.value "a:1:" = some "1") ∧
        (Path.IsRow ["a"] ∧ t.childKeys "a" = ["0", "1"]) ∧
        (Path.IsRow ["a", "01"] ∧ t.childKeys "a:01" = []) ∧
        Reachable t ∧ ((Edit.set "a:01" "x").apply t).Distinct := by
  intro text doc
  have hload : Json.load text = .ok doc := by cbv
  have hdistinct : doc.Distinct := Json.distinct_load hload
  obtain ⟨hshows, hedits⟩ := load_shows_document
  obtain ⟨t, -, htext, hrows⟩ := hshows _ hdistinct
  have ht := htext text hload
  have hitem : Path.IsRow ["a", "1", ""] := ⟨by decide, by decide⟩
  have harray : Path.IsRow ["a"] := ⟨by decide, by decide⟩
  have hother : Path.IsRow ["a", "01"] := ⟨by decide, by decide⟩
  have hfollow {row : List String} {part : Json} :
      doc.Leads row part ↔ doc.follow row = some part := Json.leads_iff_follow hdistinct
  have hone : doc.Leads ["a", "1", ""] (.number (.int 1)) := hfollow.mpr (by cbv)
  have hitems : doc.Leads ["a"] (.array [.null, .object [("", .number (.int 1))]]) :=
    hfollow.mpr (by cbv)
  have hnone (part : Json) : ¬doc.Leads ["a", "01"] part := by
    have hmissing : doc.follow ["a", "01"] = none := by cbv
    rw [hfollow, hmissing]
    exact (Option.some_ne_none part).symm
  refine ⟨hload, hdistinct, t, ht, ⟨hitem, ?_⟩, ⟨harray, ?_⟩, ⟨hother, ?_⟩, .loaded ht, ?_⟩
  · exact ((hrows _ hitem).1 _ hone).1.trans (by decide +kernel)
  · exact ((hrows _ harray).1 _ hitems).2.trans (by decide +kernel)
  · exact ((hrows _ hother).2 hnone).2
  · exact hedits _ (.edited (.loaded ht) (.set "a:01" "x"))

end Tree

end GuardedConfig
