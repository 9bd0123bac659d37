import Mathlib
import GuardedConfig.Proofs.Tree.Views

/-!
# Nodes by their paths, and their order

In a tree whose keys have no colons, and whose root has no child with the empty key, every node has
a path of its own: the path spells the row of keys that leads to the node. A node is visible from
another one if it is below it and no marker is on the way between them. Pre-order has every node
before what is below it, and what is below one child before what is below a later one.

Results:
* `Path.segments_ofRow`, `Path.combine_ofRow`, `Path.segments_combine`: paths spell rows of keys,
  key by key.
* `Path.segments_combine_pieces`: a key that holds colons adds all its pieces.
* `Plain.isRow`: every node of a plain tree has a path that spells its row.
* `visible_iff`: a visible node is an unmarked child or visible from one.
* `Before.asymm`, `before_of_key`: pre-order never runs both ways, and follows the order of keys.
-/

namespace GuardedConfig

namespace Path

/-- The path that a row of keys spells. -/
def ofRow (row : List String) : String := Pieces.join ':' row

/-- A row that its path tells: no key has a colon, and the empty key does not stand alone, since
its path would be that of the root. -/
structure IsRow (row : List String) : Prop where
  noColon : ∀ k ∈ row, ':' ∉ k.toList
  notEmptyKey : row ≠ [""]

theorem ofRow_ne_empty {row : List String} (h : IsRow row) (hne : row ≠ []) : ofRow row ≠ "" := by
  intro hempty
  have hcut : Pieces.cut ':' (ofRow row) = row := Pieces.cut_join hne h.noColon
  rw [hempty] at hcut
  exact h.notEmptyKey hcut.symm

theorem segments_ofRow {row : List String} (h : IsRow row) : segments (ofRow row) = row := by
  by_cases hne : row = []
  · rw [hne]
    rfl
  · rw [segments_of_ne (ofRow_ne_empty h hne)]
    exact Pieces.cut_join hne h.noColon

theorem ofRow_segments (path : String) : ofRow (segments path) = path := by
  by_cases h : path = ""
  · rw [h]
    rfl
  · rw [segments_of_ne h]
    exact Pieces.join_cut ':' path

theorem isRow_segments (path : String) : IsRow (segments path) := by
  by_cases h : path = ""
  · rw [h]
    exact ⟨by simp [segments_empty], by simp [segments_empty]⟩
  · rw [segments_of_ne h]
    refine ⟨fun k hk => Pieces.not_mem_of_mem_cut hk, fun hcut => h ?_⟩
    rw [← Pieces.join_cut ':' path, hcut]
    rfl

theorem segments_inj {path other : String} (h : segments path = segments other) : path = other := by
  rw [← ofRow_segments path, h, ofRow_segments]

theorem ofRow_concat {row : List String} (hne : row ≠ []) (k : String) :
    ofRow (row ++ [k]) = ofRow row ++ ":" ++ k := by
  apply String.toList_inj.mp
  have hchars := @Pieces.joinList_concat ':' (row.map String.toList) (by simpa using hne)
    k.toList
  simpa [ofRow, Pieces.join] using hchars

theorem ofRow_singleton (k : String) : ofRow [k] = k := String.ofList_toList

/-- Below a node that is not the root, whatever the keys on the way to it. -/
theorem combine_ofRow_of_ne {row : List String} (hrow : row ≠ []) (hne : ofRow row ≠ "")
    (k : String) : combine (ofRow row) k = ofRow (row ++ [k]) := by
  rw [combine, if_neg hne, ofRow_concat hrow]

theorem combine_ofRow {row : List String} (h : IsRow row) (k : String) :
    combine (ofRow row) k = ofRow (row ++ [k]) := by
  by_cases hne : row = []
  · subst hne
    rw [List.nil_append, ofRow_singleton]
    rfl
  · exact combine_ofRow_of_ne hne (ofRow_ne_empty h hne) k

/-- Below a node that is not the root, a key adds its pieces to the keys on the way. -/
theorem segments_combine_of_ne {path : String} (hne : path ≠ "") (k : String) :
    segments (combine path k) = segments path ++ Pieces.cut ':' k := by
  have hpath : path ++ ":" ++ k ≠ "" := by simp
  have hchars : (path ++ ":" ++ k).toList = path.toList ++ ':' :: k.toList := by simp
  rw [combine, if_neg hne, segments_of_ne hpath, segments_of_ne hne, Pieces.cut, hchars,
    Pieces.cutList_append, List.map_append]
  rfl

/-- A path and a key, one of them not empty, make the keys of the path with the pieces of the key
behind them. -/
theorem segments_combine_pieces {path key : String} (h : ¬(path = "" ∧ key = "")) :
    segments (combine path key) = segments path ++ Pieces.cut ':' key := by
  by_cases hpath : path = ""
  · have hkey : key ≠ "" := fun hkey => h ⟨hpath, hkey⟩
    rw [hpath, combine_empty, segments_of_ne hkey, segments_empty, List.nil_append]
  · exact segments_combine_of_ne hpath key

/-- A key without a colon that is not empty is the last one of the path below a node. -/
theorem segments_combine (path : String) {k : String} (hcolon : ':' ∉ k.toList) (hne : k ≠ "") :
    segments (combine path k) = segments path ++ [k] := by
  have hcut : Pieces.cut ':' k = [k] := by
    rw [Pieces.cut, Pieces.cutList_of_not_mem hcolon, List.map_singleton, String.ofList_toList]
  rw [segments_combine_pieces fun h => hne h.2, hcut]

end Path

namespace Tree

/-! ## Trees whose paths spell their rows -/

mutual

/-- Whether a test holds of all keys in a tree. -/
def keysAll (p : String → Bool) : Tree → Bool
  | node _ cs => keysAllBelow p cs

/-- Whether a test holds of the keys of children and of all keys below them. -/
def keysAllBelow (p : String → Bool) : List (String × Tree) → Bool
  | [] => true
  | (k, c) :: cs => p k && c.keysAll p && keysAllBelow p cs

end

/-- No key has a colon, and the root has no child with the empty key. -/
structure Plain (t : Tree) : Prop where
  noColon : t.keysAll (fun k => ':' ∉ k.toList)
  noEmptyKey : "" ∉ t.keysAt []

theorem keysAll_of_lookup {p : String → Bool} {k : String} {cs : List (String × Tree)} {c : Tree}
    (hp : keysAllBelow p cs) (h : cs.lookup k = some c) : p k ∧ c.keysAll p := by
  induction cs with
  | nil => cases h
  | cons d cs ih =>
    obtain ⟨l, d⟩ := d
    simp only [keysAllBelow, Bool.and_eq_true] at hp
    rw [List.lookup_cons] at h
    by_cases hk : k = l
    · subst hk
      rw [beq_self_eq_true] at h
      cases h
      exact hp.1
    · have hb : (k == l) = false := by simpa using hk
      rw [hb] at h
      exact ih hp.2 h

theorem keysAll_of_follow {p : String → Bool} {t : Tree} {row : List String}
    (hp : t.keysAll p) (h : (t.follow row).isSome) : ∀ k ∈ row, p k := by
  induction row generalizing t with
  | nil => simp
  | cons k row ih =>
    rw [follow_cons] at h
    cases hc : t.children.lookup k with
    | none =>
      rw [hc] at h
      cases h
    | some c =>
      rw [hc] at h
      obtain ⟨v, cs⟩ := t
      obtain ⟨hk, hbelow⟩ := keysAll_of_lookup hp hc
      exact List.forall_mem_cons.mpr ⟨hk, ih hbelow h⟩

theorem Plain.isRow {t : Tree} (ht : t.Plain) {row : List String} (h : (t.follow row).isSome) :
    Path.IsRow row := by
  refine ⟨fun k hk => ?_, ?_⟩
  · simpa using keysAll_of_follow ht.noColon h k hk
  · rintro rfl
    exact ht.noEmptyKey (mem_keysAt_iff.mpr h)

/-! ## Levels -/

theorem height_lt_of_lookup {t : Tree} {k : String} {c : Tree} (h : t.children.lookup k = some c) :
    c.height < t.height := by
  obtain ⟨v, cs⟩ := t
  rw [height]
  rw [children] at h
  induction cs with
  | nil => cases h
  | cons d cs ih =>
    obtain ⟨l, d⟩ := d
    rw [heightBelow]
    rw [List.lookup_cons] at h
    split at h
    · cases h
      omega
    · have := ih h
      omega

theorem height_le_of_follow {t : Tree} {row : List String} {n : Tree} (h : t.follow row = some n) :
    n.height ≤ t.height := by
  induction row generalizing t with
  | nil =>
    cases h
    exact Nat.le_refl _
  | cons k row ih =>
    rw [follow_cons] at h
    obtain ⟨c, hc, hn⟩ := Option.bind_eq_some_iff.mp h
    have hlt := height_lt_of_lookup hc
    have hle := ih hn
    omega

theorem height_lt_of_child {t : Tree} {row : List String} {k : String} {n c : Tree}
    (hn : t.follow row = some n) (hc : t.follow (row ++ [k]) = some c) : c.height < n.height := by
  rw [follow_append, hn, Option.bind_some, follow_cons] at hc
  obtain ⟨d, hd, hcd⟩ := Option.bind_eq_some_iff.mp hc
  cases hcd
  exact height_lt_of_lookup hd

/-! ## Visible nodes -/

/-- A row leads to a node below another row, and no marker is on the way between them. -/
def Visible (t : Tree) (marker : String) (row other : List String) : Prop :=
  ∃ rest ≠ [], other = row ++ rest ∧ marker ∉ rest ∧ (t.follow other).isSome

theorem isSome_follow_of_append {t : Tree} {row rest : List String}
    (h : (t.follow (row ++ rest)).isSome) : (t.follow row).isSome := by
  cases hrow : t.follow row with
  | some n => rfl
  | none =>
    rw [follow_append, hrow] at h
    cases h

/-- A visible node is a child with another key than the marker, or visible from such a child. -/
theorem visible_iff {t : Tree} {marker : String} {row other : List String} :
    t.Visible marker row other ↔
      ∃ k ∈ t.keysAt row, k ≠ marker ∧
        (other = row ++ [k] ∨ t.Visible marker (row ++ [k]) other) := by
  constructor
  · rintro ⟨rest, hne, rfl, hmarker, hnode⟩
    cases rest with
    | nil => exact absurd rfl hne
    | cons k rest =>
      rw [List.append_cons] at hnode ⊢
      have hk : k ∈ t.keysAt row := mem_keysAt_iff.mpr (isSome_follow_of_append hnode)
      have hkm : k ≠ marker := fun h => hmarker (h ▸ List.mem_cons_self)
      refine ⟨k, hk, hkm, ?_⟩
      by_cases hrest : rest = []
      · exact .inl (by rw [hrest, List.append_nil])
      · exact .inr ⟨rest, hrest, rfl, fun h => hmarker (List.mem_cons_of_mem k h), hnode⟩
  · rintro ⟨k, hk, hkm, rfl | ⟨rest, hne, rfl, hmarker, hnode⟩⟩
    · exact ⟨[k], by simp, rfl, by simpa using Ne.symm hkm, mem_keysAt_iff.mp hk⟩
    · refine ⟨k :: rest, by simp, by simp, ?_, hnode⟩
      simpa using ⟨Ne.symm hkm, hmarker⟩

/-! ## Pre-order -/

/-- One row of keys comes before another in pre-order: it leads to a node above, or turns off to an
earlier child. -/
def Before : (t : Tree) → (row other : List String) → Prop
  | _, [], other => other ≠ []
  | _, _ :: _, [] => False
  | t, k :: row, l :: other =>
    if k = l then ((t.children.lookup k).getD empty).Before row other
    else (t.keysAt []).idxOf k < (t.keysAt []).idxOf l

theorem Before.asymm {t : Tree} {row other : List String} (h : t.Before row other) :
    ¬t.Before other row := by
  induction row generalizing t other with
  | nil =>
    cases other with
    | nil => exact absurd rfl h
    | cons l other => exact id
  | cons k row ih =>
    cases other with
    | nil => cases h
    | cons l other =>
      unfold Before at h ⊢
      by_cases hkl : k = l
      · subst hkl
        rw [if_pos rfl] at h ⊢
        exact ih h
      · rw [if_neg hkl] at h
        rw [if_neg (Ne.symm hkl)]
        exact Nat.lt_asymm h

theorem before_below (t : Tree) (row : List String) {rest : List String} (hne : rest ≠ []) :
    t.Before row (row ++ rest) := by
  induction row generalizing t with
  | nil => exact hne
  | cons k row ih =>
    rw [List.cons_append, Before, if_pos rfl]
    exact ih _

theorem before_of_key {t : Tree} {row : List String} {k l : String}
    (h : (t.keysAt row).idxOf k < (t.keysAt row).idxOf l) (rest rest' : List String) :
    t.Before (row ++ k :: rest) (row ++ l :: rest') := by
  induction row generalizing t with
  | nil =>
    have hkl : k ≠ l := by
      rintro rfl
      exact Nat.lt_irrefl _ h
    rw [List.nil_append, List.nil_append, Before, if_neg hkl]
    exact h
  | cons m row ih =>
    rw [List.cons_append, List.cons_append, Before, if_pos rfl]
    rw [keysAt_cons] at h
    exact ih h

end Tree

end GuardedConfig
