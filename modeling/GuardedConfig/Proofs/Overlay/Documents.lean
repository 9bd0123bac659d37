import GuardedConfig.Proofs.Overlay.Flatten
import GuardedConfig.Proofs.Tree.Scalars

/-!
# Flattening a document

Where no key of a document is the marker, nothing in its tree bears rules, and flattening lists
values as they were loaded. A name with a colon is stored as it is, but read as the path that it
spells, so what stands below such a name is listed only if another row of keys spells the same path.
Apart from these all scalars are listed, each by its path.

Results:
* `Overlay.writesBelow_of_steady`: what is written where reading a path changes nothing.
* `Overlay.value_of_unmarked`: without markers every path is read straight from the tree.
* `Overlay.flatten_document`: what is listed for a document, and when that is all its scalars.
* `Overlay.flatten_document_of_colon`: a scalar that is not listed.
-/

namespace GuardedConfig

open GuardedConfig.Path (segments combine ofRow)

namespace Tree

variable {t : Tree} {keys : RuleKeys}

theorem not_mem_of_unmarked {marker : String} (h : t.keysAll (· ≠ marker)) {row : List String}
    (hnode : (t.follow row).isSome) : marker ∉ row := fun hmem => by
  simpa using keysAll_of_follow h hnode marker hmem

/-- Without markers no node bears rules. -/
theorem bearsRules_of_unmarked (h : t.keysAll (· ≠ keys.marker)) (path : String) :
    t.bearsRules keys path = false := by
  rw [bearsRules, ← Bool.not_eq_true, List.contains_iff_mem]
  intro hmem
  exact not_mem_of_unmarked h (mem_keysAt_iff.mp hmem) (List.mem_append_right _ (by simp))

end Tree

namespace Json

variable {doc : Json} {t : Tree}

theorem value_toTree (h : Tree.ofJson doc = .ok t) (path : String) :
    t.value path = (doc.follow (segments path)).bind text? := by
  rw [← Tree.toTree_of_ofJson h]
  exact valueAt_toTree doc (segments path)

/-- The root of a document that loads is no scalar. -/
theorem text_of_ofJson (h : Tree.ofJson doc = .ok t) : doc.text? = none := by
  cases doc with
  | object members => rfl
  | null | bool _ | number _ | string _ | array _ => cases h

/-- The path of a scalar is among those that are read, unless a name on the way has a colon. -/
theorem mem_preorder_of_scalar (h : Tree.ofJson doc = .ok t) {marker : String}
    (hmarker : t.keysAll (· ≠ marker)) (hroot : "" ∉ t.keysAt []) {path v : String}
    (hv : t.value path = some v) : path ∈ t.preorder marker "" := by
  have hnode : (t.follow (segments path)).isSome := by
    obtain ⟨n, hn, -⟩ := Option.bind_eq_some_iff.mp hv
    exact Option.isSome_iff_exists.mpr ⟨n, hn⟩
  have hne : segments path ≠ [] := by
    intro hempty
    rw [value_toTree h, hempty, follow, Option.bind_some, text_of_ofJson h] at hv
    cases hv
  have hmem : ofRow ([] ++ segments path) ∈ t.pathsBelow marker (t.height + 1) (ofRow []) :=
    Tree.mem_pathsBelow hroot hne (Tree.not_mem_of_unmarked hmarker hnode)
      (Path.isRow_segments path).noColon hnode (Nat.le_succ_of_le (Tree.length_le_height hnode))
  rwa [List.nil_append, Path.ofRow_segments] at hmem

end Json

namespace Overlay

/-! ## What is written -/

variable {σ : Type} {o : Overlay σ}

/-- The values that some paths have, in any order. -/
def Writes (g : String → Option String) (paths : List String) (ws : List (String × String)) :
    Prop :=
  ∀ e, e ∈ ws ↔ e.1 ∈ paths ∧ g e.1 = some e.2

variable {g : String → Option String}

theorem Writes.behind {paths : List String} {ws : List (String × String)} (h : Writes g paths ws)
    (path : String) : Writes g (path :: paths) (ws ++ (g path).toList.map (path, ·)) := by
  intro e
  obtain ⟨p, v⟩ := e
  rw [List.mem_append, h, List.mem_cons, or_and_right, or_comm]
  refine or_congr_left ?_
  simp only [List.mem_map, Option.mem_toList, Prod.mk.injEq]
  constructor
  · rintro ⟨w, hw, rfl, rfl⟩
    exact ⟨rfl, hw⟩
  · rintro ⟨rfl, hv⟩
    exact ⟨v, hv, rfl, rfl⟩

theorem Writes.flatten {keys : List String} {paths : String → List String}
    {parts : List (List (String × String))}
    (h : List.Forall₂ (fun k ws => Writes g (paths k) ws) keys parts) :
    Writes g (keys.flatMap paths) parts.flatten := by
  induction h with
  | nil => exact fun e => by simp
  | cons hws _ ih =>
    intro e
    rw [List.flatten_cons, List.mem_append, hws e, ih e, List.flatMap_cons, List.mem_append,
      or_and_right]

/-- Where reading a path changes no state, the values of the paths below are written. -/
theorem writesBelow_of_steady {s : σ} (h : ∀ path, o.value path s = (.ok (g path), s))
    (fuel : Nat) (parent : String) :
    ∃ ws, o.writesBelow fuel parent s = (.ok ws, s) ∧
      Writes g (o.tree.pathsBelow o.keys.marker fuel parent) ws := by
  induction fuel generalizing parent with
  | zero => exact ⟨[], rfl, fun e => by simp [Tree.pathsBelow]⟩
  | succ fuel ih =>
    have hchild k : ∃ ws, (do
        let path := combine parent k
        let v ← o.value path
        let below ← o.writesBelow fuel path
        pure (below ++ v.toList.map (path, ·)) : Attempt σ (List (String × String))) s =
          (.ok ws, s) ∧
        Writes g (combine parent k ::
          o.tree.pathsBelow o.keys.marker fuel (combine parent k)) ws := by
      obtain ⟨below, hbelow, hwrites⟩ := ih (combine parent k)
      refine ⟨_, ?_, hwrites.behind (combine parent k)⟩
      rw [Attempt.bind_apply, h]
      dsimp only
      rw [Attempt.bind_pure_apply, hbelow]
      rfl
    obtain ⟨parts, hparts, hall⟩ := Attempt.mapM_of_forall fun k
      (_ : k ∈ (o.tree.childKeys parent).filter (· ≠ o.keys.marker)) => hchild k
    refine ⟨parts.flatten, ?_, ?_⟩
    · rw [writesBelow, Attempt.bind_pure_apply, hparts]
      rfl
    · rw [Tree.pathsBelow, Tree.listedBelow, List.flatMap_map]
      exact Writes.flatten hall

/-! ## What is listed -/

variable {doc : Json}

theorem value_of_unmarked (h : o.tree.keysAll (· ≠ o.keys.marker)) (path : String) (s : σ) :
    o.value path s = (.ok (o.tree.value path), s) :=
  value_of_plain (Tree.bearsRules_of_unmarked h path) s

/-- What is listed for a document: the scalars that paths lead to. -/
theorem flatten_of_unmarked (hdistinct : doc.Distinct) (htree : Tree.ofJson doc = .ok o.tree)
    (hmarker : o.tree.keysAll (· ≠ o.keys.marker)) (hroot : "" ∉ o.tree.keysAt []) (s : σ) :
    ∃ l, o.flatten "" s = some (.ok l, s) ∧ l.Sorted ∧
      ∀ p v, (p, v) ∈ l ↔ (segments p, v) ∈ doc.scalars := by
  obtain ⟨ws, hws, hwrites⟩ := writesBelow_of_steady
    (fun path => value_of_unmarked hmarker path s) (o.tree.height + 1) ""
  have hone p v w (hv : (p, v) ∈ ws) (hw : (p, w) ∈ ws) : v = w := by
    have hpv := ((hwrites _).mp hv).2
    have hpw := ((hwrites _).mp hw).2
    rw [hpv] at hpw
    cases hpw
    rfl
  refine ⟨Listing.ofWrites ws, ?_, Listing.sorted_ofWrites ws, fun p v => ?_⟩
  · rw [flatten_eq_written hroot, hws]
    rfl
  · rw [Listing.mem_ofWrites hone, hwrites, Json.mem_scalars_iff hdistinct,
      ← Json.value_toTree htree]
    exact ⟨And.right, fun hv => ⟨Json.mem_preorder_of_scalar htree hmarker hroot hv, hv⟩⟩

/-- A listing of the scalars that paths lead to has all scalars if and only if no name that leads to
one has a colon. -/
theorem perm_scalars_iff (hdistinct : doc.Distinct) (hempty : ∀ v, ([""], v) ∉ doc.scalars)
    {l : Listing} (hsorted : l.Sorted)
    (hmem : ∀ p v, (p, v) ∈ l ↔ (segments p, v) ∈ doc.scalars) :
    l.Perm (doc.scalars.map fun x => (ofRow x.1, x.2)) ↔
      ∀ x ∈ doc.scalars, ∀ k ∈ x.1, ':' ∉ k.toList := by
  have hpaths : (l.map Prod.fst).Nodup :=
    List.pairwise_map.mpr (hsorted.imp ne_of_lt)
  have hmap : (doc.scalars.map fun x => (ofRow x.1, x.2)).map Prod.fst =
      (doc.scalars.map Prod.fst).map ofRow := by
    rw [List.map_map, List.map_map]
    rfl
  constructor
  · -- The rows of two scalars with one path would be listed once.
    intro hperm x hx
    have hinj : ((doc.scalars.map Prod.fst).map ofRow).Nodup := by
      rw [← hmap]
      exact (hperm.map Prod.fst).nodup_iff.mp hpaths
    have hlisted : (ofRow x.1, x.2) ∈ l :=
      hperm.mem_iff.mpr (List.mem_map.mpr ⟨x, hx, rfl⟩)
    have hspelled := (hmem _ _).mp hlisted
    have hrow : segments (ofRow x.1) = x.1 :=
      List.inj_on_of_nodup_map hinj (List.mem_map_of_mem hspelled) (List.mem_map_of_mem hx)
        (Path.ofRow_segments _)
    rw [← hrow]
    exact (Path.isRow_segments _).noColon
  · intro hcolon
    have hrow x (hx : x ∈ doc.scalars) : segments (ofRow x.1) = x.1 := by
      refine Path.segments_ofRow ⟨hcolon x hx, fun heq => hempty x.2 ?_⟩
      rw [← heq]
      exact hx
    have hinj : ((doc.scalars.map Prod.fst).map ofRow).Nodup := by
      refine (Json.nodup_scalars hdistinct).map_on fun r hr r' hr' heq => ?_
      obtain ⟨x, hx, rfl⟩ := List.mem_map.mp hr
      obtain ⟨y, hy, rfl⟩ := List.mem_map.mp hr'
      rw [← hrow x hx, heq, hrow y hy]
    refine (List.perm_ext_iff_of_nodup hpaths.of_map (hmap ▸ hinj).of_map).mpr fun e => ?_
    obtain ⟨p, v⟩ := e
    rw [hmem, List.mem_map]
    constructor
    · exact fun hp => ⟨_, hp, by rw [Path.ofRow_segments]⟩
    · rintro ⟨x, hx, heq⟩
      cases heq
      rw [hrow x hx]
      exact hx

/-- **Flattening a document lists the scalars that paths lead to.** Let a document be loaded in
which no key is the marker, and whose root has no member with an empty name. Then flattening
succeeds and asks nothing; a path is listed with a text if and only if following the pieces of the
path through the document, by name and by index, leads to a scalar with that text. These are all
scalars, each by the keys that lead to it with colons between them, if and only if none of these
keys has a colon. -/
theorem flatten_document {text : String} (hload : Json.load text = .ok doc)
    (htree : Tree.ofJson doc = .ok o.tree) (hmarker : o.tree.keysAll (· ≠ o.keys.marker))
    (hroot : "" ∉ o.tree.keysAt []) (s : σ) :
    ∃ l, o.flatten "" s = some (.ok l, s) ∧ l.Sorted ∧
      (∀ p v, (p, v) ∈ l ↔ (doc.follow (segments p)).bind Json.text? = some v) ∧
      (l.Perm (doc.scalars.map fun x => (ofRow x.1, x.2)) ↔
        ∀ x ∈ doc.scalars, ∀ k ∈ x.1, ':' ∉ k.toList) := by
  have hdistinct := Json.distinct_load hload
  have hempty v : ([""], v) ∉ doc.scalars := by
    intro hv
    rw [Json.mem_scalars_iff hdistinct, ← Json.valueAt_toTree, Tree.toTree_of_ofJson htree] at hv
    obtain ⟨n, hn, -⟩ := Option.bind_eq_some_iff.mp hv
    exact hroot (Tree.mem_keysAt_iff.mpr (Option.isSome_iff_exists.mpr ⟨n, hn⟩))
  obtain ⟨l, hflat, hsorted, hmem⟩ := flatten_of_unmarked hdistinct htree hmarker hroot s
  exact ⟨l, hflat, hsorted, fun p v => (hmem p v).trans (Json.mem_scalars_iff hdistinct),
    perm_scalars_iff hdistinct hempty hsorted hmem⟩

/-- Arrays and objects inside each other, with a null and an empty object: both scalars are
listed. -/
theorem flatten_document_of_nested :
    let text := "\x7b\"a\": [\x7b\"b\": 1, \"c\": null\x7d, \x7b\x7d], \"d\": true\x7d"
    let doc : Json := .object [
      ("a", .array [.object [("b", .number (.int 1)), ("c", .null)], .object []]),
      ("d", .bool true)]
    let o : Overlay Cache := ⟨doc.toTree, {}, pure none, Cache.evaluate⟩
    Json.load text = .ok doc ∧ o.tree.keysAll (· ≠ o.keys.marker) ∧ "" ∉ o.tree.keysAt [] ∧
      ∃ l, o.flatten "" .empty = some (.ok l, .empty) ∧ l.Perm [("a:0:b", "1"), ("d", "true")] := by
  intro text doc o
  have hload : Json.load text = .ok doc := by cbv
  have hmarker : o.tree.keysAll (· ≠ o.keys.marker) := by decide +kernel
  have hroot : "" ∉ o.tree.keysAt [] := by decide +kernel
  obtain ⟨l, hflat, -, -, hperm⟩ := flatten_document hload rfl hmarker hroot .empty
  exact ⟨hload, hmarker, hroot, l, hflat, hperm.mpr (by decide +kernel)⟩

/-- A name with a colon: its scalar is in the document, but no path leads to it. -/
theorem flatten_document_of_colon :
    let doc : Json := .object [("a:b", .number (.int 1))]
    let o : Overlay Cache := ⟨doc.toTree, {}, pure none, Cache.evaluate⟩
    Json.load "\x7b\"a:b\": 1\x7d" = .ok doc ∧ o.tree.keysAll (· ≠ o.keys.marker) ∧
      "" ∉ o.tree.keysAt [] ∧ doc.scalars = [(["a:b"], "1")] ∧
      o.flatten "" .empty = some (.ok [], .empty) := by
  intro doc o
  have hload : Json.load "\x7b\"a:b\": 1\x7d" = .ok doc := by cbv
  have hroot : "" ∉ o.tree.keysAt [] := by decide +kernel
  refine ⟨hload, by decide +kernel, hroot, by decide +kernel, ?_⟩
  rw [flatten_eq_written hroot]
  rfl

end Overlay

end GuardedConfig
