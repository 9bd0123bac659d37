import GuardedConfig.Proofs.Overlay.Entries
import GuardedConfig.Proofs.Rule.Questions
import GuardedConfig.Proofs.Tree.Document
import GuardedConfig.Proofs.Tree.Pairs

/-!
# Declared rules are the ones that are resolved

Rules can be declared by storing a pair of paths for each, or as an array in a document. Either way
the node at the marker has one entry for each rule under the numeral of its place, and reading the
node above it resolves the rules in their order, whatever else is in the tree.

Results:
* `Tree.Declares`: trees that hold rules below a marker, with any other content.
* `Tree.entries_ofPairs`, `Tree.entries_array`: pairs and arrays make entries that stand for rules.
* `Tree.Entries.ruleSetAt`: entries are read as the rules that they stand for.
* `Overlay.value_of_declared`: a node reads as its declared rules resolve, with the same questions.
-/

namespace GuardedConfig

open GuardedConfig.Path (segments combine)

theorem mapM_of_forall₂ {α β ε : Type} {f : α → Except ε β} {as : List α} {bs : List β}
    (h : List.Forall₂ (fun a b => f a = .ok b) as bs) : as.mapM f = .ok bs := by
  induction h with
  | nil => rfl
  | cons hab _ ih =>
    rw [List.mapM_cons, hab, ih]
    rfl

/-! ## Two ways to declare rules -/

/-- The parts that the entry of a rule can have. -/
inductive RulePart where
  | guard
  | value
  deriving DecidableEq

namespace RulePart

/-- The key of a part in an entry. -/
def key : RulePart → String
  | guard => "when"
  | value => "value"

/-- What a rule has for a part. -/
def text (r : Rule) : RulePart → Option String
  | guard => r.guard
  | value => some r.value

/-- The path of a part of an entry, which stands at a place in the order of the rules. -/
def path (marker : String) (i : Nat) (part : RulePart) : String :=
  combine (combine marker (toString i)) part.key

end RulePart

/-- The pairs that declare one rule. -/
def entryPairs (marker : String) (i : Nat) (r : Rule) : List (String × String) :=
  [RulePart.guard, .value].filterMap fun part => (part.text r).map (part.path marker i, ·)

/-- The pairs that declare rules below a marker. -/
def rulePairs (marker : String) (rs : List Rule) : List (String × String) :=
  rs.zipIdx.flatMap fun p => entryPairs marker p.2 p.1

/-- An object with the parts of a rule as members. Other members do not count. -/
def Json.DeclaresRule (j : Json) (r : Rule) : Prop :=
  ∀ part : RulePart, (j.follow [part.key]).bind Json.text? = part.text r

namespace Tree

/-- A tree that declares rules below a marker. Anything can be above the marker or beside it. -/
inductive Declares (marker : String) (rs : List Rule) : Tree → Prop
  /-- The pairs of the rules are stored where there was no node at the marker, in any order and
  between any pairs that are elsewhere. More rules than there are numbers of 64 bits have to be
  stored in their order. -/
  | pairs {t : Tree} {pairs : List (String × String)} (absent : t.find? marker = none)
      (nonempty : rs ≠ [])
      (stored : (pairs.filter fun p => segments marker <+: segments p.1).Perm (rulePairs marker rs))
      (inOrder : wordLimit < rs.length →
        (pairs.filter fun p => segments marker <+: segments p.1) = rulePairs marker rs) :
      Declares marker rs (pairs.foldl (fun t p => t.set p.1 p.2) t)
  /-- A document has an array with an object for each rule at the marker. -/
  | document {t : Tree} {doc : Json} {items : List Json} (loaded : ofJson doc = .ok t)
      (found : doc.follow (segments marker) = some (.array items))
      (declared : List.Forall₂ Json.DeclaresRule items rs) : Declares marker rs t
  | set {t : Tree} {path : String} (elsewhere : ¬segments marker <+: segments path) (v : String)
      (declares : Declares marker rs t) : Declares marker rs (t.set path v)
  | remove {t t' : Tree} {path : String} (removed : t.remove? path = some t')
      (notBelow : ¬segments marker <+: segments path)
      (notAbove : ¬segments path <+: segments marker) (declares : Declares marker rs t) :
      Declares marker rs t'

/-- A tree of pairs declares the rules whose pairs it is made of. -/
theorem declares_ofPairs {marker : String} {rs : List Rule} {pairs : List (String × String)}
    (hmarker : marker ≠ "") (hne : rs ≠ [])
    (hstored : (pairs.filter fun p => segments marker <+: segments p.1).Perm (rulePairs marker rs))
    (hlength : rs.length ≤ wordLimit) : (ofPairs pairs).Declares marker rs := by
  have habsent : empty.find? marker = none := by
    obtain ⟨k, row, hrow⟩ := List.exists_cons_of_ne_nil (Pieces.cut_ne_nil ':' marker)
    rw [find?, Path.segments_of_ne hmarker, hrow]
    rfl
  exact .pairs habsent hne hstored fun hmore => absurd hlength (Nat.not_le_of_lt hmore)

/-- What the node at a marker holds if its entries stand for rules. -/
structure Entries (n : Tree) (rs : List Rule) : Prop where
  noValue : n.valueAt [] = none
  order : entryKeys (n.keysAt []) = numerals rs.length
  texts : ∀ i (h : i < rs.length) (part : RulePart),
    n.valueAt [toString i, part.key] = part.text rs[i]

/-! ## Entries are read as rules -/

theorem segments_path (marker : String) (i : Nat) (part : RulePart) :
    segments (part.path marker i) = segments marker ++ [toString i, part.key] := by
  have hdigits : ':' ∉ (toString i).toList := fun hmem =>
    absurd (isDigit_of_mem_toString hmem) (by decide)
  have hkey : toString i ≠ "" := fun hempty => toList_toString_ne_nil i (by rw [hempty]; rfl)
  have hpart : ':' ∉ part.key.toList ∧ part.key ≠ "" := by cases part <;> decide
  rw [RulePart.path, Path.segments_combine _ hpart.1 hpart.2,
    Path.segments_combine _ hdigits hkey, List.append_assoc]
  rfl

/-- Entries are read as the rules that they stand for, in their order. -/
theorem Entries.ruleSetAt {t n : Tree} {marker : String} {rs : List Rule} (h : n.Entries rs)
    (hn : t.find? marker = some n) : t.ruleSetAt {} marker = .ok ⟨marker, rs⟩ := by
  have hfollow : t.follow (segments marker) = some n := hn
  have htext i (hi : i < rs.length) (part : RulePart) :
      t.value (part.path marker i) = part.text rs[i] := by
    rw [← h.texts i hi part]
    change t.valueAt _ = _
    rw [segments_path, valueAt, follow_append, hfollow]
    rfl
  have hrule i (hi : i < rs.length) : t.ruleAt {} marker (toString i) = .ok rs[i] := by
    have hguard : t.value (combine (combine marker (toString i)) "when") = rs[i].guard :=
      htext i hi .guard
    have hvalue : t.value (combine (combine marker (toString i)) "value") = some rs[i].value :=
      htext i hi .value
    rw [ruleAt]
    dsimp only
    rw [hguard, hvalue]
  have hrules : (entryKeys (t.childKeys marker)).mapM (t.ruleAt {} marker) = .ok rs := by
    have hkeys : t.childKeys marker = n.keysAt [] := by
      rw [childKeys, hn]
      rfl
    rw [hkeys, h.order]
    refine mapM_of_forall₂ (List.forall₂_iff_get.mpr ⟨by simp [numerals], fun i hi hi' => ?_⟩)
    simpa [numerals] using hrule i hi'
  have hvalue : t.value marker = none := by
    rw [Tree.value, hn]
    exact h.noValue
  rw [Tree.ruleSetAt, hvalue, hrules]
  rfl

/-! ## Pairs make entries -/

theorem path_inj {marker : String} {i j : Nat} {part other : RulePart}
    (h : part.path marker i = other.path marker j) : i = j ∧ part = other := by
  have hrow := congrArg segments h
  rw [segments_path, segments_path, List.append_cancel_left_eq] at hrow
  obtain ⟨hi, hpart⟩ := List.cons.inj hrow
  refine ⟨toString_inj hi, ?_⟩
  cases part <;> cases other
  · rfl
  · exact absurd hpart (by decide)
  · exact absurd hpart (by decide)
  · rfl

theorem mem_entryPairs {marker q v : String} {i : Nat} {r : Rule} :
    (q, v) ∈ entryPairs marker i r ↔ ∃ part : RulePart, q = part.path marker i ∧
      part.text r = some v := by
  simp only [entryPairs, List.mem_filterMap, Option.map_eq_some_iff, Prod.mk.injEq]
  constructor
  · rintro ⟨part, -, w, hw, rfl, rfl⟩
    exact ⟨part, rfl, hw⟩
  · rintro ⟨part, rfl, hv⟩
    exact ⟨part, by cases part <;> simp, v, hv, rfl, rfl⟩

theorem rulePairs_concat (marker : String) (rs : List Rule) (r : Rule) :
    rulePairs marker (rs ++ [r]) = rulePairs marker rs ++ entryPairs marker rs.length r := by
  rw [rulePairs, List.zipIdx_append, List.flatMap_append, rulePairs]
  simp

theorem mem_rulePairs {marker q v : String} {rs : List Rule} :
    (q, v) ∈ rulePairs marker rs ↔ ∃ i, ∃ h : i < rs.length, ∃ part : RulePart,
      q = part.path marker i ∧ part.text rs[i] = some v := by
  simp only [rulePairs, List.mem_flatMap, mem_entryPairs, List.mem_zipIdx_iff_getElem?, Prod.exists]
  constructor
  · rintro ⟨r, i, hr, part, hq, hv⟩
    obtain ⟨hi, rfl⟩ := List.getElem?_eq_some_iff.mp hr
    exact ⟨i, hi, part, hq, hv⟩
  · rintro ⟨i, hi, part, hq, hv⟩
    exact ⟨rs[i], i, List.getElem?_eq_getElem hi, part, hq, hv⟩

theorem nodup_rulePairs (marker : String) (rs : List Rule) :
    ((rulePairs marker rs).map Prod.fst).Nodup := by
  induction rs using List.reverseRecOn with
  | nil => exact List.nodup_nil
  | append_singleton rs r ih =>
    have hentry : ((entryPairs marker rs.length r).map Prod.fst).Nodup := by
      have hne : RulePart.guard.path marker rs.length ≠ RulePart.value.path marker rs.length :=
        fun h => absurd (path_inj h).2 (by decide)
      cases hguard : r.guard <;> simp [entryPairs, RulePart.text, hguard, hne]
    rw [rulePairs_concat, List.map_append]
    refine ih.append hentry fun q hq hlast => ?_
    obtain ⟨⟨q, v⟩, hv, rfl⟩ := List.mem_map.mp hq
    obtain ⟨⟨q', w⟩, hw, hpath⟩ := List.mem_map.mp hlast
    obtain ⟨i, hi, part, rfl, -⟩ := mem_rulePairs.mp hv
    obtain ⟨other, rfl, -⟩ := mem_entryPairs.mp hw
    exact absurd (path_inj hpath).1 (by omega)

/-- An entry adds its key behind the others. -/
theorem keysAt_foldl_entryPairs (t : Tree) (i : Nat) (r : Rule) :
    ((entryPairs "" i r).foldl (fun t p => t.set p.1 p.2) t).keysAt [] =
      addKey (toString i) (t.keysAt []) := by
  have hset (u : Tree) (part : RulePart) (v : String) :
      (u.set (part.path "" i) v).keysAt [] = addKey (toString i) (u.keysAt []) := by
    have hway : [] ++ [toString i] <+: segments (part.path "" i) := by
      rw [segments_path]
      exact ⟨[part.key], rfl⟩
    exact keysAt_setAt_on_way hway u v
  have hagain (keys : List String) :
      addKey (toString i) (addKey (toString i) keys) = addKey (toString i) keys := by
    unfold addKey
    split <;> simp_all
  have hvalue : entryPairs "" i r = (r.guard.map (RulePart.guard.path "" i, ·)).toList ++
      [(RulePart.value.path "" i, r.value)] := by
    cases hguard : r.guard <;> simp [entryPairs, RulePart.text, hguard]
  rw [hvalue, List.foldl_append, List.foldl_cons, List.foldl_nil, hset]
  cases r.guard with
  | none => rfl
  | some g => exact (congrArg _ (hset t .guard g)).trans (hagain _)

theorem keysAt_rulePairs (rs : List Rule) :
    (ofPairs (rulePairs "" rs)).keysAt [] = numerals rs.length := by
  induction rs using List.reverseRecOn with
  | nil => rfl
  | append_singleton rs r ih =>
    have hnew : toString rs.length ∉ numerals rs.length := fun hmem =>
      absurd (mem_numerals.mp hmem) (by omega)
    unfold ofPairs at ih ⊢
    rw [rulePairs_concat, List.foldl_append, keysAt_foldl_entryPairs, ih, addKey, if_neg hnew,
      List.length_append, List.length_singleton, numerals_succ]

/-- The pairs of rules make their entries. -/
theorem entries_ofPairs {pairs : List (String × String)} {rs : List Rule}
    (hperm : pairs.Perm (rulePairs "" rs))
    (horder : wordLimit < rs.length → pairs = rulePairs "" rs) : (ofPairs pairs).Entries rs := by
  have hdistinct : (pairs.map Prod.fst).Nodup :=
    (hperm.map Prod.fst).nodup_iff.mpr (nodup_rulePairs "" rs)
  constructor
  · rw [Option.eq_none_iff_forall_ne_some]
    intro v hv
    have hroot : (ofPairs pairs).value "" = some v := hv
    obtain ⟨i, -, part, hpath, -⟩ :=
      mem_rulePairs.mp (hperm.mem_iff.mp ((value_ofPairs hdistinct).mp hroot))
    have hrow := congrArg segments hpath
    rw [segments_path] at hrow
    cases hrow
  · by_cases hlength : wordLimit < rs.length
    · rw [horder hlength, keysAt_rulePairs, entryKeys_numerals]
    · refine entryKeys_of_perm_numerals ?_ (by omega)
      rw [← keysAt_rulePairs]
      exact (rearranged_ofPairs hdistinct hperm).keys []
  · intro i hi part
    refine Option.ext fun v => ?_
    have hrow : segments (part.path "" i) = [toString i, part.key] := segments_path "" i part
    rw [← hrow]
    refine (value_ofPairs hdistinct).trans (hperm.mem_iff.trans (mem_rulePairs.trans ?_))
    constructor
    · rintro ⟨j, hj, other, hpath, hv⟩
      obtain ⟨rfl, rfl⟩ := path_inj hpath
      exact hv
    · exact fun hv => ⟨i, hi, part, rfl, hv⟩

/-! ## Arrays make entries -/

/-- An array of objects with the parts of rules makes their entries. -/
theorem entries_array {items : List Json} {rs : List Rule}
    (h : List.Forall₂ Json.DeclaresRule items rs) : (Json.array items).toTree.Entries rs := by
  obtain ⟨hlength, hrules⟩ := List.forall₂_iff_get.mp h
  constructor
  · rfl
  · rw [Json.keysAt_toTree, ← hlength]
    exact (congrArg entryKeys (Json.keys_itemParts items)).trans (entryKeys_numerals _)
  · intro i hi part
    have hitem : i < items.length := hlength ▸ hi
    rw [Json.valueAt_toTree, Json.follow_array, List.getElem?_eq_getElem hitem]
    exact hrules i hitem hi part

/-! ## The node at the marker -/

/-- A pair as it is seen from the marker. -/
def belowMarker (marker : String) (p : String × String) : String × String :=
  (Path.ofRow ((segments p.1).drop (segments marker).length), p.2)

theorem belowMarker_path (marker v : String) (i : Nat) (part : RulePart) :
    belowMarker marker (part.path marker i, v) = (part.path "" i, v) := by
  have hrow : segments (part.path "" i) = [toString i, part.key] := segments_path "" i part
  rw [belowMarker, segments_path, List.drop_left, ← hrow, Path.ofRow_segments]

theorem map_belowMarker_rulePairs (marker : String) (rs : List Rule) :
    (rulePairs marker rs).map (belowMarker marker) = rulePairs "" rs := by
  rw [rulePairs, rulePairs, List.map_flatMap]
  refine congrArg (List.flatMap · _) (funext fun p => ?_)
  rw [entryPairs, entryPairs, List.map_filterMap]
  refine congrArg (List.filterMap · _) (funext fun part => ?_)
  rw [Option.map_map]
  exact congrArg (Option.map · _) (funext fun v => belowMarker_path marker v p.2 part)

/-- Storing pairs stores those at or below a row in the node there, and leaves it alone
otherwise. -/
theorem follow_foldl_set (row : List String) (pairs : List (String × String)) (t : Tree) :
    ((pairs.foldl (fun t p => t.set p.1 p.2) t).follow row).getD empty =
      (pairs.filter fun p => row <+: segments p.1).foldl
        (fun n p => n.setAt p.2 ((segments p.1).drop row.length)) ((t.follow row).getD empty) := by
  induction pairs generalizing t with
  | nil => rfl
  | cons p pairs ih =>
    rw [List.foldl_cons, ih, Tree.set]
    by_cases hbelow : row <+: segments p.1
    · rw [List.filter_cons_of_pos (by simpa using hbelow), List.foldl_cons]
      obtain ⟨rest, hrest⟩ := hbelow
      rw [← hrest, follow_setAt_append, List.drop_left]
      rfl
    · rw [List.filter_cons_of_neg (by simpa using hbelow), follow_setAt_apart hbelow]

/-- The pairs of rules store in the node at the marker what the pairs seen from it store in an
empty tree. -/
theorem foldl_setAt_of_rulePairs {marker : String} {rs : List Rule} {pairs : List (String × String)}
    (h : ∀ p ∈ pairs, p ∈ rulePairs marker rs) :
    pairs.foldl (fun n p => n.setAt p.2 ((segments p.1).drop (segments marker).length)) empty =
      ofPairs (pairs.map (belowMarker marker)) := by
  rw [ofPairs, List.foldl_map]
  refine List.foldl_ext _ _ _ fun n p hp => ?_
  obtain ⟨q, v⟩ := p
  obtain ⟨i, -, part, rfl, -⟩ := mem_rulePairs.mp (h _ hp)
  rw [belowMarker_path, Tree.set, segments_path, segments_path, List.drop_left]
  rfl

/-- Pairs of rules that are stored where there was no node make the entries of the rules. -/
theorem entries_of_stored {t : Tree} {marker : String} {rs : List Rule}
    {pairs : List (String × String)} (habsent : t.find? marker = none)
    (hstored : (pairs.filter fun p => segments marker <+: segments p.1).Perm (rulePairs marker rs))
    (horder : wordLimit < rs.length →
      (pairs.filter fun p => segments marker <+: segments p.1) = rulePairs marker rs) :
    (((pairs.foldl (fun t p => t.set p.1 p.2) t).find? marker).getD empty).Entries rs := by
  have hnone : t.follow (segments marker) = none := habsent
  rw [find?, follow_foldl_set, hnone, Option.getD_none,
    foldl_setAt_of_rulePairs fun p hp => hstored.mem_iff.mp hp]
  refine entries_ofPairs ?_ fun hlength => ?_
  · rw [← map_belowMarker_rulePairs marker]
    exact hstored.map _
  · rw [horder hlength, map_belowMarker_rulePairs]

/-- There is a node where there are entries. -/
theorem Entries.exists_node {node? : Option Tree} {rs : List Rule}
    (h : (node?.getD empty).Entries rs) (hne : rs ≠ []) : ∃ n, node? = some n ∧ n.Entries rs := by
  cases node? with
  | some n => exact ⟨n, rfl, h⟩
  | none =>
    have hvalue := h.texts 0 (List.length_pos_iff.mpr hne) .value
    rw [Option.getD_none, valueAt_empty] at hvalue
    cases hvalue

/-- A tree that declares rules has their entries at the marker. -/
theorem Declares.entries {t : Tree} {marker : String} {rs : List Rule} (h : t.Declares marker rs) :
    ∃ n, t.find? marker = some n ∧ n.Entries rs := by
  induction h with
  | pairs absent nonempty stored inOrder =>
    exact (entries_of_stored absent stored inOrder).exists_node nonempty
  | document loaded found declared =>
    refine ⟨_, ?_, entries_array declared⟩
    rw [← toTree_of_ofJson loaded, find?, Json.follow_toTree, found]
    rfl
  | set elsewhere v _ ih =>
    obtain ⟨n, hn, hentries⟩ := ih
    exact ⟨n, (follow_setAt_apart elsewhere _ v).trans hn, hentries⟩
  | remove removed notBelow notAbove _ ih =>
    obtain ⟨n, hn, hentries⟩ := ih
    exact ⟨n, (follow_of_removeAt? removed notAbove notBelow).trans hn, hentries⟩

end Tree

/-! ## Reading -/

/-- **A declared rule list is the one that is resolved.** Where a tree declares rules below the
default marker of a node, reading the node comes to what resolving these rules in the context of the
moment comes to: the same value, none, or the same error, and the same state. The evaluator is asked
the same questions in the same order. Nothing else in the tree counts, not even a raw value of the
node. -/
theorem Overlay.value_of_declared {σ : Type} {o : Overlay σ} (hkeys : o.keys = {}) {path : String}
    {rs : List Rule} (hrules : o.tree.Declares (combine path "_rules") rs) (s : σ) :
    o.value path s =
        RuleSet.resolve ⟨combine path "_rules", rs⟩ (o.context s).1 o.ask (o.context s).2 ∧
      (o.recording.value path (s, [])).2.2 =
        RuleSet.questions ⟨combine path "_rules", rs⟩ (o.context s).1 o.ask (o.context s).2 := by
  obtain ⟨n, hn, hentries⟩ := hrules.entries
  have hset : o.tree.ruleSetAt o.keys (combine path o.keys.marker) =
      .ok ⟨combine path "_rules", rs⟩ := by
    rw [hkeys]
    exact hentries.ruleSetAt hn
  have hbears : o.tree.bearsRules o.keys path = true := by
    have hsegments : segments (combine path "_rules") = segments path ++ ["_rules"] :=
      Path.segments_combine path (by decide) (by decide)
    rw [hkeys]
    refine List.contains_iff_mem.mpr (Tree.mem_keysAt_iff.mpr ?_)
    rw [← hsegments]
    exact Option.isSome_iff_exists.mpr ⟨n, hn⟩
  refine ⟨value_of_rules hbears hset s, ?_⟩
  rw [value_of_rules (o := o.recording) hbears hset (s, [])]
  rfl

/-- Eleven rules, stored from the last to the first below a node that holds a raw value: the rule
with index 2 goes before the one with index 10, though as texts the indices are the other way
round. -/
theorem Overlay.value_of_declared_of_many_rules :
    let other : Rule := ⟨some "tier > 9", "other"⟩
    let rs := List.replicate 2 other ++ ⟨some "tier >= 2", "two"⟩ :: List.replicate 7 other ++
      [⟨some "tier >= 1", "ten"⟩]
    let pairs := ("fee", "raw") :: (rulePairs (combine "fee" "_rules") rs).reverse
    let o : Overlay Cache :=
      ⟨.ofPairs pairs, {}, pure (some (.ofSettings [("tier", .int 2)])), Cache.evaluate⟩
    o.tree.Declares (combine "fee" "_rules") rs ∧ (o.value "fee" .empty).1 = .ok (some "two") ∧
      (o.recording.value "fee" (.empty, [])).2.2.map Question.predicate =
        ["tier > 9", "tier > 9", "tier >= 2"] := by
  intro other rs pairs o
  have hne : rs ≠ [] := List.cons_ne_nil _ _
  have hlength : rs.length ≤ wordLimit := by decide
  have hstored : (pairs.filter fun p => segments (combine "fee" "_rules") <+: segments p.1).Perm
      (rulePairs (combine "fee" "_rules") rs) := by
    have hbelow : (pairs.filter fun p => segments (combine "fee" "_rules") <+: segments p.1) =
        (rulePairs (combine "fee" "_rules") rs).reverse := by decide +kernel
    rw [hbelow]
    exact List.reverse_perm _
  have hdeclares : o.tree.Declares (combine "fee" "_rules") rs := by
    dsimp only [o]
    exact Tree.declares_ofPairs (by decide +kernel) hne hstored hlength
  obtain ⟨hvalue, hasked⟩ := value_of_declared (o := o) rfl hdeclares .empty
  refine ⟨hdeclares, ?_, ?_⟩
  · rw [hvalue]
    decide +kernel
  · rw [hasked]
    decide +kernel

end GuardedConfig
