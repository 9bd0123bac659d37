import GuardedConfig.Proofs.Overlay.RuleEdits
import GuardedConfig.Proofs.Session.Flatten

/-!
# Edits of rules are local

Setting or removing something at or below the marker of a node, in a tree whose paths spell its rows
of keys, shows at this node and below its marker only. Every other section reads as before, with a
source and an evaluator that do not change by being asked, and the listings before and after agree
on all other paths. The evaluator is the built-in one, whatever its cache holds, a scripted one, or
any that answers from the predicate and the context alone.

Results:
* `Session.reads_of_steady`: with a steady source a section reads alike from all sessions that
  differ in trees, signals and what was asked so far only.
* `Session.rulesEdited_step`, `Session.plain_step`: what an edit of rules does to the tree.
* `Session.rule_edits_are_local`: sections and listings before and after an edit of rules.
-/

namespace GuardedConfig

open GuardedConfig.Path (segments combine)

/-- Setting a value at or below a row of keys of a tree, or removing what is there. -/
inductive Action.EditsBelow (r : Ref TreeCell) (row : List String) : Action → Prop
  | set {path : String} (below : row <+: segments path) (v : String) :
      EditsBelow r row (.setValue r path v)
  | remove {path : String} (below : row <+: segments path) : EditsBelow r row (.remove r path)

namespace Session

/-! ## Sessions with the same answers -/

/-- A session with the shared contexts of another one and the same answers to every question. -/
structure SameAnswers (s t : Session) : Prop where
  sound : t.Sound
  shared : t.shared = s.shared
  answers : ∀ r, (t.scripts.read r).answers = (s.scripts.read r).answers

theorem Sound.sameAnswers {s : Session} (h : s.Sound) : s.SameAnswers s :=
  ⟨h, rfl, fun _ => rfl⟩

/-- Being asked leaves a script its answers. -/
theorem answers_onScript (t : Session) (q r : Ref Script) (predicate : String)
    (context : Option Context) :
    ((onScript r (Script.evaluate predicate context) t).2.scripts.read q).answers =
      (t.scripts.read q).answers := by
  unfold onScript
  dsimp only
  by_cases hq : q = r
  · subst hq
    by_cases hlt : q.index < t.scripts.cells.length
    · rw [Store.read_write_self hlt]
      rfl
    · rw [Store.write_of_le (Nat.le_of_not_lt hlt)]
  · rw [Store.read_write_of_ne hq]

theorem alike_ask (s : Session) (e : EvaluatorRef) :
    Evaluator.Alike (fun t u => s.SameAnswers t ∧ s.SameAnswers u) (ask e) (ask e) := by
  rintro predicate context t u ⟨ht, hu⟩
  cases e with
  | builtIn r =>
    have hsound {t : Session} (ht : t.Sound) : (ask (.builtIn r) predicate context t).2.Sound :=
      ht.onCache r fun cache hcache => hcache.snd_evaluate predicate context
    refine ⟨?_, ⟨hsound ht.sound, ht.shared, ht.answers⟩, hsound hu.sound, hu.shared, hu.answers⟩
    exact ((ht.sound.read r).fst_evaluate predicate context).trans
      ((hu.sound.read r).fst_evaluate predicate context).symm
  | scripted r =>
    have hanswers {t : Session} (ht : s.SameAnswers t) :
        s.SameAnswers (ask (.scripted r) predicate context t).2 :=
      ⟨ht.sound, ht.shared, fun q =>
        (answers_onScript t q r predicate context).trans (ht.answers q)⟩
    refine ⟨?_, hanswers ht, hanswers hu⟩
    change (Script.evaluate predicate context (t.scripts.read r)).1 =
      (Script.evaluate predicate context (u.scripts.read r)).1
    unfold Script.evaluate
    dsimp only
    rw [ht.answers r, hu.answers r]
  | answering _ => exact ⟨rfl, ht, hu⟩

theorem alike_view (s : Session) {o : LiveOverlay} (hsource : o.source.Steady) :
    (s.view o).Alike (fun t u => s.SameAnswers t ∧ s.SameAnswers u) (s.view o) where
  tree := rfl
  keys := rfl
  context := by
    rintro t u ⟨ht, hu⟩
    unfold view
    dsimp only
    cases hs : o.source with
    | fixed _ | absent => exact ⟨rfl, ht, hu⟩
    | shared r =>
      refine ⟨?_, ht, hu⟩
      change t.currentContext r = u.currentContext r
      unfold currentContext
      rw [ht.shared, hu.shared]
    | counting _ _ =>
      rw [hs] at hsource
      exact absurd hsource id
  ask := alike_ask s o.evaluator

/-- **A section reads alike from all sessions with the same answers.** -/
theorem reads_of_steady {s : Session} (hs : s.Sound) {o : LiveOverlay} (hsource : o.source.Steady) :
    (s.view o).Reads s.SameAnswers (s.sectionValue o) := by
  intro path t ht
  obtain ⟨hvalue, hkept, -⟩ := (alike_view s hsource).value path t s ⟨ht, hs.sameAnswers⟩
  exact ⟨hvalue.trans (sectionValue_eq s o path).symm, hkept⟩

theorem flattens_of_steady {s : Session} (hs : s.Sound) {o : LiveOverlay}
    (hsource : o.source.Steady) (ht : (s.tree o.tree).Plain) (path : String) :
    ∃ x, s.listed o path = some x ∧
      Flattens (s.tree o.tree) o.keys.marker (s.sectionValue o) path x := by
  obtain ⟨x, hflat, hlist, -⟩ := (reads_of_steady hs hsource).flatten ht path hs.sameAnswers
  exact ⟨x.1, congrArg (Option.map Prod.fst) hflat, hlist⟩

/-! ## What an edit does -/

section Edits

variable {s : Session} {r : Ref TreeCell} {row : List String} {a : Action}

theorem sameAnswers_step (hs : s.Sound) (h : a.EditsBelow r row) : s.SameAnswers (s.step a) := by
  cases h with
  | set _ v => exact ⟨sound_step hs _, rfl, fun _ => rfl⟩
  | remove _ =>
    refine ⟨sound_step hs _, ?_, fun q => ?_⟩
    all_goals
      unfold step remove
      dsimp only
      split <;> rfl

/-- A tree that was never made stays as it is. -/
theorem tree_putTree (s : Session) (r : Ref TreeCell) (t : Tree) :
    (putTree r t s).2.tree r = s.tree r ∨ (putTree r t s).2.tree r = t := by
  unfold putTree raise tree
  dsimp only
  by_cases hlt : r.index < s.trees.cells.length
  · rw [Store.read_write_self hlt]
    exact .inr rfl
  · rw [Store.write_of_le (Nat.le_of_not_lt hlt)]
    exact .inl rfl

/-- The tree after an edit. -/
theorem tree_step (h : a.EditsBelow r row) :
    (s.step a).tree r = s.tree r ∨ ∃ path, row <+: segments path ∧
      ((∃ v, (s.step a).tree r = (s.tree r).setAt v (segments path)) ∨
        (s.step a).tree r = (s.tree r).removeAt (segments path)) := by
  cases h with
  | @set path below v =>
    exact (tree_putTree s r ((s.tree r).set path v)).imp_right
      fun hset => ⟨path, below, .inl ⟨v, hset⟩⟩
  | @remove path below =>
    unfold step remove
    dsimp only
    cases hremove : (s.tree r).remove? path with
    | none => exact .inl rfl
    | some t =>
      refine (tree_putTree s r t).imp_right fun hput => ⟨path, below, .inr ?_⟩
      have hremoved : (s.tree r).removeAt (segments path) = t := by
        unfold Tree.removeAt
        exact congrArg (Option.getD · (s.tree r)) hremove
      exact hput.trans hremoved.symm

variable {marker path : String}

theorem rulesEdited_step (hrow : marker ∉ segments path)
    (h : a.EditsBelow r (segments path ++ [marker])) :
    (s.tree r).RulesEdited marker (segments path) ((s.step a).tree r) := by
  rcases tree_step (s := s) h with hsame | ⟨target, ⟨rest, hrest⟩, ⟨v, hset⟩ | hremoved⟩
  · rw [hsame]
    exact .refl _
  · rw [hset, ← hrest, List.append_assoc]
    exact Tree.rulesEdited_setAt hrow rest _ v
  · rw [hremoved, ← hrest, List.append_assoc]
    exact Tree.rulesEdited_removeAt rest _

theorem plain_step (ht : (s.tree r).Plain) (hne : marker ≠ "")
    (hfirst : (segments path).head? ≠ some "") (h : a.EditsBelow r (segments path ++ [marker])) :
    ((s.step a).tree r).Plain := by
  rcases tree_step (s := s) h with hsame | ⟨target, ⟨rest, hrest⟩, ⟨v, hset⟩ | hremoved⟩
  · rwa [hsame]
  · rw [hset]
    refine ht.setAt (Path.isRow_segments target).noColon ?_ v
    rw [← hrest]
    cases hpath : segments path with
    | nil => simpa using hne
    | cons k ks => simpa [hpath] using hfirst
  · rw [hremoved]
    exact ht.removeAt _

end Edits

/-- **Edits of rules are local.** In a tree whose paths spell its rows of keys, let a value be set
or a node removed at or below the marker of a node, on the way to which there is no marker and no
empty key at the root; the node need not be there. Then, with a steady source and the built-in
evaluator, a scripted one, or one that answers from the predicate and the context alone, the section
at every path, but for this node and what is at or below its marker, reads the same value or the
same error as before. If flattening succeeds before and after, the two listings have the same paths
with the same values, but for this node. -/
theorem rule_edits_are_local (actions : List Action) {o : LiveOverlay} (hsource : o.source.Steady)
    (hplain : ((empty.run actions).tree o.tree).Plain) (hne : o.keys.marker ≠ "")
    (hcolon : ':' ∉ o.keys.marker.toList) {path : String} (hpath : o.keys.marker ∉ segments path)
    (hfirst : (segments path).head? ≠ some "") {edit : Action}
    (hedit : edit.EditsBelow o.tree (segments (combine path o.keys.marker))) :
    let s := empty.run actions
    let s' := s.step edit
    (∀ q, q ≠ path → ¬segments (combine path o.keys.marker) <+: segments q →
      s'.sectionValue o q = s.sectionValue o q) ∧
    ∀ l l', s.listed o "" = some (.ok l) → s'.listed o "" = some (.ok l') →
      ∀ q, q ≠ path → ∀ v, (q, v) ∈ l' ↔ (q, v) ∈ l := by
  intro s s'
  have hs : s.Sound := sound_run sound_empty actions
  have hs' : s'.Sound := sound_step hs edit
  rw [Path.segments_combine path hcolon hne] at hedit ⊢
  have hedited : (s.tree o.tree).RulesEdited o.keys.marker (segments path) (s'.tree o.tree) :=
    rulesEdited_step hpath hedit
  have hsection q (hq : Tree.Elsewhere o.keys.marker path q) :
      s'.sectionValue o q = s.sectionValue o q := by
    have hview : s'.view o = { s.view o with tree := s'.tree o.tree } := rfl
    rw [sectionValue_eq, hview, (s.view o).value_of_rulesEdited hedited hpath hne hcolon hq]
    exact (reads_of_steady hs hsource q s' (sameAnswers_step hs hedit)).1
  have hnode {u : Session} q v (hv : u.sectionValue o q = .ok (some v)) :
      ((u.tree o.tree).follow (segments q)).isSome := by
    rw [sectionValue_eq] at hv
    exact Overlay.isSome_follow_of_value hv
  refine ⟨fun q hq hbelow => hsection q ⟨hq, hbelow⟩, fun l l' hl hl' q hq v => ?_⟩
  obtain ⟨x, hx, hflat⟩ := flattens_of_steady hs hsource hplain ""
  obtain ⟨x', hx', hflat'⟩ :=
    flattens_of_steady hs' hsource (plain_step hplain hne hfirst hedit) ""
  cases hx.symm.trans hl
  cases hx'.symm.trans hl'
  exact hflat.of_rulesEdited hnode hnode hsection hflat' hq v

/-- A rule for a node that is not there yet, below a node that bears rules itself: the fee reads as
before, and all that was listed is listed with the same values. -/
theorem rule_edits_are_local_of_new_node :
    let o : LiveOverlay := ⟨⟨0⟩, {}, .fixed (.ofSettings [("vip", .bool true)]), .builtIn ⟨0⟩⟩
    let s := empty.run [
      .newTree (.ofPairs [("fee:_rules:vip:when", "vip"), ("fee:_rules:vip:value", "0"),
        ("name", "plan")]),
      .newCache]
    let s' := s.step (.setValue ⟨0⟩ "fee:cap:_rules:all:value" "7")
    (s.tree o.tree).Plain ∧ s'.sectionValue o "fee" = .ok (some "0") ∧
      s.sectionValue o "fee:cap" = .ok none ∧ s'.sectionValue o "fee:cap" = .ok (some "7") ∧
      ∃ l', s'.listed o "" = some (.ok l') ∧ ("fee", "0") ∈ l' ∧ ("name", "plan") ∈ l' := by
  intro o s s'
  have hsource : o.source.Steady := trivial
  have hplain : (s.tree o.tree).Plain := ⟨by decide +kernel, by decide +kernel⟩
  have hpath : o.keys.marker ∉ segments "fee:cap" := by decide +kernel
  have hfirst : (segments "fee:cap").head? ≠ some "" := by decide +kernel
  have hbelow : segments (combine "fee:cap" o.keys.marker) <+:
      segments "fee:cap:_rules:all:value" := by decide +kernel
  obtain ⟨hsection, hflat⟩ := rule_edits_are_local _ hsource hplain (by decide) (by decide) hpath
    hfirst (.set hbelow "7")
  have hfee : s.sectionValue o "fee" = .ok (some "0") := by decide +kernel
  have hlisted : s.listed o "" = some (.ok [("fee", "0"), ("name", "plan")]) := by
    rw [listed_eq_written hplain]
    decide +kernel
  refine ⟨hplain, ?_, by decide +kernel, by decide +kernel, ?_⟩
  · rw [← hfee]
    exact hsection "fee" (by decide) (by decide +kernel)
  · have hplain' : (s'.tree o.tree).Plain := ⟨by decide +kernel, by decide +kernel⟩
    have hafter : s'.listed o "" =
        some (.ok [("fee", "0"), ("fee:cap", "7"), ("name", "plan")]) := by
      rw [listed_eq_written hplain']
      decide +kernel
    have hsame := hflat _ _ hlisted hafter
    exact ⟨_, hafter, (hsame "fee" (by decide) "0").mpr (by decide),
      (hsame "name" (by decide) "plan").mpr (by decide)⟩

end Session

end GuardedConfig
