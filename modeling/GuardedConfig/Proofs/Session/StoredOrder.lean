import GuardedConfig.Proofs.Overlay.Entries
import GuardedConfig.Proofs.Session.Flatten
import GuardedConfig.Proofs.Tree.Pairs

/-!
# Numbered rules stand in the order of their numbers

Two trees that are made of the same pairs, set in another order, differ in the order of children.
Where the entries of a rule-bearing node have distinct numbers, that order does not reach the rules:
they are read alike from both trees, and so is the value that they give.

Results:
* `Tree.Rearranged.ruleSetAt`: rules with distinct numbers are declared alike.
* `Overlay.value_of_rearranged`: an overlay over the other tree reads the same.
* `Session.stored_order_does_not_show`: the section at a node with numbered rules, and the listing
  of a tree that has no others, do not depend on the order in which the pairs were stored.
-/

namespace GuardedConfig

namespace Tree

/-- The entries of the node at a path, if it bears rules, have distinct numbers. -/
def NumberedRules (t : Tree) (keys : RuleKeys) (path : String) : Prop :=
  t.bearsRules keys path = true →
    DistinctNumbers (t.childKeys (Path.combine path keys.marker))

namespace Rearranged

variable {t t' : Tree}

theorem childKeys (h : t.Rearranged t') (path : String) :
    (t.childKeys path).Perm (t'.childKeys path) :=
  h.keys (Path.segments path)

theorem bearsRules (h : t.Rearranged t') (keys : RuleKeys) (path : String) :
    t'.bearsRules keys path = t.bearsRules keys path := by
  rw [Bool.eq_iff_iff, Tree.bearsRules, Tree.bearsRules, List.contains_iff_mem,
    List.contains_iff_mem]
  exact (h.childKeys path).mem_iff.symm

theorem ruleAt (h : t.Rearranged t') (keys : RuleKeys) (marker key : String) :
    t'.ruleAt keys marker key = t.ruleAt keys marker key := by
  rw [Tree.ruleAt, Tree.ruleAt, h.value, h.value]

/-- Rules with distinct numbers are declared alike, faults included. -/
theorem ruleSetAt (h : t.Rearranged t') (keys : RuleKeys) {marker : String}
    (hnumbers : DistinctNumbers (t.childKeys marker)) :
    t'.ruleSetAt keys marker = t.ruleSetAt keys marker := by
  have hentries : entryKeys (t'.childKeys marker) = entryKeys (t.childKeys marker) :=
    (hnumbers.entryKeys_eq_of_perm (h.childKeys marker)).symm
  rw [Tree.ruleSetAt, Tree.ruleSetAt, h.value, hentries, funext (h.ruleAt keys marker)]

end Rearranged

end Tree

theorem Overlay.value_of_rearranged {σ : Type} (o : Overlay σ) {t' : Tree}
    (h : o.tree.Rearranged t') {path : String} (hnumbers : o.tree.NumberedRules o.keys path) :
    ({ o with tree := t' } : Overlay σ).value path = o.value path :=
  o.value_of_same (h.bearsRules o.keys path) (fun hbears => h.ruleSetAt o.keys (hnumbers hbears))
    (h.value path)

/-- Where every path reads alike, flattening lists the same in two trees that show the same but for
the order of children. -/
theorem Flattens.ok_of_rearranged {t t' : Tree} (h : t.Rearranged t') {marker path : String}
    {read : String → Except RuleError (Option String)} {r r' : Except RuleError Listing}
    (hflat : Flattens t marker read path r) (hflat' : Flattens t' marker read path r')
    {l : Listing} (hl : r = .ok l) : r' = .ok l := by
  subst hl
  obtain ⟨hread, hsorted, hmem⟩ := hflat
  obtain ⟨l', rfl⟩ := hflat'.ok_iff.mpr fun p hp => hread p (h.visible_iff.mp hp)
  obtain ⟨-, hsorted', hmem'⟩ := hflat'
  refine congrArg _ (hsorted'.ext hsorted fun e => ?_)
  obtain ⟨p, v⟩ := e
  rw [hmem', hmem, h.visible_iff]

theorem Source.steady_of_fixed {source : Source} {c : Context} (h : source = .fixed c) :
    source.Steady := by
  rw [h]
  trivial

namespace Session

open GuardedConfig.Path (segments)
open GuardedConfig.Tree (ofPairs)

/-- Two overlays with the same keys, context and kind of evaluator, each in a session of its own,
read alike at a node with numbered rules, if their trees show the same but for the order of
children. -/
theorem sectionValue_of_rearranged {s s' : Session} (hs : s.Sound) (hs' : s'.Sound)
    {o o' : LiveOverlay} (hkeys : o'.keys = o.keys) {c : Context} (hsource : o.source = .fixed c)
    (hsource' : o'.source = .fixed c) {r r' : Ref Cache} (hask : o.evaluator = .builtIn r)
    (hask' : o'.evaluator = .builtIn r')
    (htree : (s.tree o.tree).Rearranged (s'.tree o'.tree)) {path : String}
    (hnumbers : (s.tree o.tree).NumberedRules o.keys path) :
    s'.sectionValue o' path = s.sectionValue o path := by
  have hfresh : s'.fresh o' = { s.fresh o with tree := s'.tree o'.tree } := by
    rw [fresh, fresh, hkeys, hsource, hsource']
    rfl
  rw [sectionValue_eq_fresh hs' (Source.steady_of_fixed hsource') hask',
    sectionValue_eq_fresh hs (Source.steady_of_fixed hsource) hask, hfresh,
    (s.fresh o).value_of_rearranged htree hnumbers]

/-- **The order in which pairs are stored does not show where rules are numbered.** Two trees are
made of the same pairs of distinct paths and values, set in any two orders. Overlays over them with
the same keys, the same fixed context and the built-in evaluator read the same value or the same
error at every node whose rules have distinct numbers. If this is so of all rules in the tree, and
no path begins with a colon, flattening one tree succeeds just when flattening the other does, with
the same listing. -/
theorem stored_order_does_not_show (actions others : List Action) {o o' : LiveOverlay}
    (hkeys : o'.keys = o.keys) {c : Context} (hsource : o.source = .fixed c)
    (hsource' : o'.source = .fixed c) {r r' : Ref Cache} (hask : o.evaluator = .builtIn r)
    (hask' : o'.evaluator = .builtIn r') {pairs pairs' : List (String × String)}
    (hdistinct : (pairs.map Prod.fst).Nodup) (hperm : pairs.Perm pairs')
    (htree : (empty.run actions).tree o.tree = .ofPairs pairs)
    (htree' : (empty.run others).tree o'.tree = .ofPairs pairs') :
    let s := empty.run actions
    let s' := empty.run others
    (∀ path, (ofPairs pairs).NumberedRules o.keys path →
      s'.sectionValue o' path = s.sectionValue o path) ∧
    ((∀ path, (ofPairs pairs).NumberedRules o.keys path) →
      (∀ p ∈ pairs, p.1.toList.head? ≠ some ':') →
      ∀ path l, s.listed o path = some (.ok l) ↔ s'.listed o' path = some (.ok l)) := by
  intro s s'
  have hs : s.Sound := sound_run sound_empty actions
  have hs' : s'.Sound := sound_run sound_empty others
  have hrearranged : (s.tree o.tree).Rearranged (s'.tree o'.tree) := by
    rw [htree, htree']
    exact Tree.rearranged_ofPairs hdistinct hperm
  have hsection path (hnumbers : (ofPairs pairs).NumberedRules o.keys path) :
      s'.sectionValue o' path = s.sectionValue o path :=
    sectionValue_of_rearranged hs hs' hkeys hsource hsource' hask hask' hrearranged
      (htree ▸ hnumbers)
  refine ⟨hsection, fun hnumbers hcolon path l => ?_⟩
  have hplain : (s.tree o.tree).Plain := htree ▸ Tree.plain_ofPairs hcolon
  have hplain' : (s'.tree o'.tree).Plain :=
    htree' ▸ Tree.plain_ofPairs fun p hp => hcolon p (hperm.mem_iff.mpr hp)
  obtain ⟨x, hx, hflat⟩ := flattens_listed hs (Source.steady_of_fixed hsource) hask hplain path
  obtain ⟨x', hx', hflat'⟩ :=
    flattens_listed hs' (Source.steady_of_fixed hsource') hask' hplain' path
  rw [hkeys, funext fun p => hsection p (hnumbers p)] at hflat'
  rw [hx, hx', Option.some.injEq, Option.some.injEq]
  exact ⟨hflat.ok_of_rearranged hrearranged hflat', hflat'.ok_of_rearranged hrearranged.symm hflat⟩

/-- Two guards hold, and the rule with the lower number goes first, though in one tree the other was
stored before it and stands before it as a text. -/
theorem stored_order_does_not_show_of_late_rule :
    let pairs := [("fee:_rules:10:when", "tier >= 1"), ("fee:_rules:10:value", "10"),
      ("name", "plan"), ("fee:_rules:2:when", "tier >= 2"), ("fee:_rules:2:value", "0")]
    let pairs' := [("fee:_rules:2:value", "0"), ("fee:_rules:2:when", "tier >= 2"),
      ("name", "plan"), ("fee:_rules:10:value", "10"), ("fee:_rules:10:when", "tier >= 1")]
    let c := Context.ofSettings [("tier", .int 2)]
    let o : LiveOverlay := ⟨⟨0⟩, {}, .fixed c, .builtIn ⟨0⟩⟩
    let o' : LiveOverlay := ⟨⟨1⟩, {}, .fixed c, .builtIn ⟨1⟩⟩
    let s := empty.run [.newTree (.ofPairs pairs), .newCache]
    let s' := empty.run [.newTree .empty, .newCache, .newTree (.ofPairs pairs'), .newCache]
    s.sectionValue o "fee" = .ok (some "0") ∧ s'.sectionValue o' "fee" = .ok (some "0") ∧
      ∀ l, s.listed o "" = some (.ok l) ↔ s'.listed o' "" = some (.ok l) := by
  intro pairs pairs' c o o' s s'
  have hkeys : o'.keys = o.keys := rfl
  have hdistinct : (pairs.map Prod.fst).Nodup := by decide
  have hperm : pairs.Perm pairs' := by decide
  have hrules : (ofPairs pairs).ruleSetAt {} "fee:_rules" =
      .ok ⟨"fee:_rules", [⟨some "tier >= 2", "0"⟩, ⟨some "tier >= 1", "10"⟩]⟩ := by
    have hchildren : (ofPairs pairs).childKeys "fee:_rules" = ["10", "2"] := by decide +kernel
    have hentries : entryKeys ["10", "2"] = ["2", "10"] := by cbv
    rw [Tree.ruleSetAt, hchildren, hentries]
    decide +kernel
  have hfee : s.sectionValue o "fee" = .ok (some "0") := by
    rw [sectionValue_eq, Overlay.value_of_rules (by decide +kernel) hrules]
    decide +kernel
  have hmarkers : ∀ p ∈ pairs, ∀ row ∈ (segments p.1).inits,
      row.getLast? = some "_rules" → row = ["fee", "_rules"] := by decide +kernel
  have hnumbers path : (ofPairs pairs).NumberedRules o.keys path := by
    intro hbears
    obtain ⟨p, hp, hpre⟩ := Tree.mem_keysAt_ofPairs.mp (List.contains_iff_mem.mp hbears)
    have hrow : segments path ++ ["_rules"] = ["fee", "_rules"] :=
      hmarkers p hp _ ((List.mem_inits _ _).mpr hpre) (by simp)
    have hpath : path = "fee" := Path.segments_inj (List.append_left_injective _ hrow)
    rw [hpath]
    exact ⟨by decide +kernel, by decide +kernel⟩
  obtain ⟨hsection, hflat⟩ := stored_order_does_not_show [.newTree (.ofPairs pairs), .newCache]
    [.newTree .empty, .newCache, .newTree (.ofPairs pairs'), .newCache] hkeys rfl rfl rfl rfl
    hdistinct hperm rfl rfl
  exact ⟨hfee, (hsection "fee" (hnumbers "fee")).trans hfee, hflat hnumbers (by decide) ""⟩

end Session

end GuardedConfig
