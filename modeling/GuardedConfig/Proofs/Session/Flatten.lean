import GuardedConfig.Proofs.Overlay.Flatten
import GuardedConfig.Proofs.Session.History

/-!
# Flattening agrees with section reads

All values below a node can be had in two ways: by flattening, which goes through the tree in one
go, or by reading the section at every visible path. In a session with the built-in evaluator and a
source that does not change by being asked the two agree, errors included.

Results:
* `Session.reads_view`: a section reads alike at any time during a flattening.
* `Session.flatten_agrees_with_sections`: the listing at a path, its error, and how it lies in the
  listing of the whole tree.
-/

namespace GuardedConfig.Session

open GuardedConfig.Path (segments)

/-- What reading the section at a path comes to. -/
def sectionValue (s : Session) (o : LiveOverlay) (path : String) :
    Except RuleError (Option String) :=
  (readSection o path s).1.map Section.value

theorem sectionValue_eq (s : Session) (o : LiveOverlay) (path : String) :
    s.sectionValue o path = ((s.view o).value path s).1 := by
  rw [sectionValue, readSection_apply]
  cases ((s.view o).value path s).1 <;> rfl

/-- A section with the built-in evaluator comes to what the fresh overlay reads. -/
theorem sectionValue_eq_fresh {s : Session} (hs : s.Sound) {o : LiveOverlay}
    (hsource : o.source.Steady) {r : Ref Cache} (hask : o.evaluator = .builtIn r) (path : String) :
    s.sectionValue o path = ((s.fresh o).value path .empty).1 := by
  rw [sectionValue_eq]
  exact ((alike_fresh s hsource hask).value path s .empty ⟨hs.readFrom, Cache.sound_empty⟩).1

/-- From every state that reading leads to, a path reads as it does now. -/
theorem reads_view {s : Session} (hs : s.Sound) {o : LiveOverlay} (hsource : o.source.Steady)
    {r : Ref Cache} (hask : o.evaluator = .builtIn r) :
    (s.view o).Reads s.ReadFrom (s.sectionValue o) := by
  intro path t ht
  have hthen := ((alike_fresh s hsource hask).value path t .empty ⟨ht, Cache.sound_empty⟩).1
  refine ⟨?_, (keeps_view s o).value path t ht⟩
  rw [sectionValue_eq_fresh hs hsource hask, hthen]

/-- What flattening at a path comes to, if it returns. -/
def listed (s : Session) (o : LiveOverlay) (path : String) : Option (Except RuleError Listing) :=
  (readFlat o path s).map Prod.fst

theorem listed_eq_written {s : Session} {o : LiveOverlay} (ht : (s.tree o.tree).Plain)
    (path : String) :
    s.listed o path = some
      (((s.view o).writesBelow ((s.tree o.tree).height + 1) path s).1.map Listing.ofWrites) :=
  congrArg (Option.map Prod.fst) (Overlay.flatten_eq_written (o := s.view o) ht.noEmptyKey path s)

theorem flattens_listed {s : Session} (hs : s.Sound) {o : LiveOverlay} (hsource : o.source.Steady)
    {r : Ref Cache} (hask : o.evaluator = .builtIn r) (ht : (s.tree o.tree).Plain) (path : String) :
    ∃ x, s.listed o path = some x ∧
      Flattens (s.tree o.tree) o.keys.marker (s.sectionValue o) path x := by
  obtain ⟨x, hflat, hlist, -⟩ := (reads_view hs hsource hask).flatten ht path hs.readFrom
  exact ⟨x.1, congrArg (Option.map Prod.fst) hflat, hlist⟩

/-- **Flattening agrees with section reads.** After any run of operations, over a tree whose paths
spell its rows of keys, with the built-in evaluator and a steady source: flattening at a path
returns, and succeeds if every visible section reads; it then lists the paths and values of the
visible sections that have one, in the order of the paths; its error is that of the first visible
section in pre-order that does not read; and below a node with no marker on the way to it, it gives
the part of the whole listing that lies below the node. -/
theorem flatten_agrees_with_sections (actions : List Action) (o : LiveOverlay)
    (hsource : o.source.Steady) {r : Ref Cache} (hask : o.evaluator = .builtIn r)
    (hplain : ((empty.run actions).tree o.tree).Plain) (path : String) :
    let s := empty.run actions
    let visible p := (s.tree o.tree).Visible o.keys.marker (segments path) (segments p)
    (∃ x, s.listed o path = some x) ∧
      ((∃ l, s.listed o path = some (.ok l)) ↔
        ∀ p, visible p → ∃ v, s.sectionValue o p = .ok v) ∧
      (∀ l, s.listed o path = some (.ok l) →
        l.Sorted ∧ ∀ p v, (p, v) ∈ l ↔ visible p ∧ s.sectionValue o p = .ok (some v)) ∧
      (∀ e, s.listed o path = some (.error e) ↔
        ∃ p, FirstFailing (s.tree o.tree) o.keys.marker (s.sectionValue o) path p e) ∧
      (o.keys.marker ∉ segments path → ∀ l, s.listed o "" = some (.ok l) →
        s.listed o path =
          some (.ok (l.filter fun e => segments path <+: segments e.1 ∧ e.1 ≠ path))) := by
  intro s visible
  have hs : s.Sound := sound_run sound_empty actions
  obtain ⟨x, hx, hflat⟩ := flattens_listed hs hsource hask hplain path
  rw [hx]
  simp only [Option.some.injEq]
  refine ⟨⟨x, rfl⟩, hflat.ok_iff, fun l hl => ?_, hflat.error_iff, fun hpath l hl => ?_⟩
  · rw [hl] at hflat
    exact hflat.2
  · obtain ⟨y, hy, hroot⟩ := flattens_listed hs hsource hask hplain ""
    cases hy.symm.trans hl
    exact hroot.restrict hflat hpath

/-- A fee whose rules give no value, with a cap below it that bears rules itself and has an ordinary
child: what is below the fee is the part of the whole listing that lies below it. -/
theorem flatten_agrees_with_sections_of_nested_rules :
    let o : LiveOverlay := ⟨⟨0⟩, {}, .fixed (.ofSettings [("vip", .bool false)]), .builtIn ⟨0⟩⟩
    let s := empty.run [
      .newTree (.ofPairs [("fee:_rules:vip:when", "vip"), ("fee:_rules:vip:value", "0"),
        ("fee:cap:_rules:all:when", "not vip"), ("fee:cap:_rules:all:value", "7"),
        ("fee:cap:low", "1"), ("name", "plan")]),
      .newCache]
    (s.tree o.tree).Plain ∧ o.keys.marker ∉ segments "fee" ∧
      s.listed o "" = some (.ok [("fee:cap", "7"), ("fee:cap:low", "1"), ("name", "plan")]) ∧
      s.listed o "fee" = some (.ok [("fee:cap", "7"), ("fee:cap:low", "1")]) := by
  intro o s
  have hplain : (s.tree o.tree).Plain := ⟨by decide +kernel, by decide +kernel⟩
  have hmarker : o.keys.marker ∉ segments "fee" := by decide +kernel
  have hwhole : s.listed o "" =
      some (.ok [("fee:cap", "7"), ("fee:cap:low", "1"), ("name", "plan")]) := by
    rw [listed_eq_written hplain]
    decide +kernel
  obtain ⟨-, -, -, -, hrestrict⟩ := flatten_agrees_with_sections _ o trivial rfl hplain "fee"
  refine ⟨hplain, hmarker, hwhole, ?_⟩
  rw [hrestrict hmarker _ hwhole]
  decide +kernel

end GuardedConfig.Session
