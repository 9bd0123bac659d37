import GuardedConfig.Proofs.Overlay.Preorder
import GuardedConfig.Proofs.Session.RuleEdits

/-!
# Going from section to section

A section is reached in one step by its path, or in several, each by a key below the section before.
Steps append keys to paths, and appending is associative as long as the key in the middle is not
empty; the empty path is that of the root, so an empty key leads nowhere from there. Reading changes
no tree, and no answer of an evaluator that answers alike however often it is asked. So with such an
evaluator, and a source that does not change by being asked either, steps succeed if every path on
the way reads, and lead to the section that the joined path leads to.

Results:
* `Path.keyOf_combine`: the last key of a path is told by the key that was appended.
* `Path.combine_assoc`, `Path.foldl_combine`: keys appended in another grouping, or one by one.
* `Session.StepsRead.cons`, `Session.meets_readBelow`: what one step comes to, and any number of
  them.
* `Session.steps_lead_to_path`: paths under appending, and steps against one reading of the joined
  path.
-/

namespace GuardedConfig

/-! ## Paths with keys appended -/

namespace Path

theorem getLast?_cut (path : String) : (Pieces.cut ':' path).getLast? = some (keyOf path) := by
  rw [keyOf, List.getLastD_eq_getLast?, List.getLast?_eq_some_getLast (Pieces.cut_ne_nil ':' path)]
  rfl

/-- The last key of a path is told by the key that was appended. -/
theorem keyOf_combine (path key : String) : keyOf (combine path key) = keyOf key := by
  by_cases hpath : path = ""
  · rw [hpath, combine_empty]
  · have hne : combine path key ≠ "" := combine_ne_empty fun h => absurd h hpath
    have hlast := getLast?_cut (combine path key)
    rw [← segments_of_ne hne, segments_combine_of_ne hpath,
      List.getLast?_append_of_ne_nil _ (Pieces.cut_ne_nil ':' key), getLast?_cut] at hlast
    exact (Option.some.inj hlast).symm

theorem combine_assoc (a : String) {b : String} (hb : b ≠ "") (c : String) :
    combine (combine a b) c = combine a (combine b c) := by
  by_cases ha : a = ""
  · rw [ha, combine_empty, combine_empty]
  · have hab : combine a b ≠ "" := combine_ne_empty fun h => absurd h ha
    rw [combine, if_neg hab, combine, if_neg ha, combine, if_neg ha, combine, if_neg hb]
    simp only [String.append_assoc]

/-- Keys appended one by one to a path that is not that of the root. The keys may hold colons, and
may be empty. -/
theorem foldl_combine {row : List String} (hrow : row ≠ []) (hne : ofRow row ≠ "")
    (keys : List String) : keys.foldl combine (ofRow row) = ofRow (row ++ keys) := by
  induction keys generalizing row with
  | nil => rw [List.foldl_nil, List.append_nil]
  | cons k keys ih =>
    have hstep := combine_ofRow_of_ne hrow hne k
    have hstep_ne : ofRow (row ++ [k]) ≠ "" := by
      rw [← hstep]
      exact combine_ne_empty fun h => absurd h hne
    rw [List.foldl_cons, hstep, ih (by simp) hstep_ne, ← List.append_cons]

theorem foldl_combine_of_ne {key : String} (hkey : key ≠ "") (keys : List String) :
    keys.foldl combine key = ofRow (key :: keys) := by
  have hfirst : ofRow [key] ≠ "" := by rwa [ofRow_singleton]
  have hfold := foldl_combine (List.cons_ne_nil key []) hfirst keys
  rwa [ofRow_singleton] at hfold

end Path

/-! ## Steps between sections -/

namespace Session

open GuardedConfig.Path (segments combine keyOf ofRow)

variable {s : Session} {o : LiveOverlay}

/-- Reads the section at a key, and from there section after section, each by a key below the one
before. -/
def readSteps (o : LiveOverlay) (key : String) (keys : List String) : Attempt Session Section := do
  let x ← readSection o key
  keys.foldlM readBelow x

/-- A section names the overlay and the path that it was read by. -/
theorem section_of_readSection {path : String} {x : Section}
    (h : (readSection o path s).1 = .ok x) : x.overlay = o ∧ x.path = path := by
  rw [readSection_apply] at h
  cases hvalue : ((s.view o).value path s).1 with
  | error e =>
    rw [hvalue] at h
    cases h
  | ok v =>
    rw [hvalue] at h
    cases h
    exact ⟨rfl, rfl⟩

/-- A session that reading leads to, with the answers that there were before. -/
def ReadAlike (s t : Session) : Prop :=
  s.ReadFrom t ∧ s.SameAnswers t

/-- Reading a section comes to the same at any time during a reading. -/
theorem meets_readSection (hs : s.Sound) (hsource : o.source.Steady) (path : String) :
    (readSection o path).Meets s.ReadAlike (· = (readSection o path s).1) := by
  rintro t ⟨hfrom, hanswers⟩
  have hview : t.view o = s.view o := by
    unfold view tree
    rw [hfrom.2.trees]
  obtain ⟨hvalue, hkept⟩ := reads_of_steady hs hsource path t hanswers
  rw [readSection_apply, readSection_apply, hview, hvalue, sectionValue_eq]
  exact ⟨rfl, (keeps_view s o).value path t hfrom, hkept⟩

/-- What steps by keys below a path come to: the section at the path with all the keys appended, if
every path on the way reads. -/
structure StepsRead (s : Session) (o : LiveOverlay) (path : String) (keys : List String)
    (r : Except RuleError Section) : Prop where
  last : ∀ y, r = .ok y → (readSection o (keys.foldl combine path) s).1 = .ok y
  ok_iff : (∃ y, r = .ok y) ↔
    ∀ front, front <+: keys → ∃ y, (readSection o (front.foldl combine path) s).1 = .ok y

/-- A path that does not read ends the steps there. -/
theorem stepsRead_error {path : String} {keys front : List String} (hfront : front <+: keys)
    {e d : RuleError} (h : (readSection o (front.foldl combine path) s).1 = .error d) :
    s.StepsRead o path keys (.error e) where
  last y hy := by cases hy
  ok_iff := by
    constructor
    · rintro ⟨y, hy⟩
      cases hy
    · intro hall
      obtain ⟨y, hy⟩ := hall front hfront
      rw [h] at hy
      cases hy

/-- One step before others. -/
theorem StepsRead.cons {path k : String} {keys : List String} {r : Except RuleError Section}
    {x : Section} (hx : (readSection o path s).1 = .ok x)
    (h : s.StepsRead o (combine path k) keys r) : s.StepsRead o path (k :: keys) r where
  last := h.last
  ok_iff := by
    rw [h.ok_iff]
    constructor
    · intro hall front hfront
      cases front with
      | nil => exact ⟨x, hx⟩
      | cons l front =>
        obtain ⟨rfl, hrest⟩ := List.cons_prefix_cons.mp hfront
        exact hall front hrest
    · intro hall front hfront
      exact hall (k :: front) (List.cons_prefix_cons.mpr ⟨rfl, hfront⟩)

/-- **Steps from a section lead to the section at the path with the keys appended.** -/
theorem meets_readBelow (hs : s.Sound) (hsource : o.source.Steady) (keys : List String)
    {x : Section} (hx : (readSection o x.path s).1 = .ok x) :
    (keys.foldlM readBelow x).Meets s.ReadAlike (s.StepsRead o x.path keys) := by
  induction keys generalizing x with
  | nil =>
    refine Attempt.meets_pure ⟨fun y hy => ?_, fun _ front hfront => ?_, fun _ => ⟨x, rfl⟩⟩
    · cases hy
      exact hx
    · rw [List.prefix_nil.mp hfront]
      exact ⟨x, hx⟩
  | cons k keys ih =>
    rw [List.foldlM_cons, readBelow, (section_of_readSection hx).1]
    refine (meets_readSection hs hsource _).bind (fun y hy => ?_) fun e he => ?_
    · obtain ⟨-, hpath⟩ := section_of_readSection hy.symm
      rw [← hpath] at hy
      have hrest := ih hy.symm
      rw [hpath] at hrest
      exact fun t ht => ⟨(hrest t ht).1.cons hx, (hrest t ht).2⟩
    · have hfront : [k] <+: k :: keys := List.prefix_append [k] keys
      exact stepsRead_error hfront he.symm

theorem meets_readSteps (hs : s.Sound) (hsource : o.source.Steady) (key : String)
    (keys : List String) :
    (readSteps o key keys).Meets s.ReadAlike (s.StepsRead o key keys) := by
  refine (meets_readSection hs hsource key).bind (fun x hx => ?_) fun e he => ?_
  · obtain ⟨-, hpath⟩ := section_of_readSection hx.symm
    rw [← hpath] at hx ⊢
    exact meets_readBelow hs hsource keys hx.symm
  · exact stepsRead_error List.nil_prefix he.symm

/-- **Steps lead where the joined path leads.** A path and a key, one of them not empty, make the
keys of the path with the pieces of the key behind them, the last of which is the last key; a path
is told by its keys; and appending is associative around a key that is not empty. After any run of
operations, with a steady source and the built-in evaluator, a scripted one, or one that answers
from the predicate and the context alone, take steps from section to section, the first by a key
that is not empty. They succeed exactly if every path on the way reads by itself, and then the
section that they lead to is the one that the keys joined by colons lead to in one step, before the
steps and after them. -/
theorem steps_lead_to_path :
    (∀ path key, ¬(path = "" ∧ key = "") →
      segments (combine path key) = segments path ++ Pieces.cut ':' key ∧
        some (keyOf (combine path key)) = (Pieces.cut ':' key).getLast?) ∧
    Function.Injective segments ∧
    (∀ a b c, b ≠ "" → combine (combine a b) c = combine a (combine b c)) ∧
    ∀ (actions : List Action) (o : LiveOverlay), o.source.Steady →
      ∀ (key : String) (keys : List String), key ≠ "" →
        let s := empty.run actions
        (∀ x, (readSteps o key keys s).1 = .ok x →
          (readSection o (ofRow (key :: keys)) s).1 = .ok x ∧
            (readSection o (ofRow (key :: keys)) (readSteps o key keys s).2).1 = .ok x) ∧
        ((∃ x, (readSteps o key keys s).1 = .ok x) ↔
          ∀ front, front <+: keys → ∃ y, (readSection o (ofRow (key :: front)) s).1 = .ok y) := by
  refine ⟨fun path key h => ⟨Path.segments_combine_pieces h, ?_⟩,
    fun _ _ => Path.segments_inj, fun a b c hb => Path.combine_assoc a hb c, ?_⟩
  · rw [Path.keyOf_combine, Path.getLast?_cut]
  · intro actions o hsource key keys hkey s
    have hs : s.Sound := sound_run sound_empty actions
    obtain ⟨hsteps, hafter⟩ := meets_readSteps hs hsource key keys s ⟨hs.readFrom, hs.sameAnswers⟩
    refine ⟨fun x hx => ?_, ?_⟩
    · have hjoined := hsteps.last x hx
      rw [Path.foldl_combine_of_ne hkey] at hjoined
      refine ⟨hjoined, ?_⟩
      rw [(meets_readSection hs hsource _ _ hafter).1]
      exact hjoined
    · simpa only [Path.foldl_combine_of_ne hkey] using hsteps.ok_iff

/-- From a fee with rules a key of two pieces leads to the lower end of its cap, which bears rules
itself. -/
theorem steps_lead_to_path_of_nested_rules :
    let o : LiveOverlay := ⟨⟨0⟩, {}, .fixed (.ofSettings [("vip", .bool true)]), .builtIn ⟨0⟩⟩
    let s := empty.run [
      .newTree (.ofPairs [("fee:_rules:vip:when", "vip"), ("fee:_rules:vip:value", "0"),
        ("fee:cap:low:_rules:vip:when", "not vip"), ("fee:cap:low:_rules:vip:value", "9"),
        ("fee:cap:low:_rules:else:value", "7")]),
      .newCache]
    segments (combine "fee" "cap:low") = ["fee", "cap", "low"] ∧
      combine (combine "fee" "cap:low") "" = "fee:cap:low:" ∧
      ∃ x, (readSteps o "fee" ["cap:low"] s).1 = .ok x ∧
        (readSection o "fee:cap:low" s).1 = .ok x ∧ x.value = some "7" ∧ x.key = "low" := by
  intro o s
  obtain ⟨hkeys, -, hassoc, hsteps⟩ := steps_lead_to_path
  refine ⟨?_, ?_, ?_⟩
  · rw [(hkeys "fee" "cap:low" (by decide)).1]
    decide +kernel
  · rw [hassoc "fee" "cap:low" "" (by decide)]
    decide +kernel
  · have hread : (readSteps o "fee" ["cap:low"] s).1.toOption.map (fun x => (x.value, x.key)) =
        some (some "7", "low") := by decide +kernel
    cases hx : (readSteps o "fee" ["cap:low"] s).1 with
    | error e =>
      rw [hx] at hread
      cases hread
    | ok x =>
      rw [hx] at hread
      obtain ⟨hvalue, hkey⟩ := Prod.mk.inj (Option.some.inj hread)
      have hpath : ofRow ["fee", "cap:low"] = "fee:cap:low" := by decide +kernel
      obtain ⟨hjoined, -⟩ := (hsteps _ o trivial "fee" ["cap:low"] (by decide)).1 x hx
      rw [hpath] at hjoined
      exact ⟨x, rfl, hjoined, hvalue, hkey⟩

end Session

end GuardedConfig
