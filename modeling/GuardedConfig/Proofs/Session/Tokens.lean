import GuardedConfig.Proofs.Session.Run

/-!
# Reload tokens are exact

A token compares the generation of a signal with the one it was issued at. Every tree has a signal
of its own, which the program cannot name, and each operation that changes the tree raises it once.
So a token tells whether the tree was changed since, as long as the generation cannot have come
round: it counts modulo `2 ^ 64`.

Results:
* `ownSignals_run`: after any run no two trees have one signal.
* `Since`: what a number of changes leaves of a tree and its signal, kept by one operation
  (`since_step`) and by a run (`since_run`).
* `hasChanged_iff_changed`: a token has changed exactly when an operation changed its tree; while it
  has not, the tree shows what it showed.
-/

namespace GuardedConfig

/-- References are told apart by their numbers, whatever their cells hold. -/
instance : DecidableEq (Ref TreeCell) := fun q r =>
  decidable_of_iff (q.index = r.index) (by cases q; cases r; simp)

/-- The tree that an operation is meant to change. -/
def Action.target? : Action → Option (Ref TreeCell)
  | .setValue r _ _ | .remove r _ | .replace r _ | .reload r _ => some r
  | _ => none

/-- What a reload token can be taken from: a tree, or an overlay or a section over it. -/
inductive Watched where
  | tree (r : Ref TreeCell)
  | overlay (o : LiveOverlay)
  | node (x : Section)

/-- The tree that is watched. -/
def Watched.target : Watched → Ref TreeCell
  | tree r => r
  | overlay o => o.tree
  | node x => x.overlay.tree

namespace Session

/-- The token that is taken from a tree, or through an overlay or a section over it. -/
def token (s : Session) (w : Watched) : ReloadToken :=
  s.tokenOfTree w.target

/-- Whether an operation changes a tree: it sets a value, replaces the content, loads a document
into it, or removes a node that is there. -/
def changes (s : Session) (r : Ref TreeCell) : Action → Bool
  | .setValue q _ _ | .replace q _ => q = r
  | .remove q path => q = r && (remove q path s).1
  | .reload q text => q = r && (reload q text s).1.isOk
  | _ => false

/-- The number of operations that change a tree. -/
def changeCount (s : Session) (r : Ref TreeCell) : List Action → Nat
  | [] => 0
  | a :: as => (s.changes r a).toNat + (s.step a).changeCount r as

/-- What a program can do: it changes trees that have been made, and raises signals that it made
itself. A tree does not give its signal away. -/
def Allows (s : Session) : Action → Prop
  | .raise q => ∀ cell ∈ s.trees.cells, cell.signal ≠ q
  | .setValue r _ _ | .remove r _ | .replace r _ | .reload r _ => r.index < s.trees.cells.length
  | _ => True

/-- What a program can do, one operation after the other. -/
def AllowsRun (s : Session) : List Action → Prop
  | [] => True
  | a :: as => s.Allows a ∧ (s.step a).AllowsRun as

/-! ## Counting changes -/

theorem changeCount_le (s : Session) (r : Ref TreeCell) (actions : List Action) :
    s.changeCount r actions ≤ actions.countP fun a => a.target? = some r := by
  induction actions generalizing s with
  | nil => exact Nat.le_refl 0
  | cons a as ih =>
    have hrest := ih (s.step a)
    have hfirst : s.changes r a = true → a.target? = some r := by
      cases a <;> simp +contextual [changes, Action.target?]
    rw [changeCount, List.countP_cons]
    cases hchanges : s.changes r a with
    | false => simp only [Bool.toNat_false]; omega
    | true => simp only [Bool.toNat_true, hfirst hchanges, decide_true, if_true]; omega

theorem changeCount_ne_zero_iff {s : Session} {r : Ref TreeCell} {actions : List Action} :
    s.changeCount r actions ≠ 0 ↔
      ∃ earlier a rest, actions = earlier ++ a :: rest ∧ (s.run earlier).changes r a = true := by
  induction actions generalizing s with
  | nil => simp [changeCount]
  | cons a as ih =>
    rw [changeCount, ne_eq, Nat.add_eq_zero_iff, not_and_or, ← ne_eq (changeCount _ _ _), ih]
    constructor
    · rintro (hfirst | ⟨earlier, b, rest, rfl, hb⟩)
      · exact ⟨[], a, as, rfl, by simpa [run] using hfirst⟩
      · exact ⟨a :: earlier, b, rest, rfl, hb⟩
    · rintro ⟨earlier, b, rest, hsplit, hb⟩
      cases earlier with
      | nil =>
        cases hsplit
        exact .inl (by simpa [run] using hb)
      | cons c earlier =>
        cases hsplit
        exact .inr ⟨earlier, b, rest, rfl, hb⟩

/-! ## One operation -/

/-- What an operation does to trees and signals. -/
inductive Effect (s : Session) : Action → Session → Prop
  | kept {a : Action} {t : Session} (hchanges : ∀ r, s.changes r a = false)
      (htrees : t.trees = s.trees) (hsignals : t.signals = s.signals) : Effect s a t
  | signal : Effect s .newSignal (newSignal s).2
  | raised (q : Ref Signal) : Effect s (.raise q) (raise q s).2
  | tree (t : Tree) : Effect s (.newTree t) (newTree t s).2
  | put {a : Action} {q : Ref TreeCell} (t : Tree) (htarget : a.target? = some q)
      (hchanges : ∀ r, s.changes r a = decide (q = r)) : Effect s a (putTree q t s).2

theorem Effect.of_readFrom {s t : Session} {a : Action} (hchanges : ∀ r, s.changes r a = false)
    (h : s.ReadFrom t) : s.Effect a t :=
  .kept hchanges h.2.trees h.2.signals

theorem effect_step {s : Session} (hs : s.Sound) (a : Action) : s.Effect a (s.step a) := by
  cases a with
  | newSignal => exact .signal
  | raise q => exact .raised q
  | newTree t => exact .tree t
  | setValue q path value => exact .put _ rfl fun _ => rfl
  | replace q pairs => exact .put _ rfl fun _ => rfl
  | remove q path =>
    rw [step, remove]
    split
    · rename_i hnone
      exact .kept (fun r => by simp [changes, remove, hnone]) rfl rfl
    · rename_i t hsome
      exact .put t rfl fun r => by simp [changes, remove, hsome]
  | reload q text =>
    rw [step, reload]
    split
    · rename_i hload
      exact .kept (fun r => by simp [changes, reload, hload, Except.isOk, Except.toBool]) rfl rfl
    · rename_i t hload
      exact .put t rfl fun r => by simp [changes, reload, hload, Except.isOk, Except.toBool]
  | ask e predicate context =>
    exact .of_readFrom (fun _ => rfl) (keeps_ask s e predicate context s hs.readFrom)
  | readSection o path => exact .of_readFrom (fun _ => rfl) (hs.readFrom_readSection o path)
  | readChildren o parent => exact .of_readFrom (fun _ => rfl) (hs.readFrom_readChildren o parent)
  | readFlat o parent => exact .of_readFrom (fun _ => rfl) (hs.readFrom_readFlat o parent)
  | newShared _ | swapContext _ _ | newCount | newCache | newScript _ | getOrCompile _ _ _
  | compiled _ _ _ => exact .kept (fun _ => rfl) rfl rfl

/-! ## Signals of trees -/

/-- Every tree has a signal that was made, and no two trees have the same. -/
structure OwnSignals (s : Session) : Prop where
  made : ∀ cell ∈ s.trees.cells, cell.signal.index < s.signals.cells.length
  distinct : (s.trees.cells.map TreeCell.signal).Nodup

theorem ownSignals_empty : OwnSignals empty where
  made := by simp [empty, Store.empty]
  distinct := by simp [empty, Store.empty]

/-- New content leaves a tree its signal. -/
theorem signals_putTree (s : Session) (r : Ref TreeCell) (t : Tree) :
    (putTree r t s).2.trees.cells.map TreeCell.signal = s.trees.cells.map TreeCell.signal := by
  change (s.trees.cells.set r.index { s.trees.read r with tree := t }).map TreeCell.signal = _
  rw [List.map_set]
  by_cases hr : r.index < s.trees.cells.length
  · have hlt : r.index < (s.trees.cells.map TreeCell.signal).length := by simpa using hr
    have hcell : (s.trees.read r).signal = (s.trees.cells.map TreeCell.signal)[r.index] := by
      rw [Store.read_of_lt hr, List.getElem_map]
    rw [hcell, List.set_getElem_self]
  · exact List.set_eq_of_length_le (by simpa using hr)

theorem OwnSignals.putTree {s : Session} (h : s.OwnSignals) (r : Ref TreeCell) (t : Tree) :
    (putTree r t s).2.OwnSignals := by
  have hsignals := signals_putTree s r t
  have hlength : (Session.putTree r t s).2.signals.cells.length = s.signals.cells.length :=
    List.length_set
  refine ⟨fun cell hcell => ?_, hsignals ▸ h.distinct⟩
  have hmem : cell.signal ∈ s.trees.cells.map TreeCell.signal :=
    hsignals ▸ List.mem_map_of_mem hcell
  obtain ⟨old, hold, heq⟩ := List.mem_map.mp hmem
  rw [hlength, ← heq]
  exact h.made old hold

theorem OwnSignals.newTree {s : Session} (h : s.OwnSignals) (t : Tree) :
    (newTree t s).2.OwnSignals := by
  have hlength : (Session.newTree t s).2.signals.cells.length = s.signals.cells.length + 1 :=
    List.length_append
  constructor
  · intro cell hcell
    rw [hlength]
    rcases List.mem_append.mp hcell with hold | hnew
    · exact Nat.lt_succ_of_lt (h.made cell hold)
    · rw [List.mem_singleton.mp hnew]
      exact Nat.lt_succ_self _
  · change ((s.trees.cells ++ [(⟨t, s.signals.next⟩ : TreeCell)]).map TreeCell.signal).Nodup
    rw [List.map_append, List.map_singleton]
    refine List.nodup_append.mpr ⟨h.distinct, List.nodup_singleton _, ?_⟩
    intro old hold new hnew
    obtain ⟨cell, hcell, rfl⟩ := List.mem_map.mp hold
    rw [List.mem_singleton.mp hnew]
    intro heq
    have hlt := h.made cell hcell
    rw [heq] at hlt
    exact Nat.lt_irrefl _ hlt

theorem ownSignals_step {s : Session} (hs : s.Sound) (h : s.OwnSignals) (a : Action) :
    (s.step a).OwnSignals := by
  have heffect := effect_step hs a
  generalize s.step a = t at heffect
  cases heffect with
  | kept _ htrees hsignals => exact ⟨by rw [htrees, hsignals]; exact h.made, htrees ▸ h.distinct⟩
  | signal =>
    refine ⟨fun cell hcell => ?_, h.distinct⟩
    exact Nat.lt_of_lt_of_le (h.made cell hcell) (by simp [newSignal, Store.add])
  | raised q =>
    refine ⟨fun cell hcell => ?_, h.distinct⟩
    exact Nat.lt_of_lt_of_le (h.made cell hcell) (by simp [Session.raise, Store.write])
  | tree t => exact h.newTree t
  | put t _ _ => exact h.putTree _ t

/-- After any run every tree has a signal of its own. -/
theorem ownSignals_run {s : Session} (hs : s.Sound) (h : s.OwnSignals) (actions : List Action) :
    (s.run actions).OwnSignals := by
  induction actions generalizing s with
  | nil => exact h
  | cons a as ih => exact ih (sound_step hs a) (ownSignals_step hs h a)

/-! ## Changes since a token was issued -/

/-- What a number of changes to a tree leaves of it and of its signal. -/
structure Since (s t : Session) (r : Ref TreeCell) (n : Nat) : Prop where
  made : r.index < t.trees.cells.length
  signal : (t.trees.read r).signal = (s.trees.read r).signal
  generation : t.generation (s.trees.read r).signal =
    s.generation (s.trees.read r).signal + UInt64.ofNat n
  content : n = 0 → t.tree r = s.tree r

theorem Since.refl {s : Session} {r : Ref TreeCell} (hr : r.index < s.trees.cells.length) :
    s.Since s r 0 :=
  ⟨hr, rfl, by simp, fun _ => rfl⟩

theorem Since.trans {s t u : Session} {r : Ref TreeCell} {n m : Nat} (h : s.Since t r n)
    (h' : t.Since u r m) : s.Since u r (n + m) where
  made := h'.made
  signal := h'.signal.trans h.signal
  generation := by
    have hgeneration := h'.generation
    rw [h.signal] at hgeneration
    rw [hgeneration, h.generation, UInt64.ofNat_add, UInt64.add_assoc]
  content hzero := by
    obtain ⟨hn, hm⟩ := Nat.add_eq_zero_iff.mp hzero
    rw [h'.content hm, h.content hn]

/-- No change, where the tree and its signal stay as they are. -/
theorem Since.of_kept {s t : Session} {r : Ref TreeCell} (hmade : r.index < t.trees.cells.length)
    (htree : t.trees.read r = s.trees.read r)
    (hsignal : t.signals.read (s.trees.read r).signal = s.signals.read (s.trees.read r).signal) :
    s.Since t r 0 where
  made := hmade
  signal := by rw [htree]
  generation := by
    rw [Session.generation, Session.generation, hsignal]
    exact (UInt64.add_zero _).symm
  content _ := by rw [Session.tree, Session.tree, htree]

theorem OwnSignals.signal_ne {s : Session} (h : s.OwnSignals) {q r : Ref TreeCell}
    (hq : q.index < s.trees.cells.length) (hr : r.index < s.trees.cells.length) (hne : q ≠ r) :
    (s.trees.read q).signal ≠ (s.trees.read r).signal := by
  have hlt : q.index < (s.trees.cells.map TreeCell.signal).length := by simpa using hq
  have hlt' : r.index < (s.trees.cells.map TreeCell.signal).length := by simpa using hr
  intro heq
  have hsame : (s.trees.cells.map TreeCell.signal)[q.index] =
      (s.trees.cells.map TreeCell.signal)[r.index] := by
    rw [List.getElem_map, List.getElem_map, ← Store.read_of_lt hq, ← Store.read_of_lt hr, heq]
  have hindex : q.index = r.index := h.distinct.getElem_inj_iff.mp hsame
  cases q
  cases r
  exact hne (congrArg Ref.mk hindex)

theorem OwnSignals.read_made {s : Session} (h : s.OwnSignals) {r : Ref TreeCell}
    (hr : r.index < s.trees.cells.length) :
    (s.trees.read r).signal.index < s.signals.cells.length := by
  rw [Store.read_of_lt hr]
  exact h.made _ (List.getElem_mem hr)

theorem length_putTree (s : Session) (q : Ref TreeCell) (t : Tree) :
    (putTree q t s).2.trees.cells.length = s.trees.cells.length :=
  List.length_set

/-- New content is one change to a tree. -/
theorem since_putTree_self {s : Session} (h : s.OwnSignals) {r : Ref TreeCell}
    (hr : r.index < s.trees.cells.length) (t : Tree) : s.Since (putTree r t s).2 r 1 where
  made := by rwa [length_putTree]
  signal := by
    change ((s.trees.write r _).read r).signal = _
    rw [Store.read_write_self hr]
  generation := by
    change ((s.signals.write _ _).read (s.trees.read r).signal).generation = _
    rw [Store.read_write_self (h.read_made hr)]
    rfl
  content := by simp

/-- New content of another tree is none. -/
theorem since_putTree_of_ne {s : Session} (h : s.OwnSignals) {q r : Ref TreeCell}
    (hq : q.index < s.trees.cells.length) (hr : r.index < s.trees.cells.length) (hne : q ≠ r)
    (t : Tree) : s.Since (putTree q t s).2 r 0 := by
  refine .of_kept (by rwa [length_putTree]) ?_ ?_
  · exact Store.read_write_of_ne (Ne.symm hne) _ _
  · exact Store.read_write_of_ne (Ne.symm (h.signal_ne hq hr hne)) _ _

/-- **One operation** counts as a change exactly if it changes the tree. -/
theorem since_step {s : Session} (hs : s.Sound) (h : s.OwnSignals) {r : Ref TreeCell}
    (hr : r.index < s.trees.cells.length) {a : Action} (ha : s.Allows a) :
    s.Since (s.step a) r (s.changes r a).toNat := by
  have heffect := effect_step hs a
  generalize s.step a = t at heffect
  cases heffect with
  | kept hchanges htrees hsignals =>
    rw [hchanges]
    exact .of_kept (htrees ▸ hr) (by rw [htrees]) (by rw [hsignals])
  | signal => exact .of_kept hr rfl (Store.read_add_of_lt (h.read_made hr) _)
  | raised q =>
    refine .of_kept hr rfl (Store.read_write_of_ne ?_ _ _)
    rw [Store.read_of_lt hr]
    exact ha _ (List.getElem_mem hr)
  | tree t =>
    refine .of_kept ?_ (Store.read_add_of_lt hr _) (Store.read_add_of_lt (h.read_made hr) _)
    exact Nat.lt_of_lt_of_le hr (by simp [newTree, newSignal, Store.add, bind, StateT.bind])
  | @put _ q t htarget hchanges =>
    have hq : q.index < s.trees.cells.length := by
      cases a <;> cases htarget <;> exact ha
    rw [hchanges]
    by_cases hqr : q = r
    · subst hqr
      rw [decide_eq_true rfl]
      exact since_putTree_self h hr t
    · rw [decide_eq_false hqr]
      exact since_putTree_of_ne h hq hr hqr t

/-- **A run** counts as as many changes as operations of it change the tree. -/
theorem since_run {s : Session} (hs : s.Sound) (h : s.OwnSignals) {r : Ref TreeCell}
    (hr : r.index < s.trees.cells.length) {actions : List Action} (hall : s.AllowsRun actions) :
    s.Since (s.run actions) r (s.changeCount r actions) := by
  induction actions generalizing s with
  | nil => exact .refl hr
  | cons a as ih =>
    obtain ⟨ha, has⟩ := hall
    have hstep := since_step hs h hr ha
    exact hstep.trans (ih (sound_step hs a) (ownSignals_step hs h a) hstep.made has)

/-! ## Tokens -/

theorem Since.hasChanged_iff {s t : Session} {r : Ref TreeCell} {n : Nat} (h : s.Since t r n)
    (hn : n < 2 ^ 64) : t.hasChanged (s.tokenOfTree r) = true ↔ n ≠ 0 := by
  have hzero : UInt64.ofNat n = 0 ↔ n = 0 := by
    rw [← UInt64.toNat_inj, UInt64.toNat_ofNat', Nat.mod_eq_of_lt hn]
    rfl
  rw [hasChanged, tokenOfTree, tokenOfSignal, decide_eq_true_eq, h.generation, ne_eq,
    UInt64.add_eq_left, hzero]

theorem remove_of_not_found {s : Session} {q : Ref TreeCell} {path : String}
    (h : (remove q path s).1 = false) : (remove q path s).2 = s := by
  unfold remove at h ⊢
  split
  · rfl
  · rename_i hsome
    rw [hsome] at h
    cases h

theorem reload_of_error {s : Session} {q : Ref TreeCell} {text : String} {e : LoadError}
    (h : (reload q text s).1 = .error e) : (reload q text s).2 = s := by
  unfold reload at h ⊢
  split
  · rfl
  · rename_i hload
    rw [hload] at h
    cases h

/-- **A token tells exactly whether its tree was changed.** Let a token be taken after any run, from
a tree or through an overlay or a section over it, and let further operations follow, fewer than
`2 ^ 64` of them on that tree. The token has changed if and only if one of them set a value in the
tree, replaced its content, loaded a document into it or removed a node that was there. Any other
operation, on another tree or through an overlay, leaves the token and the content as they are; a
removal that finds nothing and a document that does not load leave the whole session so. While the
token has not changed, every path has the value and the children that it had. -/
theorem hasChanged_iff_changed (before later : List Action) (w : Watched)
    (hmade : w.target.index < (empty.run before).trees.cells.length)
    (hallowed : (empty.run before).AllowsRun later)
    (hcount : (later.countP fun a => a.target? = some w.target) < 2 ^ 64) :
    let s := empty.run before
    let t := s.run later
    (t.hasChanged (s.token w) = true ↔ ∃ earlier a rest, later = earlier ++ a :: rest ∧
        (s.run earlier).changes w.target a = true) ∧
      (∀ a, t.Allows a → t.changes w.target a = false →
        (t.step a).hasChanged (s.token w) = t.hasChanged (s.token w) ∧
          (t.step a).tree w.target = t.tree w.target) ∧
      (∀ q path, (remove q path t).1 = false → (remove q path t).2 = t) ∧
      (∀ q text e, (reload q text t).1 = .error e → (reload q text t).2 = t) ∧
      (t.hasChanged (s.token w) = false → ∀ path,
        (t.tree w.target).value path = (s.tree w.target).value path ∧
          (t.tree w.target).childKeys path = (s.tree w.target).childKeys path) := by
  intro s t
  have hs : s.Sound := sound_run sound_empty before
  have hown : s.OwnSignals := ownSignals_run sound_empty ownSignals_empty before
  have hsince : s.Since t w.target (s.changeCount w.target later) :=
    since_run hs hown hmade hallowed
  have hlt : s.changeCount w.target later < 2 ^ 64 :=
    Nat.lt_of_le_of_lt (changeCount_le s w.target later) hcount
  have hiff : t.hasChanged (s.token w) = true ↔ s.changeCount w.target later ≠ 0 :=
    hsince.hasChanged_iff hlt
  refine ⟨hiff.trans changeCount_ne_zero_iff, fun a ha hchanges => ?_,
    fun _ _ => remove_of_not_found, fun _ _ _ => reload_of_error, fun hfalse path => ?_⟩
  · have hstep := since_step (sound_run hs later) (ownSignals_run hs hown later) hsince.made ha
    rw [hchanges] at hstep
    have hiff' : (t.step a).hasChanged (s.token w) = true ↔ s.changeCount w.target later ≠ 0 :=
      (hsince.trans hstep).hasChanged_iff hlt
    exact ⟨Bool.eq_iff_iff.mpr (hiff'.trans hiff.symm), hstep.content rfl⟩
  · have hzero : s.changeCount w.target later = 0 := by
      by_contra hne
      rw [hiff.mpr hne] at hfalse
      cases hfalse
    rw [hsince.content hzero]
    exact ⟨rfl, rfl⟩

/-- A token of an overlay stays quiet through an edit of another tree, a text that is no document, a
removal that finds nothing and a reading, and the value below is what it was; it tells of the
removal of a node. -/
theorem hasChanged_iff_changed_of_removal :
    let o : LiveOverlay := ⟨⟨0⟩, {}, .absent, .builtIn ⟨0⟩⟩
    let s := empty.run [.newTree (.ofPairs [("fee:low", "1")]), .newTree .empty, .newCache]
    let quiet : List Action :=
      [.setValue ⟨1⟩ "fee:low" "2", .reload ⟨0⟩ "not json", .remove ⟨0⟩ "cap", .readFlat o ""]
    (s.run quiet).hasChanged (s.token (.overlay o)) = false ∧
      ((s.run quiet).tree ⟨0⟩).value "fee:low" = some "1" ∧
      (s.run (quiet ++ [.remove ⟨0⟩ "fee"])).hasChanged (s.token (.overlay o)) = true := by
  intro o s quiet
  let edits : List Action :=
    [.setValue ⟨1⟩ "fee:low" "2", .reload ⟨0⟩ "not json", .remove ⟨0⟩ "cap"]
  -- The reading leaves trees and signals as the edits before it left them.
  have hedited : (s.run edits).Sound := sound_run (sound_run sound_empty _) edits
  obtain ⟨-, htrees, hsignals, -⟩ := hedited.readFrom_readFlat o ""
  change (s.run quiet).trees = (s.run edits).trees at htrees
  change (s.run quiet).signals = (s.run edits).signals at hsignals
  have hremove : (s.run quiet).Allows (.remove ⟨0⟩ "fee") := by
    rw [Allows, htrees]
    decide +kernel
  have hquiet : s.AllowsRun quiet := by
    simp only [quiet, AllowsRun, Allows]
    decide +kernel
  have hallowed : s.AllowsRun (quiet ++ [.remove ⟨0⟩ "fee"]) :=
    ⟨hquiet.1, hquiet.2.1, hquiet.2.2.1, hquiet.2.2.2.1, hremove, trivial⟩
  have hfalse : (s.run quiet).hasChanged (s.token (.overlay o)) = false := by
    rw [hasChanged, generation, hsignals]
    decide +kernel
  have hchanges : (s.run quiet).changes ⟨0⟩ (.remove ⟨0⟩ "fee") = true := by
    have htree : (s.run quiet).tree ⟨0⟩ = (s.run edits).tree ⟨0⟩ := by rw [tree, htrees, tree]
    rw [changes, remove, htree]
    decide +kernel
  obtain ⟨-, -, -, -, hkept⟩ :=
    hasChanged_iff_changed _ quiet (.overlay o) (by decide) hquiet (by decide)
  obtain ⟨hiff, -⟩ :=
    hasChanged_iff_changed _ _ (.overlay o) (by decide) hallowed (by decide)
  refine ⟨hfalse, (hkept hfalse "fee:low").1.trans (by decide +kernel), ?_⟩
  exact hiff.mpr ⟨quiet, .remove ⟨0⟩ "fee", [], rfl, hchanges⟩

end Session

end GuardedConfig
