import GuardedConfig.Proofs.Overlay.Preorder

/-!
# The recursion of flattening

Flattening calls itself for the path of every child, by the text of the path. A key with a colon
makes that the path of another node than the child, so the calls do not follow the tree down. They
end all the same, unless the root has a child with the empty key: every call is for a path with more
keys than that of its caller, and where a path has children it has fewer keys than the tree has
levels. So flattening writes what a recursion writes that goes down as many levels as the tree has.

Results:
* `Overlay.ends_writesBelow`: a call ends, and how, if there is a level for each key that its path
  may still gain.
* `Overlay.flatten_eq_written`: flattening by a recursion over levels.
* `Overlay.flatten_returns`: flattening returns, with at most one call more in one another than the
  tree has levels.
* `Overlay.flatten_eq_none_of_empty_key`: with the empty key at the root it does not, if every path
  reads.
-/

namespace GuardedConfig

open GuardedConfig.Path (segments combine)

namespace Listing

/-- The listing with values written into it one after the other. -/
def putAll (l : Listing) (ws : List (String × String)) : Listing :=
  ws.foldl (fun l w => put w.1 w.2 l) l

/-- The listing made by writing values one after the other. -/
def ofWrites (ws : List (String × String)) : Listing :=
  putAll [] ws

theorem putAll_append (l : Listing) (ws more : List (String × String)) :
    l.putAll (ws ++ more) = (l.putAll ws).putAll more :=
  List.foldl_append

theorem putAll_toList (l : Listing) (path : String) (v : Option String) :
    l.putAll (v.toList.map (path, ·)) = v.elim l (put path · l) := by
  cases v <;> rfl

/-- The value of a child is written between what is below it and what comes later. -/
theorem putAll_child (l : Listing) (below later : List (String × String)) (path : String)
    (v : Option String) :
    l.putAll (below ++ v.toList.map (path, ·) ++ later) =
      (v.elim (l.putAll below) (put path · (l.putAll below))).putAll later := by
  rw [putAll_append, putAll_append, putAll_toList]

end Listing

namespace Overlay

variable {σ : Type} {o : Overlay σ}

/-- Flattening below a path calls itself for another one, that of a child with another key than the
marker. -/
def Calls (o : Overlay σ) (parent path : String) : Prop :=
  ∃ k ∈ o.tree.childKeys parent, k ≠ o.keys.marker ∧ path = combine parent k

/-! ## A recursion over levels -/

/-- What is written below a path, in order, with `fuel` levels of calls. What is below a child is
written before the value of the child. -/
def writesBelow (o : Overlay σ) : (fuel : Nat) → (parent : String) →
    Attempt σ (List (String × String))
  | 0, _ => pure []
  | fuel + 1, parent => do
    let keys := (o.tree.childKeys parent).filter (· ≠ o.keys.marker)
    let parts ← keys.mapM fun k => do
      let path := combine parent k
      let v ← o.value path
      let below ← o.writesBelow fuel path
      pure (below ++ v.toList.map (path, ·))
    pure parts.flatten

/-- What is written for the children under some keys, with `fuel` levels of calls. -/
def writesThrough (o : Overlay σ) (fuel : Nat) (parent : String) (keys : List String) :
    Attempt σ (List (String × String)) := do
  let parts ← (keys.filter (· ≠ o.keys.marker)).mapM fun k => do
    let path := combine parent k
    let v ← o.value path
    let below ← o.writesBelow fuel path
    pure (below ++ v.toList.map (path, ·))
  pure parts.flatten

theorem writesBelow_succ (fuel : Nat) (parent : String) :
    o.writesBelow (fuel + 1) parent = o.writesThrough fuel parent (o.tree.childKeys parent) :=
  rfl

theorem writesThrough_marker (fuel : Nat) (parent : String) (keys : List String) :
    o.writesThrough fuel parent (o.keys.marker :: keys) = o.writesThrough fuel parent keys := by
  rw [writesThrough, List.filter_cons_of_neg (by simp)]
  rfl

theorem writesThrough_cons (fuel : Nat) (parent : String) {k : String}
    (hk : k ≠ o.keys.marker) (keys : List String) :
    o.writesThrough fuel parent (k :: keys) = (do
      let v ← o.value (combine parent k)
      let below ← o.writesBelow fuel (combine parent k)
      let rest ← o.writesThrough fuel parent keys
      pure (below ++ v.toList.map (combine parent k, ·) ++ rest)) := by
  rw [writesThrough, List.filter_cons_of_pos (by simpa using hk), List.mapM_cons]
  simp only [writesThrough, bind_assoc, pure_bind, List.flatten_cons]

/-- The outcome of writing, made on a listing. -/
def written (l : Listing) (r : Except RuleError (List (String × String)) × σ) :
    Except RuleError Listing × σ :=
  (r.1.map l.putAll, r.2)

/-- Where the calls for the children end in time, so does going through them. -/
theorem ends_writesThrough {fuel : Nat} {parent : String} {keys : List String}
    (hcalls : ∀ k ∈ keys, k ≠ o.keys.marker → ∀ l s, ∃ depth ≤ fuel,
      o.Ends depth (combine parent k) (o.tree.childKeys (combine parent k)) l s
        (written l (o.writesBelow fuel (combine parent k) s)))
    (l : Listing) (s : σ) :
    ∃ depth ≤ fuel + 1,
      o.Ends depth parent keys l s (written l (o.writesThrough fuel parent keys s)) := by
  induction keys generalizing l s with
  | nil => exact ⟨1, by omega, .done⟩
  | cons k keys ih =>
    have hrest := ih fun j hj => hcalls j (List.mem_cons_of_mem k hj)
    by_cases hk : k = o.keys.marker
    · obtain ⟨depth, hle, hends⟩ := hrest l s
      rw [hk, writesThrough_marker]
      exact ⟨depth, hle, .marker rfl hends⟩
    · rw [writesThrough_cons fuel parent hk, Attempt.bind_apply]
      rcases hread : o.value (combine parent k) s with ⟨e | v, t⟩
      · exact ⟨1, by omega, .unread hk hread⟩
      · obtain ⟨depth, hle, hcall⟩ := hcalls k List.mem_cons_self hk l t
        dsimp only
        rw [Attempt.bind_apply]
        rcases hbelow : o.writesBelow fuel (combine parent k) t with ⟨e | ws, u⟩
        · rw [hbelow] at hcall
          exact ⟨depth + 1, by omega, .stopped hk hread hcall⟩
        · rw [hbelow] at hcall
          obtain ⟨depth', hle', hends⟩ :=
            hrest (v.elim (l.putAll ws) (Listing.put (combine parent k) · (l.putAll ws))) u
          refine ⟨max (depth + 1) depth', by omega, .next hk hread hcall ?_⟩
          dsimp only
          rw [Attempt.bind_pure_apply]
          rcases hlater : o.writesThrough fuel parent keys u with ⟨e | rest, u'⟩
          · rw [hlater] at hends
            exact hends
          · rw [hlater] at hends
            simp only [written, Except.map, Listing.putAll_child] at hends ⊢
            exact hends

/-- A call that is given a level for each key that its path may still gain ends within these
levels. -/
theorem ends_writesBelow {fuel : Nat} {parent : String}
    (hroot : parent = "" → "" ∉ o.tree.childKeys "") (hpos : 0 < fuel)
    (hfuel : o.tree.height < fuel + (segments parent).length) (l : Listing) (s : σ) :
    ∃ depth ≤ fuel, o.Ends depth parent (o.tree.childKeys parent) l s
      (written l (o.writesBelow fuel parent s)) := by
  induction fuel generalizing parent l s with
  | zero => exact absurd hpos (by simp)
  | succ fuel ih =>
    rw [writesBelow_succ]
    refine ends_writesThrough (fun k hk hmarker l s => ?_) l s
    have hkey : parent = "" → k ≠ "" := by
      rintro rfl rfl
      exact hroot rfl hk
    -- the call for the child has a level less and a path that is longer by a key
    have hlonger := Path.length_segments_combine hkey
    have hshort := Tree.length_lt_height (List.ne_nil_of_mem hk)
    exact ih (fun hempty => absurd hempty (Path.combine_ne_empty hkey)) (by omega) (by omega) l s

/-- A call ends, with at most one call more in one another than the tree has levels. -/
theorem ends_within_height (hroot : "" ∉ o.tree.childKeys "") (parent : String) (l : Listing)
    (s : σ) :
    ∃ depth ≤ o.tree.height + 1, o.Ends depth parent (o.tree.childKeys parent) l s
      (written l (o.writesBelow (o.tree.height + 1) parent s)) :=
  ends_writesBelow (fun _ => hroot) (Nat.succ_pos o.tree.height) (by omega) l s

/-- **Flattening over levels.** Flattening writes what is written with as many levels of calls as
the tree has and one. -/
theorem flatten_eq_written (hroot : "" ∉ o.tree.childKeys "") (parent : String) (s : σ) :
    o.flatten parent s =
      some ((o.writesBelow (o.tree.height + 1) parent s).1.map Listing.ofWrites,
        (o.writesBelow (o.tree.height + 1) parent s).2) := by
  obtain ⟨depth, -, hends⟩ := ends_within_height hroot parent [] s
  exact flatten_eq_some_iff.mpr ⟨depth, hends⟩

theorem Returns.depth_le (hroot : "" ∉ o.tree.childKeys "") {depth : Nat} {parent : String} {s : σ}
    {r : Except RuleError Listing × σ} (h : o.Returns depth parent s r) :
    depth ≤ o.tree.height + 1 := by
  obtain ⟨depth', hle, hends⟩ := ends_within_height hroot parent [] s
  rw [(Ends.unique h hends).1]
  exact hle

/-- **Flattening returns.** Unless the root has a child with the empty key, a call for what is below
a path calls itself for longer paths only, and only where the path is shorter than the tree is high.
So flattening at any path returns, in one way only, with at most one call more in one another than
the tree has levels. -/
theorem flatten_returns (o : Overlay σ) (hroot : "" ∉ o.tree.childKeys "") (start : String)
    (s : σ) :
    (∀ parent path, o.Calls parent path → (segments parent).length < (segments path).length) ∧
    (∀ parent, o.tree.childKeys parent ≠ [] → (segments parent).length < o.tree.height) ∧
    ∃ depth ≤ o.tree.height + 1, ∃ r, o.flatten start s = some r ∧
      ∀ depth' r', o.Returns depth' start s r' ↔ depth' = depth ∧ r' = r := by
  refine ⟨?_, fun parent hkeys => Tree.length_lt_height hkeys, ?_⟩
  · rintro parent _ ⟨k, hk, -, rfl⟩
    refine Path.length_segments_combine ?_
    rintro rfl rfl
    exact hroot hk
  · obtain ⟨depth, hle, hends⟩ := ends_within_height hroot start [] s
    refine ⟨depth, hle, _, flatten_eq_some_iff.mpr ⟨depth, hends⟩,
      fun depth' r' => ⟨fun h => Ends.unique h hends, ?_⟩⟩
    rintro ⟨rfl, rfl⟩
    exact hends

/-- A key with a colon leads to a node on another branch, below which an empty key stands. -/
theorem flatten_returns_of_colon :
    let o : Overlay Cache := ⟨.node none [("a:b", .node none [("x", .node (some "1") [])]),
      ("a", .node none [("b", .node none [("", .node (some "2") [])])])],
      {}, pure none, Cache.evaluate⟩
    "" ∉ o.tree.childKeys "" ∧ o.flatten "" .empty = some (.ok [("a:b:", "2")], .empty) ∧
      ∃ depth ≤ 4, o.Returns depth "" .empty (.ok [("a:b:", "2")], .empty) := by
  intro o
  have hroot : "" ∉ o.tree.childKeys "" := by decide +kernel
  have hheight : o.tree.height = 3 := by decide +kernel
  obtain ⟨-, -, depth, hle, r, hflat, hreturns⟩ := o.flatten_returns hroot "" .empty
  have hr : r = (.ok [("a:b:", "2")], .empty) := by
    rw [flatten_eq_written hroot] at hflat
    exact (Option.some.inj hflat).symm
  rw [hheight] at hle
  rw [hr] at hflat
  exact ⟨hroot, hflat, depth, hle, (hreturns depth _).mpr ⟨rfl, hr.symm⟩⟩

/-! ## The empty key at the root -/

theorem Ends.ok_of_reads (hreads : ∀ path s, ∃ v t, o.value path s = (.ok v, t)) {depth : Nat}
    {parent : String} {keys : List String} {l : Listing} {s : σ}
    {r : Except RuleError Listing × σ} (h : o.Ends depth parent keys l s r) :
    ∃ l', r.1 = .ok l' := by
  induction h with
  | done => exact ⟨_, rfl⟩
  | marker _ _ ih => exact ih
  | unread _ read =>
    obtain ⟨v, t, hv⟩ := hreads _ _
    cases read.symm.trans hv
  | stopped _ _ _ ih =>
    obtain ⟨l', hl⟩ := ih
    cases hl
  | next _ _ _ _ _ ih => exact ih

/-- The path of the empty key at the root is that of the root. Where every path reads, a call at the
root then calls itself again and again, and flattening returns nothing. -/
theorem flatten_eq_none_of_empty_key (hkey : "" ∈ o.tree.childKeys "")
    (hmarker : o.keys.marker ≠ "") (hreads : ∀ path s, ∃ v t, o.value path s = (.ok v, t)) (s : σ) :
    o.flatten "" s = none := by
  have hnone {depth : Nat} {parent : String} {keys : List String} {l : Listing} {s : σ}
      {r : Except RuleError Listing × σ} (h : o.Ends depth parent keys l s r) :
      parent = "" → "" ∉ keys := by
    induction h with
    | done => simp
    | marker hk _ ih =>
      intro hparent hmem
      rcases List.mem_cons.mp hmem with hempty | hmem
      · exact hmarker (hk.symm.trans hempty.symm)
      · exact ih hparent hmem
    | unread _ read =>
      obtain ⟨v, t, hv⟩ := hreads _ _
      cases read.symm.trans hv
    | stopped _ _ call _ =>
      obtain ⟨l', hl⟩ := call.ok_of_reads hreads
      cases hl
    | next _ _ _ _ ihcall ihrest =>
      intro hparent hmem
      rcases List.mem_cons.mp hmem with hempty | hmem
      · -- the call for the child is one at the root again
        subst hparent
        subst hempty
        exact ihcall rfl hkey
      · exact ihrest hparent hmem
  refine Option.eq_none_iff_forall_ne_some.mpr fun r hr => ?_
  obtain ⟨depth, hreturns⟩ := flatten_eq_some_iff.mp hr
  exact hnone hreturns rfl hkey

end Overlay

end GuardedConfig
