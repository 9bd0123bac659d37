import GuardedConfig.Proofs.Overlay.Returns
import GuardedConfig.Proofs.Tree.Visible
import GuardedConfig.Tree.Listing

/-!
# The paths that are read, in order

Reading the children of a node, or everything below it, goes on by the text of the paths. Which
paths are read, and in which order, does not depend on what reading them comes to, except that the
first error ends it. So a reading of several nodes does what reading their paths one after the other
does.

A path below which there are children has fewer keys than the tree has levels, and each step adds a
key. Only a child of the root with the empty key would lead back to the root.

Results:
* `Tree.length_lt_height`: where a path has children, it is shorter than the tree is high.
* `Tree.preorder_eq`: pre-order, with no bound on the levels.
* `Tree.listFrom_height_succ`: the listing of all nodes, with no bound on the levels.
* `Tree.mem_pathsBelow`: a path that spells the row of a visible node is among the paths below.
* `Overlay.effect_children`, `Overlay.Ends.reads_eq`: a reading does what reading its paths in order
  does.
-/

namespace GuardedConfig

open GuardedConfig.Path (segments combine ofRow)

namespace Path

theorem combine_ne_empty {path k : String} (h : path = "" → k ≠ "") : combine path k ≠ "" := by
  by_cases hpath : path = ""
  · rw [hpath, combine_empty]
    exact h hpath
  · rw [combine, if_neg hpath]
    simp

/-- A step to a child makes a path longer by a key at least. -/
theorem length_segments_combine {path k : String} (h : path = "" → k ≠ "") :
    (segments path).length < (segments (combine path k)).length := by
  have hpos := List.length_pos_iff.mpr (Pieces.cut_ne_nil ':' k)
  rw [segments_combine_pieces fun hempty => h hempty.1 hempty.2, List.length_append]
  omega

end Path

namespace Tree

variable {t : Tree} {marker : String}

/-! ## Levels -/

theorem length_add_height_le {t n : Tree} {row : List String} (h : t.follow row = some n) :
    row.length + n.height ≤ t.height := by
  induction row generalizing t with
  | nil =>
    cases h
    simp
  | cons k row ih =>
    rw [follow_cons] at h
    obtain ⟨c, hc, hn⟩ := Option.bind_eq_some_iff.mp h
    have hlt := height_lt_of_lookup hc
    have hle := ih hn
    rw [List.length_cons]
    omega

theorem length_le_height {row : List String} (h : (t.follow row).isSome) :
    row.length ≤ t.height := by
  obtain ⟨n, hn⟩ := Option.isSome_iff_exists.mp h
  have hle := length_add_height_le hn
  omega

theorem childKeys_eq (t : Tree) (path : String) : t.childKeys path = t.keysAt (segments path) :=
  rfl

/-- Where a path has children, it has fewer keys than the tree has levels. -/
theorem length_lt_height {path : String} (h : t.childKeys path ≠ []) :
    (segments path).length < t.height := by
  obtain ⟨k, keys, hkeys⟩ := List.exists_cons_of_ne_nil h
  have hk : k ∈ t.keysAt (segments path) := by
    rw [← childKeys_eq, hkeys]
    exact List.mem_cons_self
  have hle := length_le_height (mem_keysAt_iff.mp hk)
  rw [List.length_append, List.length_singleton] at hle
  omega

/-! ## Pre-order -/

/-- The paths of the children whose values are listed: all but the marker. -/
def listedBelow (t : Tree) (marker parent : String) : List String :=
  ((t.childKeys parent).filter (· ≠ marker)).map (combine parent)

/-- The paths below a path in pre-order, `fuel` levels of them. -/
def pathsBelow (t : Tree) (marker : String) : (fuel : Nat) → (parent : String) → List String
  | 0, _ => []
  | fuel + 1, parent =>
    (t.listedBelow marker parent).flatMap fun path => path :: t.pathsBelow marker fuel path

/-- The paths of children and of what is below them in pre-order, `fuel` levels of what is below. -/
def pathsThrough (t : Tree) (marker : String) (fuel : Nat) (parent : String)
    (keys : List String) : List String :=
  ((keys.filter (· ≠ marker)).map (combine parent)).flatMap fun path =>
    path :: t.pathsBelow marker fuel path

theorem pathsBelow_eq (fuel : Nat) (parent : String) :
    t.pathsBelow marker (fuel + 1) parent =
      t.pathsThrough marker fuel parent (t.childKeys parent) :=
  rfl

theorem pathsThrough_marker (fuel : Nat) (parent : String) (keys : List String) :
    t.pathsThrough marker fuel parent (marker :: keys) =
      t.pathsThrough marker fuel parent keys := by
  rw [pathsThrough, List.filter_cons_of_neg (by simp)]
  rfl

theorem pathsThrough_cons {fuel : Nat} {parent k : String} (hk : k ≠ marker)
    (keys : List String) :
    t.pathsThrough marker fuel parent (k :: keys) =
      combine parent k :: (t.pathsBelow marker fuel (combine parent k) ++
        t.pathsThrough marker fuel parent keys) := by
  rw [pathsThrough, List.filter_cons_of_pos (by simpa using hk), List.map_cons,
    List.flatMap_cons, List.cons_append]
  rfl

/-- The paths below a path in pre-order. -/
def preorder (t : Tree) (marker parent : String) : List String :=
  t.pathsBelow marker (t.height + 1) parent

theorem listedBelow_eq_nil {parent : String} (h : t.height ≤ (segments parent).length) :
    t.listedBelow marker parent = [] := by
  have hkeys : t.childKeys parent = [] := by
    by_contra hne
    have hlt := length_lt_height hne
    omega
  rw [listedBelow, hkeys]
  rfl

/-- Unless the empty key stands at the root, a listed path is longer than the one above it. -/
theorem listedBelow_longer {parent path : String} (hroot : parent = "" → "" ∉ t.keysAt [])
    (h : path ∈ t.listedBelow marker parent) :
    path ≠ "" ∧ (segments parent).length < (segments path).length := by
  obtain ⟨k, hk, rfl⟩ := List.mem_map.mp h
  have hkey : parent = "" → k ≠ "" := by
    rintro rfl rfl
    exact hroot rfl (List.mem_filter.mp hk).1
  exact ⟨Path.combine_ne_empty hkey, Path.length_segments_combine hkey⟩

/-- More levels than the tree has below a path add no paths. -/
theorem pathsBelow_succ {fuel : Nat} {parent : String} (hroot : parent = "" → "" ∉ t.keysAt [])
    (hfuel : t.height ≤ fuel + (segments parent).length) :
    t.pathsBelow marker (fuel + 1) parent = t.pathsBelow marker fuel parent := by
  induction fuel generalizing parent with
  | zero =>
    rw [Nat.zero_add] at hfuel
    rw [pathsBelow, pathsBelow, listedBelow_eq_nil hfuel]
    rfl
  | succ fuel ih =>
    rw [pathsBelow, pathsBelow]
    refine List.flatMap_congr fun path hpath => ?_
    obtain ⟨hne, hlonger⟩ := listedBelow_longer hroot hpath
    rw [ih (fun hempty => absurd hempty hne) (by omega)]

/-- **Pre-order**: every child that is listed, each with what is below it. -/
theorem preorder_eq {parent : String} (hroot : parent = "" → "" ∉ t.keysAt []) :
    t.preorder marker parent =
      (t.listedBelow marker parent).flatMap fun path => path :: t.preorder marker path := by
  rw [preorder, pathsBelow]
  refine List.flatMap_congr fun path hpath => ?_
  obtain ⟨hne, hlonger⟩ := listedBelow_longer hroot hpath
  rw [preorder, pathsBelow_succ (fun hempty => absurd hempty hne) (by omega)]

/-- More levels than the tree has below a path add no nodes to the listing from there on. -/
theorem listFrom_succ {fuel : Nat} {path : String} (hpos : 0 < fuel)
    (hfuel : t.height < fuel + (segments path).length) :
    t.listFrom (fuel + 1) path = t.listFrom fuel path := by
  induction fuel generalizing path with
  | zero => exact absurd hpos (by simp)
  | succ fuel ih =>
    rw [listFrom, listFrom]
    refine congrArg _ (List.flatMap_congr fun below hbelow => ?_)
    obtain ⟨hmem, hne⟩ := List.mem_filter.mp hbelow
    obtain ⟨k, hk, rfl⟩ := List.mem_map.mp hmem
    have hkey : path = "" → k ≠ "" := by
      rintro rfl rfl
      simp [combine] at hne
    have hlonger := Path.length_segments_combine hkey
    have hshort := length_lt_height (List.ne_nil_of_mem hk)
    exact ih (by omega) (by omega)

/-- **The listing of all nodes**: every node before what is below it, however deep. -/
theorem listFrom_height_succ (path : String) :
    t.listFrom (t.height + 1) path =
      ⟨path, t.value path, t.childKeys path⟩ ::
        (((t.childKeys path).map (combine path)).filter (· ≠ path)).flatMap
          (t.listFrom (t.height + 1)) := by
  conv_lhs => rw [← listFrom_succ (Nat.succ_pos _) (by omega), listFrom]

/-- A row whose keys have no colons, and which leads to a node, is told by its path. -/
theorem isRow_of_node (hroot : "" ∉ t.keysAt []) {row : List String}
    (hcolon : ∀ k ∈ row, ':' ∉ k.toList) (hnode : (t.follow row).isSome) : Path.IsRow row := by
  refine ⟨hcolon, ?_⟩
  rintro rfl
  exact hroot (mem_keysAt_iff.mpr hnode)

/-- The path of a node is below that of another if no key on the way is a marker, or has a colon. -/
theorem mem_pathsBelow (hroot : "" ∉ t.keysAt []) {fuel : Nat} {row rest : List String}
    (hne : rest ≠ []) (hmarker : marker ∉ rest) (hcolon : ∀ k ∈ row ++ rest, ':' ∉ k.toList)
    (hnode : (t.follow (row ++ rest)).isSome) (hfuel : rest.length ≤ fuel) :
    ofRow (row ++ rest) ∈ t.pathsBelow marker fuel (ofRow row) := by
  induction fuel generalizing row rest with
  | zero => exact absurd (List.length_eq_zero_iff.mp (Nat.le_zero.mp hfuel)) hne
  | succ fuel ih =>
    cases rest with
    | nil => exact absurd rfl hne
    | cons k rest =>
      rw [List.append_cons] at hnode hcolon ⊢
      have hchild := isSome_follow_of_append hnode
      have hrow : Path.IsRow row := isRow_of_node hroot
        (fun l hl => hcolon l (by simp [hl])) (isSome_follow_of_append hchild)
      have hlisted : ofRow (row ++ [k]) ∈ t.listedBelow marker (ofRow row) := by
        rw [← Path.combine_ofRow hrow]
        refine List.mem_map_of_mem (List.mem_filter.mpr ⟨?_, ?_⟩)
        · rw [childKeys_eq, Path.segments_ofRow hrow]
          exact mem_keysAt_iff.mpr hchild
        · rw [decide_eq_true_eq]
          rintro rfl
          exact hmarker List.mem_cons_self
      rw [pathsBelow]
      refine List.mem_flatMap.mpr ⟨_, hlisted, ?_⟩
      by_cases hrest : rest = []
      · rw [hrest, List.append_nil]
        exact List.mem_cons_self
      · rw [List.length_cons] at hfuel
        exact List.mem_cons_of_mem _ (ih hrest (fun hmem => hmarker (List.mem_cons_of_mem k hmem))
          hcolon hnode (by omega))

end Tree

/-! ## What an attempt does -/

namespace Attempt

variable {σ α β : Type}

/-- What an attempt does to the state, and how it fails, without its result. -/
def effect (x : Attempt σ α) : Attempt σ Unit := fun s => ((x s).1.map fun _ => (), (x s).2)

theorem effect_bind (x : Attempt σ α) (f : α → Attempt σ β) :
    (x >>= f).effect = x >>= fun a => (f a).effect := by
  funext s
  rw [effect, bind_apply, bind_apply]
  rcases x s with ⟨_ | a, s'⟩ <;> rfl

/-- A result that is not used may as well be dropped. -/
theorem bind_const (x : Attempt σ α) (y : Attempt σ β) :
    (x >>= fun _ => y) = x.effect >>= fun _ => y := by
  funext s
  rw [bind_apply, bind_apply, effect]
  rcases x s with ⟨_ | a, s'⟩ <;> rfl

theorem effect_bind_pure (x : Attempt σ α) (f : α → β) :
    (x >>= fun a => pure (f a)).effect = x.effect := by
  funext s
  rw [effect, bind_pure_apply, effect]
  rcases x s with ⟨_ | a, s'⟩ <;> rfl

/-- Where every attempt leaves the state alone, so do they all. -/
theorem mapM_of_forall {f : α → Attempt σ β} {Q : α → β → Prop} {s : σ} {as : List α}
    (h : ∀ a ∈ as, ∃ b, f a s = (.ok b, s) ∧ Q a b) :
    ∃ bs, as.mapM f s = (.ok bs, s) ∧ List.Forall₂ Q as bs := by
  induction as with
  | nil => exact ⟨[], rfl, .nil⟩
  | cons a as ih =>
    obtain ⟨b, hb, hQ⟩ := h a List.mem_cons_self
    obtain ⟨bs, hbs, hall⟩ := ih fun c hc => h c (List.mem_cons_of_mem a hc)
    refine ⟨b :: bs, ?_, .cons hQ hall⟩
    rw [List.mapM_cons, bind_apply, hb]
    dsimp only
    rw [bind_apply, hbs]
    rfl

end Attempt

namespace Overlay

variable {σ : Type} (o : Overlay σ)

/-! ## Reading paths one after the other -/

/-- Reads paths one after the other, up to the first that fails. -/
def reads : List String → Attempt σ Unit
  | [] => pure ()
  | path :: paths => do
    let _ ← o.value path
    reads paths

theorem reads_append (paths later : List String) :
    o.reads (paths ++ later) = o.reads paths >>= fun _ => o.reads later := by
  induction paths with
  | nil => rfl
  | cons path paths ih => rw [List.cons_append, reads, ih, reads, bind_assoc]

/-- Attempts for keys, each of which does what reading some paths does. -/
theorem effect_mapM {α : Type} {f : String → Attempt σ α} {paths : String → List String}
    (h : ∀ k, (f k).effect = o.reads (paths k)) (keys : List String) :
    (keys.mapM f).effect = o.reads (keys.flatMap paths) := by
  induction keys with
  | nil => rfl
  | cons k keys ih =>
    rw [List.mapM_cons, List.flatMap_cons, reads_append, ← h k, ← ih, Attempt.effect_bind,
      ← Attempt.bind_const]
    refine congrArg _ (funext fun a => ?_)
    exact Attempt.effect_bind_pure _ _

theorem effect_value (path : String) : (o.value path).effect = o.reads [path] := by
  have hone : o.reads [path] = o.value path >>= fun _ => pure () := rfl
  rw [hone, Attempt.bind_const]
  funext s
  rw [Attempt.bind_apply]
  rcases (o.value path).effect s with ⟨_ | a, s'⟩ <;> rfl

/-- **Reading the children does what reading their paths does.** -/
theorem effect_children (parent : String) :
    (o.children parent).effect = o.reads ((o.tree.childKeys parent).map (combine parent)) := by
  have hchild k : (do
      let path := combine parent k
      let v ← o.value path
      pure (path, v) : Attempt σ (String × Option String)).effect = o.reads [combine parent k] :=
    (Attempt.effect_bind_pure _ _).trans (o.effect_value _)
  rw [children, effect_mapM o hchild, List.map_eq_flatMap]

/-- **A call that ends does what reading the paths below does, in pre-order**, down to a level for
each of the calls in one another, or to more levels. -/
theorem Ends.reads_eq {o : Overlay σ} {depth : Nat} {parent : String} {keys : List String}
    {l : Listing} {s : σ} {r : Except RuleError Listing × σ} (h : o.Ends depth parent keys l s r)
    {levels : Nat} (hlevels : depth ≤ levels + 1) :
    o.reads (o.tree.pathsThrough o.keys.marker levels parent keys) s =
      (r.1.map fun _ => (), r.2) := by
  induction h generalizing levels with
  | done => rfl
  | marker hk _ ih =>
    rw [hk, Tree.pathsThrough_marker]
    exact ih hlevels
  | unread hk read =>
    rw [Tree.pathsThrough_cons hk, reads, Attempt.bind_apply, read]
    rfl
  | stopped hk read call ih =>
    obtain ⟨below, rfl⟩ := Nat.exists_eq_add_one.mpr (Nat.lt_of_lt_of_le call.depth_pos
      (Nat.le_of_succ_le_succ hlevels))
    rw [Tree.pathsThrough_cons hk, reads, Attempt.bind_apply, read]
    dsimp only
    rw [reads_append, Attempt.bind_apply, Tree.pathsBelow_eq, ih (Nat.le_of_succ_le_succ hlevels)]
    rfl
  | next hk read call _ ihcall ihrest =>
    obtain ⟨hdepth, hdepth'⟩ := max_le_iff.mp hlevels
    obtain ⟨below, rfl⟩ := Nat.exists_eq_add_one.mpr (Nat.lt_of_lt_of_le call.depth_pos
      (Nat.le_of_succ_le_succ hdepth))
    rw [Tree.pathsThrough_cons hk, reads, Attempt.bind_apply, read]
    dsimp only
    rw [reads_append, Attempt.bind_apply, Tree.pathsBelow_eq,
      ihcall (Nat.le_of_succ_le_succ hdepth)]
    exact ihrest hdepth'

theorem Alike.reads {τ : Type} {R : σ → τ → Prop} {a : Overlay σ} {b : Overlay τ}
    (h : a.Alike R b) (paths : List String) : Attempt.Alike R (a.reads paths) (b.reads paths) := by
  induction paths with
  | nil => exact .pure ()
  | cons path paths ih => exact (h.value path).bind fun _ => ih

theorem Keeps.reads {P : σ → Prop} {o : Overlay σ} (h : o.Keeps P) (paths : List String) :
    (o.reads paths).Keeps P :=
  Attempt.keeps_iff_alike.mpr (h.alike.reads paths)

end Overlay

end GuardedConfig
