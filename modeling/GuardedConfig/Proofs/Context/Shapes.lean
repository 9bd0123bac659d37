import GuardedConfig.Proofs.Context.Listing
import GuardedConfig.Proofs.Context.Settings

/-!
# The shape of a context against its fields

A shape lists fields by their paths, with kinds. Where no path is listed twice the place of a field
in the shape is its place in the listing of the context, and the shapes of regular contexts are one
exactly if every path leads to values of one kind in both. A context made of settings is regular if
none of their paths starts with a dot.

Results:
* `Shape.indexOf_eq_some_iff`: the place of a path among fields of different paths.
* `Shape.places_of_listing`: places in a shape are places in the listing.
* `Shape.eq_of_mem`: shapes with the same fields are one.
* `Shape.ofContext_eq_iff`: shapes of regular contexts against the kinds at every path.
* `Context.kindOf_setAll`, `Context.Retouched.kindOf`: changes to settings that no kind shows.
* `Shape.ofContext_eq_iff_kinds`: shapes of contexts made of settings.
-/

namespace GuardedConfig

namespace Shape

/-! ## Places -/

theorem map_fst_ofContext (c : Context) :
    (ofContext c).fields.map Prod.fst = c.flatten.map Prod.fst := by
  simp [ofContext, Function.comp_def]

/-- Where no path is listed twice, a field has the place that is asked for by its path. -/
theorem indexOf_eq_some_iff {s : Shape} (hs : (s.fields.map Prod.fst).Nodup) {path : String}
    {i : Nat} : s.indexOf path = some i ↔ ∃ kind, s.fields[i]? = some (path, kind) := by
  constructor
  · exact fst_of_indexOf
  · rintro ⟨kind, hi⟩
    cases hfound : s.indexOf path with
    | none => exact absurd rfl (indexOf_eq_none_iff.mp hfound _ (List.mem_of_getElem? hi))
    | some j =>
      obtain ⟨kind', hj⟩ := fst_of_indexOf hfound
      have hpath {k : Nat} {l : ValueKind} (hk : s.fields[k]? = some (path, l)) :
          (s.fields.map Prod.fst)[k]? = some path := by
        rw [List.getElem?_map, hk, Option.map_some]
      have hlt : i < (s.fields.map Prod.fst).length := (List.getElem?_eq_some_iff.mp (hpath hi)).1
      rw [(List.getElem?_inj hlt hs).mp ((hpath hi).trans (hpath hj).symm)]

/-- **Places in a shape are places in the listing.** Where no path is listed twice, the listing
strictly ascends by path, the shape has a place for each of its entries and no others, a path has
the place of the entry that is listed by it, with the kind of its value, and a path that is not
listed has none. -/
theorem places_of_listing {c : Context} (h : (c.flatten.map Prod.fst).Nodup) :
    (c.flatten.Pairwise fun a b => a.1 < b.1) ∧
    (ofContext c).length = c.flatten.length ∧
    (∀ path i, (ofContext c).indexOf path = some i ↔
      ∃ hi : i < c.flatten.length, c.flatten[i].1 = path) ∧
    (∀ i (hi : i < c.flatten.length), (ofContext c).kindAt i = some c.flatten[i].2.kind) ∧
    (∀ path, (ofContext c).indexOf path = none ↔ path ∉ c.flatten.map Prod.fst) ∧
    ∀ i, (ofContext c).kindAt i = none ↔ c.flatten.length ≤ i := by
  refine ⟨?_, length_ofContext c, fun path i => ?_, fun i hi => ?_, fun path => ?_, fun i => ?_⟩
  · have hne : c.flatten.Pairwise fun a b => a.1 ≠ b.1 := List.pairwise_map.mp h
    exact c.pairwise_flatten.imp₂ (fun _ _ hle hne => lt_of_le_of_ne hle hne) hne
  · rw [indexOf_eq_some_iff (map_fst_ofContext c ▸ h)]
    simp only [ofContext, List.getElem?_map, Option.map_eq_some_iff, List.getElem?_eq_some_iff]
    constructor
    · rintro ⟨kind, f, ⟨hi, rfl⟩, heq⟩
      exact ⟨hi, congrArg Prod.fst heq⟩
    · rintro ⟨hi, rfl⟩
      exact ⟨_, _, ⟨hi, rfl⟩, rfl⟩
  · simp [kindAt, ofContext, hi]
  · rw [indexOf_eq_none_iff, ← map_fst_ofContext, List.mem_map, not_exists]
    exact forall_congr' fun f => not_and.symm
  · simp [kindAt, ofContext]

/-- Fields that come in another order by their paths than by their names, and one that is listed
without the dot at its front. -/
theorem places_of_listing_of_front_dot :
    let c := Context.ofSettings [("a.x", .int 1), ("a-b", .bool true), (".b", .float .zero)]
    (c.flatten.map Prod.fst).Nodup ∧
    (ofContext c).indexOf "a-b" = some 0 ∧ (ofContext c).kindAt 0 = some .bool ∧
    (ofContext c).indexOf "b" = some 2 ∧ (ofContext c).indexOf ".b" = none := by
  intro c
  have hlisted : c.flatten = [("a-b", .bool true), ("a.x", .int 1), ("b", .float .zero)] := by cbv
  have hnodup : (c.flatten.map Prod.fst).Nodup := by rw [hlisted]; decide
  have hlength : c.flatten.length = 3 := by rw [hlisted]; rfl
  obtain ⟨-, -, hplace, hkind, hnone, -⟩ := places_of_listing hnodup
  refine ⟨hnodup, (hplace _ _).mpr ⟨by omega, ?_⟩, ?_, (hplace _ _).mpr ⟨by omega, ?_⟩,
    (hnone _).mpr ?_⟩
  · simp [hlisted]
  · rw [hkind 0 (by omega)]
    simp [hlisted, Value.kind]
  · simp [hlisted]
  · rw [hlisted]
    decide

/-! ## Shapes with the same fields -/

/-- Shapes that list the same fields, each path once, are one. -/
theorem eq_of_mem {s t : Shape} (hs : (s.fields.map Prod.fst).Nodup)
    (ht : (t.fields.map Prod.fst).Nodup) (h : ∀ f, f ∈ s.fields ↔ f ∈ t.fields) : s = t := by
  have hperm : s.fields.Perm t.fields := (List.perm_ext_iff_of_nodup hs.of_map ht.of_map).mpr h
  have heq : s.fields = t.fields := by
    refine hperm.eq_of_pairwise (fun f g hf hg hfg hgf => ?_) s.sorted t.sorted
    exact List.inj_on_of_nodup_map hs hf ((h g).mpr hg) (le_antisymm hfg hgf)
  cases s
  cases t
  cases heq
  rfl

end Shape

namespace Context

/-- The kind of the value at a path. -/
def kindOf (c : Context) (path : String) : Option ValueKind :=
  (c.get path).map Value.kind

theorem mem_fields_ofContext {c : Context} (hc : c.Regular) {path : String} {kind : ValueKind} :
    (path, kind) ∈ (Shape.ofContext c).fields ↔ c.kindOf path = some kind := by
  rw [kindOf, Option.map_eq_some_iff, Shape.ofContext, List.mem_map]
  constructor
  · rintro ⟨⟨p, v⟩, hmem, heq⟩
    cases heq
    exact ⟨v, (mem_flatten_iff_get hc).mp hmem, rfl⟩
  · rintro ⟨v, hget, rfl⟩
    exact ⟨(path, v), (mem_flatten_iff_get hc).mpr hget, rfl⟩

end Context

namespace Shape

/-- Regular contexts have one shape exactly if the values at every path are of one kind. -/
theorem ofContext_eq_iff {c d : Context} (hc : c.Regular) (hd : d.Regular) :
    ofContext c = ofContext d ↔ ∀ path, c.kindOf path = d.kindOf path := by
  constructor
  · intro h path
    refine Option.ext fun kind => ?_
    rw [← Context.mem_fields_ofContext hc, ← Context.mem_fields_ofContext hd, h]
  · intro h
    refine eq_of_mem ?_ ?_ fun f => ?_
    · exact map_fst_ofContext c ▸ Context.nodup_flatten hc
    · exact map_fst_ofContext d ▸ Context.nodup_flatten hd
    · rw [Context.mem_fields_ofContext hc, Context.mem_fields_ofContext hd, h]

end Shape

namespace Context

/-! ## Settings and the kinds they leave -/

theorem regular_empty : empty.Regular := by
  decide

theorem Regular.set {c : Context} (hc : c.Regular) {path : String}
    (hpath : path.toList.head? ≠ some '.') (v : Value) : (c.set path v).Regular := by
  intro q w hget
  rw [get_set] at hget
  split at hget
  · rename_i hq
    exact hq ▸ hpath
  · split at hget
    · exact hc q w hget
    · cases hget

theorem Regular.setAll {c : Context} (hc : c.Regular) {s : List (String × Value)}
    (hs : ∀ x ∈ s, x.1.toList.head? ≠ some '.') : (c.setAll s).Regular := by
  induction s generalizing c with
  | nil => exact hc
  | cons x s ih =>
    exact ih (hc.set (hs x List.mem_cons_self) x.2) fun y hy => hs y (List.mem_cons_of_mem x hy)

theorem setAll_append (c : Context) (s t : List (String × Value)) :
    c.setAll (s ++ t) = (c.setAll s).setAll t :=
  List.foldl_append

/-- After the same settings a path leads to one kind if it did so before, or if one of the settings
is not apart from it. -/
theorem kindOf_setAll {c d : Context} {s : List (String × Value)} {path : String}
    (h : (∀ x ∈ s, Apart x.1 path) → c.kindOf path = d.kindOf path) :
    (c.setAll s).kindOf path = (d.setAll s).kindOf path := by
  induction s generalizing c d with
  | nil => exact h (by simp)
  | cons x s ih =>
    refine ih fun hs => ?_
    unfold kindOf
    rw [get_set, get_set]
    split
    · rfl
    · split
      · rename_i hx
        exact h (List.forall_mem_cons.mpr ⟨hx, hs⟩)
      · rfl

/-- A change to settings that no kind shows. -/
inductive Retouched : List (String × Value) → List (String × Value) → Prop
  /-- Another value of the same kind. -/
  | value {l r : List (String × Value)} {p : String} {v w : Value} (kind : v.kind = w.kind) :
      Retouched (l ++ (p, v) :: r) (l ++ (p, w) :: r)
  /-- Another value, of any kind, that a later setting writes over. -/
  | overwritten {l r : List (String × Value)} {p : String} {v w : Value} {x : String × Value}
      (later : x ∈ r) (meets : ¬Apart p x.1) : Retouched (l ++ (p, v) :: r) (l ++ (p, w) :: r)
  /-- Two neighbours in the other order. -/
  | order {l r : List (String × Value)} {x y : String × Value} (apart : Apart x.1 y.1) :
      Retouched (l ++ x :: y :: r) (l ++ y :: x :: r)

theorem Retouched.kindOf {s t : List (String × Value)} (h : Retouched s t) (c : Context)
    (path : String) : (c.setAll s).kindOf path = (c.setAll t).kindOf path := by
  have hreplace {l r : List (String × Value)} {p : String} {v w : Value}
      (hpath : (∀ x ∈ r, Apart x.1 p) → v.kind = w.kind) :
      (c.setAll (l ++ (p, v) :: r)).kindOf path = (c.setAll (l ++ (p, w) :: r)).kindOf path := by
    rw [setAll_append, setAll_append]
    refine kindOf_setAll (c := (c.setAll l).set p v) (d := (c.setAll l).set p w) fun hr => ?_
    unfold Context.kindOf
    rw [get_set, get_set]
    split
    · rename_i heq
      subst heq
      exact congrArg some (hpath hr)
    · rfl
  cases h with
  | value kind => exact hreplace fun _ => kind
  | overwritten later meets => exact hreplace fun hr => absurd (hr _ later).symm meets
  | @order l r x y apart =>
    have hsame : c.setAll (l ++ x :: y :: r) = c.setAll (l ++ y :: x :: r) := by
      rw [setAll_append, setAll_append]
      exact congrArg (setAll · r) (set_comm (c.setAll l) apart x.2 y.2)
    rw [hsame]

end Context

namespace Shape

open Context (ofSettings Retouched)

/-- **Contexts have one shape exactly if they have fields of the same kinds.** So contexts made of
settings at paths that do not start with a dot have one shape if the settings differ only in their
order, in values that are overwritten and in values of one kind. -/
theorem ofContext_eq_iff_kinds {s t : List (String × Value)}
    (hs : ∀ x ∈ s, x.1.toList.head? ≠ some '.') (ht : ∀ x ∈ t, x.1.toList.head? ≠ some '.') :
    (ofContext (ofSettings s) = ofContext (ofSettings t) ↔
      ∀ path, (ofSettings s).kindOf path = (ofSettings t).kindOf path) ∧
    (Relation.ReflTransGen Retouched s t →
      ofContext (ofSettings s) = ofContext (ofSettings t)) := by
  have hiff := ofContext_eq_iff (Context.regular_empty.setAll hs) (Context.regular_empty.setAll ht)
  refine ⟨hiff, fun h => hiff.mpr fun path => ?_⟩
  clear hs ht hiff
  induction h with
  | refl => rfl
  | tail _ hstep ih => exact ih.trans (hstep.kindOf _ path)

/-- A value that is overwritten, another one of its kind, and two neighbours in the other order. -/
theorem ofContext_eq_iff_kinds_of_retouched :
    let s : List (String × Value) :=
      [("a.x", .int 1), ("a", .str "x"), ("a-b", .bool true), ("a.x", .int 2)]
    let t : List (String × Value) :=
      [("a.x", .bool true), ("a", .str "x"), ("a.x", .int 2), ("a-b", .bool false)]
    let u : List (String × Value) := [("a-b", .bool false), ("a.x", .float .zero)]
    (∀ x ∈ s, x.1.toList.head? ≠ some '.') ∧ (∀ x ∈ t, x.1.toList.head? ≠ some '.') ∧
    (∀ x ∈ u, x.1.toList.head? ≠ some '.') ∧ Relation.ReflTransGen Retouched s t ∧
    ofContext (ofSettings s) = ofContext (ofSettings t) ∧
    ofContext (ofSettings s) ≠ ofContext (ofSettings u) := by
  intro s t u
  have hs : ∀ x ∈ s, x.1.toList.head? ≠ some '.' := by decide
  have ht : ∀ x ∈ t, x.1.toList.head? ≠ some '.' := by decide
  have hu : ∀ x ∈ u, x.1.toList.head? ≠ some '.' := by decide
  have hmeets : ¬Context.Apart "a.x" "a" := by decide +kernel
  have hapart : Context.Apart "a-b" "a.x" := by decide +kernel
  have hoverwritten : Retouched s
      [("a.x", .bool true), ("a", .str "x"), ("a-b", .bool true), ("a.x", .int 2)] :=
    .overwritten (l := []) List.mem_cons_self hmeets
  have hvalue : Retouched
      [("a.x", .bool true), ("a", .str "x"), ("a-b", .bool true), ("a.x", .int 2)]
      [("a.x", .bool true), ("a", .str "x"), ("a-b", .bool false), ("a.x", .int 2)] :=
    .value (l := [("a.x", .bool true), ("a", .str "x")]) rfl
  have horder : Retouched
      [("a.x", .bool true), ("a", .str "x"), ("a-b", .bool false), ("a.x", .int 2)] t :=
    .order (l := [("a.x", .bool true), ("a", .str "x")]) hapart
  have hretouched : Relation.ReflTransGen Retouched s t :=
    .tail (.tail (.single hoverwritten) hvalue) horder
  refine ⟨hs, ht, hu, hretouched, (ofContext_eq_iff_kinds hs ht).2 hretouched, fun heq => ?_⟩
  have hkinds := (ofContext_eq_iff_kinds hs hu).1.mp heq "a.x"
  have hint : (ofSettings s).kindOf "a.x" = some .int := by cbv
  have hfloat : (ofSettings u).kindOf "a.x" = some .float := by cbv
  rw [hint, hfloat] at hkinds
  cases hkinds

end Shape

end GuardedConfig
