import Mathlib
import GuardedConfig.Context.Json
import GuardedConfig.Proofs.Context.Settings
import GuardedConfig.Proofs.Json.Rows

/-!
# Contexts of documents

Every scalar of a document is set at the path of the names and indices that lead to it. Where no
name has a dot, a path spells one row only. No other scalar is on the way to a scalar or below it,
so the settings are apart from each other: none takes away what another has set, and in the end each
value is at its path and nothing is anywhere else.

Results:
* `get_ofSettings_iff`: settings apart from each other all stay.
* `Json.mem_settings_iff`: the settings of a document are those of the scalars that rows lead to.
* `ofJson_keeps_scalars`: a context of a document and the document, path by path.
-/

namespace GuardedConfig

/-- The whole numbers of 64 bits with a sign. -/
theorem exists_toInt_eq {i : Int} :
    (∃ k : Int64, k.toInt = i) ↔ -(signedLimit : Int) ≤ i ∧ i < signedLimit := by
  constructor
  · rintro ⟨k, rfl⟩
    exact ⟨k.le_toInt, k.toInt_lt⟩
  · intro h
    exact ⟨Int64.ofInt i, Int64.toInt_ofInt_of_le h.1 h.2⟩

theorem dot_not_mem_toString (n : Nat) : '.' ∉ (toString n).toList := by
  intro h
  exact absurd (isDigit_of_mem_toString h) (by decide)

namespace Json

/-! ## Scalars as field values -/

/-- A scalar is read as a field value: a whole number as one of 64 bits with a sign if it is one,
and as the double nearest to it otherwise. -/
inductive Reads : Json → Value → Prop
  | bool (b : Bool) : Reads (bool b) (.bool b)
  | string (s : String) : Reads (string s) (.str s)
  | whole (i : Int64) : Reads (number (.int i.toInt)) (.int i)
  | wide {i : Int} (h : ∀ k : Int64, k.toInt ≠ i) : Reads (number (.int i)) (.float (.ofInt i))
  | float (x : Binary64) : Reads (number (.float x)) (.float x)

/-- The field value that a scalar makes. -/
def fieldValue? : Json → Option Value
  | .bool b => some (.bool b)
  | .number n => some n.value
  | .string s => some (.str s)
  | _ => none

theorem reads_iff {j : Json} {v : Value} : j.Reads v ↔ j.fieldValue? = some v := by
  constructor
  · intro h
    cases h with
    | bool b | string s | float x => rfl
    | whole i =>
      have hrange := exists_toInt_eq.mp ⟨i, rfl⟩
      rw [fieldValue?, JsonNumber.value, if_pos hrange, Int64.ofInt_toInt]
    | wide h =>
      have hrange := mt exists_toInt_eq.mpr (not_exists.mpr h)
      rw [fieldValue?, JsonNumber.value, if_neg hrange]
  · intro h
    cases j with
    | bool b | string s =>
      cases h
      constructor
    | number n =>
      cases n with
      | float x =>
        cases h
        exact .float x
      | int i =>
        cases h
        rw [JsonNumber.value]
        split
        · rename_i hrange
          obtain ⟨k, rfl⟩ := exists_toInt_eq.mpr hrange
          rw [Int64.ofInt_toInt]
          exact .whole k
        · rename_i hrange
          exact .wide (not_exists.mp (mt exists_toInt_eq.mp hrange))
    | null | array _ | object _ => cases h

/-- A value that is read has no parts. -/
theorem parts_of_fieldValue {j : Json} {v : Value} (h : j.fieldValue? = some v) : j.parts = [] := by
  cases j with
  | bool _ | number _ | string _ => rfl
  | null | array _ | object _ => cases h

/-! ## Settings and rows -/

/-- No member of an object in the value has a name with a dot. -/
inductive Undotted : Json → Prop
  | mk {j : Json} (names : ∀ members, j = object members → ∀ m ∈ members, '.' ∉ m.1.toList)
      (below : ∀ p ∈ j.parts, p.2.Undotted) : Undotted j

theorem Undotted.keys {j : Json} (h : j.Undotted) : ∀ p ∈ j.parts, '.' ∉ p.1.toList := by
  obtain ⟨hnames, -⟩ := h
  intro p hp
  cases j with
  | null | bool _ | number _ | string _ => cases hp
  | array items =>
    obtain ⟨i, hi, -⟩ := mem_itemParts_iff.mp hp
    rw [hi]
    exact dot_not_mem_toString i
  | object members => exact hnames members rfl p hp

theorem itemSettings_eq (path : String) (i : Nat) (items : List Json) :
    itemSettings path i items =
      (itemParts i items).flatMap fun p => p.2.settings (path ++ "." ++ p.1) := by
  induction items generalizing i with
  | nil => rfl
  | cons j items ih => rw [itemSettings, itemParts_cons, List.flatMap_cons, ih]

theorem memberSettings_eq (path : String) (members : List (String × Json)) :
    memberSettings path members =
      members.flatMap fun p => p.2.settings (path ++ "." ++ p.1) := by
  induction members with
  | nil => rfl
  | cons m members ih => rw [memberSettings, List.flatMap_cons, ih]

/-- A scalar is set at its path, and what is inside a part at the path of the part or below. -/
theorem settings_eq (path : String) (j : Json) :
    j.settings path = (j.fieldValue?.toList.map (path, ·)) ++
      j.parts.flatMap fun p => p.2.settings (path ++ "." ++ p.1) := by
  cases j with
  | null | bool _ | number _ | string _ =>
    rw [settings]
    rfl
  | array items =>
    rw [settings]
    exact itemSettings_eq path 0 items
  | object members =>
    rw [settings]
    exact memberSettings_eq path members

end Json

namespace Context

/-- A name without dots behind a path is the last one of the longer path. -/
theorem segments_extend (path : String) {name : String} (h : '.' ∉ name.toList) :
    segments (path ++ "." ++ name) = segments path ++ [name] := by
  have hchars : (path ++ "." ++ name).toList = path.toList ++ '.' :: name.toList := by simp
  rw [segments, Pieces.cut, hchars, Pieces.cutList_append, Pieces.cutList_of_not_mem h,
    List.map_append]
  simp [segments, Pieces.cut]

theorem segments_of_undotted {name : String} (h : '.' ∉ name.toList) : segments name = [name] := by
  rw [segments, Pieces.cut, Pieces.cutList_of_not_mem h]
  simp

end Context

namespace Json

open Context (segments)

/-- The settings below a path are those of the scalars that rows lead to, each at the path with its
row behind it. -/
theorem mem_settings_iff {j : Json} (h : j.Undotted) {path q : String} {v : Value} :
    (q, v) ∈ j.settings path ↔
      ∃ row part, segments q = segments path ++ row ∧ j.Leads row part ∧
        part.fieldValue? = some v := by
  induction h generalizing path with
  | @mk j hnames hbelow ih =>
    have hkeys := (Undotted.mk hnames hbelow).keys
    rw [settings_eq, List.mem_append, List.mem_flatMap]
    constructor
    · rintro (hself | ⟨p, hp, hmem⟩)
      · obtain ⟨w, hw, heq⟩ := List.mem_map.mp hself
        cases heq
        refine ⟨[], j, (List.append_nil _).symm, .here j, ?_⟩
        exact Option.mem_toList.mp hw
      · obtain ⟨row, part, hq, hleads, hv⟩ := (ih p hp).mp hmem
        rw [Context.segments_extend path (hkeys p hp), List.append_assoc] at hq
        exact ⟨p.1 :: row, part, hq, leads_cons_iff.mpr ⟨p.2, hp, hleads⟩, hv⟩
    · rintro ⟨row, part, hq, hleads, hv⟩
      cases row with
      | nil =>
        rw [List.append_nil] at hq
        rw [leads_nil_iff] at hleads
        subst hleads
        refine .inl (List.mem_map.mpr ⟨v, Option.mem_toList.mpr hv, ?_⟩)
        rw [Context.segments_injective hq]
      | cons k row =>
        obtain ⟨next, hnext, hleads⟩ := leads_cons_iff.mp hleads
        refine .inr ⟨(k, next), hnext, (ih _ hnext).mpr ⟨row, part, ?_, hleads, hv⟩⟩
        rw [Context.segments_extend path (hkeys _ hnext), hq, List.append_assoc]
        rfl

end Json

namespace Context

/-- The settings that a document makes. -/
def settingsOf (members : List (String × Json)) : List (String × Value) :=
  members.flatMap fun m => m.2.settings m.1

theorem mem_settingsOf_iff {members : List (String × Json)} (h : (Json.object members).Undotted)
    {q : String} {v : Value} :
    (q, v) ∈ settingsOf members ↔
      ∃ part, (Json.object members).Leads (segments q) part ∧ part.fieldValue? = some v := by
  have hkeys := h.keys
  obtain ⟨-, hbelow⟩ := h
  rw [settingsOf, List.mem_flatMap]
  constructor
  · rintro ⟨m, hm, hmem⟩
    obtain ⟨row, part, hq, hleads, hv⟩ := (Json.mem_settings_iff (hbelow m hm)).mp hmem
    rw [segments_of_undotted (hkeys m hm)] at hq
    rw [hq]
    exact ⟨part, .member hm hleads, hv⟩
  · rintro ⟨part, hleads, hv⟩
    obtain ⟨k, row, hq⟩ := List.exists_cons_of_ne_nil (segments_ne_nil q)
    rw [hq] at hleads
    obtain ⟨next, hnext, hleads⟩ := Json.leads_cons_iff.mp hleads
    have hpath : segments q = segments k ++ row := by
      rw [hq, segments_of_undotted (hkeys _ hnext)]
      rfl
    exact ⟨(k, next), hnext,
      (Json.mem_settings_iff (hbelow _ hnext)).mpr ⟨row, part, hpath, hleads, hv⟩⟩

/-! ## Settings apart from each other -/

/-- Settings apart from each other all stay, and nothing else is there. -/
theorem get_ofSettings_iff {s : List (String × Value)}
    (h : ∀ x ∈ s, ∀ y ∈ s, x ≠ y → Apart x.1 y.1) {p : String} {v : Value} :
    (ofSettings s).get p = some v ↔ (p, v) ∈ s := by
  induction s using List.reverseRecOn with
  | nil =>
    constructor
    · intro hget
      cases hget
    · intro hmem
      cases hmem
  | append_singleton s x ih =>
    have hset : ofSettings (s ++ [x]) = (ofSettings s).set x.1 x.2 := by
      rw [ofSettings, List.foldl_append]
      rfl
    have hrest := ih fun y hy z hz => h y (List.mem_append_left _ hy) z (List.mem_append_left _ hz)
    have hlast (hin : (p, v) ∈ s) (hne : (p, v) ≠ x) : Apart p x.1 :=
      h _ (List.mem_append_left _ hin) x (by simp) hne
    rw [hset, get_set, List.mem_append, List.mem_singleton]
    by_cases hx : p = x.1
    · rw [if_pos hx, Option.some.injEq]
      constructor
      · rintro rfl
        exact .inr (by rw [hx])
      · intro hmem
        by_contra hvalue
        have hne : (p, v) ≠ x := by
          rintro rfl
          exact hvalue rfl
        have hapart := hlast (hmem.resolve_right hne) hne
        rw [hx] at hapart
        exact hapart.1 List.prefix_rfl
    · have hne : (p, v) ≠ x := by
        rintro rfl
        exact hx rfl
      rw [if_neg hx, or_iff_left hne]
      split
      · exact hrest
      · rename_i hway
        exact iff_of_false (Option.some_ne_none v).symm fun hin => hway (hlast hin hne).symm

/-- The row of a scalar does not begin that of another one, since no row leads on from a scalar. -/
theorem not_prefix_of_mem_settingsOf {members : List (String × Json)}
    (hdistinct : (Json.object members).Distinct) (hnames : (Json.object members).Undotted)
    {p q : String} {v w : Value} (hp : (p, v) ∈ settingsOf members)
    (hq : (q, w) ∈ settingsOf members) (hne : (p, v) ≠ (q, w)) :
    ¬segments p <+: segments q := by
  rintro ⟨rest, hrest⟩
  obtain ⟨part, hpart, hv⟩ := (mem_settingsOf_iff hnames).mp hp
  obtain ⟨other, hother, hw⟩ := (mem_settingsOf_iff hnames).mp hq
  rw [← hrest, Json.leads_append_iff] at hother
  obtain ⟨between, hbetween, hon⟩ := hother
  cases hpart.unique hdistinct hbetween
  have hnil := hon.eq_nil_of_parts (Json.parts_of_fieldValue hv)
  subst hnil
  rw [List.append_nil] at hrest
  rw [Json.leads_nil_iff] at hon
  subst hon
  cases segments_injective hrest
  cases hv.symm.trans hw
  exact hne rfl

theorem get_settingsOf_iff {members : List (String × Json)}
    (hdistinct : (Json.object members).Distinct) (hnames : (Json.object members).Undotted)
    {p : String} {v : Value} :
    (ofSettings (settingsOf members)).get p = some v ↔
      ∃ part, (Json.object members).Leads (segments p) part ∧ part.Reads v := by
  have happart : ∀ x ∈ settingsOf members, ∀ y ∈ settingsOf members, x ≠ y → Apart x.1 y.1 := by
    intro x hx y hy hne
    exact ⟨not_prefix_of_mem_settingsOf hdistinct hnames hx hy hne,
      not_prefix_of_mem_settingsOf hdistinct hnames hy hx hne.symm⟩
  rw [get_ofSettings_iff happart, mem_settingsOf_iff hnames]
  simp only [Json.reads_iff]

/-- **A context of a document keeps every scalar.** In a document without repeated names and without
dots in names, the value at the path of a row of keys is the scalar that the row leads to. There is
none where the row leads to a null, an array or an object, or to nothing. -/
theorem ofJson_keeps_scalars {members : List (String × Json)}
    (hdistinct : (Json.object members).Distinct) (hnames : (Json.object members).Undotted) :
    ∃ c, ofJson (.object members) = .ok c ∧
      ∀ row ≠ [], (∀ name ∈ row, '.' ∉ name.toList) →
        (∀ v, c.get (Pieces.join '.' row) = some v ↔
          ∃ part, (Json.object members).Leads row part ∧ part.Reads v) ∧
        ((∀ part, (Json.object members).Leads row part →
            part = .null ∨ (∃ items, part = .array items) ∨ ∃ below, part = .object below) →
          c.get (Pieces.join '.' row) = none) := by
  refine ⟨ofSettings (settingsOf members), rfl, fun row hne hrow => ?_⟩
  have hget {v : Value} : (ofSettings (settingsOf members)).get (Pieces.join '.' row) = some v ↔
      ∃ part, (Json.object members).Leads row part ∧ part.Reads v := by
    rw [get_settingsOf_iff hdistinct hnames, segments, Pieces.cut_join hne hrow]
  refine ⟨fun v => hget, fun hother => Option.eq_none_iff_forall_ne_some.mpr fun v hv => ?_⟩
  obtain ⟨part, hleads, hreads⟩ := hget.mp hv
  obtain rfl | ⟨items, rfl⟩ | ⟨below, rfl⟩ := hother part hleads <;> cases hreads

/-- Empty names, a whole number beyond 64 bits with a sign and an array, in one document. -/
theorem ofJson_keeps_scalars_of_nested :
    let members : List (String × Json) :=
      [("", .object [("", .string "x")]),
        ("b", .array [.null, .number (.int 18446744073709551615)])]
    (Json.object members).Distinct ∧ (Json.object members).Undotted ∧
      ∃ c, ofJson (.object members) = .ok c ∧
        c.get "." = some (.str "x") ∧
        c.get "b.1" = some (.float (.ofInt 18446744073709551615)) ∧ c.get "b" = none := by
  intro members
  let text := "\x7b\"\": \x7b\"\": \"x\"\x7d, \"b\": [null, 18446744073709551615]\x7d"
  have hload : Json.load text = .ok (.object members) := by cbv
  have hdistinct : (Json.object members).Distinct := Json.distinct_load hload
  have hleaf {j : Json} (hparts : j.parts = []) (hother : ∀ below, j ≠ .object below) :
      j.Undotted := .mk (fun below h => absurd h (hother below)) (by simp [hparts])
  have hinner : (Json.object [("", .string "x")]).Undotted :=
    .mk (by rintro _ ⟨⟩; decide) (by simpa [Json.parts] using hleaf rfl (by simp))
  have hitems : (Json.array [.null, .number (.int 18446744073709551615)]).Undotted :=
    .mk (by rintro _ ⟨⟩) (by
      simpa [Json.parts, Json.itemParts] using ⟨hleaf rfl (by simp), hleaf rfl (by simp)⟩)
  have hnames : (Json.object members).Undotted :=
    .mk (by rintro _ ⟨⟩; decide) (by simpa [Json.parts, members] using ⟨hinner, hitems⟩)
  obtain ⟨c, hc, hrows⟩ := ofJson_keeps_scalars hdistinct hnames
  have hfollow {row : List String} {part : Json} : (Json.object members).Leads row part ↔
      (Json.object members).follow row = some part := Json.leads_iff_follow hdistinct
  have hwide (k : Int64) : k.toInt ≠ 18446744073709551615 := by
    have hlt := k.toInt_lt
    omega
  refine ⟨hdistinct, hnames, c, hc, ?_, ?_, ?_⟩
  · have hleads : (Json.object members).Leads ["", ""] (.string "x") :=
      .member List.mem_cons_self (.member List.mem_cons_self (.here _))
    exact ((hrows ["", ""] (by decide) (by decide)).1 _).mpr ⟨_, hleads, .string "x"⟩
  · exact ((hrows ["b", "1"] (by decide) (by decide)).1 _).mpr
      ⟨_, hfollow.mpr (by cbv), .wide hwide⟩
  · have hlist : (Json.object members).follow ["b"] =
        some (.array [.null, .number (.int 18446744073709551615)]) := by cbv
    refine (hrows ["b"] (by decide) (by decide)).2 fun part hpart => .inr (.inl ?_)
    rw [hfollow, hlist] at hpart
    cases hpart
    exact ⟨_, rfl⟩

end Context

end GuardedConfig
