import GuardedConfig.Proofs.Context.Leaves

/-!
# What a context lists

A context lists each of its values once. It writes the path anew from the names that lead to the
value, and a level whose own path is empty adds no dot; so every dot at the front of the path that
leads to the value is lost, and all others stay.

Results:
* `foldl_fieldPath_eq`: the listed path of a value is the path that leads to it, without the dots
  at its front.
* `perm_flatten`: the listing is made of the values that paths lead to, each by its listed path.
* `flatten_lists_fields`: the listing holds the paths that lead to values exactly if none of these
  starts with a dot.
* `flatten_loses_front_dot`: two values listed by one path.
-/

namespace GuardedConfig

namespace Entries

/-- Every value of a level is reached by names of its own. -/
theorem nodup_named {es : Entries} (h : es.Sorted) : (es.named.map Prod.fst).Nodup := by
  induction es with
  | nil => exact List.nodup_nil
  | leaf k v rest ih =>
    refine List.nodup_cons.mpr ⟨fun hmem => ?_, ih h.2⟩
    obtain ⟨⟨ns, w⟩, hf, rfl⟩ := List.mem_map.mp hmem
    exact not_mem_named_of_lt h.1 [] w hf
  | nested k below rest ihb ih =>
    have hbelow : (below.named.map fun f => k :: f.1).Nodup := by
      have hinj : Function.Injective (List.cons k) := List.cons_injective
      simpa [Function.comp_def] using (ihb h.2.1).map hinj
    rw [named, List.map_append, List.map_map]
    refine List.nodup_append.mpr ⟨hbelow, ih h.2.2, ?_⟩
    rintro _ hleft _ hright rfl
    obtain ⟨f, -, rfl⟩ := List.mem_map.mp hleft
    obtain ⟨⟨ns, w⟩, hf, rfl⟩ := List.mem_map.mp hright
    exact not_mem_named_of_lt h.1 f.1 w hf

end Entries

namespace Context

open Entries (fieldPath)

/-- The path without the dots at its front. -/
def listedPath (path : String) : String :=
  String.ofList (path.toList.dropWhile (· = '.'))

theorem head?_listedPath (path : String) : (listedPath path).toList.head? ≠ some '.' := by
  intro h
  rw [listedPath, String.toList_ofList] at h
  have hhead := List.head?_dropWhile_not (· = '.') path.toList
  rw [h] at hhead
  simp at hhead

theorem listedPath_of_head? {path : String} (h : path.toList.head? ≠ some '.') :
    listedPath path = path := by
  have hdrop : path.toList.dropWhile (· = '.') = path.toList := by
    cases hp : path.toList with
    | nil => rfl
    | cons c cs =>
      have hc : c ≠ '.' := by simpa [hp] using h
      rw [List.dropWhile_cons_of_neg (by simpa using hc)]
  rw [listedPath, hdrop, String.ofList_toList]

/-- Joined names start with a dot only if an empty name stands before others. -/
theorem head?_join {n : String} {ns : List String} (hdot : '.' ∉ n.toList)
    (hempty : n = "" → ns = []) : (Pieces.join '.' (n :: ns)).toList.head? ≠ some '.' := by
  cases hn : n.toList with
  | nil =>
    rw [hempty (String.toList_eq_nil_iff.mp hn)]
    simp [Pieces.join, Pieces.joinList, hn]
  | cons c cs =>
    have hc : c ≠ '.' := by
      rintro rfl
      exact hdot (by simp [hn])
    cases ns with
    | nil => simpa [Pieces.join, Pieces.joinList, hn] using hc
    | cons m ms => simpa [Pieces.join, Pieces.joinList, hn] using hc

/-- Names are listed by the path that they spell, without the dots at its front. -/
theorem foldl_fieldPath_eq {ns : List String} (hne : ns ≠ [])
    (hdot : ∀ n ∈ ns, '.' ∉ n.toList) :
    ns.foldl fieldPath "" = listedPath (Pieces.join '.' ns) := by
  induction ns with
  | nil => exact absurd rfl hne
  | cons n ns ih =>
    by_cases hempty : n = "" ∧ ns ≠ []
    · -- an empty name before others leaves the listed path as it is, and a dot at the front
      obtain ⟨rfl, hns⟩ := hempty
      have hjoin : (Pieces.join '.' ("" :: ns)).toList = '.' :: (Pieces.join '.' ns).toList := by
        obtain ⟨m, ms, rfl⟩ := List.exists_cons_of_ne_nil hns
        simp [Pieces.join, Pieces.joinList]
      have hlisted := ih hns fun m hm => hdot m (List.mem_cons_of_mem _ hm)
      rw [List.foldl_cons, fieldPath, if_pos rfl, hlisted, listedPath, listedPath, hjoin,
        List.dropWhile_cons_of_pos (by simp)]
    · have hfirst : n = "" → ns = [] := by
        intro hn
        by_contra hns
        exact hempty ⟨hn, hns⟩
      have hhead := head?_join (hdot n List.mem_cons_self) hfirst
      rw [foldl_fieldPath_root hne hhead, listedPath_of_head? hhead]

/-- The values of a context, each with the path that leads to it. -/
def fields (c : Context) : List (String × Value) :=
  c.entries.named.map fun f => (Pieces.join '.' f.1, f.2)

theorem mem_fields {c : Context} {path : String} {v : Value} :
    (path, v) ∈ c.fields ↔ c.get path = some v := by
  constructor
  · intro h
    obtain ⟨⟨ns, w⟩, hmem, heq⟩ := List.mem_map.mp h
    cases heq
    exact get_join hmem
  · intro h
    exact List.mem_map.mpr ⟨_, mem_named_of_get h, by rw [join_segments]⟩

theorem nodup_fields (c : Context) : (c.fields.map Prod.fst).Nodup := by
  have hnamed := Entries.nodup_named c.sorted
  rw [fields, List.map_map, List.nodup_map_iff_inj_on hnamed.of_map]
  intro f hf g hg hfg
  have hpieces {e : List String × Value} (he : e ∈ c.entries.named) :
      Pieces.cut '.' (Pieces.join '.' e.1) = e.1 :=
    Pieces.cut_join (Entries.ne_nil_of_mem_named he) (c.undotted.not_mem he)
  have hnames : f.1 = g.1 := by
    rw [← hpieces hf, ← hpieces hg]
    exact congrArg (Pieces.cut '.') hfg
  exact List.inj_on_of_nodup_map hnamed hf hg hnames

/-- The listing is made of the values of the context, each by its listed path. -/
theorem perm_flatten (c : Context) :
    c.flatten.Perm (c.fields.map fun f => (listedPath f.1, f.2)) := by
  have hleaves : c.entries.leaves "" = c.fields.map fun f => (listedPath f.1, f.2) := by
    rw [Entries.leaves_eq_map, fields, List.map_map]
    refine List.map_congr_left fun f hf => ?_
    rw [foldl_fieldPath_eq (Entries.ne_nil_of_mem_named hf) (c.undotted.not_mem hf)]
    rfl
  rw [← hleaves]
  exact List.mergeSort_perm _ _

theorem nodup_flatten {c : Context} (hc : c.Regular) : (c.flatten.map Prod.fst).Nodup := by
  have hpaths : (c.fields.map fun f => (listedPath f.1, f.2)).map Prod.fst =
      c.fields.map Prod.fst := by
    rw [List.map_map]
    exact List.map_congr_left fun f hf => listedPath_of_head? (hc _ _ (mem_fields.mp hf))
  rw [(c.perm_flatten.map Prod.fst).nodup_iff, hpaths]
  exact c.nodup_fields

theorem head?_of_mem_flatten {c : Context} {path : String} {v : Value}
    (h : (path, v) ∈ c.flatten) : path.toList.head? ≠ some '.' := by
  obtain ⟨f, -, heq⟩ := List.mem_map.mp (c.perm_flatten.mem_iff.mp h)
  obtain ⟨rfl, -⟩ := Prod.mk.inj heq
  exact head?_listedPath f.1

/-- **What a context lists.** The listing holds every value that a path leads to, once, by that path
without the dots at its front, and nothing else. So it holds exactly the paths that lead to values,
each once, if none of these starts with a dot, and only then. -/
theorem flatten_lists_fields (c : Context) :
    ((∀ path v, (path, v) ∈ c.fields ↔ c.get path = some v) ∧ (c.fields.map Prod.fst).Nodup ∧
      c.flatten.Perm (c.fields.map fun f => (listedPath f.1, f.2))) ∧
    (((∀ path v, (path, v) ∈ c.flatten ↔ c.get path = some v) ∧ (c.flatten.map Prod.fst).Nodup) ↔
      c.Regular) := by
  refine ⟨⟨fun path v => mem_fields, c.nodup_fields, c.perm_flatten⟩, ?_, fun hc => ?_⟩
  · rintro ⟨hmem, -⟩ path v hget
    exact head?_of_mem_flatten ((hmem path v).mpr hget)
  · exact ⟨fun path v => mem_flatten_iff_get hc, nodup_flatten hc⟩

/-- A value whose path starts with a dot is listed by the path of another one. -/
theorem flatten_loses_front_dot :
    let c := ofSettings [("a", .bool true), (".a", .int 1)]
    c.flatten = [("a", .int 1), ("a", .bool true)] ∧
    ¬((".a", .int 1) ∈ c.flatten ↔ c.get ".a" = some (.int 1)) ∧
    ¬(c.flatten.map Prod.fst).Nodup := by
  intro c
  have hlisted : c.flatten = [("a", .int 1), ("a", .bool true)] := by cbv
  have hget : c.get ".a" = some (.int 1) := by cbv
  rw [hlisted, hget]
  exact ⟨rfl, by simp, by simp⟩

end Context

end GuardedConfig
