/-!
# Texts cut at a separator

Dotted field paths and colon-separated tree paths are both texts cut at every occurrence of one
character. Cutting never loses anything: a text with `n` separators has `n + 1` pieces, and the
empty text has the one empty piece.

Results:
* `join_cut`: joining the pieces gives the text back.
* `cut_join`: cutting a join of separator-free pieces gives the pieces back.
* `cutList_append`: a text is cut at any separator in it, and on both sides on its own.
* `not_mem_of_mem_cut`: no piece holds the separator.
-/

namespace GuardedConfig.Pieces

/-- The pieces of a list of characters between the occurrences of `sep`. -/
def cutList (sep : Char) : List Char → List (List Char)
  | [] => [[]]
  | c :: cs =>
    if c = sep then [] :: cutList sep cs
    else
      match cutList sep cs with
      | [] => [[c]]
      | p :: ps => (c :: p) :: ps

/-- The pieces joined with `sep` between neighbours. -/
def joinList (sep : Char) : List (List Char) → List Char
  | [] => []
  | [p] => p
  | p :: q :: ps => p ++ sep :: joinList sep (q :: ps)

/-- The pieces of a text between the occurrences of `sep`. -/
def cut (sep : Char) (s : String) : List String :=
  (cutList sep s.toList).map String.ofList

/-- Texts joined with `sep` between neighbours. -/
def join (sep : Char) (ps : List String) : String :=
  String.ofList (joinList sep (ps.map String.toList))

theorem cutList_ne_nil (sep : Char) (cs : List Char) : cutList sep cs ≠ [] := by
  cases cs with
  | nil => simp [cutList]
  | cons c cs =>
    simp only [cutList]
    split
    · simp
    · split <;> simp

theorem joinList_cutList (sep : Char) (cs : List Char) : joinList sep (cutList sep cs) = cs := by
  induction cs with
  | nil => rfl
  | cons c cs ih =>
    simp only [cutList]
    split
    · rename_i h
      cases hp : cutList sep cs with
      | nil => exact absurd hp (cutList_ne_nil sep cs)
      | cons p ps => rw [hp] at ih; simp [joinList, ih, h]
    · split
      · rename_i hp
        exact absurd hp (cutList_ne_nil sep cs)
      · rename_i p ps hp
        rw [hp] at ih
        cases ps with
        | nil => simpa [joinList] using ih
        | cons q qs => simpa [joinList] using ih

theorem joinList_concat (sep : Char) {ps : List (List Char)} (hne : ps ≠ []) (q : List Char) :
    joinList sep (ps ++ [q]) = joinList sep ps ++ sep :: q := by
  induction ps with
  | nil => exact absurd rfl hne
  | cons p ps ih =>
    cases ps with
    | nil => rfl
    | cons r rs =>
      have hrest := ih (by simp)
      simp only [List.cons_append, joinList] at hrest ⊢
      rw [hrest, List.append_assoc]
      rfl

theorem cutList_of_not_mem {sep : Char} {p : List Char} (h : sep ∉ p) : cutList sep p = [p] := by
  induction p with
  | nil => rfl
  | cons c cs ih =>
    have hc : c ≠ sep := fun e => h (e ▸ List.mem_cons_self ..)
    have hcs : sep ∉ cs := fun m => h (List.mem_cons_of_mem c m)
    simp [cutList, hc, ih hcs]

theorem cutList_append_sep {sep : Char} {p : List Char} (h : sep ∉ p) (cs : List Char) :
    cutList sep (p ++ sep :: cs) = p :: cutList sep cs := by
  induction p with
  | nil => simp [cutList]
  | cons c p ih =>
    have hc : c ≠ sep := fun e => h (e ▸ List.mem_cons_self ..)
    have hp : sep ∉ p := fun m => h (List.mem_cons_of_mem c m)
    simp [cutList, hc, ih hp]

/-- A text with a separator in it is cut there, and on both sides. -/
theorem cutList_append (sep : Char) (p cs : List Char) :
    cutList sep (p ++ sep :: cs) = cutList sep p ++ cutList sep cs := by
  induction p with
  | nil => simp [cutList]
  | cons c p ih =>
    by_cases hc : c = sep
    · simp [cutList, hc, ih]
    · obtain ⟨q, qs, hq⟩ := List.exists_cons_of_ne_nil (cutList_ne_nil sep p)
      simp [cutList, hc, ih, hq]

theorem cutList_joinList {sep : Char} {ps : List (List Char)} (hne : ps ≠ [])
    (h : ∀ p ∈ ps, sep ∉ p) : cutList sep (joinList sep ps) = ps := by
  induction ps with
  | nil => exact absurd rfl hne
  | cons p ps ih =>
    have hp : sep ∉ p := h p (List.mem_cons_self ..)
    cases ps with
    | nil => exact cutList_of_not_mem hp
    | cons q qs =>
      rw [joinList, cutList_append_sep hp]
      exact congrArg _ (ih (by simp) fun r hr => h r (List.mem_cons_of_mem p hr))

theorem not_mem_of_mem_cutList {sep : Char} {cs p : List Char} (h : p ∈ cutList sep cs) :
    sep ∉ p := by
  induction cs generalizing p with
  | nil =>
    rw [cutList, List.mem_singleton] at h
    simp [h]
  | cons c cs ih =>
    by_cases hc : c = sep
    · rw [cutList, if_pos hc] at h
      rcases List.mem_cons.mp h with rfl | h
      · simp
      · exact ih h
    · rw [cutList, if_neg hc] at h
      cases hcut : cutList sep cs with
      | nil => exact absurd hcut (cutList_ne_nil sep cs)
      | cons q qs =>
        rw [hcut] at h ih
        rcases List.mem_cons.mp h with rfl | h
        · simp [Ne.symm hc, ih List.mem_cons_self]
        · exact ih (List.mem_cons_of_mem q h)

theorem cut_ne_nil (sep : Char) (s : String) : cut sep s ≠ [] := by
  simp [cut, cutList_ne_nil]

theorem not_mem_of_mem_cut {sep : Char} {s p : String} (h : p ∈ cut sep s) : sep ∉ p.toList := by
  obtain ⟨q, hq, rfl⟩ := List.mem_map.mp h
  rw [String.toList_ofList]
  exact not_mem_of_mem_cutList hq

theorem join_cut (sep : Char) (s : String) : join sep (cut sep s) = s := by
  simp [join, cut, joinList_cutList, Function.comp_def]

theorem cut_join {sep : Char} {ps : List String} (hne : ps ≠ [])
    (h : ∀ p ∈ ps, sep ∉ p.toList) : cut sep (join sep ps) = ps := by
  rw [cut, join, String.toList_ofList, cutList_joinList (by simpa using hne)]
  · simp [Function.comp_def]
  · intro p hp
    obtain ⟨s, hs, rfl⟩ := List.mem_map.1 hp
    exact h s hs

end GuardedConfig.Pieces
