import GuardedConfig.Proofs.Predicate.Spelling

/-!
# Lexemes are spellings

The lexemes that a text is cut into are the tokens that stand in it, spelling by spelling, with the
blank characters in front of each.

Results:
* `lexemes_of_begins`: a token at the front of a text is its first lexeme.
* `begins_of_lexemes`: a first lexeme stands at the front of the text, unless no text spells it.
* `misread_of_lexemes`: what stands where a lexeme is no token.
* `skipBlank_length_le_of_suffix`: where fewer lexemes are left, less text is left.
-/

namespace GuardedConfig.Grammar

/-! ## First lexemes -/

theorem lexemes_of_blank {cs : List Char} (h : ∀ c ∈ cs, isBlank c = true) : lexemes cs = [] := by
  rw [lexemes]
  split
  · rfl
  · rename_i hs
    have hd : cs.dropWhile isBlank = [] := List.dropWhile_eq_nil_iff.mpr h
    rw [skipBlank, hd] at hs
    exact absurd hs (by simp)

theorem lexemes_of_skipBlank {cs rest : List Char} {c : Char} (h : skipBlank cs = c :: rest) :
    lexemes cs =
      ⟨(Token.scan c rest).1, c :: rest, (Token.scan c rest).2⟩ ::
        lexemes (Token.scan c rest).2 := by
  rw [lexemes]
  split
  · rename_i hnil
    rw [h] at hnil
    cases hnil
  · rename_i hcons
    rw [h] at hcons
    cases hcons
    rfl

theorem lexemes_eq_nil_iff {cs : List Char} : lexemes cs = [] ↔ skipBlank cs = [] := by
  constructor
  · intro h
    cases hs : skipBlank cs with
    | nil => rfl
    | cons c rest =>
      rw [lexemes_of_skipBlank hs] at h
      cases h
  · exact fun h => lexemes_of_blank (List.dropWhile_eq_nil_iff.mp h)

theorem start_of_lexemes {cs : List Char} {x : Lexeme} {xs : List Lexeme}
    (h : lexemes cs = x :: xs) : x.start = skipBlank cs := by
  cases hs : skipBlank cs with
  | nil =>
    rw [lexemes_eq_nil_iff.mpr hs] at h
    cases h
  | cons c rest =>
    rw [lexemes_of_skipBlank hs] at h
    cases h
    rfl

theorem lexemes_skipBlank (cs : List Char) : lexemes (skipBlank cs) = lexemes cs := by
  have hsplit : cs.takeWhile isBlank ++ skipBlank cs = cs := List.takeWhile_append_dropWhile
  have hskip : lexemes (cs.takeWhile isBlank ++ skipBlank cs) = lexemes (skipBlank cs) :=
    lexemes_append_blank fun c hc => List.mem_takeWhile_imp hc
  rw [← hskip, hsplit]

/-- A lexeme starts where the first one does or behind it. -/
theorem start_length_le {cs : List Char} {x : Lexeme} (h : x ∈ lexemes cs) :
    x.start.length ≤ (skipBlank cs).length := by
  fun_induction lexemes cs with
  | case1 => cases h
  | case2 cs c rest hskip scanned ih =>
    rw [hskip]
    rcases List.mem_cons.mp h with rfl | hmem
    · exact Nat.le_refl _
    · calc x.start.length
          ≤ (skipBlank scanned.2).length := ih hmem
        _ ≤ scanned.2.length := skipBlank_length_le _
        _ ≤ rest.length := Token.scan_length_le c rest
        _ ≤ (c :: rest).length := Nat.le_succ _

/-- The lexemes behind a place are the last ones of the text in front of it. -/
theorem skipBlank_length_le_of_suffix {cs rest : List Char} (h : lexemes rest <:+ lexemes cs) :
    (skipBlank rest).length ≤ (skipBlank cs).length := by
  cases hl : lexemes rest with
  | nil =>
    rw [lexemes_eq_nil_iff.mp hl]
    exact Nat.zero_le _
  | cons x xs =>
    rw [hl] at h
    rw [← start_of_lexemes hl]
    exact start_length_le (h.mem List.mem_cons_self)

/-! ## Lexemes against tokens -/

/-- The blank characters in front of a token are all that is skipped. -/
theorem Begins.skipBlank_eq {t : Token} {cs rest : List Char} (h : Begins t cs rest) :
    ∃ w, Spells t w ∧ WordEnds w rest ∧ skipBlank cs = w ++ rest := by
  obtain ⟨ws, w, hws, hw, he, rfl⟩ := h
  obtain ⟨c, w', rfl, hhead⟩ := hw.head
  refine ⟨_, hw, he, ?_⟩
  rw [skipBlank_append hws, List.cons_append, skipBlank, List.dropWhile_cons,
    if_neg (by rw [isBlank_eq_false hhead.low hhead.high]; decide)]

theorem Begins.skipBlank_openParen {cs rest : List Char} (h : Begins .openParen cs rest) :
    skipBlank cs = '(' :: rest := by
  obtain ⟨w, hw, -, hskip⟩ := h.skipBlank_eq
  cases hw
  exact hskip

/-- **A token at the front of a text is its first lexeme.** -/
theorem lexemes_of_begins {t : Token} {cs rest : List Char} (h : Begins t cs rest)
    (hs : Stops t rest) : ∃ x : Lexeme, x.token = t ∧ lexemes cs = x :: lexemes rest := by
  obtain ⟨w, hw, he, hskip⟩ := h.skipBlank_eq
  obtain ⟨c, w', rfl, hscan⟩ := scan_of_spells hw hs he
  rw [List.cons_append] at hskip
  rw [lexemes_of_skipBlank hskip, hscan]
  exact ⟨_, rfl, rfl⟩

/-- **A first lexeme that is a token stands at the front of the text**; without a lexeme the text
is blank. -/
theorem begins_of_lexemes (cs : List Char) :
    (lexemes cs = [] ∧ ∀ c ∈ cs, isBlank c = true) ∨
      ∃ x : Lexeme, lexemes cs = x :: lexemes x.stop ∧ x.stop.length < cs.length ∧
        (Legal x.token → Begins x.token cs x.stop) := by
  have hsplit := List.takeWhile_append_dropWhile (p := isBlank) (l := cs)
  have hlen := skipBlank_length_le cs
  rw [lexemes]
  split
  · rename_i hnil
    exact Or.inl ⟨rfl, List.dropWhile_eq_nil_iff.mp hnil⟩
  · rename_i c rest hcons
    refine Or.inr ⟨_, rfl, ?_, fun ht => ?_⟩
    · have := Token.scan_length_le c rest
      rw [hcons, List.length_cons] at hlen
      simp only
      omega
    · have hscan : Token.scan c rest = ((Token.scan c rest).1, (Token.scan c rest).2) := rfl
      obtain ⟨w, hw, he, hcs⟩ := (spells_or_misread hscan).resolve_right fun hm => hm.not_legal ht
      refine ⟨cs.takeWhile isBlank, w, fun d hd => List.mem_takeWhile_imp hd, hw, he, ?_⟩
      rw [← hcs, ← hcons]
      exact hsplit.symm

theorem misread_of_lexemes {cs : List Char} {x : Lexeme} {xs : List Lexeme}
    (hl : lexemes cs = x :: xs) (hx : ¬Legal x.token) : Misread (skipBlank cs) x.token x.stop := by
  cases hskip : skipBlank cs with
  | nil =>
    rw [lexemes_eq_nil_iff.mpr hskip] at hl
    cases hl
  | cons c rest =>
    rw [lexemes_of_skipBlank hskip] at hl
    cases hl
    exact (spells_or_misread rfl).resolve_left fun ⟨_, hw, _, _⟩ => hx hw.legal

end GuardedConfig.Grammar
