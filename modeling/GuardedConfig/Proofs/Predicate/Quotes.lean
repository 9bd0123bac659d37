import GuardedConfig.Proofs.Predicate.Reading

/-!
# Quoted texts

Between quotes every text can be written, and what is written is read back. A text that is not
closed is refused at the end of the input, however it goes on: whether a quote closes it is told by
the row of backslashes in front of the quote, which work in pairs.

* `Escapes`: the spellings of a text, quotes and backslashes behind a backslash.
* `NeverCloses`: every quote has an odd number of backslashes in front of it.

Results:
* `quoted_eq_none_iff`: a text is not closed exactly when every quote in it is escaped.
* `parse_quoted`: what a predicate that is one quoted text parses to, closed or not.
-/

namespace GuardedConfig.Grammar

/-! ## Spellings of a text -/

/-- `Escapes s body`: the text `s` may be written `body` between quotes. A quote and a backslash
stand behind a backslash; a line feed and a tab may be written as a pair or as themselves. -/
inductive Escapes : List Char → List Char → Prop
  | nil : Escapes [] []
  | quote {s body : List Char} (h : Escapes s body) : Escapes ('"' :: s) ('\\' :: '"' :: body)
  | backslash {s body : List Char} (h : Escapes s body) :
      Escapes ('\\' :: s) ('\\' :: '\\' :: body)
  | lineFeed {s body : List Char} (h : Escapes s body) : Escapes ('\n' :: s) ('\\' :: 'n' :: body)
  | tab {s body : List Char} (h : Escapes s body) : Escapes ('\t' :: s) ('\\' :: 't' :: body)
  | self {c : Char} {s body : List Char} (hq : c ≠ '"') (hb : c ≠ '\\') (h : Escapes s body) :
      Escapes (c :: s) (c :: body)

theorem Escapes.quoted {s body : List Char} (h : Escapes s body) : Quoted body s := by
  induction h with
  | nil => exact .nil
  | quote _ ih | backslash _ ih | lineFeed _ ih | tab _ ih => exact .pair ih
  | self hq hb _ ih => exact .plain hq hb ih

theorem exists_escapes (s : List Char) : ∃ body, Escapes s body := by
  induction s with
  | nil => exact ⟨[], .nil⟩
  | cons c s ih =>
    obtain ⟨body, hbody⟩ := ih
    by_cases hq : c = '"'
    · exact ⟨_, hq ▸ hbody.quote⟩
    · by_cases hb : c = '\\'
      · exact ⟨_, hb ▸ hbody.backslash⟩
      · exact ⟨_, hbody.self hq hb⟩

/-! ## Quotes that are escaped -/

/-- The number of backslashes at the end of a text. -/
def endingBackslashes (cs : List Char) : Nat :=
  (cs.reverse.takeWhile (· = '\\')).length

/-- A character behind the text is escaped: the backslashes in front of it do not pair off. -/
def EscapesNext (cs : List Char) : Prop :=
  endingBackslashes cs % 2 = 1

/-- No quote in the text stands unescaped. -/
def NeverCloses (cs : List Char) : Prop :=
  ∀ before after, cs = before ++ '"' :: after → EscapesNext before

/-- The backslashes at the end go on into a first part only when nothing else stands behind it. -/
theorem endingBackslashes_append (xs cs : List Char) :
    endingBackslashes (xs ++ cs) =
      if endingBackslashes cs = cs.length then endingBackslashes xs + cs.length
      else endingBackslashes cs := by
  unfold endingBackslashes
  rw [List.reverse_append, List.takeWhile_append, List.length_reverse]
  split
  · rw [List.length_append, List.length_reverse, Nat.add_comm]
  · rfl

theorem escapesNext_append {xs : List Char} (hxs : endingBackslashes xs % 2 = 0) (cs : List Char) :
    EscapesNext (xs ++ cs) ↔ EscapesNext cs := by
  unfold EscapesNext
  rw [endingBackslashes_append]
  split <;> omega

theorem escapesNext_cons {c : Char} (hc : c ≠ '\\') (cs : List Char) :
    EscapesNext (c :: cs) ↔ EscapesNext cs := by
  have hnone : endingBackslashes [c] % 2 = 0 := by simp [endingBackslashes, hc]
  exact escapesNext_append hnone cs

theorem escapesNext_pair (c : Char) (cs : List Char) :
    EscapesNext ('\\' :: c :: cs) ↔ EscapesNext cs := by
  have heven : endingBackslashes ['\\', c] % 2 = 0 := by
    by_cases hc : c = '\\' <;> simp [endingBackslashes, hc]
  exact escapesNext_append heven cs

theorem Quoted.not_escapesNext {body s : List Char} (h : Quoted body s) : ¬EscapesNext body := by
  induction h with
  | nil => exact Nat.zero_ne_one
  | plain _ hb _ ih => rwa [escapesNext_cons hb]
  | pair _ ih => rwa [escapesNext_pair]

/-- A quote that is not escaped closes the text, there or before. -/
theorem isSome_quoted {before : List Char} (h : ¬EscapesNext before) (after : List Char) :
    (Token.quoted (before ++ '"' :: after)).isSome := by
  fun_induction Token.quoted before with
  | case1 => rfl
  | case2 => exact absurd rfl h
  | case3 rest => rfl
  | case4 c rest ih =>
    rw [escapesNext_pair] at h
    rw [List.cons_append, List.cons_append, quoted_pair, Option.isSome_map]
    exact ih h
  | case5 c rest hend hquote hpair ih =>
    have hc : c ≠ '\\' := by
      intro hc
      cases rest with
      | nil => exact hend hc rfl
      | cons d rest => exact hpair d rest hc rfl
    rw [escapesNext_cons hc] at h
    rw [List.cons_append, quoted_plain hquote hc, Option.isSome_map]
    exact ih h

theorem quoted_eq_none_iff {cs : List Char} : Token.quoted cs = none ↔ NeverCloses cs := by
  constructor
  · rintro h before after rfl
    by_contra hescapes
    have hsome := isSome_quoted hescapes after
    rw [h] at hsome
    cases hsome
  · intro h
    cases hq : Token.quoted cs with
    | none => rfl
    | some r =>
      obtain ⟨body, hbody, hcs⟩ := quoted_sound hq
      exact absurd (h body r.2 hcs) hbody.not_escapesNext

/-! ## Predicates of one quoted text -/

/-- Where a quoted text that is not closed begins, one lexeme takes all that remains. -/
theorem lexemes_of_unclosed {cs tail : List Char} (hcs : skipBlank cs = '"' :: tail)
    (h : NeverCloses tail) : lexemes cs = [⟨.unclosedText, '"' :: tail, []⟩] := by
  have hscan : Token.scan '"' tail = (.unclosedText, []) := by
    unfold Token.scan
    rw [if_pos rfl, quoted_eq_none_iff.mpr h]
  rw [lexemes_of_skipBlank hcs, hscan, lexemes_of_blank (by simp)]

theorem begins_quoted {ws s body : List Char} (hws : ∀ c ∈ ws, isBlank c = true)
    (h : Escapes s body) (rest : List Char) :
    Begins (.operand (.literal (.str (String.ofList s)))) (ws ++ '"' :: (body ++ '"' :: rest))
      rest :=
  ⟨ws, _, hws, .str h.quoted, wordEnds_of_not_nameStart (by decide) rfl, by simp⟩

/-- **Every text can be written between quotes and is read back**, whatever its spelling and with
blank characters around it. A quoted text that is not closed is refused at the end of the input. -/
theorem parse_quoted :
    (∀ s : String, (∃ body : String, Escapes s.toList body.toList) ∧
      ∀ before body after : String, blankText before = true → blankText after = true →
        Escapes s.toList body.toList →
        parse (before ++ "\"" ++ body ++ "\"" ++ after) = .ok (.operand (.literal (.str s)))) ∧
    ∀ before tail : String, blankText before = true → NeverCloses tail.toList →
      parse (before ++ "\"" ++ tail) =
        .error ⟨before ++ "\"" ++ tail, (before ++ "\"" ++ tail).length, .noOperand 0⟩ := by
  refine ⟨fun s => ⟨?_, fun before body after hbefore hafter hbody => ?_⟩,
    fun before tail hbefore htail => ?_⟩
  · obtain ⟨body, hbody⟩ := exists_escapes s.toList
    exact ⟨String.ofList body, by rwa [String.toList_ofList]⟩
  · have htext : (before ++ "\"" ++ body ++ "\"" ++ after).toList =
        before.toList ++ '"' :: (body.toList ++ '"' :: after.toList) := by
      simp
    have hbegins := begins_quoted (List.all_eq_true.mp hbefore) hbody after.toList
    rw [String.ofList_toList, ← htext] at hbegins
    have hderives := (Derives.operand hbegins).ofPrimary.ofUnary.ofConj
    exact (parse_eq_ok_iff _ _).mpr ⟨after.toList, hderives, List.all_eq_true.mp hafter⟩
  · have htext : (before ++ "\"" ++ tail).toList = before.toList ++ '"' :: tail.toList := by
      simp
    have hskip : skipBlank (before.toList ++ '"' :: tail.toList) = '"' :: tail.toList :=
      skipBlank_append (List.all_eq_true.mp hbefore)
    rw [parse, htext, lexemes_of_unclosed hskip htail, ← htext, String.length_toList]
    rfl

/-- A text of a backslash, a quote and a line feed, and one whose last quote is escaped by the last
of three backslashes. -/
theorem parse_quoted_of_backslashes :
    parse ("  " ++ "\"" ++ "\\\\\\\"\n" ++ "\"" ++ " ") =
        .ok (.operand (.literal (.str "\\\"\n"))) ∧
      parse ("\t" ++ "\"" ++ "a\\\\\\\"") =
        .error ⟨"\t" ++ "\"" ++ "a\\\\\\\"", 7, .noOperand 0⟩ := by
  have hbody : Escapes "\\\"\n".toList "\\\\\\\"\n".toList :=
    .backslash (.quote (.self (by decide) (by decide) .nil))
  have hnever : NeverCloses "a\\\\\\\"".toList := quoted_eq_none_iff.mp (by decide)
  exact ⟨(parse_quoted.1 _).2 "  " _ " " (by decide) (by decide) hbody,
    parse_quoted.2 "\t" _ (by decide) hnever⟩

end GuardedConfig.Grammar
