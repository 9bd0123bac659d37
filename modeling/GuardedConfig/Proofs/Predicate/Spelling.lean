import GuardedConfig.Proofs.Predicate.Grammar

/-!
# Tokens are spellings

What the scanner makes of the front of a text is the token that is spelled there.

The scanner reaches as far as it can; a token of the grammar ends where its spelling ends. The two
agree where the text behind the token cannot lengthen it (`Stops`), and the grammar sees to that:
whatever may follow an operand or an operator starts with another character.

* `TooLarge`: a whole number without a value, up to where it ends.
* `Misread`: what stands where no token is spelled.

Results:
* `scan_of_spells`: a spelling is scanned as its token.
* `spells_or_misread`: what is scanned is spelled, or no token at all.
-/

namespace GuardedConfig.Grammar

/-! ## Quoted texts -/

theorem quoted_pair (c : Char) (cs : List Char) :
    Token.quoted ('\\' :: c :: cs) = (Token.quoted cs).map fun r => (escape c ++ r.1, r.2) := by
  rw [Token.quoted]
  congr 1
  funext r
  unfold escape
  by_cases hq : c = '"'
  · simp [hq]
  · by_cases hb : c = '\\'
    · simp [hb]
    · rw [if_neg (by simp [hq, hb]), if_neg hq, if_neg hb]
      split
      · rfl
      · split <;> rfl

theorem quoted_plain {c : Char} (hq : c ≠ '"') (hb : c ≠ '\\') (cs : List Char) :
    Token.quoted (c :: cs) = (Token.quoted cs).map fun r => (c :: r.1, r.2) := by
  rw [Token.quoted]
  · exact fun h _ => hb h
  · exact hq
  · exact fun _ _ h _ => hb h

theorem quoted_of_quoted {body s : List Char} (h : Quoted body s) (rest : List Char) :
    Token.quoted (body ++ '"' :: rest) = some (s, rest) := by
  induction h with
  | nil => rfl
  | plain hq hb h ih => rw [List.cons_append, quoted_plain hq hb, ih]; rfl
  | pair h ih => rw [List.cons_append, List.cons_append, quoted_pair, ih]; rfl

theorem quoted_sound {cs s rest : List Char} (h : Token.quoted cs = some (s, rest)) :
    ∃ body, Quoted body s ∧ cs = body ++ '"' :: rest := by
  fun_induction Token.quoted cs generalizing s rest with
  | case1 => exact absurd h (by simp)
  | case2 => exact absurd h (by simp)
  | case3 tail =>
    cases h
    exact ⟨[], Quoted.nil, rfl⟩
  | case4 c tail ih =>
    rw [← Token.quoted, quoted_pair] at h
    obtain ⟨⟨s', rest'⟩, hq, he⟩ := Option.map_eq_some_iff.mp h
    obtain ⟨body, hb, rfl⟩ := ih hq
    cases he
    exact ⟨'\\' :: c :: body, Quoted.pair hb, rfl⟩
  | case5 c tail hend hquote hpair ih =>
    obtain ⟨⟨s', rest'⟩, hq, he⟩ := Option.map_eq_some_iff.mp h
    obtain ⟨body, hb, rfl⟩ := ih hq
    cases he
    have hc : c ≠ '\\' := by
      intro e
      cases body with
      | nil => exact hpair _ _ e rfl
      | cons d body => exact hpair _ _ e rfl
    exact ⟨c :: body, Quoted.plain hquote hc hb, rfl⟩

/-! ## Numbers -/

/-- A row of characters with a property, before a text that does not go on with it. -/
theorem span_append {p : Char → Bool} {ds rest : List Char} (hd : ∀ d ∈ ds, p d = true)
    (hr : ∀ c cs, rest = c :: cs → p c = false) :
    (ds ++ rest).takeWhile p = ds ∧ (ds ++ rest).dropWhile p = rest := by
  rw [List.takeWhile_append_of_pos hd, List.dropWhile_append_of_pos hd]
  cases rest with
  | nil => simp
  | cons c cs => simp [hr c cs rfl]

theorem isDigits_takeWhile {d : Char} (hd : d.isDigit = true) (cs : List Char) :
    IsDigits ((d :: cs).takeWhile Char.isDigit) := by
  refine ⟨?_, fun c hc => List.mem_takeWhile_imp hc⟩
  rw [List.takeWhile_cons, if_pos hd]
  exact List.cons_ne_nil _ _

theorem number_whole {ds rest : List Char} (negative : Bool) (hd : IsDigits ds)
    (hr : Follow rest) :
    Token.number negative (ds ++ rest) = (Token.wholeNumber negative (digitsValue ds), rest) := by
  obtain ⟨ht, hw⟩ := span_append hd.2 fun c cs h => (hr c cs h).1
  unfold Token.number
  simp only [ht, hw]
  split
  · exact absurd rfl (hr _ _ rfl).2
  · rfl

theorem number_decimal {ds fs rest : List Char} (negative : Bool) (hd : IsDigits ds)
    (hf : IsDigits fs) (hr : Follow rest) :
    Token.number negative (ds ++ '.' :: (fs ++ rest)) =
      (.operand (.literal (.float (Binary64.ofDecimal negative (digitsValue (ds ++ fs))
        (-(fs.length : Int))))), rest) := by
  have point : ∀ c cs, '.' :: (fs ++ rest) = c :: cs → c.isDigit = false := by
    rintro _ _ ⟨rfl, rfl⟩
    rfl
  obtain ⟨ht, hw⟩ := span_append hd.2 point
  obtain ⟨hft, hfw⟩ := span_append hf.2 fun c cs h => (hr c cs h).1
  unfold Token.number
  simp only [ht, hw]
  cases fs with
  | nil => exact absurd rfl hf.1
  | cons f fs =>
    rw [List.cons_append] at hft hfw ⊢
    simp only [hft, hfw, hf.2 f List.mem_cons_self, if_true]

theorem number_sound {negative : Bool} {cs rest : List Char} {t : Token}
    (h : Token.number negative cs = (t, rest)) :
    (t = Token.wholeNumber negative (digitsValue (cs.takeWhile Char.isDigit)) ∧
      cs = cs.takeWhile Char.isDigit ++ rest) ∨
    ∃ fs, IsDigits fs ∧ cs = cs.takeWhile Char.isDigit ++ '.' :: (fs ++ rest) ∧
      t = .operand (.literal (.float (Binary64.ofDecimal negative
        (digitsValue (cs.takeWhile Char.isDigit ++ fs)) (-(fs.length : Int))))) := by
  have hsplit := List.takeWhile_append_dropWhile (p := Char.isDigit) (l := cs)
  unfold Token.number at h
  simp only at h
  split at h
  · rename_i f rest' hdrop
    rw [hdrop] at hsplit
    split at h
    · rename_i hf
      cases h
      exact Or.inr ⟨_, isDigits_takeWhile hf rest',
        by rw [List.takeWhile_append_dropWhile, hsplit], rfl⟩
    · cases h
      exact Or.inl ⟨rfl, hsplit.symm⟩
  · cases h
    exact Or.inl ⟨rfl, hsplit.symm⟩

theorem wholeNumber_of_toInt {negative : Bool} {n : Nat} {i : Int64}
    (hi : i.toInt = if negative then -(n : Int) else n) :
    Token.wholeNumber negative n = .operand (.literal (.int i)) := by
  have hl := i.le_toInt
  have hu := i.toInt_lt
  unfold Token.wholeNumber signedLimit
  cases negative with
  | true =>
    rw [if_pos rfl] at hi
    rw [if_pos rfl, if_pos (by omega), ← hi, Int64.ofInt_toInt]
  | false =>
    rw [if_neg (by decide)] at hi
    rw [if_neg (by decide), if_pos (by omega), ← hi, Int64.ofInt_toInt]

theorem toInt_of_wholeNumber {negative : Bool} {n : Nat}
    (h : Token.wholeNumber negative n ≠ .outOfRange) :
    ∃ i : Int64, Token.wholeNumber negative n = .operand (.literal (.int i)) ∧
      i.toInt = if negative then -(n : Int) else n := by
  unfold Token.wholeNumber signedLimit at h ⊢
  cases negative with
  | true =>
    rw [if_pos rfl] at h ⊢
    by_cases hn : n ≤ 0x8000000000000000
    · rw [if_pos hn]
      exact ⟨_, rfl, Int64.toInt_ofInt_of_le (by omega) (by omega)⟩
    · exact absurd (if_neg hn) h
  | false =>
    rw [if_neg (by decide)] at h ⊢
    by_cases hn : n < 0x8000000000000000
    · rw [if_pos hn]
      exact ⟨_, rfl, Int64.toInt_ofInt_of_le (by omega) (by omega)⟩
    · exact absurd (if_neg hn) h

/-- What may stand behind a whole number: no digit, and no point with a digit behind it. -/
structure WholeEnds (rest : List Char) : Prop where
  no_digit : ∀ d cs, rest = d :: cs → d.isDigit = false
  no_fraction : ∀ d cs, rest = '.' :: d :: cs → d.isDigit = false

/-- `TooLarge cs rest`: `cs` begins with a whole number that has no 64-bit value, and `rest` stands
behind its last digit. -/
def TooLarge (cs rest : List Char) : Prop :=
  ∃ negative ds, cs = signed negative ds ++ rest ∧ IsDigits ds ∧ WholeEnds rest ∧
    ∀ i : Int64, i.toInt ≠ if negative then -(digitsValue ds : Int) else digitsValue ds

theorem toInt_ne_of_wholeNumber {negative : Bool} {n : Nat}
    (h : Token.wholeNumber negative n = .outOfRange) (i : Int64) :
    i.toInt ≠ if negative then -(n : Int) else n := by
  intro hi
  rw [wholeNumber_of_toInt hi] at h
  cases h

theorem tooLarge_of_number {negative : Bool} {cs rest : List Char}
    (hd : IsDigits (cs.takeWhile Char.isDigit))
    (h : Token.number negative cs = (.outOfRange, rest)) :
    TooLarge (signed negative cs) rest := by
  have hsplit := List.takeWhile_append_dropWhile (p := Char.isDigit) (l := cs)
  rcases number_sound h with ⟨ht, hcs⟩ | ⟨_, -, -, ht⟩
  · have hdrop : cs.dropWhile Char.isDigit = rest := List.append_cancel_left (hsplit.trans hcs)
    refine ⟨negative, cs.takeWhile Char.isDigit, ?_, hd,
      ⟨fun d tail hrest => ?_, fun d tail hrest => ?_⟩, toInt_ne_of_wholeNumber ht.symm⟩
    · conv_lhs => rw [hcs]
      cases negative <;> rfl
    · have hhead := List.head?_dropWhile_not Char.isDigit cs
      rw [hdrop, hrest] at hhead
      exact hhead
    · by_contra hdigit
      rw [Bool.not_eq_false] at hdigit
      unfold Token.number at h
      simp only [hdrop, hrest, hdigit, if_true, Prod.mk.injEq, reduceCtorEq, false_and] at h
  · cases ht

/-! ## Words -/

theorem ofWord_of_isField {name : String} (h : IsField name) :
    Token.ofWord name = .operand (.field name) := by
  have hn := h.2
  simp only [reserved, List.mem_cons, List.not_mem_nil, or_false, not_or] at hn
  simp only [Token.ofWord, hn, or_self, if_false]

/-- A word that begins as a name does spells its token. -/
theorem spells_ofWord {name : String} {c : Char} {cs : List Char} (hw : name.toList = c :: cs)
    (hc : Token.nameStart c = true) (hcs : ∀ d ∈ cs, Token.nameChar d = true) :
    Spells (Token.ofWord name) name.toList := by
  unfold Token.ofWord
  by_cases hand : name = "and" ∨ name = "AND"
  · rw [if_pos hand]
    exact Spells.conj (by rcases hand with rfl | rfl <;> decide)
  rw [if_neg hand]
  by_cases hor : name = "or" ∨ name = "OR"
  · rw [if_pos hor]
    exact Spells.disj (by rcases hor with rfl | rfl <;> decide)
  rw [if_neg hor]
  by_cases hnot : name = "not" ∨ name = "NOT"
  · rw [if_pos hnot]
    exact Spells.neg (by rcases hnot with rfl | rfl <;> decide)
  rw [if_neg hnot]
  by_cases htrue : name = "true"
  · rw [if_pos htrue, htrue]
    exact Spells.bool true
  rw [if_neg htrue]
  by_cases hfalse : name = "false"
  · rw [if_pos hfalse, hfalse]
    exact Spells.bool false
  rw [if_neg hfalse]
  refine Spells.field ⟨⟨c, cs, hw, hc, hcs⟩, ?_⟩
  simp only [reserved, List.mem_cons, List.not_mem_nil, or_false]
  grind

theorem scan_word {name : String} {c : Char} {cs rest : List Char} (hw : name.toList = c :: cs)
    (hc : Token.nameStart c = true) (hcs : cs.all Token.nameChar = true)
    (he : WordEnds name.toList rest) :
    Token.scan c (cs ++ rest) = (Token.ofWord name, rest) := by
  obtain ⟨ht, hd⟩ :=
    span_append (List.all_eq_true.mp hcs) fun d rest' h => he c cs d rest' hw h hc
  have hq : c ≠ '"' := by
    rintro rfl
    exact absurd hc (by decide)
  unfold Token.scan
  rw [if_neg hq, if_pos hc, ht, hd, ← hw, String.ofList_toList]

/-! ## Tokens -/

/-- What may stand behind a token for it to be read whole: behind an operand nothing that continues
a number, behind an operator or `!` no `=`. -/
def Stops : Token → List Char → Prop
  | .operand _, rest => Follow rest
  | .op _, rest => ∀ rest', rest ≠ '=' :: rest'
  | .neg, rest => ∀ rest', rest ≠ '=' :: rest'
  | _, _ => True

/-- A token that some text spells. -/
def Legal (t : Token) : Prop :=
  t ≠ .unclosedText ∧ t ≠ .outOfRange ∧ t ≠ .unknown

/-- What stands where no token is spelled, what the reader sees there, and where it goes on. -/
inductive Misread : List Char → Token → List Char → Prop
  | unclosed {tail : List Char} (h : Token.quoted tail = none) :
      Misread ('"' :: tail) .unclosedText []
  | tooLarge {cs rest : List Char} (h : TooLarge cs rest) : Misread cs .outOfRange rest
  | unknown {cs rest : List Char} : Misread cs .unknown rest

theorem Spells.legal {t : Token} {w : List Char} (h : Spells t w) : Legal t := by
  cases h <;> exact ⟨by simp, by simp, by simp⟩

theorem Misread.not_legal {cs rest : List Char} {t : Token} (h : Misread cs t rest) :
    ¬Legal t := by
  rintro ⟨hunclosed, hlarge, hunknown⟩
  cases h with
  | unclosed _ => exact hunclosed rfl
  | tooLarge _ => exact hlarge rfl
  | unknown => exact hunknown rfl

theorem scan_signed {negative : Bool} {ds : List Char} (hd : IsDigits ds) (es : List Char) :
    ∃ c w, signed negative (ds ++ es) = c :: w ∧
      ∀ rest, Token.scan c (w ++ rest) = Token.number negative (ds ++ (es ++ rest)) := by
  obtain ⟨hne, hall⟩ := hd
  cases ds with
  | nil => exact absurd rfl hne
  | cons d ds =>
    have hdig := hall d List.mem_cons_self
    cases negative with
    | true =>
      refine ⟨'-', _, rfl, fun rest => ?_⟩
      unfold Token.scan
      rw [if_neg (by decide), if_neg (by decide), if_neg (by decide), if_pos rfl]
      simp only [List.cons_append, List.append_assoc, hdig, if_true]
    | false =>
      refine ⟨d, ds ++ es, rfl, fun rest => ?_⟩
      obtain ⟨hl, hu⟩ := toNat_of_isDigit hdig
      have hq : d ≠ '"' := ne_of_toNat_ne (by change d.toNat ≠ 34; omega)
      have hs : ¬Token.nameStart d = true := fun h => by
        have := toNat_of_nameStart h
        omega
      unfold Token.scan
      rw [if_neg hq, if_neg hs, if_pos hdig, List.append_assoc]
      rfl

/-- The signs that a `=` behind them would change. -/
theorem scan_open_sign {c : Char} {t : Token} {rest : List Char}
    (h : (c, t) ∈ [('!', Token.neg), ('>', Token.op .gt), ('<', Token.op .lt)])
    (hs : ∀ rest', rest ≠ '=' :: rest') : Token.scan c rest = (t, rest) := by
  simp only [List.mem_cons, List.not_mem_nil, or_false, Prod.mk.injEq] at h
  have hscan : Token.scan c rest = Token.sign c rest := by
    rcases h with ⟨rfl, -⟩ | ⟨rfl, -⟩ | ⟨rfl, -⟩ <;> rfl
  rw [hscan]
  rcases h with ⟨rfl, rfl⟩ | ⟨rfl, rfl⟩ | ⟨rfl, rfl⟩ <;> simp [Token.sign]

/-- **A spelling is scanned as its token**, when what follows lets it stop. -/
theorem scan_of_spells {t : Token} {w rest : List Char} (h : Spells t w) (hs : Stops t rest)
    (he : WordEnds w rest) : ∃ c w', w = c :: w' ∧ Token.scan c (w' ++ rest) = (t, rest) := by
  cases h with
  | conj h =>
    simp only [List.mem_cons, List.not_mem_nil, or_false] at h
    rcases h with rfl | rfl | rfl
    · exact ⟨'&', _, rfl, rfl⟩
    · exact ⟨'a', _, rfl, scan_word rfl rfl rfl he⟩
    · exact ⟨'A', _, rfl, scan_word rfl rfl rfl he⟩
  | disj h =>
    simp only [List.mem_cons, List.not_mem_nil, or_false] at h
    rcases h with rfl | rfl | rfl
    · exact ⟨'|', _, rfl, rfl⟩
    · exact ⟨'o', _, rfl, scan_word rfl rfl rfl he⟩
    · exact ⟨'O', _, rfl, scan_word rfl rfl rfl he⟩
  | neg h =>
    simp only [List.mem_cons, List.not_mem_nil, or_false] at h
    rcases h with rfl | rfl | rfl
    · exact ⟨'!', _, rfl, scan_open_sign (by decide) hs⟩
    · exact ⟨'n', _, rfl, scan_word rfl rfl rfl he⟩
    · exact ⟨'N', _, rfl, scan_word rfl rfl rfl he⟩
  | openParen => exact ⟨_, _, rfl, rfl⟩
  | closeParen => exact ⟨_, _, rfl, rfl⟩
  | op o =>
    cases o
    · exact ⟨'=', _, rfl, rfl⟩
    · exact ⟨'!', _, rfl, rfl⟩
    · exact ⟨'>', _, rfl, scan_open_sign (by decide) hs⟩
    · exact ⟨'>', _, rfl, rfl⟩
    · exact ⟨'<', _, rfl, scan_open_sign (by decide) hs⟩
    · exact ⟨'<', _, rfl, rfl⟩
  | bool b => cases b <;> exact ⟨_, _, rfl, scan_word rfl rfl rfl he⟩
  | str h =>
    refine ⟨_, _, rfl, ?_⟩
    rw [List.append_assoc, List.singleton_append]
    unfold Token.scan
    rw [if_pos rfl, quoted_of_quoted h rest]
  | int hd hi =>
    obtain ⟨c, w, hcw, hscan⟩ := scan_signed hd []
    rw [List.append_nil] at hcw
    exact ⟨c, w, hcw, by rw [hscan, List.nil_append, number_whole _ hd hs, wholeNumber_of_toInt hi]⟩
  | @float _ _ fs hd hf =>
    obtain ⟨c, w, hcw, hscan⟩ := scan_signed hd ('.' :: fs)
    exact ⟨c, w, hcw, by rw [hscan, List.cons_append, number_decimal _ hd hf hs]⟩
  | field h =>
    obtain ⟨⟨c, cs, hw, hc, hcs⟩, -⟩ := id h
    exact ⟨c, cs, hw, by rw [scan_word hw hc (List.all_eq_true.mpr hcs) he, ofWord_of_isField h]⟩

theorem sign_sound {c : Char} {cs rest : List Char} {t : Token}
    (h : Token.sign c cs = (t, rest)) (ht : t ≠ .unknown) :
    ∃ w, Spells t w ∧ c :: cs = w ++ rest := by
  unfold Token.sign at h
  split at h <;> cases h
  · exact ⟨_, Spells.openParen, rfl⟩
  · exact ⟨_, Spells.closeParen, rfl⟩
  · exact ⟨_, Spells.conj (by decide : "&&" ∈ _), rfl⟩
  · exact ⟨_, Spells.disj (by decide : "||" ∈ _), rfl⟩
  · exact ⟨_, Spells.op .ne, rfl⟩
  · exact ⟨_, Spells.neg (by decide : "!" ∈ _), rfl⟩
  · exact ⟨_, Spells.op .ge, rfl⟩
  · exact ⟨_, Spells.op .gt, rfl⟩
  · exact ⟨_, Spells.op .le, rfl⟩
  · exact ⟨_, Spells.op .lt, rfl⟩
  · exact ⟨_, Spells.op .eq, rfl⟩
  · exact absurd rfl ht

theorem spells_or_misread_number {negative : Bool} {cs rest : List Char} {t : Token}
    (hd : IsDigits (cs.takeWhile Char.isDigit)) (h : Token.number negative cs = (t, rest)) :
    (∃ w, Spells t (signed negative w) ∧ cs = w ++ rest) ∨ Misread (signed negative cs) t rest := by
  by_cases hout : t = .outOfRange
  · subst hout
    exact .inr (.tooLarge (tooLarge_of_number hd h))
  rcases number_sound h with ⟨rfl, hcs⟩ | ⟨fs, hf, hcs, rfl⟩
  · obtain ⟨i, hi, hval⟩ := toInt_of_wholeNumber hout
    rw [hi]
    exact .inl ⟨_, Spells.int hd hval, hcs⟩
  · refine .inl ⟨_, Spells.float hd hf, ?_⟩
    rw [List.append_assoc, List.cons_append]
    exact hcs

theorem wordEnds_of_not_nameStart {c : Char} {cs w rest : List Char}
    (hc : ¬Token.nameStart c = true) (hw : c :: cs = w ++ rest) : WordEnds w rest := by
  rintro c' w' d rest' rfl rfl hc'
  cases hw
  exact absurd hc' hc

theorem wordEnds_dropWhile (w cs : List Char) : WordEnds w (cs.dropWhile Token.nameChar) := by
  intro _ _ d rest _ hd _
  have h := List.head?_dropWhile_not Token.nameChar cs
  rw [hd] at h
  exact h

/-- **What is scanned is spelled**, if it is a token at all. -/
theorem spells_or_misread {c : Char} {cs rest : List Char} {t : Token}
    (h : Token.scan c cs = (t, rest)) :
    (∃ w, Spells t w ∧ WordEnds w rest ∧ c :: cs = w ++ rest) ∨ Misread (c :: cs) t rest := by
  -- only a word has a rule for what follows, so the other cases owe a spelling alone
  suffices hs : ¬Token.nameStart c = true →
      (∃ w, Spells t w ∧ c :: cs = w ++ rest) ∨ Misread (c :: cs) t rest by
    by_cases hc : Token.nameStart c = true
    · have hq : c ≠ '"' := by
        rintro rfl
        exact absurd hc (by decide)
      unfold Token.scan at h
      rw [if_neg hq, if_pos hc] at h
      cases h
      refine .inl ⟨_, spells_ofWord String.toList_ofList hc fun d hd => List.mem_takeWhile_imp hd,
        wordEnds_dropWhile _ cs, ?_⟩
      rw [String.toList_ofList, List.cons_append, List.takeWhile_append_dropWhile]
    · rcases hs hc with ⟨w, hw, hcs⟩ | hm
      · exact .inl ⟨w, hw, wordEnds_of_not_nameStart hc hcs, hcs⟩
      · exact .inr hm
  intro hc
  unfold Token.scan at h
  by_cases hq : c = '"'
  · rw [if_pos hq] at h
    subst hq
    split at h
    · rename_i hs
      obtain ⟨body, hb, rfl⟩ := quoted_sound hs
      cases h
      exact .inl ⟨_, Spells.str hb, by simp⟩
    · rename_i hs
      cases h
      exact .inr (.unclosed hs)
  rw [if_neg hq, if_neg hc] at h
  by_cases hd : c.isDigit = true
  · rw [if_pos hd] at h
    exact spells_or_misread_number (isDigits_takeWhile hd cs) h
  rw [if_neg hd] at h
  by_cases hm : c = '-'
  · rw [if_pos hm] at h
    subst hm
    split at h
    · cases h
      exact .inr .unknown
    · rename_i d tail
      by_cases hdig : d.isDigit = true
      · rw [if_pos hdig] at h
        rcases spells_or_misread_number (isDigits_takeWhile hdig tail) h with ⟨w, hw, hcs⟩ | hmis
        · exact .inl ⟨_, hw, by rw [hcs]; rfl⟩
        · exact .inr hmis
      · rw [if_neg hdig] at h
        cases h
        exact .inr .unknown
  rw [if_neg hm] at h
  by_cases hunknown : t = .unknown
  · subst hunknown
    exact .inr .unknown
  · exact .inl (sign_sound h hunknown)

end GuardedConfig.Grammar
