import GuardedConfig.Proofs.Predicate.Lexemes

/-!
# Where an operand is missing

What a text looks like that begins with no operand where one has to stand, said about its
characters, and the lexeme by which the reader sees it. In front of such a text parentheses may
stand open; they are part of what is refused.

* `NoOperand`: no operand begins, and no quoted text that is not closed.
* `Refused`: what is wanted does not begin, and nothing binds the reader to go on.

Results:
* `opens_of_operand`: where an operand begins, the first lexeme is one, or a number too large.
* `refused_of_lexemes`: what stands where the reader sees nothing that is wanted.
-/

namespace GuardedConfig.Grammar

/-! ## Texts without an operand -/

/-- What has to follow an unfinished text. -/
inductive Wanted where
  | expression
  /-- The right side of a comparison. -/
  | operand
  deriving DecidableEq

/-- The text begins with no operand, and with no quoted text that is not closed. -/
structure NoOperand (cs : List Char) : Prop where
  no_operand : ∀ o rest, ¬Begins (.operand o) cs rest
  no_quote : ∀ tail, skipBlank cs ≠ '"' :: tail

/-- `Refused w cs`: what is wanted does not begin where `cs` does, and the reader goes back there.
All that it may have taken before are open parentheses. -/
inductive Refused : Wanted → List Char → Prop
  | operand {cs : List Char} (h : NoOperand cs) : Refused .operand cs
  /-- An exclamation mark is no negation when it belongs to `!=`. -/
  | expression {cs : List Char} (h : NoOperand cs)
      (hneg : ∀ rest, Begins .neg cs rest → ∃ tail, skipBlank cs = '!' :: '=' :: tail)
      (hparen : ∀ rest, ¬Begins .openParen cs rest) : Refused .expression cs
  | paren {cs rest : List Char} (ht : Begins .openParen cs rest) (h : Refused .expression rest) :
      Refused .expression cs

/-- Whether a lexeme is one by which what is wanted may begin. -/
def opens : Wanted → Token → Bool
  | _, .operand _ | _, .unclosedText | _, .outOfRange => true
  | .expression, .neg | .expression, .openParen => true
  | _, _ => false

@[simp] theorem opens_operand (w : Wanted) (o : Operand) : opens w (.operand o) = true := by
  cases w <;> rfl

@[simp] theorem opens_unclosedText (w : Wanted) : opens w .unclosedText = true := by
  cases w <;> rfl

@[simp] theorem opens_outOfRange (w : Wanted) : opens w .outOfRange = true := by
  cases w <;> rfl

theorem opens_number (w : Wanted) (negative : Bool) (cs : List Char) :
    opens w (Token.number negative cs).1 = true := by
  rcases h : Token.number negative cs with ⟨t, rest⟩
  rcases number_sound h with ⟨rfl, -⟩ | ⟨_, -, -, rfl⟩
  · by_cases hout : Token.wholeNumber negative (digitsValue (cs.takeWhile Char.isDigit)) =
        .outOfRange
    · simp [hout]
    · obtain ⟨i, hi, -⟩ := toInt_of_wholeNumber hout
      simp [hi]
  · simp

/-- Behind a word that ends there nothing stands that would continue a number. -/
theorem follow_of_wordEnds {c : Char} {w rest : List Char} (hc : Token.nameStart c = true)
    (h : WordEnds (c :: w) rest) : Follow rest := by
  intro d cs hd
  have hname := h c w d cs rfl hd hc
  simp only [Token.nameChar, Char.isAlphanum, Bool.or_eq_false_iff, beq_eq_false_iff_ne] at hname
  exact ⟨hname.1.1.2, hname.2⟩

theorem opens_quote (w : Wanted) (cs : List Char) : opens w (Token.scan '"' cs).1 = true := by
  unfold Token.scan
  rw [if_pos rfl]
  split <;> simp

/-- **Where an operand begins, the reader sees one**, or a number too large. -/
theorem opens_of_operand {o : Operand} {cs rest : List Char} (h : Begins (.operand o) cs rest)
    (w : Wanted) : ∃ x xs, lexemes cs = x :: xs ∧ opens w x.token = true := by
  by_cases hs : Follow rest
  · obtain ⟨x, hx, hl⟩ := lexemes_of_begins h hs
    exact ⟨x, _, hl, by simp [hx]⟩
  -- only a number could be read to go on, and a quoted text may stand in front of one
  obtain ⟨v, hv, he, hskip⟩ := h.skipBlank_eq
  suffices hscan : ∃ c v', v = c :: v' ∧ opens w (Token.scan c (v' ++ rest)).1 = true by
    obtain ⟨c, v', rfl, hopens⟩ := hscan
    exact ⟨_, _, lexemes_of_skipBlank hskip, hopens⟩
  cases hv with
  | bool b =>
    cases b
    · exact absurd (follow_of_wordEnds (c := 'f') rfl he) hs
    · exact absurd (follow_of_wordEnds (c := 't') rfl he) hs
  | str _ => exact ⟨'"', _, rfl, opens_quote w _⟩
  | int hd hi =>
    obtain ⟨c, v', hcv, hscan⟩ := scan_signed hd []
    rw [List.append_nil] at hcv
    exact ⟨c, v', hcv, by rw [hscan]; exact opens_number ..⟩
  | @float _ _ fs hd hf =>
    obtain ⟨c, v', hcv, hscan⟩ := scan_signed hd ('.' :: fs)
    exact ⟨c, v', hcv, by rw [hscan]; exact opens_number ..⟩
  | field hfield =>
    obtain ⟨c, v', hname, hc, -⟩ := hfield.1
    rw [hname] at he
    exact absurd (follow_of_wordEnds hc he) hs

theorem opens_of_neg {cs rest : List Char} (h : Begins .neg cs rest)
    (hne : ∀ tail, skipBlank cs ≠ '!' :: '=' :: tail) :
    ∃ x xs, lexemes cs = x :: xs ∧ x.token = .neg := by
  obtain ⟨v, hv, he, hskip⟩ := h.skipBlank_eq
  suffices hscan : ∃ c v', v = c :: v' ∧ Token.scan c (v' ++ rest) = (.neg, rest) by
    obtain ⟨c, v', rfl, hscan⟩ := hscan
    exact ⟨_, _, lexemes_of_skipBlank hskip, congrArg Prod.fst hscan⟩
  cases hv with
  | neg hw =>
    simp only [List.mem_cons, List.not_mem_nil, or_false] at hw
    rcases hw with rfl | rfl | rfl
    · exact ⟨'!', _, rfl, scan_open_sign (by decide) fun tail hrest => hne tail (hrest ▸ hskip)⟩
    · exact ⟨'n', _, rfl, scan_word rfl rfl rfl he⟩
    · exact ⟨'N', _, rfl, scan_word rfl rfl rfl he⟩

/-- **What stands where the reader sees nothing that is wanted.** -/
theorem refused_of_lexemes {w : Wanted} {cs : List Char}
    (h : ∀ x xs, lexemes cs = x :: xs → opens w x.token = false) : Refused w cs := by
  have hno : NoOperand cs := by
    refine ⟨fun o rest hbegins => ?_, fun tail hquote => ?_⟩
    · obtain ⟨x, xs, hl, hopens⟩ := opens_of_operand hbegins w
      rw [h x xs hl] at hopens
      cases hopens
    · have hopens := opens_quote w tail
      rw [h _ _ (lexemes_of_skipBlank hquote)] at hopens
      cases hopens
  cases w with
  | operand => exact .operand hno
  | expression =>
    refine .expression hno (fun rest hneg => ?_) fun rest hparen => ?_
    · by_contra hne
      rw [not_exists] at hne
      obtain ⟨x, xs, hl, hx⟩ := opens_of_neg hneg hne
      have hopens := h x xs hl
      rw [hx] at hopens
      cases hopens
    · obtain ⟨x, hx, hl⟩ := lexemes_of_begins hparen trivial
      have hopens := h x _ hl
      rw [hx] at hopens
      cases hopens

end GuardedConfig.Grammar
