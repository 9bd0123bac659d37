import Mathlib
import GuardedConfig.Predicate.Parse

/-!
# The grammar of predicates

Which texts are a predicate, and which expression each stands for, said without the reader of
`Predicate/Parse`. A relation `R cs x rest` says that the text `cs` begins with an `x` and goes on
with `rest`.

* `Quoted`: what stands between quotes, and the text that it writes.
* `Spells`: the spellings of a token. Connectives have three spellings each, operands and operators
  one for each value.
* `Begins`: blank characters, then a spelling. The only rule about what follows is that a word, be
  it a keyword or a field, is not followed by a character that would continue it. `1and 2` and
  `a>=b` need no rule of their own: nothing that starts with `=`, a digit or a point can follow
  there.
* `Derives`: the four levels of binding. Chains of a connective group to the left.
* `Renders`: a whole text, with blank characters behind its last token.

Results:
* `Derives.head_ne_eq`: no predicate begins with `=`, which keeps `!` apart from `!=`.
* `Begins.follow`: no connective, operator or closing parenthesis begins with a digit or a point,
  which keeps numbers whole.
* `Derives.renders_before`: what stands in front of the rest of a text is a predicate by itself.
-/

namespace GuardedConfig.Grammar

/-! ## Tokens -/

/-- What a backslash and the character behind it write. -/
def escape (c : Char) : List Char :=
  if c = '"' then ['"']
  else if c = '\\' then ['\\']
  else if c = 'n' then ['\n']
  else if c = 't' then ['\t']
  else ['\\', c]

/-- `Quoted body s`: between quotes, `body` writes the text `s`. -/
inductive Quoted : List Char → List Char → Prop
  | nil : Quoted [] []
  | plain {c : Char} {body s : List Char} (hq : c ≠ '"') (hb : c ≠ '\\') (h : Quoted body s) :
      Quoted (c :: body) (c :: s)
  | pair {c : Char} {body s : List Char} (h : Quoted body s) :
      Quoted ('\\' :: c :: body) (escape c ++ s)

/-- The words with a meaning of their own. -/
def reserved : List String :=
  ["and", "AND", "or", "OR", "not", "NOT", "true", "false"]

/-- The name of a field: a letter or an underscore, then letters, digits, underscores and points,
and no reserved word. -/
def IsField (name : String) : Prop :=
  (∃ c cs, name.toList = c :: cs ∧ Token.nameStart c = true ∧ ∀ d ∈ cs, Token.nameChar d = true) ∧
    name ∉ reserved

/-- A row of decimal digits, one at least. -/
def IsDigits (ds : List Char) : Prop :=
  ds ≠ [] ∧ ∀ d ∈ ds, d.isDigit = true

/-- A sign, written only when it is a minus. -/
def signed (negative : Bool) (cs : List Char) : List Char :=
  if negative then '-' :: cs else cs

/-- `Spells t w`: the token `t` may be written `w`. -/
inductive Spells : Token → List Char → Prop
  | conj {w : String} (h : w ∈ ["&&", "and", "AND"]) : Spells .conj w.toList
  | disj {w : String} (h : w ∈ ["||", "or", "OR"]) : Spells .disj w.toList
  | neg {w : String} (h : w ∈ ["!", "not", "NOT"]) : Spells .neg w.toList
  | openParen : Spells .openParen ['(']
  | closeParen : Spells .closeParen [')']
  | op (o : CompareOp) : Spells (.op o) o.text.toList
  | bool (b : Bool) :
      Spells (.operand (.literal (.bool b))) (if b then "true" else "false").toList
  | str {body s : List Char} (h : Quoted body s) :
      Spells (.operand (.literal (.str (String.ofList s)))) ('"' :: (body ++ ['"']))
  /-- Digits of a number with 64 bits. -/
  | int {negative : Bool} {ds : List Char} {i : Int64} (hd : IsDigits ds)
      (hi : i.toInt = if negative then -(digitsValue ds : Int) else digitsValue ds) :
      Spells (.operand (.literal (.int i))) (signed negative ds)
  /-- Digits, a point and digits: the double nearest to that decimal. -/
  | float {negative : Bool} {ds fs : List Char} (hd : IsDigits ds) (hf : IsDigits fs) :
      Spells (.operand (.literal (.float
          (Binary64.ofDecimal negative (digitsValue (ds ++ fs)) (-(fs.length : Int))))))
        (signed negative (ds ++ '.' :: fs))
  | field {name : String} (h : IsField name) : Spells (.operand (.field name)) name.toList

/-- A spelling with letters is not followed by a character that would continue the word. -/
def WordEnds (w rest : List Char) : Prop :=
  ∀ c w' d rest', w = c :: w' → rest = d :: rest' → Token.nameStart c = true →
    Token.nameChar d = false

/-- `Begins t cs rest`: after blank characters `cs` has a spelling of `t`, and `rest` follows. -/
def Begins (t : Token) (cs rest : List Char) : Prop :=
  ∃ ws w, (∀ c ∈ ws, isBlank c = true) ∧ Spells t w ∧ WordEnds w rest ∧ cs = ws ++ (w ++ rest)

/-! ## Expressions -/

/-- How close a part of a predicate binds, the loosest first. -/
inductive Level where
  | disj
  | conj
  | unary
  | primary
  deriving DecidableEq

/-- `Derives l cs e rest`: `cs` begins with the expression `e` at the level `l`, and `rest`
follows. -/
inductive Derives : Level → List Char → Expr → List Char → Prop
  | or {cs m m' rest : List Char} {a b : Expr} (ha : Derives .disj cs a m)
      (ht : Begins .disj m m') (hb : Derives .conj m' b rest) : Derives .disj cs (.or a b) rest
  | ofConj {cs rest : List Char} {e : Expr} (h : Derives .conj cs e rest) :
      Derives .disj cs e rest
  | and {cs m m' rest : List Char} {a b : Expr} (ha : Derives .conj cs a m)
      (ht : Begins .conj m m') (hb : Derives .unary m' b rest) : Derives .conj cs (.and a b) rest
  | ofUnary {cs rest : List Char} {e : Expr} (h : Derives .unary cs e rest) :
      Derives .conj cs e rest
  | not {cs m rest : List Char} {e : Expr} (ht : Begins .neg cs m)
      (h : Derives .unary m e rest) : Derives .unary cs (.not e) rest
  | ofPrimary {cs rest : List Char} {e : Expr} (h : Derives .primary cs e rest) :
      Derives .unary cs e rest
  | paren {cs m m' rest : List Char} {e : Expr} (ho : Begins .openParen cs m)
      (h : Derives .disj m e m') (hc : Begins .closeParen m' rest) : Derives .primary cs e rest
  | operand {cs rest : List Char} {o : Operand} (h : Begins (.operand o) cs rest) :
      Derives .primary cs (.operand o) rest
  | compare {cs m m' rest : List Char} {l r : Operand} {op : CompareOp}
      (hl : Begins (.operand l) cs m) (ho : Begins (.op op) m m')
      (hr : Begins (.operand r) m' rest) : Derives .primary cs (.compare l op r) rest

/-- The text is a predicate and stands for the expression `e`. -/
def Renders (cs : List Char) (e : Expr) : Prop :=
  ∃ rest, Derives .disj cs e rest ∧ ∀ c ∈ rest, isBlank c = true

/-! ## First characters -/

/-- Nothing that continues a number stands at the front of the text. -/
def Follow (cs : List Char) : Prop :=
  ∀ c cs', cs = c :: cs' → c.isDigit = false ∧ c ≠ '.'

theorem isBlank_eq_false {c : Char} (hl : 0x20 < c.toNat) (hu : c.toNat < 0x85) :
    isBlank c = false := by
  unfold isBlank blankRanges
  simp only [List.any_cons, List.any_nil, Bool.or_false, Bool.or_eq_false_iff,
    Bool.and_eq_false_iff, decide_eq_false_iff_not]
  omega

theorem toNat_of_isDigit {c : Char} (h : c.isDigit = true) : 48 ≤ c.toNat ∧ c.toNat ≤ 57 := by
  unfold Char.isDigit at h
  simp only [ge_iff_le, Bool.and_eq_true, decide_eq_true_eq, UInt32.le_iff_toNat_le] at h
  exact h

theorem toNat_of_nameStart {c : Char} (h : Token.nameStart c = true) :
    65 ≤ c.toNat ∧ c.toNat ≤ 122 := by
  unfold Token.nameStart Char.isAlpha Char.isUpper Char.isLower at h
  simp only [ge_iff_le, Bool.or_eq_true, Bool.and_eq_true, decide_eq_true_eq, beq_iff_eq,
    UInt32.le_iff_toNat_le] at h
  rcases h with (h | h) | rfl
  · exact ⟨h.1, Nat.le_trans h.2 (by decide)⟩
  · exact ⟨Nat.le_trans (by decide) h.1, h.2⟩
  · decide

theorem ne_of_toNat_ne {c d : Char} (h : c.toNat ≠ d.toNat) : c ≠ d :=
  fun e => h (e ▸ rfl)

/-- What the first character of a spelling tells about its token. -/
structure Head (t : Token) (c : Char) : Prop where
  low : 0x20 < c.toNat
  high : c.toNat < 0x85
  /-- Only an operator begins with `=`. -/
  ne_eq : (∀ o, t ≠ .op o) → c ≠ '='
  /-- Only an operand begins with a digit, and none begins with a point. -/
  not_number : (∀ o, t ≠ .operand o) → c.isDigit = false ∧ c ≠ '.'

theorem Head.of_digit {o : Operand} {c : Char} (h : c.isDigit = true) : Head (.operand o) c := by
  obtain ⟨hl, hu⟩ := toNat_of_isDigit h
  refine ⟨by omega, by omega, fun _ => ne_of_toNat_ne ?_, fun ho => absurd rfl (ho o)⟩
  change c.toNat ≠ 61
  omega

theorem Head.of_nameStart {o : Operand} {c : Char} (h : Token.nameStart c = true) :
    Head (.operand o) c := by
  obtain ⟨hl, hu⟩ := toNat_of_nameStart h
  refine ⟨by omega, by omega, fun _ => ne_of_toNat_ne ?_, fun ho => absurd rfl (ho o)⟩
  change c.toNat ≠ 61
  omega

theorem Head.of_signed {o : Operand} {negative : Bool} {ds : List Char} (hd : IsDigits ds)
    (cs : List Char) : ∃ c w, signed negative (ds ++ cs) = c :: w ∧ Head (.operand o) c := by
  obtain ⟨hne, hall⟩ := hd
  cases negative with
  | true => exact ⟨'-', _, rfl, by decide, by decide, fun _ => by decide, fun h => absurd rfl (h o)⟩
  | false =>
    cases ds with
    | nil => exact absurd rfl hne
    | cons d ds => exact ⟨d, _, rfl, Head.of_digit (hall d List.mem_cons_self)⟩

/-- The words and signs whose first character says that they are no operand and no operator. -/
def opensSign : List Char → Bool
  | [] => false
  | c :: _ => 0x20 < c.toNat && c.toNat < 0x85 && c != '=' && !c.isDigit && c != '.'

theorem Head.of_opensSign {t : Token} {w : List Char} (h : opensSign w = true) :
    ∃ c w', w = c :: w' ∧ Head t c := by
  cases w with
  | nil => exact absurd h (by decide)
  | cons c w =>
    simp only [opensSign, Bool.and_eq_true, decide_eq_true_eq, bne_iff_ne, Bool.not_eq_true'] at h
    obtain ⟨⟨⟨⟨hl, hu⟩, he⟩, hd⟩, hp⟩ := h
    exact ⟨c, w, rfl, hl, hu, fun _ => he, fun _ => ⟨hd, hp⟩⟩

/-- A spelling is not empty, and its first character tells about the token. -/
theorem Spells.head {t : Token} {w : List Char} (h : Spells t w) :
    ∃ c w', w = c :: w' ∧ Head t c := by
  cases h with
  | conj h =>
    exact Head.of_opensSign ((by decide : ∀ w ∈ _, opensSign (String.toList w) = true) _ h)
  | disj h =>
    exact Head.of_opensSign ((by decide : ∀ w ∈ _, opensSign (String.toList w) = true) _ h)
  | neg h => exact Head.of_opensSign ((by decide : ∀ w ∈ _, opensSign (String.toList w) = true) _ h)
  | openParen => exact Head.of_opensSign rfl
  | closeParen => exact Head.of_opensSign rfl
  | op o =>
    have check : ∀ c : Char, c ∈ ['=', '!', '>', '<'] → Head (.op o) c := by
      intro c hc
      have hsign : 0x20 < c.toNat ∧ c.toNat < 0x85 ∧ c.isDigit = false ∧ c ≠ '.' := by
        simp only [List.mem_cons, List.not_mem_nil, or_false] at hc
        rcases hc with rfl | rfl | rfl | rfl <;> decide
      obtain ⟨hl, hu, hd, hp⟩ := hsign
      exact ⟨hl, hu, fun h => absurd rfl (h o), fun _ => ⟨hd, hp⟩⟩
    cases o <;> exact ⟨_, _, rfl, check _ (by decide)⟩
  | bool b => cases b <;> exact Head.of_opensSign rfl
  | str h => exact Head.of_opensSign rfl
  | int hd hi => simpa only [List.append_nil] using Head.of_signed hd []
  | float hd hf => exact Head.of_signed hd _
  | field h =>
    obtain ⟨⟨c, cs, hw, hc, -⟩, -⟩ := h
    exact ⟨c, cs, hw, Head.of_nameStart hc⟩

theorem isBlank_head {c : Char} (h : isBlank c = true) :
    c.isDigit = false ∧ c ≠ '.' ∧ c ≠ '=' := by
  refine ⟨?_, ?_, ?_⟩
  · cases hd : c.isDigit with
    | false => rfl
    | true =>
      obtain ⟨hl, hu⟩ := toNat_of_isDigit hd
      rw [isBlank_eq_false (by omega) (by omega)] at h
      exact absurd h (by decide)
  · rintro rfl
    exact absurd h (by decide)
  · rintro rfl
    exact absurd h (by decide)

theorem follow_of_blank {cs : List Char} (h : ∀ c ∈ cs, isBlank c = true) : Follow cs := by
  rintro c cs' rfl
  obtain ⟨hd, hp, -⟩ := isBlank_head (h c List.mem_cons_self)
  exact ⟨hd, hp⟩

/-- The first character of a text that begins with a token: a blank, or one of its spelling. -/
theorem Begins.head {t : Token} {cs rest : List Char} (h : Begins t cs rest) :
    ∃ c cs', cs = c :: cs' ∧ (isBlank c = true ∨ Head t c) := by
  obtain ⟨ws, w, hws, hw, -, rfl⟩ := h
  cases ws with
  | nil =>
    obtain ⟨c, w', rfl, hc⟩ := hw.head
    exact ⟨c, _, rfl, Or.inr hc⟩
  | cons c ws => exact ⟨c, _, rfl, Or.inl (hws c List.mem_cons_self)⟩

theorem Begins.follow {t : Token} {cs rest : List Char} (h : Begins t cs rest)
    (ht : ∀ o, t ≠ .operand o) : Follow cs := by
  obtain ⟨c, cs', rfl, hb | hc⟩ := h.head
  · rintro _ _ ⟨rfl, rfl⟩
    obtain ⟨hd, hp, -⟩ := isBlank_head hb
    exact ⟨hd, hp⟩
  · rintro _ _ ⟨rfl, rfl⟩
    exact hc.not_number ht

theorem Begins.head_ne_eq {t : Token} {cs rest : List Char} (h : Begins t cs rest)
    (ht : ∀ o, t ≠ .op o) : ∀ cs', cs ≠ '=' :: cs' := by
  obtain ⟨c, cs', rfl, hb | hc⟩ := h.head
  · rintro _ ⟨rfl, rfl⟩
    exact (isBlank_head hb).2.2 rfl
  · rintro _ ⟨rfl, rfl⟩
    exact hc.ne_eq ht rfl

theorem Derives.head_ne_eq {l : Level} {cs rest : List Char} {e : Expr}
    (h : Derives l cs e rest) : ∀ cs', cs ≠ '=' :: cs' := by
  induction h with
  | or _ _ _ ih _ => exact ih
  | ofConj _ ih => exact ih
  | and _ _ _ ih _ => exact ih
  | ofUnary _ ih => exact ih
  | not ht _ _ => exact ht.head_ne_eq (by simp)
  | ofPrimary _ ih => exact ih
  | paren ho _ _ _ => exact ho.head_ne_eq (by simp)
  | operand h => exact h.head_ne_eq (by simp)
  | compare hl _ _ => exact hl.head_ne_eq (by simp)

/-! ## What follows -/

/-- A text that goes on as another one does, or is at its end. -/
def GoesOnLike (rest' rest : List Char) : Prop :=
  ∀ c cs, rest' = c :: cs → ∃ cs', rest = c :: cs'

/-- What relates `cs` to `rest` relates them through a first part of `cs` that stands in front of
any other text too that goes on alike. -/
def Stands (R : List Char → List Char → Prop) (cs rest : List Char) : Prop :=
  ∃ w, w ≠ [] ∧ cs = w ++ rest ∧ ∀ rest', GoesOnLike rest' rest → R (w ++ rest') rest'

theorem Stands.mono {R S : List Char → List Char → Prop} {cs rest : List Char}
    (h : Stands R cs rest) (hRS : ∀ {cs rest}, R cs rest → S cs rest) : Stands S cs rest := by
  obtain ⟨w, hw, hcs, hR⟩ := h
  exact ⟨w, hw, hcs, fun rest' hrest => hRS (hR rest' hrest)⟩

theorem Stands.seq {R S : List Char → List Char → Prop} {cs m rest : List Char}
    (h : Stands R cs m) (h' : Stands S m rest) :
    Stands (fun cs rest => ∃ m, R cs m ∧ S m rest) cs rest := by
  obtain ⟨v, hv, rfl, hR⟩ := h
  obtain ⟨w, hw, rfl, hS⟩ := h'
  refine ⟨v ++ w, by simp [hv], (List.append_assoc ..).symm, fun rest' hrest => ?_⟩
  have hlike : GoesOnLike (w ++ rest') (w ++ rest) := by
    cases w with
    | nil => exact absurd rfl hw
    | cons c w =>
      rintro _ _ ⟨rfl, rfl⟩
      exact ⟨_, rfl⟩
  rw [List.append_assoc]
  exact ⟨_, hR _ hlike, hS _ hrest⟩

theorem Begins.stands {t : Token} {cs rest : List Char} (h : Begins t cs rest) :
    Stands (Begins t) cs rest := by
  obtain ⟨ws, w, hws, hw, he, rfl⟩ := h
  refine ⟨ws ++ w, ?_, (List.append_assoc ..).symm, fun rest' hrest => ?_⟩
  · obtain ⟨c, w', rfl, -⟩ := hw.head
    simp
  · refine ⟨ws, w, hws, hw, fun c w' d cs hc hd hword => ?_, List.append_assoc ..⟩
    obtain ⟨cs', hd⟩ := hrest d cs hd
    exact he c w' d cs' hc hd hword

/-- **What follows a part counts by its first character only.** -/
theorem Derives.stands {l : Level} {cs rest : List Char} {e : Expr} (h : Derives l cs e rest) :
    Stands (fun cs rest => Derives l cs e rest) cs rest := by
  induction h with
  | or _ ht _ iha ihb =>
    exact (iha.seq (ht.stands.seq ihb)).mono fun ⟨_, ha, _, ht, hb⟩ => .or ha ht hb
  | ofConj _ ih => exact ih.mono .ofConj
  | and _ ht _ iha ihb =>
    exact (iha.seq (ht.stands.seq ihb)).mono fun ⟨_, ha, _, ht, hb⟩ => .and ha ht hb
  | ofUnary _ ih => exact ih.mono .ofUnary
  | not ht _ ih => exact (ht.stands.seq ih).mono fun ⟨_, ht, h⟩ => .not ht h
  | ofPrimary _ ih => exact ih.mono .ofPrimary
  | paren ho _ hc ih =>
    exact (ho.stands.seq (ih.seq hc.stands)).mono fun ⟨_, ho, _, h, hc⟩ => .paren ho h hc
  | operand h => exact h.stands.mono .operand
  | compare hl ho hr =>
    exact (hl.stands.seq (ho.stands.seq hr.stands)).mono fun ⟨_, hl, _, ho, hr⟩ =>
      .compare hl ho hr

/-- A text that begins with an expression is a predicate up to what follows the expression and the
blank characters behind it. -/
theorem Derives.renders_before {cs m : List Char} {e : Expr} (h : Derives .disj cs e m) :
    ∃ before, cs = before ++ skipBlank m ∧ Renders before e := by
  obtain ⟨w, -, rfl, hw⟩ := h.stands
  have hsplit : m.takeWhile isBlank ++ skipBlank m = m := List.takeWhile_append_dropWhile
  refine ⟨w ++ m.takeWhile isBlank, by rw [List.append_assoc, hsplit], m.takeWhile isBlank,
    hw _ fun c cs hblank => ?_, fun c hc => List.mem_takeWhile_imp hc⟩
  rw [hblank] at hsplit
  exact ⟨_, hsplit.symm⟩

end GuardedConfig.Grammar
