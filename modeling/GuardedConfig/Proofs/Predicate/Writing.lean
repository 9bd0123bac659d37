import GuardedConfig.Proofs.Predicate.Reading
import GuardedConfig.Proofs.Text.Numeral

/-!
# Written expressions are read back

An expression is written with a pair of parentheses around every compound and one blank around
every sign. Where its fields have names of the language and its literals are whole numbers, truth
values or texts that need no escape, reading what is written gives the expression back.

Floats are left out: one that is whole is written without a point and is read as a whole number.

Results:
* `spells_text`: an operand is written as a spelling of itself.
* `derives_text`: an expression is written as a primary part, whatever ends the word behind it.
* `parse_text`: what is written parses to the expression, so two expressions are never written
  alike, and what the builder makes is what its written form parses to.
-/

namespace GuardedConfig

open Grammar (IsField)

/-- A literal that is written the way it is read: a whole number, a truth value, or a text without
quotes and backslashes. -/
def Value.Legible : Value → Prop
  | .int _ | .bool _ => True
  | .str s => '"' ∉ s.toList ∧ '\\' ∉ s.toList
  | .float _ => False

/-- A field with a name of the language, or a legible literal. -/
def Operand.Legible : Operand → Prop
  | .field path => IsField path
  | .literal v => v.Legible

/-- An expression with legible operands only. -/
def Expr.Legible : Expr → Prop
  | .compare l _ r => l.Legible ∧ r.Legible
  | .operand o => o.Legible
  | .and a b | .or a b => a.Legible ∧ b.Legible
  | .not a => a.Legible

/-- The comparisons that the builder offers. -/
def FieldRef.comparisons : List (FieldRef → Value → Expr) :=
  [FieldRef.eq, FieldRef.ne, FieldRef.gt, FieldRef.ge, FieldRef.lt, FieldRef.le]

/-- The expressions that the builder makes of names of the language and legible values. -/
inductive Expr.Built : Expr → Prop
  | compare {make : FieldRef → Value → Expr} {name : String} {v : Value}
      (hmake : make ∈ FieldRef.comparisons) (hname : IsField name) (hv : v.Legible) :
      Built (make (field name) v)
  | isTrue {name : String} (hname : IsField name) : Built (field name).isTrue
  | and {a b : Expr} (ha : Built a) (hb : Built b) : Built (.and a b)
  | or {a b : Expr} (ha : Built a) (hb : Built b) : Built (.or a b)
  | not {a : Expr} (ha : Built a) : Built (.not a)

theorem Expr.Built.legible {e : Expr} (h : e.Built) : e.Legible := by
  induction h with
  | compare hmake hname hv =>
    simp only [FieldRef.comparisons, List.mem_cons, List.not_mem_nil, or_false] at hmake
    rcases hmake with rfl | rfl | rfl | rfl | rfl | rfl <;> exact ⟨hname, hv⟩
  | isTrue hname => exact hname
  | and _ _ iha ihb => exact ⟨iha, ihb⟩
  | or _ _ iha ihb => exact ⟨iha, ihb⟩
  | not _ iha => exact iha

namespace Grammar

/-! ## Operands -/

theorem isDigits_toString (n : Nat) : IsDigits (toString n).toList :=
  ⟨toList_toString_ne_nil n, fun _ => isDigit_of_mem_toString⟩

/-- A whole number is written as digits, behind a minus if it is negative. -/
theorem spells_int (i : Int64) :
    Spells (.operand (.literal (.int i))) (toString i.toInt).toList := by
  cases hi : i.toInt with
  | ofNat n =>
    have htext : (toString (Int.ofNat n)).toList = signed false (toString n).toList := rfl
    rw [htext]
    refine Spells.int (isDigits_toString n) ?_
    rw [if_neg (by decide), digitsValue_toString, hi]
    rfl
  | negSucc n =>
    have htext : (toString (Int.negSucc n)).toList = signed true (toString (n + 1)).toList := by
      change ("-" ++ toString (n + 1)).toList = _
      rw [String.toList_append]
      rfl
    rw [htext]
    refine Spells.int (isDigits_toString (n + 1)) ?_
    rw [if_pos rfl, digitsValue_toString, hi]
    rfl

theorem quoted_self {cs : List Char} (hq : '"' ∉ cs) (hb : '\\' ∉ cs) : Quoted cs cs := by
  induction cs with
  | nil => exact .nil
  | cons c cs ih =>
    obtain ⟨hqc, hqs⟩ := not_or.mp (List.mem_cons.not.mp hq)
    obtain ⟨hbc, hbs⟩ := not_or.mp (List.mem_cons.not.mp hb)
    exact .plain (Ne.symm hqc) (Ne.symm hbc) (ih hqs hbs)

theorem spells_text {o : Operand} (h : o.Legible) : Spells (.operand o) o.text.toList := by
  cases o with
  | field path => exact .field h
  | literal v =>
    cases v with
    | int i => exact spells_int i
    | bool b => exact .bool b
    | str s =>
      have hspells := Spells.str (quoted_self h.1 h.2)
      rw [String.ofList_toList] at hspells
      simpa [Operand.text, Value.text] using hspells
    | float x => exact absurd h id

/-! ## Expressions -/

/-- No word goes on where the text begins. -/
def Ends (rest : List Char) : Prop :=
  ∀ c cs, rest = c :: cs → Token.nameChar c = false

theorem ends_blank (cs : List Char) : Ends (' ' :: cs) := by
  rintro _ _ ⟨rfl, rfl⟩
  rfl

theorem ends_paren (cs : List Char) : Ends (')' :: cs) := by
  rintro _ _ ⟨rfl, rfl⟩
  rfl

theorem begins_of_spells {t : Token} {w rest : List Char} (hw : Spells t w) (hr : Ends rest) :
    Begins t (w ++ rest) rest :=
  ⟨[], w, by simp, hw, fun _ _ d rest' _ hrest _ => hr d rest' hrest, rfl⟩

theorem Begins.blank {t : Token} {cs rest : List Char} (h : Begins t cs rest) :
    Begins t (' ' :: cs) rest := by
  obtain ⟨ws, w, hws, hw, he, rfl⟩ := h
  exact ⟨' ' :: ws, w, List.forall_mem_cons.mpr ⟨rfl, hws⟩, hw, he, rfl⟩

/-- A blank in front of a part changes nothing. -/
theorem Derives.blank {l : Level} {cs rest : List Char} {e : Expr} (h : Derives l cs e rest) :
    Derives l (' ' :: cs) e rest := by
  induction h with
  | or _ ht hb iha _ => exact .or iha ht hb
  | ofConj _ ih => exact .ofConj ih
  | and _ ht hb iha _ => exact .and iha ht hb
  | ofUnary _ ih => exact .ofUnary ih
  | not ht h _ => exact .not ht.blank h
  | ofPrimary _ ih => exact .ofPrimary ih
  | paren ho h hc _ => exact .paren ho.blank h hc
  | operand h => exact .operand h.blank
  | compare hl ho hr => exact .compare hl.blank ho hr

theorem Derives.inParens {cs rest : List Char} {e : Expr}
    (h : Derives .disj cs e (')' :: rest)) : Derives .primary ('(' :: cs) e rest := by
  have hopen : Begins .openParen ('(' :: cs) cs :=
    ⟨[], ['('], by simp, .openParen, wordEnds_of_not_nameStart (by decide) rfl, rfl⟩
  have hclose : Begins .closeParen (')' :: rest) rest :=
    ⟨[], [')'], by simp, .closeParen, wordEnds_of_not_nameStart (by decide) rfl, rfl⟩
  exact .paren hopen h hclose

/-- A keyword between blanks. -/
theorem begins_between {t : Token} {w : String} (hw : Spells t w.toList) (cs : List Char) :
    Begins t (' ' :: (w.toList ++ ' ' :: cs)) (' ' :: cs) :=
  (begins_of_spells hw (ends_blank cs)).blank

/-- **An expression is written as a primary part**, where no word goes on behind it. -/
theorem derives_text {e : Expr} (he : e.Legible) {rest : List Char} (hr : Ends rest) :
    Derives .primary (e.text.toList ++ rest) e rest := by
  induction e generalizing rest with
  | compare l op r =>
    have hleft := begins_of_spells (spells_text he.1)
      (ends_blank (op.text.toList ++ ' ' :: (r.text.toList ++ ')' :: rest)))
    have hright := (begins_of_spells (spells_text he.2) (ends_paren rest)).blank
    have hparts := Derives.compare hleft (begins_between (.op op) _) hright
    simpa [Expr.text] using hparts.ofPrimary.ofUnary.ofConj.inParens
  | operand o => exact .operand (begins_of_spells (spells_text he) hr)
  | and a b iha ihb =>
    have hleft := (iha he.1 (ends_blank ("AND".toList ++ ' ' :: (b.text.toList ++ ')' :: rest))))
    have hright := (ihb he.2 (ends_paren rest)).blank
    have hparts := (Derives.and hleft.ofPrimary.ofUnary (begins_between (.conj (by decide)) _)
      hright.ofPrimary).ofConj
    simpa [Expr.text] using hparts.inParens
  | or a b iha ihb =>
    have hleft := (iha he.1 (ends_blank ("OR".toList ++ ' ' :: (b.text.toList ++ ')' :: rest))))
    have hright := (ihb he.2 (ends_paren rest)).blank
    have hparts := Derives.or hleft.ofPrimary.ofUnary.ofConj (begins_between (.disj (by decide)) _)
      hright.ofPrimary.ofUnary
    simpa [Expr.text] using hparts.inParens
  | not a iha =>
    have hnot := begins_of_spells (.neg (by decide : "NOT" ∈ _))
      (ends_blank (a.text.toList ++ ')' :: rest))
    have hinner := (iha he (ends_paren rest)).blank
    have hparts := (Derives.not hnot hinner.ofPrimary).ofUnary.ofConj
    simpa [Expr.text] using hparts.inParens

/-- What is written is a predicate of the language, and stands for the expression. -/
theorem renders_text {e : Expr} (h : e.Legible) : Renders e.text.toList e := by
  have hends : Ends [] := by
    rintro _ _ ⟨⟩
  have hprimary := derives_text h hends
  rw [List.append_nil] at hprimary
  exact ⟨[], hprimary.ofPrimary.ofUnary.ofConj, by simp⟩

/-- **What is written is read back.** A legible expression is what its written form parses to, so
two of them with one written form are the same; and whatever the builder makes of names of the
language and legible values is legible. -/
theorem parse_text :
    (∀ e : Expr, e.Legible → parse e.text = .ok e) ∧
      (∀ e f : Expr, e.Legible → f.Legible → e.text = f.text → e = f) ∧
      ∀ e : Expr, e.Built → e.Legible ∧ parse e.text = .ok e := by
  have hparse (e : Expr) (h : e.Legible) : parse e.text = .ok e :=
    (parse_eq_ok_iff e.text e).mpr (renders_text h)
  refine ⟨hparse, fun e f he hf htext => ?_, fun e h => ⟨h.legible, hparse e h.legible⟩⟩
  have hread := hparse e he
  rw [htext, hparse f hf] at hread
  cases hread
  rfl

/-- A field that begins like a keyword beside the least whole number, a field with a keyword as its
first part, and a text in front of its operator. -/
theorem parse_text_of_keyword_like :
    let e : Expr := .and ((field "notify").ge (.int Int64.minValue))
      (.or (.not (field "true.x").isTrue)
        (.compare (.literal (.str "a OR b")) .eq (.field "_n")))
    e.text = "((notify >= -9223372036854775808) AND ((NOT true.x) OR (\"a OR b\" == _n)))" ∧
      parse e.text = .ok e := by
  intro e
  have hnotify : IsField "notify" :=
    ⟨⟨'n', "otify".toList, rfl, rfl, List.all_eq_true.mp rfl⟩, by decide⟩
  have htrue : IsField "true.x" :=
    ⟨⟨'t', "rue.x".toList, rfl, rfl, List.all_eq_true.mp rfl⟩, by decide⟩
  have hname : IsField "_n" :=
    ⟨⟨'_', "n".toList, rfl, rfl, List.all_eq_true.mp rfl⟩, by decide⟩
  have htext : Value.Legible (.str "a OR b") := ⟨by decide +kernel, by decide +kernel⟩
  exact ⟨by decide +kernel, parse_text.1 e ⟨⟨hnotify, trivial⟩, htrue, htext, hname⟩⟩

end Grammar

end GuardedConfig
