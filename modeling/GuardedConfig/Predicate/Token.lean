import GuardedConfig.Text.Blank
import GuardedConfig.Text.Digits
import GuardedConfig.Predicate.Expr

/-!
# The words of a predicate

A predicate text is a row of lexemes with blank characters between them. A lexeme keeps the text
from its first character on and the text after it, so that a fault can be placed without counting.
Words and numbers reach as far as they can; a quoted text reaches to its closing quote. Characters
that begin no word are lexemes of their own, which no predicate admits.

Results:
* `Token.scan_length_le`: a lexeme takes at least its first character.
* `lexemes_append_blank`: blank characters in front of a text do not change its lexemes.
-/

namespace GuardedConfig

/-- What one lexeme stands for. -/
inductive Token where
  | operand (o : Operand)
  | op (o : CompareOp)
  | conj
  | disj
  | neg
  | openParen
  | closeParen
  /-- A quoted text that runs to the end of the input. -/
  | unclosedText
  /-- A whole number outside the 64-bit range. -/
  | outOfRange
  /-- A character that begins no word. -/
  | unknown
  deriving DecidableEq

namespace Token

/-- The characters that begin the name of a field. -/
def nameStart (c : Char) : Bool :=
  c.isAlpha || c == '_'

/-- The characters that continue the name of a field. -/
def nameChar (c : Char) : Bool :=
  c.isAlphanum || c == '_' || c == '.'

/-- The words with a meaning of their own; every other word is a field. -/
def ofWord (w : String) : Token :=
  if w = "and" ∨ w = "AND" then conj
  else if w = "or" ∨ w = "OR" then disj
  else if w = "not" ∨ w = "NOT" then neg
  else if w = "true" then operand (.literal (.bool true))
  else if w = "false" then operand (.literal (.bool false))
  else operand (.field w)

/-- The content of a quoted text after its opening quote, and what follows the closing quote. A
backslash before a quote, a backslash, `n` or `t` writes that quote, backslash, line feed or tab;
before any other character it stands for itself. -/
def quoted : List Char → Option (List Char × List Char)
  | [] => none
  | ['\\'] => none
  | '"' :: rest => some ([], rest)
  | '\\' :: c :: rest =>
    (quoted rest).map fun r =>
      if c = '"' ∨ c = '\\' then (c :: r.1, r.2)
      else if c = 'n' then ('\n' :: r.1, r.2)
      else if c = 't' then ('\t' :: r.1, r.2)
      else ('\\' :: c :: r.1, r.2)
  | c :: rest => (quoted rest).map fun r => (c :: r.1, r.2)

/-- A whole number as a literal, if it has 64 bits. -/
def wholeNumber (negative : Bool) (n : Nat) : Token :=
  if negative then
    if n ≤ signedLimit then operand (.literal (.int (Int64.ofInt (-n)))) else outOfRange
  else if n < signedLimit then operand (.literal (.int (Int64.ofInt n))) else outOfRange

/-- A number whose text starts with a digit. A point belongs to it only when a digit follows. -/
def number (negative : Bool) (cs : List Char) : Token × List Char :=
  let whole := cs.takeWhile Char.isDigit
  match cs.dropWhile Char.isDigit with
  | '.' :: d :: rest =>
    if d.isDigit then
      let fraction := (d :: rest).takeWhile Char.isDigit
      let x := Binary64.ofDecimal negative (digitsValue (whole ++ fraction)) (-fraction.length)
      (operand (.literal (.float x)), (d :: rest).dropWhile Char.isDigit)
    else (wholeNumber negative (digitsValue whole), '.' :: d :: rest)
  | rest => (wholeNumber negative (digitsValue whole), rest)

/-- The lexemes of one or two signs. -/
def sign (c : Char) (cs : List Char) : Token × List Char :=
  match c, cs with
  | '(', cs => (openParen, cs)
  | ')', cs => (closeParen, cs)
  | '&', '&' :: cs => (conj, cs)
  | '|', '|' :: cs => (disj, cs)
  | '!', '=' :: cs => (op .ne, cs)
  | '!', cs => (neg, cs)
  | '>', '=' :: cs => (op .ge, cs)
  | '>', cs => (op .gt, cs)
  | '<', '=' :: cs => (op .le, cs)
  | '<', cs => (op .lt, cs)
  | '=', '=' :: cs => (op .eq, cs)
  | _, cs => (unknown, cs)

/-- The lexeme that begins with the character `c`, and the text after it. -/
def scan (c : Char) (cs : List Char) : Token × List Char :=
  if c = '"' then
    match quoted cs with
    | some (s, rest) => (operand (.literal (.str (String.ofList s))), rest)
    | none => (unclosedText, [])
  else if nameStart c then
    (ofWord (String.ofList (c :: cs.takeWhile nameChar)), cs.dropWhile nameChar)
  else if c.isDigit then number false (c :: cs)
  else if c = '-' then
    match cs with
    | [] => (unknown, [])
    | d :: rest => if d.isDigit then number true (d :: rest) else (unknown, d :: rest)
  else sign c cs

theorem quoted_length_le {cs s rest : List Char} (h : quoted cs = some (s, rest)) :
    rest.length ≤ cs.length := by
  fun_induction quoted cs generalizing s rest with
  | case1 => simp at h
  | case2 => simp at h
  | case3 => simp only [Option.some.injEq, Prod.mk.injEq] at h; simp [h.2]
  | case4 c tail ih =>
    obtain ⟨⟨s', rest'⟩, hq, he⟩ := Option.map_eq_some_iff.1 h
    have hl := ih hq
    have hr : rest = rest' := by
      revert he
      simp only
      split
      · simp_all
      · split
        · simp_all
        · split <;> simp_all
    simp only [List.length_cons, hr]
    omega
  | case5 c tail _ _ _ ih =>
    obtain ⟨⟨s', rest'⟩, hq, he⟩ := Option.map_eq_some_iff.1 h
    have hl := ih hq
    simp only [Prod.mk.injEq] at he
    simp only [List.length_cons, ← he.2]
    omega

theorem number_length_le (negative : Bool) (d : Char) (cs : List Char) (hd : d.isDigit = true) :
    (number negative (d :: cs)).2.length ≤ cs.length := by
  have h : ((d :: cs).dropWhile Char.isDigit).length ≤ cs.length := by
    rw [List.dropWhile_cons, if_pos hd]
    exact (List.dropWhile_sublist _).length_le
  simp only [number]
  split
  · rename_i e rest hr
    rw [hr] at h
    split
    · have := (List.dropWhile_sublist Char.isDigit (l := e :: rest)).length_le
      simp only [List.length_cons] at h this ⊢
      omega
    · exact h
  · exact h

theorem sign_length_le (c : Char) (cs : List Char) : (sign c cs).2.length ≤ cs.length := by
  simp only [sign]
  split <;> simp

theorem scan_length_le (c : Char) (cs : List Char) : (scan c cs).2.length ≤ cs.length := by
  simp only [scan]
  split
  · split
    · rename_i h
      exact quoted_length_le h
    · simp
  · split
    · exact (List.dropWhile_sublist _).length_le
    · split
      · rename_i h
        exact number_length_le false c cs h
      · split
        · split
          · simp
          · rename_i d rest
            split
            · rename_i h
              have := number_length_le true d rest h
              simp only [List.length_cons]
              omega
            · simp
        · exact sign_length_le c cs

end Token

/-- A word of a predicate text in its place. -/
structure Lexeme where
  token : Token
  /-- The text from the first character of the lexeme on. -/
  start : List Char
  /-- The text after the lexeme. -/
  stop : List Char

/-- The lexemes of a text, in order. -/
def lexemes (cs : List Char) : List Lexeme :=
  match _h : skipBlank cs with
  | [] => []
  | c :: rest =>
    let scanned := Token.scan c rest
    ⟨scanned.1, c :: rest, scanned.2⟩ :: lexemes scanned.2
termination_by cs.length
decreasing_by
  have h1 := Token.scan_length_le c rest
  have h2 := skipBlank_length_le cs
  rw [_h, List.length_cons] at h2
  omega

theorem lexemes_append_blank {ws cs : List Char} (h : ∀ c ∈ ws, isBlank c = true) :
    lexemes (ws ++ cs) = lexemes cs := by
  rw [lexemes, lexemes]
  split <;> split <;> simp_all [skipBlank_append h]

end GuardedConfig
