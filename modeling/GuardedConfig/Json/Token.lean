import GuardedConfig.Json.Basic
import GuardedConfig.Text.Digits

/-!
# The tokens of a JSON text

A text is a row of punctuation, quoted texts and other scalars. A scalar can be read in two ways: it
is kept, or it is passed over unread, when only its extent matters. Passing over asks for less: a
number may be of any size and the escapes of a quoted text need not pair up. So a token says for
both ways what is wrong with it, if anything is. Nothing follows a token that is wrong both ways.

A number becomes a double by a method of its own, which can differ from the nearest double in the
last place: the digits that fit in 64 bits make a whole number, and its double is multiplied or
divided by a power of ten.
-/

namespace GuardedConfig

/-- A token of a JSON text. -/
inductive JsonToken where
  | openArray
  | closeArray
  | openObject
  | closeObject
  | colon
  | comma
  /-- A quoted text: what it holds, and what is wrong with it when it is passed over. -/
  | text (content : Except JsonFault String) (skipped : Option JsonFault)
  /-- Any other scalar, in the same way. -/
  | scalar (content : Except JsonFault Json) (skipped : Option JsonFault)
  /-- A character that begins no token. -/
  | unknown

namespace JsonToken

/-! ## Quoted texts -/

/-- One element of a quoted text: a character, or a code unit written with four digits. -/
inductive TextUnit where
  | char (c : Char)
  | code (n : Nat)

/-- The elements of a quoted text, the fault that ends it early, and what follows it. -/
structure TextScan where
  units : List TextUnit
  fault : Option JsonFault
  rest : List Char

/-- One more element in front. -/
def TextScan.cons (u : TextUnit) (s : TextScan) : TextScan :=
  { s with units := u :: s.units }

/-- A text that ends early. -/
def TextScan.stop (f : JsonFault) : TextScan := ⟨[], some f, []⟩

/-- The value of a digit to the base sixteen. -/
def hexDigit (c : Char) : Option Nat :=
  if c.isDigit then some (c.toNat - '0'.toNat)
  else if 'a' ≤ c ∧ c ≤ 'f' then some (c.toNat - 'a'.toNat + 10)
  else if 'A' ≤ c ∧ c ≤ 'F' then some (c.toNat - 'A'.toNat + 10)
  else none

/-- The value of digits to the base sixteen. -/
def hexValue (cs : List Char) : Option Nat :=
  cs.foldlM (fun n c => (hexDigit c).map (16 * n + ·)) 0

/-- What is wrong where four digits to the base sixteen are missing: the text is cut off when it
has fewer than four bytes left. -/
def hexFault (cs : List Char) : JsonFault :=
  if (String.ofList cs).utf8ByteSize < 4 then .cutOff else .malformed

/-- The character that an escape of one letter stands for. -/
def escaped (c : Char) : Option Char :=
  match c with
  | '"' => some '"'
  | '\\' => some '\\'
  | '/' => some '/'
  | 'b' => some '\x08'
  | 'f' => some '\x0c'
  | 'n' => some '\n'
  | 'r' => some '\r'
  | 't' => some '\t'
  | _ => none

/-- The elements of a quoted text after its opening quote. -/
def scanUnits : List Char → TextScan
  | [] => .stop .cutOff
  | '"' :: rest => ⟨[], none, rest⟩
  | '\\' :: 'u' :: a :: b :: c :: d :: rest =>
    match hexValue [a, b, c, d] with
    | some n => (scanUnits rest).cons (.code n)
    | none => .stop (hexFault (a :: b :: c :: d :: rest))
  | '\\' :: 'u' :: rest => .stop (hexFault rest)
  | ['\\'] => .stop .cutOff
  | '\\' :: e :: rest =>
    match escaped e with
    | some c => (scanUnits rest).cons (.char c)
    | none => .stop .malformed
  | c :: rest => if c.toNat < 0x20 then .stop .malformed else (scanUnits rest).cons (.char c)

/-- The characters that the elements denote, with the fault that ended them early, if one did. Code
units from `D800` to `DFFF` come in pairs that denote one character. -/
def decodeUnits (fault : Option JsonFault) : List TextUnit → Except JsonFault (List Char)
  | [] =>
    match fault with
    | some f => .error f
    | none => .ok []
  | .char c :: us => (decodeUnits fault us).map (c :: ·)
  | .code n :: us =>
    if n < 0xD800 ∨ 0xDFFF < n then (decodeUnits fault us).map (Char.ofNat n :: ·)
    else if 0xDC00 ≤ n then .error .malformed
    else
      match us with
      | [] => .error (fault.getD .malformed)
      | .char _ :: _ => .error .malformed
      | .code m :: us =>
        if m < 0xDC00 ∨ 0xDFFF < m then .error .malformed
        else
          let c := Char.ofNat (0x10000 + (n - 0xD800) * 0x400 + (m - 0xDC00))
          (decodeUnits fault us).map (c :: ·)

/-- A quoted text after its opening quote, and what follows it. -/
def scanText (cs : List Char) : JsonToken × List Char :=
  let s := scanUnits cs
  (text ((decodeUnits s.fault s.units).map String.ofList) s.fault, s.rest)

/-! ## Numbers -/

/-- The parts of the text of a number. -/
structure NumberParts where
  negative : Bool
  whole : List Char
  /-- The digits after the point, if there is a point. -/
  fraction : Option (List Char)
  /-- Whether the exponent is negative, and its digits, if there is an exponent. -/
  exponent : Option (Bool × List Char)

/-- The greatest number of 64 bits. -/
def maxWord : Nat := wordLimit - 1

/-- Takes digits while the number they make has 64 bits. Also the digits that are left. -/
def takeDigits (n : Nat) : List Char → Nat × List Char
  | [] => (n, [])
  | d :: ds =>
    let next := 10 * n + (d.toNat - '0'.toNat)
    if maxWord < next then (n, d :: ds) else takeDigits next ds

/-- The double for a power of ten. -/
def powerOfTen (n : Nat) : Binary64 := .ofDecimal false 1 n

/-- A double divided by a power of ten, in steps of at most `10 ^ 308`. -/
def scaleDown (x : Binary64) (n : Nat) : Binary64 :=
  if n ≤ 308 then x.divSize (powerOfTen n)
  else if x.magnitude = 0 then x
  else scaleDown (x.divSize (powerOfTen 308)) (n - 308)
termination_by n

/-- A double multiplied by a power of ten, if it stays finite. -/
def scaleUp? (x : Binary64) (n : Nat) : Option Binary64 :=
  if n ≤ 308 then
    let y := x.mulSize (powerOfTen n)
    if y.isInfinite then none else some y
  else if x.magnitude = 0 then some x
  else none

/-- The double `digits * 10 ^ exponent` with a sign, if it is in range. Small numbers become
zero. -/
def scaled (negative : Bool) (digits : Nat) (exponent : Int) : Except JsonFault Json :=
  let x := Binary64.ofInt digits
  let size :=
    if 0 ≤ exponent then scaleUp? x exponent.toNat else some (scaleDown x (-exponent).toNat)
  match size with
  | some y => .ok (.number (.float (.ofMagnitude negative y.magnitude)))
  | none => .error .malformed

/-- A number without point and exponent whose digits fit in 64 bits. Below the least whole number
of 64 bits, and for a negative zero, it is a double. -/
def wholeNumber (negative : Bool) (n : Nat) : Json :=
  if negative then
    if n = 0 ∨ signedLimit < n then
      .number (.float (.ofMagnitude true (Binary64.ofInt n).magnitude))
    else .number (.int (-n))
  else .number (.int n)

/-- The greatest exponent that is read. -/
def maxExponent : Nat := 0x7fffffff

/-- The number of the given parts. Digits that no longer fit in 64 bits count as zeros before the
point and are left out behind it. An exponent past the greatest one makes zero stay zero, and any
other number zero or out of range. -/
def NumberParts.value (p : NumberParts) : Except JsonFault Json :=
  let whole := takeDigits 0 p.whole
  let digits := takeDigits whole.1 (p.fraction.getD [])
  let taken := (p.fraction.getD []).length - digits.2.length
  let shift : Int := whole.2.length - taken
  match p.exponent with
  | none =>
    if p.fraction.isNone && whole.2.isEmpty then .ok (wholeNumber p.negative whole.1)
    else scaled p.negative digits.1 shift
  | some (down, ds) =>
    let e := digitsValue ds
    if maxExponent < e then
      if digits.1 ≠ 0 ∧ !down then .error .malformed
      else .ok (.number (.float (.ofMagnitude p.negative 0)))
    else scaled p.negative digits.1 (shift + if down then -(e : Int) else e)

/-- A number that is wrong however it is read. Where the text ends too early, that counts only for
a number that is kept. -/
def badNumber (rest : List Char) : JsonToken × List Char :=
  let fault := if rest.isEmpty then .cutOff else .malformed
  (scalar (.error fault) (some .malformed), [])

/-- A number whose parts have been found. -/
def goodNumber (p : NumberParts) (rest : List Char) : JsonToken × List Char :=
  (scalar p.value none, rest)

/-- Whether an exponent is negative, and the text after its sign. -/
def exponentSign : List Char → Bool × List Char
  | '-' :: rest => (true, rest)
  | '+' :: rest => (false, rest)
  | rest => (false, rest)

/-- Goes on with the exponent, if there is one. -/
def scanExponent (p : NumberParts) (cs : List Char) : JsonToken × List Char :=
  match cs with
  | c :: rest =>
    if c = 'e' ∨ c = 'E' then
      let body := exponentSign rest
      let digits := body.2.takeWhile Char.isDigit
      if digits.isEmpty then badNumber body.2
      else goodNumber { p with exponent := some (body.1, digits) } (body.2.dropWhile Char.isDigit)
    else goodNumber p (c :: rest)
  | [] => goodNumber p []

/-- Goes on with the fraction, if there is one. -/
def scanFraction (p : NumberParts) (cs : List Char) : JsonToken × List Char :=
  match cs with
  | '.' :: rest =>
    let digits := rest.takeWhile Char.isDigit
    if digits.isEmpty then badNumber rest
    else scanExponent { p with fraction := some digits } (rest.dropWhile Char.isDigit)
  | _ => scanExponent p cs

/-- A number after its sign. No digit may follow a zero in front. -/
def scanNumber (negative : Bool) (cs : List Char) : JsonToken × List Char :=
  let digits := cs.takeWhile Char.isDigit
  if digits.isEmpty then badNumber cs
  else if digits.head? = some '0' ∧ 1 < digits.length then
    (scalar (.error .malformed) (some .malformed), [])
  else scanFraction ⟨negative, digits, none, none⟩ (cs.dropWhile Char.isDigit)

/-! ## Words -/

/-- The text after a word, if the word is there. -/
def scanWord : (word : List Char) → List Char → Except JsonFault (List Char)
  | [], cs => .ok cs
  | _ :: _, [] => .error .cutOff
  | w :: ws, c :: cs => if w = c then scanWord ws cs else .error .malformed

/-- A scalar written as a word. -/
def wordToken (value : Json) (word cs : List Char) : JsonToken × List Char :=
  match scanWord word cs with
  | .ok rest => (scalar (.ok value) none, rest)
  | .error f => (scalar (.error f) (some f), [])

/-! ## Tokens -/

/-- The token that begins with the character `c`, and the text after it. -/
def scan (c : Char) (cs : List Char) : JsonToken × List Char :=
  match c with
  | '[' => (openArray, cs)
  | ']' => (closeArray, cs)
  | '\x7b' => (openObject, cs)
  | '\x7d' => (closeObject, cs)
  | ':' => (colon, cs)
  | ',' => (comma, cs)
  | '"' => scanText cs
  | 'n' => wordToken .null ['u', 'l', 'l'] cs
  | 't' => wordToken (.bool true) ['r', 'u', 'e'] cs
  | 'f' => wordToken (.bool false) ['a', 'l', 's', 'e'] cs
  | '-' => scanNumber true cs
  | c => if c.isDigit then scanNumber false (c :: cs) else (unknown, cs)

theorem scanUnits_length_le (cs : List Char) : (scanUnits cs).rest.length ≤ cs.length := by
  fun_induction scanUnits cs <;> simp_all [TextScan.stop, TextScan.cons] <;> omega

theorem scanWord_length_le {word cs rest : List Char} (h : scanWord word cs = .ok rest) :
    rest.length ≤ cs.length := by
  fun_induction scanWord word cs with
  | case1 => cases h; exact Nat.le_refl _
  | case2 => cases h
  | case3 _ _ _ ih => exact Nat.le_succ_of_le (ih h)
  | case4 => cases h

theorem exponentSign_length_le (cs : List Char) : (exponentSign cs).2.length ≤ cs.length := by
  simp only [exponentSign]
  split <;> simp

theorem scanExponent_length_le (p : NumberParts) (cs : List Char) :
    (scanExponent p cs).2.length ≤ cs.length := by
  simp only [scanExponent]
  split
  · rename_i c rest
    split
    · split
      · simp [badNumber]
      · have h1 := exponentSign_length_le rest
        have h2 := (List.dropWhile_sublist Char.isDigit (l := (exponentSign rest).2)).length_le
        simp only [goodNumber, List.length_cons]
        omega
    · exact Nat.le_refl _
  · exact Nat.le_refl _

theorem scanFraction_length_le (p : NumberParts) (cs : List Char) :
    (scanFraction p cs).2.length ≤ cs.length := by
  simp only [scanFraction]
  split
  · rename_i rest
    split
    · simp [badNumber]
    · refine Nat.le_trans (scanExponent_length_le _ _) ?_
      have := (List.dropWhile_sublist Char.isDigit (l := rest)).length_le
      simp only [List.length_cons]
      omega
  · exact scanExponent_length_le p _

theorem scanNumber_length_lt (negative : Bool) {cs : List Char} (h : cs ≠ []) :
    (scanNumber negative cs).2.length < cs.length := by
  have hc : 0 < cs.length := List.length_pos_iff.2 h
  simp only [scanNumber]
  split
  · simpa [badNumber] using hc
  · rename_i hd
    split
    · simpa using hc
    · refine Nat.lt_of_le_of_lt (scanFraction_length_le _ _) ?_
      cases cs with
      | nil => exact absurd rfl h
      | cons c cs =>
        rw [List.takeWhile_cons] at hd
        split at hd
        · rename_i hc
          rw [List.dropWhile_cons, if_pos hc]
          exact Nat.lt_succ_of_le (List.dropWhile_sublist _).length_le
        · simp at hd

theorem wordToken_length_le (value : Json) (word cs : List Char) :
    (wordToken value word cs).2.length ≤ cs.length := by
  simp only [wordToken]
  split
  · rename_i h
    exact scanWord_length_le h
  · simp

theorem scan_length_le (c : Char) (cs : List Char) : (scan c cs).2.length ≤ cs.length := by
  simp only [scan]
  split
  case h_7 => exact scanUnits_length_le cs
  case h_8 | h_9 | h_10 => exact wordToken_length_le _ _ _
  case h_11 =>
    by_cases h : cs = []
    · subst h; exact Nat.le_refl _
    · exact Nat.le_of_lt (scanNumber_length_lt true h)
  case h_12 =>
    split
    · exact Nat.le_of_lt_succ (scanNumber_length_lt false (List.cons_ne_nil _ cs))
    · exact Nat.le_refl _
  all_goals exact Nat.le_refl _

/-- The characters that may stand between tokens. -/
def isSpace (c : Char) : Bool :=
  c == ' ' || c == '\n' || c == '\t' || c == '\r'

end JsonToken

/-- The tokens of a text. -/
def jsonTokens (cs : List Char) : List JsonToken :=
  match _h : cs.dropWhile JsonToken.isSpace with
  | [] => []
  | c :: rest =>
    let scanned := JsonToken.scan c rest
    scanned.1 :: jsonTokens scanned.2
termination_by cs.length
decreasing_by
  have h1 := JsonToken.scan_length_le c rest
  have h2 := (List.dropWhile_sublist JsonToken.isSpace (l := cs)).length_le
  rw [_h, List.length_cons] at h2
  omega

end GuardedConfig
