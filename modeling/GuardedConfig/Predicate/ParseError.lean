import GuardedConfig.Text.Pieces

/-!
# Faults of a predicate text

A text that is no predicate has exactly one of three faults: something stands after a complete
predicate, a closing parenthesis is missing, or an operand is missing. The message shows the text
with a mark under the place of the fault and says what was expected there.

A text of one line is marked at the distance in bytes. In a text of several lines the line is shown
by itself, and the distance is counted in characters, but in bytes before a character that takes
several.
-/

namespace GuardedConfig

/-- What is wrong with a predicate text. A depth is a number of parentheses still open before the
place of the fault. -/
inductive Fault where
  /-- Something stands after a complete predicate. -/
  | trailing
  /-- A closing parenthesis is missing after a complete predicate. -/
  | unclosed (depth : Nat)
  /-- There is no operand where one has to stand. -/
  | noOperand (depth : Nat)
  deriving DecidableEq

/-- What was expected at the place of a fault, the innermost first: one expression for every
parenthesis that is open, and one more around a missing operand. -/
def Fault.labels : Fault → List String
  | trailing => []
  | unclosed depth => List.replicate depth "expression"
  | noOperand depth => "field or literal" :: List.replicate (depth + 1) "expression"

/-- A text that is no predicate, with the place of its fault. -/
structure ParseError where
  input : String
  /-- The number of characters before the fault. -/
  offset : Nat
  fault : Fault
  deriving DecidableEq

namespace ParseError

/-- A row of blanks. -/
def blanks (n : Nat) : String :=
  String.ofList (List.replicate n ' ')

/-- The last line of a text, the line feed before it left out. -/
def lastLine (cs : List Char) : List Char :=
  (cs.reverse.takeWhile (· != '\n')).reverse

/-- The line on which an offset lies, from zero, and the width of what precedes it there. Before a
character of several bytes the width is counted in bytes. The end of the text lies behind its last
character, on the line which that character is on; a line feed ends its own line. -/
def place (cs : List Char) (offset : Nat) : Nat × Nat :=
  let before := cs.take offset
  match cs.drop offset with
  | c :: _ =>
    let front := lastLine before
    (before.count '\n', if c.utf8Size = 1 then front.length else (String.ofList front).utf8ByteSize)
  | [] =>
    let inner := before.dropLast
    (inner.count '\n', (lastLine inner).length + (before.length - inner.length))

/-- The text with a mark under the place of the fault. -/
def drawing (e : ParseError) : String :=
  let cs := e.input.toList
  if '\n' ∈ cs then
    let spot := place cs e.offset
    let line := toString (spot.1 + 1)
    let margin := blanks line.length
    "parse error at line " ++ line ++ ", column " ++ toString (spot.2 + 1) ++ "\n"
      ++ margin ++ " |\n"
      ++ line ++ " | " ++ (Pieces.cut '\n' e.input).getD spot.1 "" ++ "\n"
      ++ margin ++ " | " ++ blanks spot.2 ++ "^"
  else e.input ++ "\n" ++ blanks (String.ofList (cs.take e.offset)).utf8ByteSize ++ "^"

/-- What was expected at the place of the fault, or nothing. -/
def expectation (e : ParseError) : String :=
  match e.fault.labels with
  | [] => ""
  | labels => "expected " ++ ", ".intercalate labels

/-- The message for a text that is no predicate. -/
def message (e : ParseError) : String :=
  "parse error in '" ++ e.input ++ "': " ++ e.drawing ++ "\n" ++ e.expectation

end ParseError

end GuardedConfig
