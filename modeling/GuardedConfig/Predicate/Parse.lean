import GuardedConfig.Predicate.ParseError
import GuardedConfig.Predicate.Token

/-!
# Reading a predicate

Lexemes are taken one by one onto a stack of unfinished pieces: open parentheses, pending `not`s,
and the left sides of connectives. `not` binds closest, then `and`, then `or`; both connectives
group to the left, and a comparison takes two operands only. A text is a predicate when nothing is
left unfinished at its end.

Where an operand is missing right after opening parentheses, those parentheses are given up too:
the place of the fault is the outermost of them. After `not`, a connective or an operator there is
no way back, and the place is the lexeme that is no operand.

Results:
* `parse_append_blank`: blank characters in front of a text change no predicate.
-/

namespace GuardedConfig

/-- A piece of a predicate that waits for what follows. -/
inductive Frame where
  /-- An open parenthesis, with the text from it on. -/
  | paren (start : List Char)
  | neg
  | conj (left : Expr)
  | disj (left : Expr)

/-- What has been read since the newest frame. -/
inductive Reading where
  /-- Nothing: an operand has to follow. -/
  | nothing
  /-- An operand, which may turn out to be the left side of a comparison. -/
  | operand (o : Operand)
  /-- A left side and its operator: an operand has to follow. -/
  | comparison (left : Operand) (op : CompareOp)
  /-- A complete expression. -/
  | complete (e : Expr)

/-- A predicate read in part. -/
structure ParseState where
  frames : List Frame
  reading : Reading

/-- A fault at the place where the given text remains. -/
structure ParseFailure where
  fault : Fault
  rest : List Char

namespace Frame

/-- The number of open parentheses. -/
def depth : List Frame → Nat
  | [] => 0
  | paren _ :: fs => depth fs + 1
  | _ :: fs => depth fs

/-- Finishes the pieces that bind closer than `or`. -/
def closeConj : List Frame → Expr → List Frame × Expr
  | neg :: fs, e => closeConj fs (.not e)
  | conj left :: fs, e => closeConj fs (.and left e)
  | fs, e => (fs, e)

/-- Finishes all pieces up to the innermost open parenthesis. -/
def closeDisj : List Frame → Expr → List Frame × Expr
  | neg :: fs, e => closeDisj fs (.not e)
  | conj left :: fs, e => closeDisj fs (.and left e)
  | disj left :: fs, e => closeDisj fs (.or left e)
  | fs, e => (fs, e)

/-- The failure where an operand is missing and the given text remains. Parentheses that were
opened just before are given up. -/
def missingOperand : List Frame → List Char → ParseFailure
  | paren start :: fs, _ => missingOperand fs start
  | fs, rest => ⟨.noOperand (depth fs), rest⟩

/-- The failure where a complete expression cannot go on. -/
def cannotContinue (fs : List Frame) (rest : List Char) : ParseFailure :=
  if depth fs = 0 then ⟨.trailing, rest⟩ else ⟨.unclosed (depth fs), rest⟩

end Frame

namespace ParseState

/-- Nothing read yet. -/
def start : ParseState := ⟨[], .nothing⟩

/-- Goes on after a complete expression. -/
def extend (fs : List Frame) (e : Expr) (x : Lexeme) : Except ParseFailure ParseState :=
  match x.token with
  | .conj =>
    let r := Frame.closeConj fs e
    .ok ⟨.conj r.2 :: r.1, .nothing⟩
  | .disj =>
    let r := Frame.closeDisj fs e
    .ok ⟨.disj r.2 :: r.1, .nothing⟩
  | .closeParen =>
    match Frame.closeDisj fs e with
    | (.paren _ :: outer, e) => .ok ⟨outer, .complete e⟩
    | _ => .error ⟨.trailing, x.start⟩
  | _ => .error (Frame.cannotContinue fs x.start)

/-- Takes one lexeme. -/
def step (s : ParseState) (x : Lexeme) : Except ParseFailure ParseState :=
  match s.reading, x.token with
  | .nothing, .operand o => .ok ⟨s.frames, .operand o⟩
  | .nothing, .neg => .ok ⟨.neg :: s.frames, .nothing⟩
  | .nothing, .openParen => .ok ⟨.paren x.start :: s.frames, .nothing⟩
  | .nothing, .unclosedText => .error ⟨.noOperand (Frame.depth s.frames), x.stop⟩
  | .nothing, .outOfRange => .error ⟨.noOperand (Frame.depth s.frames), x.stop⟩
  | .nothing, _ => .error (Frame.missingOperand s.frames x.start)
  | .comparison left op, .operand right => .ok ⟨s.frames, .complete (.compare left op right)⟩
  | .comparison _ _, .unclosedText => .error ⟨.noOperand (Frame.depth s.frames), x.stop⟩
  | .comparison _ _, .outOfRange => .error ⟨.noOperand (Frame.depth s.frames), x.stop⟩
  | .comparison _ _, _ => .error ⟨.noOperand (Frame.depth s.frames), x.start⟩
  | .operand left, .op op => .ok ⟨s.frames, .comparison left op⟩
  | .operand o, _ => extend s.frames (.operand o) x
  | .complete e, _ => extend s.frames e x

/-- The predicate read, at the end of the text. -/
def finish (s : ParseState) : Except ParseFailure Expr :=
  let complete (e : Expr) : Except ParseFailure Expr :=
    if Frame.depth s.frames = 0 then .ok (Frame.closeDisj s.frames e).2
    else .error (Frame.cannotContinue s.frames [])
  match s.reading with
  | .nothing => .error (Frame.missingOperand s.frames [])
  | .comparison _ _ => .error ⟨.noOperand (Frame.depth s.frames), []⟩
  | .operand o => complete (.operand o)
  | .complete e => complete e

end ParseState

/-- The predicate that a row of lexemes makes. -/
def parseLexemes (xs : List Lexeme) : Except ParseFailure Expr := do
  (← xs.foldlM ParseState.step .start).finish

/-- The predicate that a text stands for. -/
def parse (text : String) : Except ParseError Expr :=
  match parseLexemes (lexemes text.toList) with
  | .ok e => .ok e
  | .error f => .error ⟨text, text.toList.length - f.rest.length, f.fault⟩

theorem parse_append_blank {ws s : String} (h : blankText ws = true) (e : Expr) :
    parse (ws ++ s) = .ok e ↔ parse s = .ok e := by
  have hl : lexemes (ws ++ s).toList = lexemes s.toList := by
    rw [String.toList_append]
    exact lexemes_append_blank (List.all_eq_true.1 h)
  simp only [parse, hl]
  split <;> simp

end GuardedConfig
