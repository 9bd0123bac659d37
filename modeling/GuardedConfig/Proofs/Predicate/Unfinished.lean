import GuardedConfig.Proofs.Predicate.Operands
import GuardedConfig.Proofs.Predicate.Parens

/-!
# Unfinished predicates

The texts that a predicate may begin with, up to a place where an expression or the right side of a
comparison has to follow. The reader's stacks account for such texts and for nothing else.

An expression that is refused takes the parentheses with it that were opened right in front of it:
the place where it was wanted is the outermost of them, which stands at the front of the text or
behind a connective or a negation.

* `Awaits`: the grammar's four levels with the last part missing.

Results:
* `awaits_of_stack`: what a stack accounts for is an unfinished predicate.
* `missing_of_stack`: where the reader says that an expression is missing.
-/

namespace GuardedConfig.Grammar

/-- `Awaits l cs w rest`: `cs` begins with a part of the level `l` that is unfinished where `rest`
remains: there what is wanted has to follow. -/
inductive Awaits : Level → List Char → Wanted → List Char → Prop
  | here {l : Level} {cs : List Char} : Awaits l cs .expression cs
  | or {cs m m' rest : List Char} {a : Expr} {w : Wanted} (ha : Derives .disj cs a m)
      (ht : Begins .disj m m') (h : Awaits .conj m' w rest) : Awaits .disj cs w rest
  | ofConj {cs rest : List Char} {w : Wanted} (h : Awaits .conj cs w rest) : Awaits .disj cs w rest
  | and {cs m m' rest : List Char} {a : Expr} {w : Wanted} (ha : Derives .conj cs a m)
      (ht : Begins .conj m m') (h : Awaits .unary m' w rest) : Awaits .conj cs w rest
  | ofUnary {cs rest : List Char} {w : Wanted} (h : Awaits .unary cs w rest) :
      Awaits .conj cs w rest
  | not {cs m rest : List Char} {w : Wanted} (ht : Begins .neg cs m)
      (h : Awaits .unary m w rest) : Awaits .unary cs w rest
  | ofPrimary {cs rest : List Char} {w : Wanted} (h : Awaits .primary cs w rest) :
      Awaits .unary cs w rest
  | paren {cs m rest : List Char} {w : Wanted} (ho : Begins .openParen cs m)
      (h : Awaits .disj m w rest) : Awaits .primary cs w rest
  | compare {cs m rest : List Char} {l : Operand} {op : CompareOp}
      (hl : Begins (.operand l) cs m) (ho : Begins (.op op) m rest) :
      Awaits .primary cs .operand rest

theorem Awaits.loosen {l : Level} {cs rest : List Char} {w : Wanted} (h : Awaits l cs w rest) :
    Awaits .disj cs w rest := by
  cases l with
  | disj => exact h
  | conj => exact h.ofConj
  | unary => exact h.ofUnary.ofConj
  | primary => exact h.ofPrimary.ofUnary.ofConj

theorem Awaits.of_ne_disj {l : Level} {cs rest : List Char} {w : Wanted} (h : Awaits l cs w rest)
    (hd : l ≠ .disj) : Awaits .conj cs w rest := by
  cases l with
  | disj => exact absurd rfl hd
  | conj => exact h
  | unary => exact h.ofUnary
  | primary => exact h.ofPrimary.ofUnary

theorem Awaits.of_ne_conj {l : Level} {cs rest : List Char} {w : Wanted} (h : Awaits l cs w rest)
    (hd : l ≠ .disj) (hc : l ≠ .conj) : Awaits .unary cs w rest := by
  cases l with
  | disj => exact absurd rfl hd
  | conj => exact absurd rfl hc
  | unary => exact h
  | primary => exact h.ofPrimary

/-- **What a stack accounts for is an unfinished predicate**, with the unfinished part that is read
on it. -/
theorem awaits_of_stack {cs m : List Char} {fs : List Frame} (hst : Stack cs fs m) {l : Level}
    {w : Wanted} {rest : List Char} (hfs : Fits l fs) (h : Awaits l m w rest) :
    Awaits .disj cs w rest := by
  induction hst generalizing l with
  | nil => exact h.loosen
  | paren _ ht ih => exact ih (l := .primary) trivial (.paren ht h.loosen)
  | neg _ ht _ _ ih =>
    have hunary := h.of_ne_conj (by rintro rfl; exact hfs) (by rintro rfl; exact hfs)
    exact ih (l := .unary) trivial (.not ht hunary)
  | conj _ hgs ha ht ih =>
    have hunary := h.of_ne_conj (by rintro rfl; exact hfs) (by rintro rfl; exact hfs)
    exact ih hgs (.and ha ht hunary)
  | disj _ hgs ha ht ih =>
    have hconj := h.of_ne_disj (by rintro rfl; exact hfs)
    exact ih hgs (.or ha ht hconj)

/-! ## Behind an open parenthesis -/

/-- The last character that is not blank is an open parenthesis. -/
def BehindParen (cs : List Char) : Prop :=
  (skipBlank cs.reverse).head? = some '('

/-- Neither a blank character nor an open parenthesis stands at the end. -/
def endsOff (w : List Char) : Bool :=
  match w.reverse with
  | [] => false
  | c :: _ => !isBlank c && c != '('

theorem not_behindParen_append {w : List Char} (h : endsOff w = true) (cs : List Char) :
    ¬BehindParen (cs ++ w) := by
  unfold endsOff at h
  unfold BehindParen
  rw [List.reverse_append]
  split at h
  · cases h
  · rename_i c w' hw
    simp only [Bool.and_eq_true, Bool.not_eq_true', bne_iff_ne] at h
    rw [hw, List.cons_append, skipBlank, List.dropWhile_cons, if_neg (by simp [h.1])]
    simpa using h.2

/-- Blank characters at the end change nothing. -/
theorem behindParen_append_blank {ws : List Char} (h : ∀ c ∈ ws, isBlank c = true)
    (cs : List Char) : BehindParen (cs ++ ws) ↔ BehindParen cs := by
  unfold BehindParen
  rw [List.reverse_append, skipBlank_append fun c hc => h c (List.mem_reverse.mp hc)]

/-- The tokens behind which the reader looks for something. -/
def joins : Token → Bool
  | .conj | .disj | .neg | .op _ => true
  | _ => false

theorem Spells.endsOff {t : Token} {w : List Char} (h : Spells t w) (ht : joins t = true) :
    endsOff w = true := by
  cases h with
  | conj h => exact (by decide : ∀ w ∈ _, Grammar.endsOff (String.toList w) = true) _ h
  | disj h => exact (by decide : ∀ w ∈ _, Grammar.endsOff (String.toList w) = true) _ h
  | neg h => exact (by decide : ∀ w ∈ _, Grammar.endsOff (String.toList w) = true) _ h
  | op o => cases o <;> decide
  | _ => cases ht

theorem Begins.not_behindParen {t : Token} {m rest : List Char} (h : Begins t m rest)
    (ht : joins t = true) {k n : Nat} {cs : List Char} (hm : Passes k cs n m) :
    ∃ before, cs = before ++ rest ∧ ¬BehindParen before := by
  obtain ⟨v, rfl, -⟩ := hm
  obtain ⟨ws, w, -, hw, -, rfl⟩ := h
  exact ⟨v ++ ws ++ w, by simp, not_behindParen_append (hw.endsOff ht) _⟩

/-- The text in front of a stack without a parenthesis on top. -/
theorem not_behindParen_of_stack {cs m : List Char} {fs : List Frame} (hst : Stack cs fs m)
    (hfs : ∀ start gs, fs ≠ .paren start :: gs) :
    ∃ before, cs = before ++ m ∧ ¬BehindParen before := by
  cases hst with
  | nil => exact ⟨[], rfl, by simp [BehindParen, skipBlank]⟩
  | paren _ _ => exact absurd rfl (hfs _ _)
  | neg hst ht _ _ => exact ht.not_behindParen rfl (passes_of_stack hst)
  | conj hst _ ha ht =>
    exact ht.not_behindParen rfl ((passes_of_stack hst).trans (passes_of_derives ha _))
  | disj hst _ ha ht =>
    exact ht.not_behindParen rfl ((passes_of_stack hst).trans (passes_of_derives ha _))

/-! ## Missing expressions -/

/-- **Where an expression is missing**: parentheses opened right in front of it are refused with
it. -/
theorem missing_of_stack {cs m : List Char} {fs : List Frame} (hst : Stack cs fs m)
    (h : Refused .expression m) :
    ∃ gs m', Stack cs gs m' ∧ Refused .expression m' ∧ (∀ start hs, gs ≠ .paren start :: hs) ∧
      Frame.missingOperand fs (skipBlank m) = ⟨.noOperand (Frame.depth gs), skipBlank m'⟩ := by
  induction hst with
  | nil => exact ⟨[], _, .nil, h, by simp, rfl⟩
  | paren hst ht ih =>
    rw [Frame.missingOperand, ← ht.skipBlank_openParen]
    exact ih (.paren ht h)
  | neg hst ht hx hl _ => exact ⟨_, _, .neg hst ht hx hl, h, by simp, rfl⟩
  | conj hst hfs ha ht _ => exact ⟨_, _, .conj hst hfs ha ht, h, by simp, rfl⟩
  | disj hst hfs ha ht _ => exact ⟨_, _, .disj hst hfs ha ht, h, by simp, rfl⟩

end GuardedConfig.Grammar
