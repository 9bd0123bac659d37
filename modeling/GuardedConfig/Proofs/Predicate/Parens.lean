import GuardedConfig.Proofs.Predicate.Quotes

/-!
# Open parentheses

How many parentheses a text leaves open is counted character by character, quoted texts left out,
without cutting the text into lexemes. Only the parentheses among the tokens change the number: a
part of a predicate leaves it as it was, and a stack of unfinished pieces has as many parentheses as
the text in front of it leaves open.

Results:
* `passes_of_begins`, `passes_of_derives`: what a token and what a part of a predicate do to the
  number.
* `passes_of_stack`: the depth of a stack is the number of parentheses that are open.
-/

namespace GuardedConfig.Grammar

/-- Where in a text a character stands. -/
inductive Standing where
  | outside
  /-- Inside a quoted text. -/
  | quoted
  /-- Inside a quoted text, behind a backslash that is not escaped itself. -/
  | escaped

/-- A text counted up to some place. -/
structure ParenCount where
  standing : Standing
  /-- The number of parentheses still open. -/
  depth : Nat

/-- Counts one character. -/
def ParenCount.next : ParenCount → Char → ParenCount
  | ⟨.outside, n⟩, c =>
    if c = '"' then ⟨.quoted, n⟩
    else if c = '(' then ⟨.outside, n + 1⟩
    else if c = ')' then ⟨.outside, n - 1⟩
    else ⟨.outside, n⟩
  | ⟨.quoted, n⟩, c =>
    if c = '"' then ⟨.outside, n⟩
    else if c = '\\' then ⟨.escaped, n⟩
    else ⟨.quoted, n⟩
  | ⟨.escaped, n⟩, _ => ⟨.quoted, n⟩

/-- The number of parentheses outside quoted texts that a text opens and does not close. -/
def openParens (cs : List Char) : Nat :=
  (cs.foldl ParenCount.next ⟨.outside, 0⟩).depth

/-- `Passes n cs k rest`: from the front of `cs` to where `rest` remains, outside quoted texts, the
number of open parentheses goes from `n` to `k`. -/
def Passes (n : Nat) (cs : List Char) (k : Nat) (rest : List Char) : Prop :=
  ∃ w, cs = w ++ rest ∧ w.foldl ParenCount.next ⟨.outside, n⟩ = ⟨.outside, k⟩

theorem Passes.trans {n k j : Nat} {cs m rest : List Char} (h : Passes n cs k m)
    (h' : Passes k m j rest) : Passes n cs j rest := by
  obtain ⟨w, rfl, hw⟩ := h
  obtain ⟨w', rfl, hw'⟩ := h'
  exact ⟨w ++ w', (List.append_assoc ..).symm, by rw [List.foldl_append, hw, hw']⟩

theorem Passes.split {k : Nat} {cs rest : List Char} (h : Passes 0 cs k rest) :
    ∃ before, cs = before ++ rest ∧ openParens before = k := by
  obtain ⟨w, hcs, hw⟩ := h
  exact ⟨w, hcs, by rw [openParens, hw]⟩

theorem Passes.openParens_eq {k : Nat} {before rest : List Char}
    (h : Passes 0 (before ++ rest) k rest) : openParens before = k := by
  obtain ⟨w, hcs, hw⟩ := h.split
  rw [List.append_cancel_right hcs, hw]

/-! ## Characters -/

/-- The characters that the count passes over, outside quoted texts. -/
def plain (c : Char) : Bool :=
  c != '"' && c != '(' && c != ')'

theorem next_plain {c : Char} (h : plain c = true) (n : Nat) :
    ParenCount.next ⟨.outside, n⟩ c = ⟨.outside, n⟩ := by
  simp only [plain, Bool.and_eq_true, bne_iff_ne] at h
  simp only [ParenCount.next, h, if_false]

theorem next_quoted {c : Char} (hq : c ≠ '"') (hb : c ≠ '\\') (n : Nat) :
    ParenCount.next ⟨.quoted, n⟩ c = ⟨.quoted, n⟩ := by
  simp only [ParenCount.next, hq, hb, if_false]

theorem foldl_plain {w : List Char} (h : w.all plain = true) (n : Nat) :
    w.foldl ParenCount.next ⟨.outside, n⟩ = ⟨.outside, n⟩ := by
  induction w with
  | nil => rfl
  | cons c w ih =>
    rw [List.all_cons, Bool.and_eq_true] at h
    rw [List.foldl_cons, next_plain h.1, ih h.2]

/-- Characters of a class without quotes and parentheses are plain. -/
theorem all_plain {p : Char → Bool} (hq : p '"' = false) (ho : p '(' = false) (hp : p ')' = false)
    {w : List Char} (h : ∀ c ∈ w, p c = true) : w.all plain = true := by
  refine List.all_eq_true.mpr fun c hc => ?_
  have hne {d : Char} (hd : p d = false) : c ≠ d := by
    rintro rfl
    rw [h c hc] at hd
    cases hd
  simp [plain, hne hq, hne ho, hne hp]

theorem passes_blank {ws : List Char} (h : ∀ c ∈ ws, isBlank c = true) (n : Nat)
    (rest : List Char) : Passes n (ws ++ rest) n rest :=
  ⟨ws, rfl, foldl_plain (all_plain rfl rfl rfl h) n⟩

theorem passes_skipBlank (n : Nat) (cs : List Char) : Passes n cs n (skipBlank cs) :=
  ⟨cs.takeWhile isBlank, List.takeWhile_append_dropWhile.symm,
    foldl_plain (all_plain rfl rfl rfl fun _ hc => List.mem_takeWhile_imp hc) n⟩

/-! ## Tokens -/

theorem foldl_quoted {body s : List Char} (h : Quoted body s) (n : Nat) :
    body.foldl ParenCount.next ⟨.quoted, n⟩ = ⟨.quoted, n⟩ := by
  induction h with
  | nil => rfl
  | plain hq hb _ ih => rw [List.foldl_cons, next_quoted hq hb, ih]
  | pair _ ih => exact ih

/-- A quoted text that is not closed hides its parentheses. -/
theorem depth_unclosed {tail : List Char} (h : NeverCloses tail) (n : Nat) :
    (tail.foldl ParenCount.next ⟨.quoted, n⟩).depth = n := by
  rw [← quoted_eq_none_iff] at h
  fun_induction Token.quoted tail with
  | case1 => rfl
  | case2 => rfl
  | case3 => cases h
  | case4 c rest ih => exact ih (Option.map_eq_none_iff.mp h)
  | case5 c rest hend hquote hpair ih =>
    have hb : c ≠ '\\' := by
      intro hc
      cases rest with
      | nil => exact hend hc rfl
      | cons d rest => exact hpair d rest hc rfl
    rw [List.foldl_cons, next_quoted hquote hb]
    exact ih (Option.map_eq_none_iff.mp h)

theorem Passes.openParens_unclosed {k : Nat} {cs tail : List Char}
    (h : Passes 0 cs k ('"' :: tail)) (htail : NeverCloses tail) : openParens cs = k := by
  obtain ⟨w, rfl, hw⟩ := h
  rw [openParens, List.foldl_append, hw]
  exact depth_unclosed htail k

/-- What a token does to the number of open parentheses. -/
def shift (n : Nat) : Token → Nat
  | .openParen => n + 1
  | .closeParen => n - 1
  | _ => n

theorem plain_digits {ds : List Char} (hd : IsDigits ds) : ds.all plain = true :=
  all_plain rfl rfl rfl hd.2

theorem plain_signed {negative : Bool} {cs : List Char} (h : cs.all plain = true) :
    (signed negative cs).all plain = true := by
  cases negative with
  | true => exact h
  | false => exact h

theorem foldl_spelling {t : Token} {w : List Char} (h : Spells t w) (n : Nat) :
    w.foldl ParenCount.next ⟨.outside, n⟩ = ⟨.outside, shift n t⟩ := by
  cases h with
  | conj h => exact foldl_plain ((by decide : ∀ w ∈ _, (String.toList w).all plain = true) _ h) n
  | disj h => exact foldl_plain ((by decide : ∀ w ∈ _, (String.toList w).all plain = true) _ h) n
  | neg h => exact foldl_plain ((by decide : ∀ w ∈ _, (String.toList w).all plain = true) _ h) n
  | openParen => rfl
  | closeParen => rfl
  | op o => exact foldl_plain (by cases o <;> rfl) n
  | bool b => exact foldl_plain (by cases b <;> rfl) n
  | str h =>
    rw [List.foldl_cons, List.foldl_append]
    change List.foldl _ (List.foldl ParenCount.next ⟨.quoted, n⟩ _) _ = _
    rw [foldl_quoted h]
    rfl
  | int hd _ => exact foldl_plain (plain_signed (plain_digits hd)) n
  | float hd hf =>
    refine foldl_plain (plain_signed ?_) n
    rw [List.all_append, List.all_cons, plain_digits hd, plain_digits hf]
    rfl
  | field h =>
    obtain ⟨⟨c, cs, hw, hc, hcs⟩, -⟩ := h
    have hfirst : [c].all plain = true :=
      all_plain rfl rfl rfl (List.forall_mem_singleton.mpr hc)
    have hrest : cs.all plain = true := all_plain rfl rfl rfl hcs
    rw [hw]
    exact foldl_plain (by rw [← List.singleton_append, List.all_append, hfirst, hrest]; rfl) n

theorem passes_of_begins {t : Token} {cs rest : List Char} (h : Begins t cs rest) (n : Nat) :
    Passes n cs (shift n t) rest := by
  obtain ⟨ws, w, hws, hw, -, rfl⟩ := h
  exact (passes_blank hws n _).trans ⟨w, rfl, foldl_spelling hw n⟩

/-! ## Predicates -/

/-- **A part of a predicate closes what it opens.** -/
theorem passes_of_derives {l : Level} {cs rest : List Char} {e : Expr}
    (h : Derives l cs e rest) (n : Nat) : Passes n cs n rest := by
  induction h generalizing n with
  | or _ ht _ iha ihb => exact (iha n).trans ((passes_of_begins ht n).trans (ihb n))
  | ofConj _ ih => exact ih n
  | and _ ht _ iha ihb => exact (iha n).trans ((passes_of_begins ht n).trans (ihb n))
  | ofUnary _ ih => exact ih n
  | not ht _ ih => exact (passes_of_begins ht n).trans (ih n)
  | ofPrimary _ ih => exact ih n
  | paren ho _ hc ih =>
    exact (passes_of_begins ho n).trans ((ih (n + 1)).trans (passes_of_begins hc (n + 1)))
  | operand h => exact passes_of_begins h n
  | compare hl ho hr =>
    exact (passes_of_begins hl n).trans ((passes_of_begins ho n).trans (passes_of_begins hr n))

/-- **The depth of a stack is the number of parentheses that are open** in front of it. -/
theorem passes_of_stack {cs m : List Char} {fs : List Frame} (h : Stack cs fs m) :
    Passes 0 cs (Frame.depth fs) m := by
  induction h with
  | nil => exact ⟨[], rfl, rfl⟩
  | paren _ ht ih => exact ih.trans (passes_of_begins ht _)
  | neg _ ht _ _ ih => exact ih.trans (passes_of_begins ht _)
  | conj _ _ ha ht ih => exact ih.trans ((passes_of_derives ha _).trans (passes_of_begins ht _))
  | disj _ _ ha ht ih => exact ih.trans ((passes_of_derives ha _).trans (passes_of_begins ht _))

end GuardedConfig.Grammar
