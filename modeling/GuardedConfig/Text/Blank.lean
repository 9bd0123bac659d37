/-!
# Blank characters

The characters that separate the words of a predicate, and the test for a text that holds nothing
else. The class is Unicode's `White_Space` property, which is wider than `Char.isWhitespace`.

Results:
* `isBlank_of_isWhitespace`: every character that core counts as white space is blank.
* `skipBlank_append`: skipping passes over blank characters and stops at the first other one.
-/

namespace GuardedConfig

/-- The code points with the Unicode property `White_Space`, as inclusive ranges. -/
def blankRanges : List (Nat × Nat) :=
  [(0x09, 0x0D), (0x20, 0x20), (0x85, 0x85), (0xA0, 0xA0), (0x1680, 0x1680), (0x2000, 0x200A),
   (0x2028, 0x2029), (0x202F, 0x202F), (0x205F, 0x205F), (0x3000, 0x3000)]

/-- Whether a character is blank, by the table. -/
def isBlank (c : Char) : Bool :=
  blankRanges.any fun r => r.1 ≤ c.toNat && c.toNat ≤ r.2

/-- The text from its first character that is not blank. -/
def skipBlank (cs : List Char) : List Char :=
  cs.dropWhile isBlank

/-- A text is blank when all its characters are; the empty text is. -/
def blankText (s : String) : Bool :=
  s.toList.all isBlank

theorem isBlank_of_isWhitespace {c : Char} (h : c.isWhitespace = true) : isBlank c = true := by
  simp only [Char.isWhitespace, Bool.or_eq_true, decide_eq_true_eq] at h
  rcases h with ((h | h) | h) | h <;> subst h <;> rfl

theorem skipBlank_append {ws cs : List Char} (h : ∀ c ∈ ws, isBlank c = true) :
    skipBlank (ws ++ cs) = skipBlank cs := by
  induction ws with
  | nil => rfl
  | cons c ws ih =>
    have hc : isBlank c = true := h c (List.mem_cons_self ..)
    simp only [skipBlank, List.cons_append, List.dropWhile_cons, hc, if_true]
    exact ih fun d hd => h d (List.mem_cons_of_mem c hd)

theorem skipBlank_length_le (cs : List Char) : (skipBlank cs).length ≤ cs.length :=
  (List.dropWhile_sublist _).length_le

end GuardedConfig
