import GuardedConfig.Proofs.Predicate.Unfinished

/-!
# Where and why a text is refused

A text that is no predicate is refused at one place and for one of three reasons, and what was
expected there counts the parentheses that are open in front of the place.

The reader is stuck at one place only, and what it has read accounts for the text up to there
(`Covers`). What it reports follows from what has been read since the newest frame: an expression,
which nothing lets go on there (`fails_of_expr`), or nothing that is wanted (`fails_of_wanted`).

* `Defect`, `Shows`: the three reasons, and what the text looks like around the place.
* `FaultAt`: a fault with the text in front of its place and the text behind.

Results:
* `parse_error_located`: every refused text shows exactly one defect at the place that is reported,
  and the labels are that defect's.
-/

namespace GuardedConfig.Grammar

/-! ## Where the reader fails -/

/-- `Fails f s rest`: in the state `s`, with `rest` still to be read, the reader fails with `f`. -/
def Fails (f : ParseFailure) (s : ParseState) (rest : List Char) : Prop :=
  (lexemes rest = [] ∧ s.finish = .error f) ∨
    ∃ x, lexemes rest = x :: lexemes x.stop ∧ s.step x = .error f

theorem Fails.stuck {f : ParseFailure} {s : ParseState} {rest : List Char} (h : Fails f s rest) :
    Stuck s rest := by
  rcases h with ⟨hl, -⟩ | ⟨x, hl, hstep⟩
  · exact .inl hl
  · exact .inr ⟨x, f, hl, hstep⟩

theorem fails_of_parseLexemes {cs : List Char} {f : ParseFailure}
    (h : parseLexemes (lexemes cs) = .error f) :
    ∃ s rest, Reads .start cs s rest ∧ Covers cs s rest ∧ Fails f s rest := by
  have hstart : Covers cs .start cs := ⟨cs, Stack.nil, rfl⟩
  obtain ⟨s, rest, hread, hc, hstuck⟩ := covers_run cs hstart
  refine ⟨s, rest, hread, hc, ?_⟩
  rw [hread.parseLexemes_eq] at h
  rcases hstuck with hl | ⟨x, f', hl, hstep⟩
  · rw [hl] at h
    exact .inl ⟨hl, h⟩
  · rw [hl, List.foldlM_cons, hstep] at h
    cases h
    exact .inr ⟨x, hl, hstep⟩

/-! ## Behind an expression -/

theorem closeDisj_frames (fs : List Frame) (e : Expr) :
    (Frame.closeDisj fs e).1 = [] ∨
      ∃ start outer, (Frame.closeDisj fs e).1 = .paren start :: outer := by
  induction fs generalizing e with
  | nil => exact .inl rfl
  | cons f fs ih =>
    cases f with
    | paren start => exact .inr ⟨start, fs, rfl⟩
    | neg => exact ih _
    | conj left => exact ih _
    | disj left => exact ih _

/-- The lexemes with which an expression goes on: connectives, and a parenthesis that closes one. -/
def goesOn (fs : List Frame) : Token → Bool
  | .conj | .disj => true
  | .closeParen => Frame.depth fs != 0
  | _ => false

theorem extend_error {fs : List Frame} {e : Expr} {x : Lexeme} {f : ParseFailure}
    (h : ParseState.extend fs e x = .error f) :
    goesOn fs x.token = false ∧ f = Frame.cannotContinue fs x.start := by
  unfold ParseState.extend at h
  split at h
  · cases h
  · cases h
  · rename_i hx
    have hdepth := depth_closeDisj fs e
    rcases hclose : Frame.closeDisj fs e with ⟨gs, e'⟩
    rcases closeDisj_frames fs e with hgs | ⟨start, outer, hgs⟩
    · rw [hclose] at h hdepth hgs
      cases hgs
      cases h
      have hzero : Frame.depth fs = 0 := hdepth.symm
      simp [goesOn, hx, Frame.cannotContinue, hzero]
    · rw [hclose] at h hgs
      cases hgs
      cases h
  · rename_i hconj hdisj hparen
    cases h
    refine ⟨?_, rfl⟩
    unfold goesOn
    split
    · exact absurd ‹_› hconj
    · exact absurd ‹_› hdisj
    · exact absurd ‹_› hparen
    · rfl

theorem step_error_of_expr {fs : List Frame} {r : Reading} {e : Expr} {x : Lexeme}
    {f : ParseFailure} (hr : expr? r = some e) (h : ParseState.step ⟨fs, r⟩ x = .error f) :
    ParseState.extend fs e x = .error f := by
  by_cases hx : ∀ o, x.token ≠ .op o
  · rwa [step_of_expr hr hx] at h
  · push Not at hx
    obtain ⟨o, hx⟩ := hx
    cases r with
    | nothing => cases hr
    | comparison l op => cases hr
    | operand l =>
      rw [ParseState.step, hx] at h
      cases h
    | complete e' =>
      cases hr
      unfold ParseState.step at h
      simpa [hx] using h

/-- **Behind an expression** the reader fails where nothing lets the expression go on. -/
theorem fails_of_expr {fs : List Frame} {r : Reading} {e : Expr} {f : ParseFailure}
    {rest : List Char} (hr : expr? r = some e) (h : Fails f ⟨fs, r⟩ rest) :
    f = Frame.cannotContinue fs (skipBlank rest) ∧
      (Frame.depth fs = 0 → skipBlank rest ≠ []) ∧
      ∀ x xs, lexemes rest = x :: xs → goesOn fs x.token = false := by
  rcases h with ⟨hl, hfin⟩ | ⟨x, hl, hstep⟩
  · rw [finish_of_expr hr] at hfin
    split at hfin
    · cases hfin
    · rename_i hdepth
      cases hfin
      exact ⟨by rw [lexemes_eq_nil_iff.mp hl], fun hzero => absurd hzero hdepth, by simp [hl]⟩
  · obtain ⟨hno, hf⟩ := extend_error (step_error_of_expr hr hstep)
    rw [start_of_lexemes hl] at hf
    have hne : skipBlank rest ≠ [] := by
      rw [ne_eq, ← lexemes_eq_nil_iff, hl]
      exact List.cons_ne_nil _ _
    refine ⟨hf, fun _ => hne, fun y ys hy => ?_⟩
    rw [hl] at hy
    cases hy
    exact hno

/-! ## Where something is wanted -/

/-- What has to follow what has been read since the newest frame. -/
def wanted? : Reading → Option Wanted
  | .nothing => some .expression
  | .comparison _ _ => some .operand
  | _ => none

/-- The failure where what is wanted does not begin. -/
def missing : Wanted → List Frame → List Char → ParseFailure
  | .expression, fs, rest => Frame.missingOperand fs rest
  | .operand, fs, rest => ⟨.noOperand (Frame.depth fs), rest⟩

theorem wanted_or_expr (r : Reading) : (∃ w, wanted? r = some w) ∨ ∃ e, expr? r = some e := by
  cases r with
  | nothing => exact .inl ⟨_, rfl⟩
  | comparison l op => exact .inl ⟨_, rfl⟩
  | operand o => exact .inr ⟨_, rfl⟩
  | complete e => exact .inr ⟨_, rfl⟩

theorem step_error_of_wanted {fs : List Frame} {r : Reading} {w : Wanted} {x : Lexeme}
    {f : ParseFailure} (hw : wanted? r = some w) (h : ParseState.step ⟨fs, r⟩ x = .error f) :
    ((x.token = .unclosedText ∨ x.token = .outOfRange) ∧
        f = ⟨.noOperand (Frame.depth fs), x.stop⟩) ∨
      (opens w x.token = false ∧ f = missing w fs x.start) := by
  cases r with
  | nothing =>
    cases hw
    unfold ParseState.step at h
    cases hx : x.token <;> simp only [hx, reduceCtorEq, Except.error.injEq] at h <;>
      simp [opens, missing, h]
  | comparison l op =>
    cases hw
    unfold ParseState.step at h
    cases hx : x.token <;> simp only [hx, reduceCtorEq, Except.error.injEq] at h <;>
      simp [opens, missing, h]
  | operand o => cases hw
  | complete e => cases hw

/-- **Where something is wanted** the reader fails behind an operand that has no value, or where
what is wanted does not begin. -/
theorem fails_of_wanted {fs : List Frame} {r : Reading} {w : Wanted} {f : ParseFailure}
    {rest : List Char} (hw : wanted? r = some w) (h : Fails f ⟨fs, r⟩ rest) :
    (∃ x, lexemes rest = x :: lexemes x.stop ∧
        (x.token = .unclosedText ∨ x.token = .outOfRange) ∧
        f = ⟨.noOperand (Frame.depth fs), x.stop⟩) ∨
      ((∀ x xs, lexemes rest = x :: xs → opens w x.token = false) ∧
        f = missing w fs (skipBlank rest)) := by
  rcases h with ⟨hl, hfin⟩ | ⟨x, hl, hstep⟩
  · refine .inr ⟨by simp [hl], ?_⟩
    rw [lexemes_eq_nil_iff.mp hl]
    cases r with
    | nothing =>
      cases hw
      cases hfin
      rfl
    | comparison l op =>
      cases hw
      cases hfin
      rfl
    | operand o => cases hw
    | complete e => cases hw
  · rcases step_error_of_wanted hw hstep with ⟨hx, hf⟩ | ⟨hno, hf⟩
    · exact .inl ⟨x, hl, hx, hf⟩
    · rw [start_of_lexemes hl] at hf
      refine .inr ⟨fun y ys hy => ?_, hf⟩
      rw [hl] at hy
      cases hy
      exact hno

/-! ## What the text looks like -/

/-- `EndsBefore cs rest`: `cs` begins with an expression, and behind it and blank characters stands
`rest`. No expression that `cs` begins with reaches further, and no connective stands there. -/
structure EndsBefore (cs rest : List Char) : Prop where
  complete : ∃ e m, Derives .disj cs e m ∧ skipBlank m = rest
  longest : ∀ e m, Derives .disj cs e m → Follow m → rest.length ≤ (skipBlank m).length
  no_connective : ∀ m, ¬Begins .conj rest m ∧ ¬Begins .disj rest m

/-- What is wrong with a text that is no predicate. -/
inductive Defect where
  /-- Something stands after a complete predicate. -/
  | trailing
  /-- A closing parenthesis is missing after a complete expression. -/
  | unclosed
  /-- There is no operand where one has to stand. -/
  | operand
  deriving DecidableEq

/-- What is expected in place of a defect, with a number of parentheses open in front of it. -/
def Defect.labels : Defect → Nat → List String
  | trailing, _ => []
  | unclosed, depth => List.replicate depth "expression"
  | operand, depth => "field or literal" :: List.replicate (depth + 1) "expression"

/-- `Shows d before rest`: the text of `before` and `rest` has the defect `d` where `rest`
begins. -/
inductive Shows : Defect → List Char → List Char → Prop
  | trailing {before rest : List Char} {e : Expr} (hends : EndsBefore (before ++ rest) rest)
      (he : Renders before e) (hrest : rest ≠ []) : Shows .trailing before rest
  | unclosed {before rest m m' : List Char} (hopen : 1 ≤ openParens before)
      (ha : Awaits .disj (before ++ rest) .expression m) (ht : Begins .openParen m m')
      (hends : EndsBefore m' rest) (hclose : ∀ m, ¬Begins .closeParen rest m) :
      Shows .unclosed before rest
  /-- A quoted text that is not closed hides all that remains. -/
  | unclosedText {before m tail : List Char} {w : Wanted} (ha : Awaits .disj before w m)
      (hm : skipBlank m = '"' :: tail) (htail : NeverCloses tail) : Shows .operand before []
  | tooLarge {before rest m : List Char} {w : Wanted} (ha : Awaits .disj (before ++ rest) w m)
      (hm : TooLarge (skipBlank m) rest) : Shows .operand before rest
  | refused {before rest m : List Char} {w : Wanted} (ha : Awaits .disj (before ++ rest) w m)
      (hm : skipBlank m = rest) (h : Refused w m) (hb : ¬BehindParen before) :
      Shows .operand before rest

theorem Shows.openParens_ne_zero {before rest : List Char} (h : Shows .unclosed before rest) :
    openParens before ≠ 0 := by
  cases h with
  | unclosed hopen _ _ _ _ => exact Nat.one_le_iff_ne_zero.mp hopen

/-- The labels tell the defects apart, if a parenthesis is open where one is missing. -/
theorem Defect.eq_of_labels {d d' : Defect} {n : Nat} (h : d = .unclosed → n ≠ 0)
    (h' : d' = .unclosed → n ≠ 0) (hl : d.labels n = d'.labels n) : d = d' := by
  cases n with
  | zero => cases d <;> cases d' <;> simp_all [Defect.labels]
  | succ n => cases d <;> cases d' <;> simp_all [Defect.labels, List.replicate_succ]

/-! ## The place of a fault -/

/-- The failure is at a place in the text `cs` that cuts no lexeme, with the labels of a defect that
the text shows there. -/
def Located (cs : List Char) (f : ParseFailure) : Prop :=
  ∃ before, cs = before ++ f.rest ∧ lexemes f.rest <:+ lexemes cs ∧
    ∃ d : Defect, f.fault.labels = d.labels (openParens before) ∧ Shows d before f.rest

theorem Reads.suffix {s s' : ParseState} {cs rest : List Char} (h : Reads s cs s' rest) :
    lexemes rest <:+ lexemes cs := by
  obtain ⟨xs, hxs, -⟩ := h
  exact ⟨xs, hxs.symm⟩

/-- `Pending cs w d m`: the text `cs` is unfinished where `m` remains. There `w` has to follow, and
`d` parentheses are open. -/
structure Pending (cs : List Char) (w : Wanted) (d : Nat) (m : List Char) : Prop where
  awaits : Awaits .disj cs w m
  passes : Passes 0 cs d m
  whole : lexemes m <:+ lexemes cs

theorem pending_of_stack {cs m : List Char} {fs : List Frame} (hst : Stack cs fs m) :
    Pending cs .expression (Frame.depth fs) m :=
  ⟨awaits_of_stack hst (l := .primary) trivial .here, passes_of_stack hst,
    (reads_of_stack hst).suffix⟩

theorem pending_of_comparison {cs m m' rest : List Char} {fs : List Frame} {l : Operand}
    {op : CompareOp} (hst : Stack cs fs m) (hl : Begins (.operand l) m m')
    (ho : Begins (.op op) m' rest) (hwhole : lexemes rest <:+ lexemes cs) :
    Pending cs .operand (Frame.depth fs) rest :=
  ⟨awaits_of_stack hst (l := .primary) trivial (.compare hl ho),
    (passes_of_stack hst).trans ((passes_of_begins hl _).trans (passes_of_begins ho _)), hwhole⟩

theorem not_begins_of_goesOn {fs : List Frame} {t : Token} {rest : List Char}
    (hno : ∀ x xs, lexemes rest = x :: xs → goesOn fs x.token = false) (ht : goesOn fs t = true)
    (m : List Char) : ¬Begins t (skipBlank rest) m := by
  intro hb
  have hstops : Stops t m := by
    cases t <;> trivial
  obtain ⟨x, hx, hl⟩ := lexemes_of_begins hb hstops
  rw [lexemes_skipBlank] at hl
  have hgoes := hno x _ hl
  rw [hx, ht] at hgoes
  cases hgoes

/-- Where the reader is stuck behind an expression, that expression ends. -/
theorem ends_of_stuck {cs m rest : List Char} {fs gs : List Frame} {s : ParseState} {e : Expr}
    (hst : Stack cs gs m) (hgs : Fits .disj gs) (he : Derives .disj m e rest)
    (hread : Reads .start cs s rest) (hstuck : Stuck s rest)
    (hno : ∀ x xs, lexemes rest = x :: xs → goesOn fs x.token = false) :
    EndsBefore m (skipBlank rest) := by
  refine ⟨⟨e, rest, he, rfl⟩, fun e' m' he' hf => ?_,
    fun m' => ⟨not_begins_of_goesOn hno rfl m', not_begins_of_goesOn hno rfl m'⟩⟩
  obtain ⟨fs', r, e'', hread', -⟩ := reads_of_derives he' hf gs hgs
  have hsuffix := ((reads_of_stack hst).trans hread').suffix_of_stuck hread hstuck
  exact skipBlank_length_le_of_suffix hsuffix

/-- **Behind an expression**: what stands there trails, or a parenthesis should have been closed. -/
theorem located_of_expr {cs m rest : List Char} {fs : List Frame} {r : Reading} {e : Expr}
    {f : ParseFailure} (hst : Stack cs fs m) (hacc : Accounts r m rest) (hr : expr? r = some e)
    (hread : Reads .start cs ⟨fs, r⟩ rest) (h : Fails f ⟨fs, r⟩ rest) : Located cs f := by
  obtain ⟨rfl, hmore, hno⟩ := fails_of_expr hr h
  have hsuffix : lexemes (skipBlank rest) <:+ lexemes cs := by
    rw [lexemes_skipBlank]
    exact hread.suffix
  rcases closeDisj_cases hst (derives_of_expr hr hacc) with
    ⟨hzero, he⟩ | ⟨gs, m₁, m', hdepth, hst₁, ht, he⟩
  · have hends := ends_of_stuck Stack.nil trivial he hread h.stuck hno
    obtain ⟨before, hcs, hrenders⟩ := he.renders_before
    rw [Frame.cannotContinue, if_pos hzero]
    refine ⟨before, hcs, hsuffix, .trailing, rfl, ?_⟩
    rw [hcs] at hends
    exact .trailing hends hrenders (hmore hzero)
  · have hst' := Stack.paren hst₁ ht
    have hends := ends_of_stuck hst' trivial he hread h.stuck hno
    have hpasses := ((passes_of_stack hst').trans (passes_of_derives he _)).trans
      (passes_skipBlank _ rest)
    have hne : Frame.depth fs ≠ 0 := by omega
    have hclose := not_begins_of_goesOn (t := .closeParen) hno (by simp [goesOn, hne])
    obtain ⟨before, rfl, hopen⟩ := hpasses.split
    replace hopen : openParens before = Frame.depth fs := hopen.trans hdepth.symm
    rw [Frame.cannotContinue, if_neg hne]
    refine ⟨before, rfl, hsuffix, .unclosed, by rw [hopen]; rfl, ?_⟩
    exact .unclosed (by omega) (pending_of_stack hst₁).awaits ht hends hclose

theorem TooLarge.passes {cs rest : List Char} (h : TooLarge cs rest) (n : Nat) :
    Passes n cs n rest := by
  obtain ⟨negative, ds, rfl, hd, -⟩ := h
  exact ⟨_, rfl, foldl_plain (plain_signed (plain_digits hd)) n⟩

/-- **Behind an operand without a value**: a quoted text that is not closed, or a number too
large. -/
theorem located_of_misread {cs m : List Char} {d : Nat} {w : Wanted} {x : Lexeme}
    (hp : Pending cs w d m) (hl : lexemes m = x :: lexemes x.stop)
    (hx : x.token = .unclosedText ∨ x.token = .outOfRange) :
    Located cs ⟨.noOperand d, x.stop⟩ := by
  have hmisread := misread_of_lexemes hl fun hlegal => hx.elim hlegal.1 hlegal.2.1
  have hskip := hp.passes.trans (passes_skipBlank d m)
  have hsuffix : lexemes x.stop <:+ lexemes cs := by
    have hwhole := hp.whole
    rw [hl] at hwhole
    exact (List.suffix_cons x _).trans hwhole
  generalize hts : skipBlank m = ts at hmisread hskip
  generalize x.token = t at hmisread hx
  generalize x.stop = stop at hmisread hsuffix
  cases hmisread with
  | unclosed hquoted =>
    have htail := quoted_eq_none_iff.mp hquoted
    have hopen := hskip.openParens_unclosed htail
    refine ⟨cs, (List.append_nil cs).symm, hsuffix, .operand, by rw [hopen]; rfl, ?_⟩
    exact .unclosedText hp.awaits hts htail
  | tooLarge hlarge =>
    have hpasses := hskip.trans (hlarge.passes d)
    obtain ⟨before, rfl, hopen⟩ := hpasses.split
    refine ⟨before, rfl, hsuffix, .operand, by rw [hopen]; rfl, ?_⟩
    exact .tooLarge hp.awaits (hts ▸ hlarge)
  | unknown => exact absurd hx (by simp)

/-- **Where what is wanted does not begin.** -/
theorem located_of_refused {cs m : List Char} {d : Nat} {w : Wanted} (hp : Pending cs w d m)
    (h : Refused w m) (hb : ∃ before, cs = before ++ m ∧ ¬BehindParen before) :
    Located cs ⟨.noOperand d, skipBlank m⟩ := by
  have hskip := hp.passes.trans (passes_skipBlank d m)
  have hawaits := hp.awaits
  have hsplit : m.takeWhile isBlank ++ skipBlank m = m := List.takeWhile_append_dropWhile
  have hblank : ∀ c ∈ m.takeWhile isBlank, isBlank c = true :=
    fun c hc => List.mem_takeWhile_imp hc
  have hsuffix : lexemes (skipBlank m) <:+ lexemes cs := by
    rw [lexemes_skipBlank]
    exact hp.whole
  obtain ⟨before, rfl, hbehind⟩ := hb
  have hcs : before ++ m = (before ++ m.takeWhile isBlank) ++ skipBlank m := by
    rw [List.append_assoc, hsplit]
  rw [hcs] at hawaits hskip
  refine ⟨_, hcs, hsuffix, .operand, by rw [hskip.openParens_eq]; rfl, ?_⟩
  exact .refused hawaits rfl h (by rwa [behindParen_append_blank hblank])

/-- **Where something is wanted**: an operand without a value, or nothing that is wanted. -/
theorem located_of_wanted {cs m rest : List Char} {fs : List Frame} {r : Reading} {w : Wanted}
    {f : ParseFailure} (hst : Stack cs fs m) (hacc : Accounts r m rest) (hw : wanted? r = some w)
    (hread : Reads .start cs ⟨fs, r⟩ rest) (h : Fails f ⟨fs, r⟩ rest) : Located cs f := by
  cases r with
  | nothing =>
    cases hw
    cases hacc
    rcases fails_of_wanted rfl h with ⟨x, hl, hx, rfl⟩ | ⟨hno, rfl⟩
    · exact located_of_misread (pending_of_stack hst) hl hx
    · obtain ⟨gs, m', hst', hrefused, hgs, hf⟩ := missing_of_stack hst (refused_of_lexemes hno)
      rw [missing, hf]
      exact located_of_refused (pending_of_stack hst') hrefused (not_behindParen_of_stack hst' hgs)
  | comparison l op =>
    cases hw
    obtain ⟨m', hl, ho⟩ := hacc
    have hpending := pending_of_comparison hst hl ho hread.suffix
    rcases fails_of_wanted rfl h with ⟨x, hl, hx, rfl⟩ | ⟨hno, rfl⟩
    · exact located_of_misread hpending hl hx
    · exact located_of_refused hpending (refused_of_lexemes hno)
        (ho.not_behindParen rfl ((passes_of_stack hst).trans (passes_of_begins hl _)))
  | operand o => cases hw
  | complete e => cases hw

/-- **Every failure shows a defect where it is placed.** -/
theorem located_of_failure {cs : List Char} {f : ParseFailure}
    (h : parseLexemes (lexemes cs) = .error f) : Located cs f := by
  obtain ⟨⟨fs, r⟩, rest, hread, ⟨m, hst, hacc⟩, hfails⟩ := fails_of_parseLexemes h
  rcases wanted_or_expr r with ⟨w, hw⟩ | ⟨e, hr⟩
  · exact located_of_wanted hst hacc hw hread hfails
  · exact located_of_expr hst hacc hr hread hfails

/-! ## Refused texts -/

/-- A fault in its place: the text in front of it and the text behind, and the defect. -/
structure FaultAt (err : ParseError) (before rest : List Char) : Prop where
  text : err.input.toList = before ++ rest
  offset : err.offset = before.length
  /-- No lexeme stands across the place. -/
  whole : lexemes rest <:+ lexemes (before ++ rest)
  defect : ∃! d : Defect, err.fault.labels = d.labels (openParens before) ∧ Shows d before rest

/-- **Every text that is no predicate shows exactly one defect where its fault is placed**, and the
labels are those of the defect for the number of parentheses that are open there. -/
theorem parse_error_located {text : String} {err : ParseError} (h : parse text = .error err) :
    err.input = text ∧ ∃ before rest, FaultAt err before rest := by
  unfold parse at h
  split at h
  · cases h
  · rename_i f hf
    cases h
    obtain ⟨before, hcs, hsuffix, d, hlabels, hshows⟩ := located_of_failure hf
    have hlength : text.toList.length - f.rest.length = before.length := by
      rw [hcs, List.length_append, Nat.add_sub_cancel]
    refine ⟨rfl, before, f.rest, hcs, hlength, hcs ▸ hsuffix, d, ⟨hlabels, hshows⟩, ?_⟩
    rintro d' ⟨hlabels', hshows'⟩
    refine Defect.eq_of_labels ?_ ?_ (hlabels'.symm.trans hlabels)
    · rintro rfl
      exact hshows'.openParens_ne_zero
    · rintro rfl
      exact hshows.openParens_ne_zero

/-- A negation is followed by two open parentheses and no operand: the place is the first of them,
behind one parenthesis that is open. Those that are quoted do not count. -/
theorem parse_error_located_of_parens :
    parse "x and (y == \"((\" or not (( ) " =
        .error ⟨"x and (y == \"((\" or not (( ) ", 24, .noOperand 1⟩ ∧
      ∃ before rest, FaultAt ⟨"x and (y == \"((\" or not (( ) ", 24, .noOperand 1⟩ before rest := by
  have hparse : parse "x and (y == \"((\" or not (( ) " =
      .error ⟨"x and (y == \"((\" or not (( ) ", 24, .noOperand 1⟩ := by cbv
  exact ⟨hparse, (parse_error_located hparse).2⟩

end GuardedConfig.Grammar
