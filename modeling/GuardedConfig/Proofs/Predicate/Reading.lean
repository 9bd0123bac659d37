import GuardedConfig.Proofs.Predicate.Lexemes

/-!
# Reading is the grammar

The reader takes lexemes onto a stack of unfinished pieces. `Reads` says how far it gets in a text
and to which state. Both directions are an induction that carries what a stack stands for.

* From the grammar to the reader, `reads_of_derives`: over any stack that a part may be read on
  (`Fits`), reading a derived part leaves a stack and an expression that close to the same as the
  old stack and the derived expression.
* From the reader to the grammar, `Covers`: a state accounts for the text read so far, frame by
  frame (`Stack`), and what has been read since the newest frame. One lexeme keeps it
  (`covers_step`), hence a run does up to where it is stuck (`covers_run`), and closing a stack
  assembles the derivation (`closeConj_sound`, `closeDisj_sound`).

Results:
* `parse_eq_ok_iff`: a text parses to an expression exactly when the grammar renders the expression
  as the text.
* `reads_of_stack`: a stack accounts for a text only if the text is read to that stack.
* `Reads.suffix_of_stuck`: a text is read no further than to where the reader is stuck.
-/

namespace GuardedConfig.Grammar

/-! ## Stacks -/

/-- The stacks on which a part of the given level is begun: its own level has been closed. -/
def Fits : Level → List Frame → Prop
  | .disj, .disj _ :: _ => False
  | .disj, .conj _ :: _ => False
  | .disj, .neg :: _ => False
  | .conj, .conj _ :: _ => False
  | .conj, .neg :: _ => False
  | _, _ => True

theorem Fits.conj_of_disj {fs : List Frame} (h : Fits .disj fs) : Fits .conj fs := by
  cases fs with
  | nil => trivial
  | cons f fs => cases f <;> trivial

theorem closeConj_of_fits {fs : List Frame} (h : Fits .conj fs) (e : Expr) :
    Frame.closeConj fs e = (fs, e) := by
  cases fs with
  | nil => rfl
  | cons f fs => cases f <;> first | rfl | exact absurd h id

theorem closeDisj_of_fits {fs : List Frame} (h : Fits .disj fs) (e : Expr) :
    Frame.closeDisj fs e = (fs, e) := by
  cases fs with
  | nil => rfl
  | cons f fs => cases f <;> first | rfl | exact absurd h id

theorem closeDisj_closeConj (fs : List Frame) (e : Expr) :
    Frame.closeDisj (Frame.closeConj fs e).1 (Frame.closeConj fs e).2 = Frame.closeDisj fs e := by
  induction fs generalizing e with
  | nil => rfl
  | cons f fs ih =>
    cases f with
    | paren start => rfl
    | neg => exact ih _
    | conj left => exact ih _
    | disj left => rfl

/-- Stacks that close alike up to `or` close alike altogether. -/
theorem closeDisj_eq_of_closeConj_eq {fs gs : List Frame} {e f : Expr}
    (h : Frame.closeConj fs e = Frame.closeConj gs f) :
    Frame.closeDisj fs e = Frame.closeDisj gs f := by
  rw [← closeDisj_closeConj fs, h, closeDisj_closeConj]

theorem depth_closeDisj (fs : List Frame) (e : Expr) :
    Frame.depth (Frame.closeDisj fs e).1 = Frame.depth fs := by
  induction fs generalizing e with
  | nil => rfl
  | cons f fs ih =>
    cases f with
    | paren start => rfl
    | neg => exact ih _
    | conj left => exact ih _
    | disj left => exact ih _

/-! ## Reading -/

/-- `Reads s cs s' rest`: from the state `s` on, reading `cs` up to where `rest` remains leads to
the state `s'`. -/
def Reads (s : ParseState) (cs : List Char) (s' : ParseState) (rest : List Char) : Prop :=
  ∃ xs, lexemes cs = xs ++ lexemes rest ∧ xs.foldlM ParseState.step s = .ok s'

theorem Reads.refl (s : ParseState) (cs : List Char) : Reads s cs s cs :=
  ⟨[], rfl, rfl⟩

theorem Reads.trans {s s₁ s' : ParseState} {cs m rest : List Char} (h : Reads s cs s₁ m)
    (h' : Reads s₁ m s' rest) : Reads s cs s' rest := by
  obtain ⟨xs, hxs, hs⟩ := h
  obtain ⟨ys, hys, hs'⟩ := h'
  refine ⟨xs ++ ys, by rw [hxs, hys, List.append_assoc], ?_⟩
  rw [List.foldlM_append, hs]
  exact hs'

theorem Reads.of_step {s s' : ParseState} {x : Lexeme} {cs rest : List Char}
    (hl : lexemes cs = x :: lexemes rest) (h : s.step x = .ok s') : Reads s cs s' rest := by
  refine ⟨[x], hl, ?_⟩
  rw [List.foldlM_cons, h]
  rfl

theorem Reads.parseLexemes_eq {s : ParseState} {cs rest : List Char}
    (h : Reads .start cs s rest) :
    parseLexemes (lexemes cs) =
      (lexemes rest).foldlM ParseState.step s >>= ParseState.finish := by
  obtain ⟨xs, hxs, hs⟩ := h
  rw [parseLexemes, hxs, List.foldlM_append, hs]
  rfl

/-- The expression that has been read since the newest frame, once there is one. -/
def expr? : Reading → Option Expr
  | .operand o => some (.operand o)
  | .complete e => some e
  | _ => none

theorem step_of_expr {fs : List Frame} {r : Reading} {e : Expr} {x : Lexeme}
    (hr : expr? r = some e) (hx : ∀ o, x.token ≠ .op o) :
    ParseState.step ⟨fs, r⟩ x = ParseState.extend fs e x := by
  cases r with
  | nothing => exact absurd hr (by simp [expr?])
  | comparison l op => exact absurd hr (by simp [expr?])
  | operand o =>
    cases hr
    unfold ParseState.step
    split <;> simp_all
  | complete e' =>
    cases hr
    unfold ParseState.step
    split <;> simp_all

theorem Reads.conj {s : ParseState} {cs m rest : List Char} {fs gs : List Frame} {r : Reading}
    {e a : Expr} (h : Reads s cs ⟨gs, r⟩ m) (hr : expr? r = some e)
    (hc : Frame.closeConj gs e = (fs, a)) (ht : Begins .conj m rest) :
    Reads s cs ⟨.conj a :: fs, .nothing⟩ rest := by
  obtain ⟨x, hx, hl⟩ := lexemes_of_begins ht trivial
  have hstep : ParseState.step ⟨gs, r⟩ x = .ok ⟨.conj a :: fs, .nothing⟩ := by
    rw [step_of_expr hr (by simp [hx]), ParseState.extend, hx]
    simp only [hc]
  exact h.trans (.of_step hl hstep)

theorem Reads.disj {s : ParseState} {cs m rest : List Char} {fs gs : List Frame} {r : Reading}
    {e a : Expr} (h : Reads s cs ⟨gs, r⟩ m) (hr : expr? r = some e)
    (hc : Frame.closeDisj gs e = (fs, a)) (ht : Begins .disj m rest) :
    Reads s cs ⟨.disj a :: fs, .nothing⟩ rest := by
  obtain ⟨x, hx, hl⟩ := lexemes_of_begins ht trivial
  have hstep : ParseState.step ⟨gs, r⟩ x = .ok ⟨.disj a :: fs, .nothing⟩ := by
    rw [step_of_expr hr (by simp [hx]), ParseState.extend, hx]
    simp only [hc]
  exact h.trans (.of_step hl hstep)

theorem reads_openParen {cs rest : List Char} (h : Begins .openParen cs rest) (fs : List Frame) :
    Reads ⟨fs, .nothing⟩ cs ⟨.paren ('(' :: rest) :: fs, .nothing⟩ rest := by
  obtain ⟨x, hx, hl⟩ := lexemes_of_begins h trivial
  have hstep : ParseState.step ⟨fs, .nothing⟩ x = .ok ⟨.paren ('(' :: rest) :: fs, .nothing⟩ := by
    rw [ParseState.step, hx, ← h.skipBlank_openParen, ← start_of_lexemes hl]
  exact .of_step hl hstep

theorem reads_neg {x : Lexeme} {cs rest : List Char} (hx : x.token = .neg)
    (hl : lexemes cs = x :: lexemes rest) (fs : List Frame) :
    Reads ⟨fs, .nothing⟩ cs ⟨.neg :: fs, .nothing⟩ rest := by
  have hstep : ParseState.step ⟨fs, .nothing⟩ x = .ok ⟨.neg :: fs, .nothing⟩ := by
    rw [ParseState.step, hx]
  exact .of_step hl hstep

/-! ## From the grammar to the reader -/

/-- How far a part of the given level is closed when it ends. -/
def close : Level → List Frame → Expr → List Frame × Expr
  | .disj => Frame.closeDisj
  | _ => Frame.closeConj

/-- **A derived part is read**: over any stack that fits, up to where the derivation ends, and what
is then left open closes to what closes around the derived expression. -/
theorem reads_of_derives {l : Level} {cs rest : List Char} {e : Expr} (h : Derives l cs e rest)
    (hf : Follow rest) (fs : List Frame) (hfs : Fits l fs) :
    ∃ fs' r e', Reads ⟨fs, .nothing⟩ cs ⟨fs', r⟩ rest ∧ expr? r = some e' ∧
      close l fs' e' = close l fs e := by
  induction h generalizing fs with
  | @or cs m m' rest a b ha ht hb iha ihb =>
    obtain ⟨fs₁, r₁, e₁, hread₁, hr₁, hc₁⟩ := iha (ht.follow (by simp)) fs hfs
    obtain ⟨fs₂, r₂, e₂, hread₂, hr₂, hc₂⟩ := ihb hf (.disj a :: fs) trivial
    have hread := hread₁.disj hr₁ (hc₁.trans (closeDisj_of_fits hfs a)) ht
    have hclose : Frame.closeDisj fs₂ e₂ = Frame.closeDisj (.disj a :: fs) b :=
      closeDisj_eq_of_closeConj_eq hc₂
    exact ⟨fs₂, r₂, e₂, hread.trans hread₂, hr₂, hclose⟩
  | ofConj h ih =>
    obtain ⟨fs', r, e', hread, hr, hc⟩ := ih hf fs hfs.conj_of_disj
    exact ⟨fs', r, e', hread, hr, closeDisj_eq_of_closeConj_eq hc⟩
  | @and cs m m' rest a b ha ht hb iha ihb =>
    obtain ⟨fs₁, r₁, e₁, hread₁, hr₁, hc₁⟩ := iha (ht.follow (by simp)) fs hfs
    obtain ⟨fs₂, r₂, e₂, hread₂, hr₂, hc₂⟩ := ihb hf (.conj a :: fs) trivial
    have hread := hread₁.conj hr₁ (hc₁.trans (closeConj_of_fits hfs a)) ht
    exact ⟨fs₂, r₂, e₂, hread.trans hread₂, hr₂, hc₂⟩
  | ofUnary h ih => exact ih hf fs trivial
  | @not cs m rest e ht h ih =>
    obtain ⟨x, hx, hl⟩ := lexemes_of_begins ht h.head_ne_eq
    obtain ⟨fs', r, e', hread, hr, hc⟩ := ih hf (.neg :: fs) trivial
    exact ⟨fs', r, e', (reads_neg hx hl fs).trans hread, hr, hc⟩
  | ofPrimary h ih => exact ih hf fs trivial
  | @paren cs m m' rest e ho h hc ih =>
    obtain ⟨fs₁, r₁, e₁, hread₁, hr₁, hc₁⟩ :=
      ih (hc.follow (by simp)) (.paren ('(' :: m) :: fs) trivial
    obtain ⟨y, hy, hl⟩ := lexemes_of_begins hc trivial
    have hstep : ParseState.step ⟨fs₁, r₁⟩ y = .ok ⟨fs, .complete e⟩ := by
      rw [step_of_expr hr₁ (by simp [hy]), ParseState.extend, hy]
      simp only [close] at hc₁
      simp only [hc₁]
      rfl
    have hread := (reads_openParen ho fs).trans (hread₁.trans (.of_step hl hstep))
    exact ⟨fs, .complete e, e, hread, rfl, rfl⟩
  | @operand cs rest o h =>
    obtain ⟨x, hx, hl⟩ := lexemes_of_begins h hf
    have hstep : ParseState.step ⟨fs, .nothing⟩ x = .ok ⟨fs, .operand o⟩ := by
      rw [ParseState.step, hx]
    exact ⟨fs, .operand o, .operand o, .of_step hl hstep, rfl, rfl⟩
  | @compare cs m m' rest l r op hl ho hr =>
    obtain ⟨x, hx, hl₁⟩ := lexemes_of_begins hl (ho.follow (by simp))
    obtain ⟨y, hy, hl₂⟩ := lexemes_of_begins ho (hr.head_ne_eq (by simp))
    obtain ⟨z, hz, hl₃⟩ := lexemes_of_begins hr hf
    have hstep₁ : ParseState.step ⟨fs, .nothing⟩ x = .ok ⟨fs, .operand l⟩ := by
      rw [ParseState.step, hx]
    have hstep₂ : ParseState.step ⟨fs, .operand l⟩ y = .ok ⟨fs, .comparison l op⟩ := by
      rw [ParseState.step, hy]
    have hstep₃ : ParseState.step ⟨fs, .comparison l op⟩ z =
        .ok ⟨fs, .complete (.compare l op r)⟩ := by
      rw [ParseState.step, hz]
    have hread := (Reads.of_step hl₁ hstep₁).trans ((Reads.of_step hl₂ hstep₂).trans
      (.of_step hl₃ hstep₃))
    exact ⟨fs, .complete (.compare l op r), _, hread, rfl, rfl⟩

theorem finish_of_expr {fs : List Frame} {r : Reading} {e : Expr} (hr : expr? r = some e) :
    ParseState.finish ⟨fs, r⟩ =
      if Frame.depth fs = 0 then .ok (Frame.closeDisj fs e).2
      else .error (Frame.cannotContinue fs []) := by
  cases r with
  | nothing => exact absurd hr (by simp [expr?])
  | comparison l op => exact absurd hr (by simp [expr?])
  | operand o => cases hr; rfl
  | complete e => cases hr; rfl

/-- A predicate is read to its expression. -/
theorem parseLexemes_of_renders {cs : List Char} {e : Expr} (h : Renders cs e) :
    parseLexemes (lexemes cs) = .ok e := by
  obtain ⟨rest, hd, hb⟩ := h
  obtain ⟨fs, r, e', hread, hr, hc⟩ := reads_of_derives hd (follow_of_blank hb) [] trivial
  have hclose : Frame.closeDisj fs e' = ([], e) := hc
  have hdepth : Frame.depth fs = 0 := by
    rw [← depth_closeDisj fs e', hclose]
    rfl
  have hfin : ParseState.finish ⟨fs, r⟩ = .ok e := by
    rw [finish_of_expr hr, if_pos hdepth, hclose]
  rw [hread.parseLexemes_eq, lexemes_of_blank hb]
  exact hfin

/-! ## From the reader to the grammar -/

/-- `Stack cs fs m`: the frames account for the text `cs` up to where `m` remains. -/
inductive Stack : List Char → List Frame → List Char → Prop
  | nil {cs : List Char} : Stack cs [] cs
  | paren {cs m rest : List Char} {fs : List Frame} (h : Stack cs fs m)
      (ht : Begins .openParen m rest) : Stack cs (.paren ('(' :: rest) :: fs) rest
  | neg {cs m rest : List Char} {fs : List Frame} {x : Lexeme} (h : Stack cs fs m)
      (ht : Begins .neg m rest) (hx : x.token = .neg) (hl : lexemes m = x :: lexemes rest) :
      Stack cs (.neg :: fs) rest
  | conj {cs m m' rest : List Char} {fs : List Frame} {a : Expr} (h : Stack cs fs m)
      (hfs : Fits .conj fs) (ha : Derives .conj m a m') (ht : Begins .conj m' rest) :
      Stack cs (.conj a :: fs) rest
  | disj {cs m m' rest : List Char} {fs : List Frame} {a : Expr} (h : Stack cs fs m)
      (hfs : Fits .disj fs) (ha : Derives .disj m a m') (ht : Begins .disj m' rest) :
      Stack cs (.disj a :: fs) rest

/-- What has been read since the newest frame accounts for the text `m` up to `rest`. -/
def Accounts : Reading → List Char → List Char → Prop
  | .nothing, m, rest => m = rest
  | .operand o, m, rest => Begins (.operand o) m rest
  | .comparison l op, m, rest => ∃ m', Begins (.operand l) m m' ∧ Begins (.op op) m' rest
  | .complete e, m, rest => Derives .primary m e rest

/-- The state accounts for the text `cs` up to where `rest` remains. -/
def Covers (cs : List Char) (s : ParseState) (rest : List Char) : Prop :=
  ∃ m, Stack cs s.frames m ∧ Accounts s.reading m rest

/-- **The text that a stack accounts for is read to that stack.** -/
theorem reads_of_stack {cs m : List Char} {fs : List Frame} (h : Stack cs fs m) :
    Reads .start cs ⟨fs, .nothing⟩ m := by
  induction h with
  | nil => exact .refl _ _
  | paren _ ht ih => exact ih.trans (reads_openParen ht _)
  | neg _ _ hx hl ih => exact ih.trans (reads_neg hx hl _)
  | @conj _ _ _ fs a _ hfs ha ht ih =>
    obtain ⟨fs', r, e, hread, hr, hc⟩ := reads_of_derives ha (ht.follow (by simp)) fs hfs
    exact ih.trans (hread.conj hr (hc.trans (closeConj_of_fits hfs a)) ht)
  | @disj _ _ _ fs a _ hfs ha ht ih =>
    obtain ⟨fs', r, e, hread, hr, hc⟩ := reads_of_derives ha (ht.follow (by simp)) fs hfs
    exact ih.trans (hread.disj hr (hc.trans (closeDisj_of_fits hfs a)) ht)

theorem derives_of_expr {r : Reading} {e : Expr} {m rest : List Char} (hr : expr? r = some e)
    (h : Accounts r m rest) : Derives .unary m e rest := by
  cases r with
  | nothing => exact absurd hr (by simp [expr?])
  | comparison l op => exact absurd hr (by simp [expr?])
  | operand o => cases hr; exact Derives.ofPrimary (Derives.operand h)
  | complete e => cases hr; exact Derives.ofPrimary h

theorem closeConj_sound {cs m rest : List Char} {fs : List Frame} {e : Expr}
    (hst : Stack cs fs m) (h : Derives .unary m e rest) :
    ∃ m', Stack cs (Frame.closeConj fs e).1 m' ∧
      Derives .conj m' (Frame.closeConj fs e).2 rest ∧ Fits .conj (Frame.closeConj fs e).1 := by
  induction fs generalizing m e with
  | nil => exact ⟨m, hst, Derives.ofUnary h, trivial⟩
  | cons f fs ih =>
    cases f with
    | paren start => exact ⟨m, hst, Derives.ofUnary h, trivial⟩
    | disj a => exact ⟨m, hst, Derives.ofUnary h, trivial⟩
    | neg =>
      cases hst with
      | neg hst ht _ _ => exact ih hst (Derives.not ht h)
    | conj a =>
      cases hst with
      | conj hst hfs ha ht =>
        have hstop := closeConj_of_fits hfs (.and a e)
        rw [Frame.closeConj, hstop]
        exact ⟨_, hst, Derives.and ha ht h, hfs⟩

theorem closeDisj_sound {cs m rest : List Char} {fs : List Frame} {e : Expr}
    (hst : Stack cs fs m) (h : Derives .unary m e rest) :
    ∃ m', Stack cs (Frame.closeDisj fs e).1 m' ∧
      Derives .disj m' (Frame.closeDisj fs e).2 rest ∧ Fits .disj (Frame.closeDisj fs e).1 := by
  obtain ⟨m₁, hst₁, h₁, hfs₁⟩ := closeConj_sound hst h
  rw [← closeDisj_closeConj]
  generalize (Frame.closeConj fs e).1 = gs at hst₁ hfs₁ ⊢
  generalize (Frame.closeConj fs e).2 = f at h₁ ⊢
  cases hst₁ with
  | nil => exact ⟨_, Stack.nil, Derives.ofConj h₁, trivial⟩
  | paren hst₁ ht => exact ⟨_, Stack.paren hst₁ ht, Derives.ofConj h₁, trivial⟩
  | neg _ _ _ _ => exact absurd hfs₁ id
  | conj _ _ _ _ => exact absurd hfs₁ id
  | @disj _ _ _ _ a hst₁ hfs ha ht =>
    have hstop := closeDisj_of_fits hfs (.or a f)
    rw [Frame.closeDisj, hstop]
    exact ⟨_, hst₁, Derives.or ha ht h₁, hfs⟩

/-- What is left when all is closed up to the innermost open parenthesis: nothing, or that
parenthesis. -/
theorem closeDisj_cases {cs m rest : List Char} {fs : List Frame} {e : Expr}
    (hst : Stack cs fs m) (h : Derives .unary m e rest) :
    (Frame.depth fs = 0 ∧ Derives .disj cs (Frame.closeDisj fs e).2 rest) ∨
      ∃ gs m₁ m', Frame.depth fs = Frame.depth gs + 1 ∧ Stack cs gs m₁ ∧
        Begins .openParen m₁ m' ∧ Derives .disj m' (Frame.closeDisj fs e).2 rest := by
  obtain ⟨m', hst', he, hfs⟩ := closeDisj_sound hst h
  rw [← depth_closeDisj fs e]
  generalize (Frame.closeDisj fs e).1 = gs at hst' hfs ⊢
  cases hst' with
  | nil => exact .inl ⟨rfl, he⟩
  | paren hst₁ ht => exact .inr ⟨_, _, m', rfl, hst₁, ht, he⟩
  | neg _ _ _ _ => exact absurd hfs id
  | conj _ _ _ _ => exact absurd hfs id
  | disj _ _ _ _ => exact absurd hfs id

/-- A complete expression goes on with a connective or a closing parenthesis. -/
theorem covers_extend {cs m m₁ rest : List Char} {fs : List Frame} {e : Expr} {x : Lexeme}
    {s' : ParseState} (hst : Stack cs fs m) (he : Derives .unary m e m₁)
    (ht : Begins x.token m₁ rest) (h : ParseState.extend fs e x = .ok s') : Covers cs s' rest := by
  unfold ParseState.extend at h
  split at h
  · rename_i hx
    rw [hx] at ht
    obtain ⟨m', hst', he', hfs⟩ := closeConj_sound hst he
    cases h
    exact ⟨rest, Stack.conj hst' hfs he' ht, rfl⟩
  · rename_i hx
    rw [hx] at ht
    obtain ⟨m', hst', he', hfs⟩ := closeDisj_sound hst he
    cases h
    exact ⟨rest, Stack.disj hst' hfs he' ht, rfl⟩
  · rename_i hx
    rw [hx] at ht
    obtain ⟨m', hst', he', -⟩ := closeDisj_sound hst he
    split at h
    · rename_i hclose
      rw [hclose] at hst' he'
      cases h
      cases hst' with
      | paren hst' ho => exact ⟨_, hst', Derives.paren ho he' ht⟩
    · exact absurd h (by simp)
  · exact absurd h (by simp)

/-- **One lexeme** keeps the account. -/
theorem covers_step {cs m rest : List Char} {s s' : ParseState} {x : Lexeme} (hc : Covers cs s m)
    (ht : Begins x.token m rest) (hl : lexemes m = x :: lexemes rest) (h : s.step x = .ok s') :
    Covers cs s' rest := by
  obtain ⟨m₀, hst, hacc⟩ := hc
  obtain ⟨fs, r⟩ := s
  cases r with
  | nothing =>
    cases hacc
    unfold ParseState.step at h
    cases ht' : x.token <;> simp only [ht', reduceCtorEq, Except.ok.injEq] at h <;> subst h <;>
      rw [ht'] at ht
    case operand o => exact ⟨m, hst, ht⟩
    case neg => exact ⟨rest, Stack.neg hst ht ht' hl, rfl⟩
    case openParen =>
      rw [start_of_lexemes hl, ht.skipBlank_openParen]
      exact ⟨rest, Stack.paren hst ht, rfl⟩
  | comparison l op =>
    obtain ⟨m', hl, ho⟩ := hacc
    unfold ParseState.step at h
    cases ht' : x.token <;> simp only [ht', reduceCtorEq, Except.ok.injEq] at h
    case operand r =>
      subst h
      rw [ht'] at ht
      exact ⟨m₀, hst, Derives.compare hl ho ht⟩
  | operand o =>
    by_cases hop : ∃ op, x.token = .op op
    · obtain ⟨op, ht'⟩ := hop
      rw [ParseState.step, ht'] at h
      rw [ht'] at ht
      cases h
      exact ⟨m₀, hst, m, hacc, ht⟩
    · rw [step_of_expr rfl fun op ht' => hop ⟨op, ht'⟩] at h
      exact covers_extend hst (derives_of_expr rfl hacc) ht h
  | complete e => exact covers_extend hst (derives_of_expr rfl hacc) ht h

/-- No state takes a lexeme that is no token. -/
theorem legal_of_step {s s' : ParseState} {x : Lexeme} (h : s.step x = .ok s') :
    Legal x.token := by
  obtain ⟨fs, r⟩ := s
  refine ⟨fun hx => ?_, fun hx => ?_, fun hx => ?_⟩ <;> cases r <;>
    simp [ParseState.step, ParseState.extend, hx] at h

/-- No further lexeme is taken: none is left, or the next one is refused. -/
def Stuck (s : ParseState) (rest : List Char) : Prop :=
  lexemes rest = [] ∨ ∃ x f, lexemes rest = x :: lexemes x.stop ∧ s.step x = .error f

/-- Whatever else is read of a text, it is read no further than to where the reader is stuck. -/
theorem Reads.suffix_of_stuck {s s₁ s' : ParseState} {cs m rest : List Char}
    (h : Reads s cs s₁ m) (h' : Reads s cs s' rest) (hstuck : Stuck s' rest) :
    lexemes rest <:+ lexemes m := by
  obtain ⟨xs, hxs, hs⟩ := h
  obtain ⟨ys, hys, hs'⟩ := h'
  rcases List.append_eq_append_iff.mp (hxs.symm.trans hys) with ⟨zs, -, hm⟩ | ⟨zs, hzs, hrest⟩
  · exact ⟨zs, hm.symm⟩
  · cases zs with
    | nil => exact ⟨[], hrest⟩
    | cons z zs =>
      rcases hstuck with hnil | ⟨x, f, hx, hstep⟩
      · rw [hnil] at hrest
        cases hrest
      · rw [hx] at hrest
        obtain ⟨rfl, -⟩ := List.cons.inj hrest
        rw [hzs, List.foldlM_append, hs'] at hs
        change (x :: zs).foldlM ParseState.step s' = _ at hs
        rw [List.foldlM_cons, hstep] at hs
        cases hs

/-- **A run** keeps the account up to where it is stuck. -/
theorem covers_run {cs : List Char} (m : List Char) {s : ParseState} (hc : Covers cs s m) :
    ∃ s' rest, Reads s m s' rest ∧ Covers cs s' rest ∧ Stuck s' rest := by
  rcases begins_of_lexemes m with ⟨hl, -⟩ | ⟨x, hl, hlt, hx⟩
  · exact ⟨s, m, .refl s m, hc, .inl hl⟩
  · cases hstep : s.step x with
    | error f => exact ⟨s, m, .refl s m, hc, .inr ⟨x, f, hl, hstep⟩⟩
    | ok s₁ =>
      obtain ⟨s', rest, hread, hc', hstuck⟩ :=
        covers_run x.stop (covers_step hc (hx (legal_of_step hstep)) hl hstep)
      exact ⟨s', rest, (Reads.of_step hl hstep).trans hread, hc', hstuck⟩
termination_by m.length

/-- Only a complete expression without open parentheses can be finished. -/
theorem expr_of_finish {fs : List Frame} {r : Reading} {e : Expr}
    (h : ParseState.finish ⟨fs, r⟩ = .ok e) :
    ∃ e', expr? r = some e' ∧ Frame.depth fs = 0 ∧ (Frame.closeDisj fs e').2 = e := by
  have complete {e' : Expr} (hr : expr? r = some e') :
      ∃ e', expr? r = some e' ∧ Frame.depth fs = 0 ∧ (Frame.closeDisj fs e').2 = e := by
    rw [finish_of_expr hr] at h
    by_cases hdepth : Frame.depth fs = 0
    · rw [if_pos hdepth] at h
      cases h
      exact ⟨e', hr, hdepth, rfl⟩
    · rw [if_neg hdepth] at h
      exact absurd h (by simp)
  cases r with
  | nothing => exact absurd h (by simp [ParseState.finish])
  | comparison l op => exact absurd h (by simp [ParseState.finish])
  | operand o => exact complete rfl
  | complete e => exact complete rfl

/-- A text that is read to an expression is a predicate for it. -/
theorem renders_of_parseLexemes {cs : List Char} {e : Expr}
    (h : parseLexemes (lexemes cs) = .ok e) : Renders cs e := by
  have hstart : Covers cs .start cs := ⟨cs, Stack.nil, rfl⟩
  obtain ⟨s, rest, hread, ⟨m, hst, hacc⟩, hl | ⟨x, f, hl, hstep⟩⟩ := covers_run cs hstart
  · rw [hread.parseLexemes_eq, hl] at h
    obtain ⟨e', hr, hdepth, rfl⟩ := expr_of_finish h
    have hb := List.dropWhile_eq_nil_iff.mp (lexemes_eq_nil_iff.mp hl)
    rcases closeDisj_cases hst (derives_of_expr hr hacc) with ⟨-, he⟩ | ⟨gs, -, -, hopen, -⟩
    · exact ⟨rest, he, hb⟩
    · rw [hdepth] at hopen
      cases hopen
  · rw [hread.parseLexemes_eq, hl, List.foldlM_cons, hstep] at h
    cases h

/-! ## The predicates of the language -/

/-- **A text parses to an expression exactly when the grammar renders it so.** -/
theorem parse_eq_ok_iff (text : String) (e : Expr) :
    parse text = .ok e ↔ Renders text.toList e := by
  constructor
  · intro h
    unfold parse at h
    split at h
    · rename_i hread
      cases h
      exact renders_of_parseLexemes hread
    · exact absurd h (by simp)
  · intro h
    rw [parse, parseLexemes_of_renders h]

end GuardedConfig.Grammar
