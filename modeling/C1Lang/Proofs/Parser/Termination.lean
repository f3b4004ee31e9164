import C1Lang.Proofs.Parser.Bookkeeping

/-!
# The parser's loops end

Every loop of the parser is given as many rounds as there are tokens left. Each of its rounds
reads a token, so no loop stops because its rounds have run out: with more of them it does the
same (`Settles`). A loop that reads a whole program stops at the end of the tokens, and the
diagnostics on the way have been paid for with tokens of their own.
-/

namespace C1Lang.Parser

/-- More rounds than there are tokens left make no difference. -/
def Settles {α : Type} (loop : Nat → Parser α) : Prop :=
  ∀ s extra, loop (s.rest.length + extra) s = loop s.rest.length s

theorem Settles.of_round {α : Type} {loop : Nat → Parser α}
    (h : ∀ fuel s, s.rest.length ≤ fuel → loop (fuel + 1) s = loop fuel s) : Settles loop := by
  intro s extra
  induction extra with
  | zero => rfl
  | succ extra ih => exact (h _ s (Nat.le_add_right _ extra)).trans ih

theorem Costs.bind_congr {α β : Type} {p : Parser α} {f g : α → Parser β} {s : State}
    {done : α → State → Prop} (h : Costs p s done)
    (hf : ∀ a s', Spends s s' → done a s' → f a s' = g a s') : (p >>= f) s = (p >>= g) s := by
  unfold Costs at h
  split at h
  · next a s' heq =>
    rw [bind_ok heq, bind_ok heq]
    exact hf a s' h.1 h.2
  · next heq => rw [bind_error heq, bind_error heq]

theorem peek_congr {α : Type} {f g : TokenKind → Parser α} {s : State}
    (h : f s.kind s = g s.kind s) : (peek >>= f) s = (peek >>= g) s := h

theorem accept_nil {s : State} (hs : s.rest = []) (kind : TokenKind) :
    accept kind s = .ok false s := by
  have hnone : accept? kind s = .ok none s := by
    unfold accept?
    rw [get_bind, hs]
    rfl
  exact bind_ok hnone

theorem moreElements_fuel (fuel : Nat) (s : State) (h : s.rest.length ≤ fuel) :
    moreElements (fuel + 1) s = moreElements fuel s := by
  induction fuel generalizing s with
  | zero => exact bind_ok (accept_nil (List.length_eq_zero_iff.mp (Nat.le_zero.mp h)) _)
  | succ fuel ih =>
    refine (accept_costs .comma s).bind_congr fun b s₁ _ hshort => ?_
    cases b with
    | false => rfl
    | true =>
      have h₁ : s₁.rest.length < s.rest.length := hshort rfl
      refine peek_congr ?_
      by_cases hk : s₁.kind = .rightBrace
      · rw [if_pos hk, if_pos hk]
      · rw [if_neg hk, if_neg hk]
        refine (expression_costs s₁).bind_congr fun e s₂ h₂ _ => ?_
        have hlen := h₂.rest.length_le
        exact bind_congr_step (ih s₂ (by omega))

theorem moreDeclarators_fuel (start : Span) (kind : Kind) (constant : Bool) (fuel : Nat)
    (s : State) (h : s.rest.length ≤ fuel) :
    moreDeclarators start kind constant (fuel + 1) s =
      moreDeclarators start kind constant fuel s := by
  induction fuel generalizing s with
  | zero => exact bind_ok (accept_nil (List.length_eq_zero_iff.mp (Nat.le_zero.mp h)) _)
  | succ fuel ih =>
    refine (accept_costs .comma s).bind_congr fun b s₁ _ hshort => ?_
    cases b with
    | false => rfl
    | true =>
      have h₁ : s₁.rest.length < s.rest.length := hshort rfl
      refine (declarator_costs start kind constant s₁).bind_congr fun v s₂ h₂ _ => ?_
      have hlen := h₂.rest.length_le
      exact bind_congr_step (ih s₂ (by omega))

theorem kind_of_length {s : State} (h : s.rest.length ≤ 0) : s.kind = .eof := by
  rw [s.kind_eq, List.length_eq_zero_iff.mp (Nat.le_zero.mp h)]
  rfl

section Statement

variable {statement statement' : Parser Stmt}

theorem branch_congr (s : State) (h : ∀ s', Shorter s s' → statement s' = statement' s')
    (hst : ∀ s, Costs statement s (fun st s' => Bought st.names s s')) :
    branch statement s = branch statement' s := by
  refine (expect_costs .ifKeyword s).bind_congr fun t s₁ _ h₁ => ?_
  refine (parenthesized_costs s₁).bind_congr fun test s₂ h₂ _ => ?_
  have hs₂ := h₁.after h₂
  refine Eq.trans ?_ (bind_congr_step (h s₂ hs₂))
  refine (hst s₂).bind_congr fun body s₃ h₃ _ => ?_
  refine (accept_costs .elseKeyword s₃).bind_congr fun b s₄ h₄ _ => ?_
  cases b with
  | false => rfl
  | true => exact bind_congr_step (h s₄ (hs₂.after (h₃.trans h₄)))

theorem loop_congr (s : State) (h : ∀ s', Shorter s s' → statement s' = statement' s') :
    loop statement s = loop statement' s := by
  refine (expect_costs .whileKeyword s).bind_congr fun t s₁ _ h₁ => ?_
  refine (parenthesized_costs s₁).bind_congr fun test s₂ h₂ _ => ?_
  exact bind_congr_step (h s₂ (h₁.after h₂))

theorem orRecover_congr (s : State) (h : statement s = statement' s) :
    orRecover (blockItem statement) [] recoverStatement s =
      orRecover (blockItem statement') [] recoverStatement s := by
  have hitem : blockItem statement s = blockItem statement' s := by
    refine peek_congr ?_
    split
    · rfl
    · exact bind_congr_step h
  unfold orRecover
  rw [hitem]

variable (hst : ∀ s, Costs statement s (fun st s' => Bought st.names s s'))

include hst

theorem blockItems_fuel (fuel : Nat) (s : State) (h : s.rest.length ≤ fuel) :
    blockItems statement (fuel + 1) s = blockItems statement fuel s := by
  induction fuel generalizing s with
  | zero => exact blockItems_end (.inr (kind_of_length h)) 0
  | succ fuel ih =>
    by_cases hs : AtEnd s
    · rw [blockItems_end hs, blockItems_end hs]
    · obtain ⟨found, s₁, -, -, hfound, heq⟩ := blockItems_item hst hs
      have hshort : s₁.rest.length < s.rest.length := hfound.shorter
      rw [heq, heq]
      exact bind_congr_step (ih s₁ (by omega))

theorem blockItems_congr (hst' : ∀ s, Costs statement' s (fun st s' => Bought st.names s s'))
    (fuel : Nat) (s : State)
    (h : ∀ s', s'.rest.length ≤ s.rest.length → statement s' = statement' s') :
    blockItems statement fuel s = blockItems statement' fuel s := by
  induction fuel generalizing s with
  | zero => rfl
  | succ fuel ih =>
    by_cases hs : AtEnd s
    · rw [blockItems_end hs, blockItems_end hs]
    · obtain ⟨found, s₁, hr, -, hfound, heq⟩ := blockItems_item hst hs
      obtain ⟨found', s₁', hr', -, -, heq'⟩ := blockItems_item hst' hs
      rw [orRecover_congr s (h s (Nat.le_refl _)), hr'] at hr
      cases hr
      have hshort : s₁.rest.length < s.rest.length := hfound.shorter
      rw [heq, heq']
      exact bind_congr_step (ih s₁ fun s' hs' => h s' (by omega))

theorem block_congr (hst' : ∀ s, Costs statement' s (fun st s' => Bought st.names s s'))
    (s : State) (h : ∀ s', Shorter s s' → statement s' = statement' s') :
    block statement s = block statement' s := by
  refine (expect_costs .leftBrace s).bind_congr fun t s₁ _ h₁ => ?_
  refine bind_congr_step (blockItems_congr hst hst' _ s₁ fun s₂ h₂ => h s₂ ?_)
  exact Nat.lt_of_le_of_lt h₂ h₁

end Statement

theorem statementAt_fuel (fuel : Nat) (s : State) (h : s.rest.length ≤ fuel) :
    statementAt (fuel + 1) s = statementAt fuel s := by
  induction fuel generalizing s with
  | zero =>
    have hround : statementAt 1 s = _ := bind_ok (peek_eq s)
    rw [kind_of_length h] at hround
    exact hround
  | succ fuel ih =>
    -- A statement inside of this one has at least one token less to read.
    have hinner : ∀ s', Shorter s s' → statementAt (fuel + 1) s' = statementAt fuel s' := by
      intro s' hs'
      unfold Shorter at hs'
      exact ih s' (by omega)
    refine peek_congr ?_
    generalize s.kind = kind
    cases kind
    case leftBrace =>
      exact bind_congr_step (block_congr (statementAt_costs _) (statementAt_costs _) s hinner)
    case ifKeyword => exact branch_congr s hinner (statementAt_costs _)
    case whileKeyword => exact loop_congr s hinner
    all_goals rfl

theorem declarations_fuel (fuel : Nat) (s : State) (h : s.rest.length ≤ fuel) :
    declarations (fuel + 1) s = declarations fuel s := by
  induction fuel generalizing s with
  | zero => exact declarations_end (kind_of_length h) 0
  | succ fuel ih =>
    by_cases hs : s.kind = .eof
    · rw [declarations_end hs, declarations_end hs]
    · obtain ⟨found, s₁, -, -, hfound, heq⟩ := declarations_item hs
      have hshort : s₁.rest.length < s.rest.length := hfound.shorter
      rw [heq, heq]
      exact bind_congr_step (ih s₁ (by omega))

/-- Skipping goes on at `rest`, which is at the end, at the first token that stops it, or behind
the first semicolon. -/
def Resumes (stop : TokenKind → Bool) (ts rest : List Token) : Prop :=
  ∃ skipped, (∀ t ∈ skipped, stop t.kind = false ∧ t.kind ≠ .semicolon) ∧
    (ts = skipped ∧ rest = [] ∨ ∃ t us, ts = skipped ++ t :: us ∧
      (stop t.kind = true ∧ rest = t :: us ∨ t.kind = .semicolon ∧ rest = us))

theorem Resumes.skip {stop : TokenKind → Bool} {t : Token} {ts rest : List Token}
    (hstop : stop t.kind = false) (hk : t.kind ≠ .semicolon) (h : Resumes stop ts rest) :
    Resumes stop (t :: ts) rest := by
  obtain ⟨skipped, hskipped, hend⟩ := h
  refine ⟨t :: skipped, List.forall_mem_cons.mpr ⟨⟨hstop, hk⟩, hskipped⟩, ?_⟩
  rcases hend with ⟨rfl, hrest⟩ | ⟨u, us, rfl, hrest⟩
  · exact .inl ⟨rfl, hrest⟩
  · exact .inr ⟨u, us, rfl, hrest⟩

theorem Resumes.of_loop {stop : TokenKind → Bool} {skip : List Token → List Token}
    (hnil : skip [] = []) (hcons : ∀ t ts, skip (t :: ts) =
      if stop t.kind then t :: ts else if t.kind = .semicolon then ts else skip ts)
    (ts : List Token) : Resumes stop ts (skip ts) := by
  induction ts with
  | nil => exact ⟨[], by simp, .inl ⟨rfl, hnil⟩⟩
  | cons t ts ih =>
    rw [hcons]
    split
    · next hstop => exact ⟨[], by simp, .inr ⟨t, ts, rfl, .inl ⟨hstop, rfl⟩⟩⟩
    · next hstop =>
      split
      · next hk => exact ⟨[], by simp, .inr ⟨t, ts, rfl, .inr ⟨hk, rfl⟩⟩⟩
      · next hk => exact ih.skip (Bool.eq_false_iff.mpr hstop) hk

def resumesStatement (kind : TokenKind) : Bool := kind = .rightBrace || kind.startsStatement

theorem skipStatement_resumes (ts : List Token) :
    Resumes resumesStatement ts (skipStatement ts) :=
  .of_loop rfl (fun _ _ => rfl) ts

theorem skipDeclaration_resumes (ts : List Token) :
    Resumes TokenKind.startsDeclaration ts (skipDeclaration ts) :=
  .of_loop rfl (fun _ _ => rfl) ts

structure Terminates : Prop where
  declarations : Settles declarations
  statements : Settles statementAt
  block : ∀ depth, Settles (blockItems (statementAt depth))
  blockEnd : ∀ depth s, ∃ body s',
    blockItems (statementAt depth) s.rest.length s = .ok body s' ∧ AtEnd s'
  elements : Settles moreElements
  declarators : ∀ start kind constant, Settles (moreDeclarators start kind constant)
  operators : ∀ depth least left, Settles fun fuel => climb (expressionAt depth) least fuel left
  skipStatement : ∀ ts, Resumes resumesStatement ts (skipStatement ts)
  skipDeclaration : ∀ ts, Resumes TokenKind.startsDeclaration ts (skipDeclaration ts)
  recoverStatement : ∀ s, ¬ AtEnd s → Recovers recoverStatement s
  recoverDeclaration : ∀ s, s.kind ≠ .eof → Recovers recoverDeclaration s

theorem terminates : Terminates where
  declarations := .of_round declarations_fuel
  statements := .of_round statementAt_fuel
  block depth := .of_round (blockItems_fuel (statementAt_costs depth))
  blockEnd depth s := by
    obtain ⟨body, s', heq, -, -, hend⟩ :=
      blockItems_affords (statementAt_costs depth) s.rest.length s
    exact ⟨body, s', heq, hend (Nat.le_refl _)⟩
  elements := .of_round moreElements_fuel
  declarators start kind constant := .of_round (moreDeclarators_fuel start kind constant)
  operators depth least left s extra :=
    climb_fuel _ _ left s (Nat.le_add_right _ extra) (Nat.le_refl _)
  skipStatement := skipStatement_resumes
  skipDeclaration := skipDeclaration_resumes
  recoverStatement s h := recoverStatement_recovers (not_or.mp h).1 (not_or.mp h).2
  recoverDeclaration s h := recoverDeclaration_recovers h

theorem State.ofTokens_eof {before after : List Token} {e : Token}
    (hbefore : ∀ t ∈ before, t.kind ≠ .eof) (he : e.kind = .eof) :
    State.ofTokens (before ++ e :: after) = State.ofTokens (before ++ [⟨.eof, "", e.span⟩]) := by
  have hb : ∀ t ∈ before, (t.kind != .eof) = true := by simpa using hbefore
  have he' : (e.kind != .eof) = false := by simp [he]
  simp [State.ofTokens, List.takeWhile_append_of_pos hb, List.dropWhile_append_of_pos hb, he']

end C1Lang.Parser

namespace C1Lang

open C1Lang.Parser

theorem parse_diagnostics_le (ts : List Token) :
    (parse ts).diagnostics.length ≤ (significant ts).length := by
  obtain ⟨p, s, heq, hrest, ha, -⟩ := program_affords ts
  have hpaid : s.diagnostics.length + s.rest.length ≤ 0 + (significant ts).length := ha.paid
  simp only [parse, heq]
  omega

/-- On any list of tokens all loops of the parser end, the tokens are read up to the end, nothing
at or behind an end marker is read, and there are at most as many diagnostics as tokens that
count. -/
theorem parse_terminates (ts : List Token) :
    Terminates ∧
    (∃ p s, program (State.ofTokens ts) = .ok p s ∧ s.rest = []) ∧
    (∀ before e after, ts = before ++ e :: after → (∀ t ∈ before, t.kind ≠ .eof) →
      e.kind = .eof → parse ts = parse (before ++ [⟨.eof, "", e.span⟩])) ∧
    (parse ts).diagnostics.length ≤ (significant ts).length := by
  refine ⟨terminates, ?_, ?_, parse_diagnostics_le ts⟩
  · obtain ⟨p, s, heq, hrest, -⟩ := program_affords ts
    exact ⟨p, s, heq, hrest⟩
  · rintro before e after rfl hbefore he
    unfold parse
    rw [State.ofTokens_eof hbefore he]

end C1Lang
