import C1Lang.Proofs.Parser.Alongside
import C1Lang.Proofs.Token.Spelling

/-!
# What the parser says about literals

A literal that the lexer let through can be read, so the parser finds fault with one kind only: the
decimal literal that fits a word with a minus sign in front of it and stands without one
(`parse_literals`). The minus sign that is meant is the sign of an operand. It is told from a
subtraction by the token before it, which ends an operand exactly in front of a subtraction.
-/

namespace C1Lang.Parser

open Number (isMinMagnitude)

def EndsIn (kinds : List TokenKind) (ts : List Token) : Prop :=
  ∃ front last, ts = front ++ [last] ∧ last.kind ∈ kinds

def operandEnds : List TokenKind :=
  [.identifier, .int, .hex, .float, .rightParen, .rightBracket]

/-- The last of the tokens is a minus sign that belongs to what comes next: no operand ends in
front of it. -/
def EndsInSign (ts : List Token) : Prop :=
  ∃ front sign, ts = front ++ [sign] ∧ sign.kind = .minus ∧ ¬ EndsIn operandEnds front

theorem EndsIn.of_last {front : List Token} {t : Token} {kinds : List TokenKind}
    (h : t.kind ∈ kinds) : EndsIn kinds (front ++ [t]) := ⟨front, t, rfl, h⟩

theorem EndsIn.mono {kinds kinds' : List TokenKind} {ts : List Token} (h : EndsIn kinds ts)
    (hk : kinds ⊆ kinds') : EndsIn kinds' ts := by
  obtain ⟨front, last, heq, hlast⟩ := h
  exact ⟨front, last, heq, hk hlast⟩

theorem EndsIn.not_sign {kinds : List TokenKind} {ts : List Token} (h : EndsIn kinds ts)
    (hk : .minus ∉ kinds) : ¬ EndsInSign ts := by
  rintro ⟨front, sign, rfl, hsign, -⟩
  obtain ⟨front', last, heq, hlast⟩ := h
  obtain ⟨-, hlast'⟩ := List.append_inj' heq rfl
  cases hlast'
  exact hk (hsign ▸ hlast)

def Token.IsMagnitude (t : Token) : Prop := t.kind = .int ∧ isMinMagnitude t.lexeme = true

/-- The diagnostic is not about a literal, or it is about the magnitude of the smallest word where
no sign stands in front of it. -/
def Warranted (ts : List Token) (d : Diagnostic) : Prop :=
  d.problem ≠ .malformedNumber ∧ (d.problem = .integerOutOfRange →
    ∃ before t after, ts = before ++ t :: after ∧ d.span = t.span ∧ Token.IsMagnitude t ∧
      ¬ EndsInSign before)

structure Reached (ts before : List Token) (s : State) : Prop where
  tokens : ts = before ++ s.rest
  warranted : ∀ d ∈ s.diagnostics, Warranted ts d

/-- Whatever the parser reports is warranted, and `done` describes its result and the tokens that
have been read. -/
def Warrants {α : Type} (ts : List Token) (p : Parser α) (s : State)
    (done : α → List Token → Prop := fun _ _ => True) : Prop :=
  match p s with
  | .ok a s' => ∃ before, Reached ts before s' ∧ done a before
  | .error d s' => (∃ before, Reached ts before s') ∧ Warranted ts d

theorem Reached.suffix {ts before : List Token} {s : State} (h : Reached ts before s)
    {rest : List Token} (hr : rest <:+ s.rest) (symbols : SymbolTable) :
    ∃ before, Reached ts before { s with rest, symbols } := by
  obtain ⟨skipped, hskipped⟩ := hr
  refine ⟨before ++ skipped, ?_, h.warranted⟩
  rw [h.tokens, ← hskipped, List.append_assoc]

theorem Reached.one {ts before : List Token} {s : State} (h : Reached ts before s) {t : Token}
    {rest : List Token} (hs : s.rest = t :: rest) (symbols : SymbolTable) :
    Reached ts (before ++ [t]) { s with rest, symbols } := by
  refine ⟨?_, h.warranted⟩
  rw [h.tokens, hs, List.append_assoc, List.singleton_append]

namespace Warrants

variable {α β : Type} {ts before : List Token} {p : Parser α} {s : State}
  {done done' : α → List Token → Prop}

theorem mono (h : Warrants ts p s done) (hd : ∀ a before, done a before → done' a before) :
    Warrants ts p s done' := by
  unfold Warrants at h ⊢
  split at h
  · obtain ⟨before, hb, hdone⟩ := h
    exact ⟨before, hb, hd _ _ hdone⟩
  · exact h

theorem of_ok {a : α} {s' : State} (hs : p s = .ok a s') (hb : Reached ts before s')
    (hd : done a before) : Warrants ts p s done := by
  unfold Warrants
  rw [hs]
  exact ⟨before, hb, hd⟩

theorem of_error {d : Diagnostic} {s' : State} (hs : p s = .error d s') (hb : Reached ts before s')
    (hd : Warranted ts d) : Warrants ts p s done := by
  unfold Warrants
  rw [hs]
  exact ⟨⟨before, hb⟩, hd⟩

theorem pure {a : α} (hb : Reached ts before s) (hd : done a before) :
    Warrants ts (Pure.pure a) s done := of_ok rfl hb hd

theorem throw {problem : Problem} {span : Span} (hb : Reached ts before s)
    (hm : problem ≠ .malformedNumber) (hr : problem ≠ .integerOutOfRange) :
    Warrants ts (MonadExcept.throw ⟨problem, span⟩ : Parser α) s done :=
  of_error rfl hb ⟨hm, fun h => absurd h hr⟩

theorem fail {problem : Problem} (hb : Reached ts before s) (hm : problem ≠ .malformedNumber)
    (hr : problem ≠ .integerOutOfRange) : Warrants ts (Parser.fail problem : Parser α) s done :=
  of_error rfl hb ⟨hm, fun h => absurd h hr⟩

theorem of_step {q : Parser α} {s' : State} (hs : p s = q s') (h : Warrants ts q s' done) :
    Warrants ts p s done := by
  unfold Warrants at h ⊢
  rwa [hs]

theorem bind {f : α → Parser β} {done' : β → List Token → Prop} (h : Warrants ts p s done)
    (hf : ∀ a before s', Reached ts before s' → done a before → Warrants ts (f a) s' done') :
    Warrants ts (p >>= f) s done' := by
  unfold Warrants at h
  split at h
  · next a s' heq =>
    obtain ⟨before, hb, hdone⟩ := h
    exact of_step (bind_ok heq) (hf a before s' hb hdone)
  · next heq =>
    unfold Warrants
    rw [bind_error heq]
    exact h

theorem get_bind {f : State → Parser β} {done : β → List Token → Prop}
    (h : Warrants ts (f s) s done) : Warrants ts (get >>= f) s done := h

theorem peek_bind {f : TokenKind → Parser β} {done : β → List Token → Prop}
    (h : Warrants ts (f s.kind) s done) : Warrants ts (peek >>= f) s done := h

theorem remaining_bind {f : Nat → Parser β} {done : β → List Token → Prop}
    (h : Warrants ts (f s.rest.length) s done) : Warrants ts (remaining >>= f) s done := h

end Warrants

section Tokens

variable {ts before : List Token} {s : State} (hb : Reached ts before s)

include hb

theorem advance_warrants {t : Token} {rest : List Token} (hs : s.rest = t :: rest) :
    Warrants ts advance s (fun _ after => after = before ++ [t]) :=
  .of_ok (advance_eq hs) (hb.one hs _) rfl

theorem accept?_warrants (kind : TokenKind) :
    Warrants ts (accept? kind) s (fun o after =>
      (o = none → after = before) ∧ (o.isSome = true → EndsIn [kind] after)) := by
  cases hs : s.rest with
  | nil => exact .of_ok (accept?_nil hs kind) hb ⟨fun _ => rfl, nofun⟩
  | cons t rest =>
    have hcons := accept?_cons hs kind
    split at hcons
    · next hk => exact .of_ok hcons (hb.one hs _) ⟨nofun, fun _ => .of_last (by simp [hk])⟩
    · exact .of_ok hcons hb ⟨fun _ => rfl, nofun⟩

theorem accept_warrants (kind : TokenKind) :
    Warrants ts (accept kind) s (fun b after =>
      (b = false → after = before) ∧ (b = true → EndsIn [kind] after)) := by
  refine (accept?_warrants hb kind).bind fun o after s₁ h₁ ho => .pure h₁ ⟨fun h => ?_, ho.2⟩
  exact ho.1 (Option.isSome_eq_false_iff.mp h |> Option.isNone_iff_eq_none.mp)

theorem expect_warrants (kind : TokenKind) :
    Warrants ts (expect kind) s (fun _ after => EndsIn [kind] after) := by
  refine (accept?_warrants hb kind).bind fun o after s₁ h₁ ho => ?_
  cases o with
  | some t => exact .pure h₁ (ho.2 rfl)
  | none => exact .fail h₁ (by simp) (by simp)

theorem expectName_warrants :
    Warrants ts expectName s (fun _ after => EndsIn [.identifier] after) := by
  refine (expect_warrants hb .identifier).bind fun t after s₁ h₁ ht => ?_
  exact .of_ok rfl ⟨h₁.tokens, h₁.warranted⟩ ht

end Tokens

/-- The literal that needs a sign does not come next where one stands. -/
def Fresh (before : List Token) (s : State) : Prop :=
  EndsInSign before → ∀ t rest, s.rest = t :: rest → ¬ Token.IsMagnitude t

theorem EndsIn.fresh {kinds : List TokenKind} {before : List Token} (h : EndsIn kinds before)
    (hk : .minus ∉ kinds) (s : State) : Fresh before s := fun hs => absurd hs (h.not_sign hk)

def Operands (ts : List Token) (p : Parser Expr) : Prop :=
  ∀ before s, Reached ts before s → Fresh before s →
    Warrants ts p s (fun _ after => EndsIn operandEnds after)

theorem place_warrants {ts before : List Token} {inner : Parser Expr} (hinner : Operands ts inner)
    {s : State} (hb : Reached ts before s) :
    Warrants ts (place inner) s (fun _ after => EndsIn operandEnds after) := by
  refine (expectName_warrants hb).bind fun name before₁ s₁ h₁ hname => ?_
  refine (accept_warrants h₁ .leftBracket).bind fun b before₂ s₂ h₂ hopen => ?_
  cases b with
  | false =>
    refine .pure h₂ ?_
    rw [hopen.1 rfl]
    exact hname.mono (by simp [operandEnds])
  | true =>
    refine (hinner before₂ s₂ h₂ ((hopen.2 rfl).fresh (by simp) s₂)).bind
      fun index before₃ s₃ h₃ _ => ?_
    refine (expect_warrants h₃ .rightBracket).bind fun close before₄ s₄ h₄ hclose => .pure h₄ ?_
    exact hclose.mono (by simp [operandEnds])

section Spelled

variable {ts : List Token} (hts : ∀ t ∈ ts, Spelled t.kind t.lexeme.toList)

include hts

theorem literal?_of_int {t : Token} (ht : t ∈ ts) (hk : t.kind = .int) :
    (Number.literal? t.lexeme).isSome = true := by
  have hspelled := hts t ht
  rw [hk] at hspelled
  obtain ⟨hd, hn⟩ := hspelled
  have hread := Number.literal?_digits hd
  rw [String.ofList_toList, if_pos (by exact hn)] at hread
  rw [hread]
  rfl

theorem literal?_of_hex {t : Token} (ht : t ∈ ts) (hk : t.kind = .hex) :
    (Number.literal? t.lexeme).isSome = true := by
  have hspelled := hts t ht
  rw [hk] at hspelled
  obtain ⟨x, digits, htext, hx, hd, hn⟩ := hspelled
  have hread := Number.literal?_hex hx hd
  rw [← htext, String.ofList_toList, if_pos hn] at hread
  rw [hread]
  rfl

theorem readDouble?_of_float {t : Token} (ht : t ∈ ts) (hk : t.kind = .float) :
    (Number.readDouble? t.lexeme).isSome = true := by
  have hspelled := hts t ht
  rw [hk] at hspelled
  have hread := Number.readDouble?_isSome hspelled
  rwa [String.ofList_toList] at hread

end Spelled

theorem integerLiteral_warrants {ts before : List Token} {s : State} (hb : Reached ts before s)
    {t : Token} (ht : (Number.literal? t.lexeme).isSome = true) :
    Warrants ts (integerLiteral t) s (fun _ after => after = before) := by
  obtain ⟨n, hn⟩ := Option.isSome_iff_exists.mp ht
  unfold integerLiteral
  rw [hn]
  exact .pure hb rfl

theorem floatLiteral_warrants {ts before : List Token} {s : State} (hb : Reached ts before s)
    {t : Token} (ht : (Number.readDouble? t.lexeme).isSome = true) :
    Warrants ts (floatLiteral t) s (fun _ after => after = before) := by
  obtain ⟨x, hx⟩ := Option.isSome_iff_exists.mp ht
  unfold floatLiteral
  rw [hx]
  exact .pure hb rfl

theorem Warrants.literal {ts before : List Token} {s : State} (hb : Reached ts before s) {t : Token}
    {rest : List Token} (hs : s.rest = t :: rest) (hk : t.kind ∈ operandEnds) {p : Parser Expr}
    (hp : ∀ before s, Reached ts before s → Warrants ts p s (fun _ after => after = before)) :
    Warrants ts (advance >>= fun _ => p) s (fun _ after => EndsIn operandEnds after) := by
  refine (advance_warrants hb hs).bind fun _ before₁ s₁ h₁ hafter => ?_
  refine (hp before₁ s₁ h₁).mono fun _ after heq => ?_
  rw [heq, hafter]
  exact .of_last hk

section Expression

variable {ts : List Token} {inner : Nat → Parser Expr} (hinner : ∀ least, Operands ts (inner least))

include hinner

theorem signed_warrants (op : UnaryOp) (sign : Token) {before : List Token} {s : State}
    (hb : Reached ts before s) (hf : Fresh before s) :
    Warrants ts (signed inner op sign) s (fun _ after => EndsIn operandEnds after) :=
  (hinner signPower before s hb hf).bind fun _ _ _ h₁ he => .pure h₁ he

theorem operand_warrants (hts : ∀ t ∈ ts, Spelled t.kind t.lexeme.toList) :
    Operands ts (operand inner) := by
  intro before s hb hf
  apply Warrants.get_bind
  split
  · exact .fail hb (by simp) (by simp)
  · next t rest hs =>
    have ht : t ∈ ts := by
      rw [hb.tokens, hs]
      simp
    split
    · next hk =>
      split
      · next e rest' hmin =>
        -- The sign and the literal that needs it are read together.
        obtain ⟨u, rfl, hu, -⟩ := minLiteral?_eq_some hmin
        have h₁ := (hb.one hs s.symbols).one (s := { s with rest := u :: rest' }) rfl s.symbols
        exact .of_ok rfl h₁ (.of_last (by simp [hu, operandEnds]))
      · next hmin =>
        refine (advance_warrants hb hs).bind fun _ before₁ s₁ h₁ hafter => ?_
        refine signed_warrants hinner _ t h₁ fun _ u rest' hs₁ hu => ?_
        have htokens := h₁.tokens
        rw [hb.tokens, hs, hafter, List.append_assoc, hs₁] at htokens
        obtain rfl : rest = u :: rest' := by simpa using htokens
        simp [minLiteral?, hu.1, hu.2] at hmin
    · next hk =>
      refine (advance_warrants hb hs).bind fun _ before₁ s₁ h₁ hafter => ?_
      have hlast : EndsIn [.plus] before₁ := hafter ▸ .of_last (by simp [hk])
      exact signed_warrants hinner _ t h₁ (hlast.fresh (by simp) s₁)
    · next hk =>
      refine (advance_warrants hb hs).bind fun _ before₁ s₁ h₁ hafter => ?_
      have hlast : EndsIn [.leftParen] before₁ := hafter ▸ .of_last (by simp [hk])
      refine (hinner 0 before₁ s₁ h₁ (hlast.fresh (by simp) s₁)).bind fun e before₂ s₂ h₂ _ => ?_
      refine (expect_warrants h₂ .rightParen).bind fun _ before₃ s₃ h₃ hclose => .pure h₃ ?_
      exact hclose.mono (by simp [operandEnds])
    · next hk =>
      split
      · next hmin =>
        have hmagnitude : Token.IsMagnitude t := ⟨hk, hmin⟩
        have hspan : s.span = t.span := by simp [State.span, hs]
        refine .of_error rfl hb ⟨by simp, fun _ => ⟨before, t, rest, ?_, hspan, hmagnitude, ?_⟩⟩
        · rw [hb.tokens, hs]
        · exact fun hsign => hf hsign t rest hs hmagnitude
      · exact .literal hb hs (by simp [hk, operandEnds]) fun _ _ h =>
          integerLiteral_warrants h (literal?_of_int hts ht hk)
    · next hk =>
      exact .literal hb hs (by simp [hk, operandEnds]) fun _ _ h =>
        integerLiteral_warrants h (literal?_of_hex hts ht hk)
    · next hk =>
      exact .literal hb hs (by simp [hk, operandEnds]) fun _ _ h =>
        floatLiteral_warrants h (readDouble?_of_float hts ht hk)
    · exact (place_warrants (hinner 0) hb).bind fun _ _ _ h₁ he => .pure h₁ he
    · exact .fail hb (by simp) (by simp)

theorem climb_warrants (least fuel : Nat) (left : Expr) {before : List Token} {s : State}
    (hb : Reached ts before s) (he : EndsIn operandEnds before) :
    Warrants ts (climb inner least fuel left) s (fun _ after => EndsIn operandEnds after) := by
  induction fuel generalizing left before s with
  | zero => exact .pure hb he
  | succ fuel ih =>
    apply Warrants.peek_bind
    split
    · exact .pure hb he
    · next op hop =>
      split
      · exact .pure hb he
      · obtain ⟨t, rest, hs, -⟩ := exists_next (s := s) (by
          intro hk
          rw [hk] at hop
          cases hop)
        refine (advance_warrants hb hs).bind fun _ before₁ s₁ h₁ hafter => ?_
        -- A minus behind an operand is a subtraction.
        have hfresh : Fresh before₁ s₁ := by
          rintro ⟨front, sign, heq, -, hnot⟩
          obtain ⟨rfl, -⟩ := List.append_inj' (hafter.symm.trans heq) rfl
          exact absurd he hnot
        refine (hinner (rightPower op) before₁ s₁ h₁ hfresh).bind fun right before₂ s₂ h₂ he₂ => ?_
        exact ih _ h₂ he₂

end Expression

theorem call_warrants {ts before : List Token} {s : State} (hb : Reached ts before s) :
    Warrants ts call s := by
  refine (expectName_warrants hb).bind fun name before₁ s₁ h₁ _ => ?_
  refine (expect_warrants h₁ .leftParen).bind fun _ before₂ s₂ h₂ _ => ?_
  refine (expect_warrants h₂ .rightParen).bind fun _ before₃ s₃ h₃ _ => ?_
  exact (expect_warrants h₃ .semicolon).bind fun _ _ _ h₄ _ => .pure h₄ trivial

theorem orRecover_warrants {α : Type} {ts : List Token} {p : Parser α} {s : State}
    (h : Warrants ts p s) (default : α) (recover : State → State → State)
    (hr : ∀ s s', ∃ rest, rest <:+ s'.rest ∧ recover s s' = { s' with rest }) :
    Warrants ts (orRecover p default recover) s := by
  unfold Warrants at h
  cases heq : p s with
  | ok a s' =>
    rw [heq] at h
    obtain ⟨before, hb, -⟩ := h
    have hrun : orRecover p default recover s = .ok a s' := by rw [orRecover, heq]
    exact .of_ok hrun hb trivial
  | error d s' =>
    rw [heq] at h
    obtain ⟨⟨before, hb⟩, hd⟩ := h
    have hrun : orRecover p default recover s = .ok default (recover s (s'.record d)) := by
      rw [orRecover, heq]
    have hrecord : Reached ts before (s'.record d) := by
      refine ⟨hb.tokens, fun e he => ?_⟩
      rcases List.mem_append.mp he with he | he
      · exact hb.warranted e he
      · exact List.mem_singleton.mp he ▸ hd
    obtain ⟨rest, hrest, hrecover⟩ := hr s (s'.record d)
    obtain ⟨after, hafter⟩ := hrecord.suffix hrest (s'.record d).symbols
    rw [hrecover] at hrun
    exact .of_ok hrun hafter trivial

section Program

variable {ts : List Token} (hts : ∀ t ∈ ts, Spelled t.kind t.lexeme.toList)

include hts

theorem expressionAt_warrants (depth least : Nat) : Operands ts (expressionAt depth least) := by
  induction depth generalizing least with
  | zero => exact fun before s hb _ => .fail hb (by simp) (by simp)
  | succ depth ih =>
    intro before s hb hf
    refine (operand_warrants ih hts before s hb hf).bind fun left before₁ s₁ h₁ he => ?_
    exact .remaining_bind (climb_warrants ih least _ left h₁ he)

theorem expression_warrants {kinds : List TokenKind} (hk : .minus ∉ kinds) {before : List Token}
    {s : State} (hb : Reached ts before s) (he : EndsIn kinds before) :
    Warrants ts expression s (fun _ after => EndsIn operandEnds after) :=
  expressionAt_warrants hts maxDepth 0 before s hb (he.fresh hk s)

theorem condition_warrants {before : List Token} {s : State} (hb : Reached ts before s)
    (he : EndsIn [.leftParen] before) : Warrants ts condition s := by
  refine (expression_warrants hts (by simp) hb he).bind fun left before₁ s₁ h₁ _ => ?_
  apply Warrants.peek_bind
  split
  · exact .fail h₁ (by simp) (by simp)
  · next relation hrelation =>
    obtain ⟨t, rest, hs, hk⟩ := exists_next (s := s₁) (by
      intro hk
      rw [hk] at hrelation
      cases hrelation)
    refine (advance_warrants h₁ hs).bind fun _ before₂ s₂ h₂ hafter => ?_
    have hlast : EndsIn [s₁.kind] before₂ := hafter ▸ .of_last (by simp [hk])
    have hminus : TokenKind.minus ∉ [s₁.kind] := by
      intro hmem
      rw [← List.mem_singleton.mp hmem] at hrelation
      cases hrelation
    exact (expression_warrants hts hminus h₂ hlast).bind fun right before₃ s₃ h₃ _ =>
      .pure h₃ trivial

theorem parenthesized_warrants {before : List Token} {s : State} (hb : Reached ts before s) :
    Warrants ts parenthesized s := by
  refine (expect_warrants hb .leftParen).bind fun _ before₁ s₁ h₁ hopen => ?_
  refine (condition_warrants hts h₁ hopen).bind fun test before₂ s₂ h₂ _ => ?_
  exact (expect_warrants h₂ .rightParen).bind fun _ before₃ s₃ h₃ _ => .pure h₃ trivial

theorem moreElements_warrants (fuel : Nat) {before : List Token} {s : State}
    (hb : Reached ts before s) : Warrants ts (moreElements fuel) s := by
  induction fuel generalizing before s with
  | zero => exact .pure hb trivial
  | succ fuel ih =>
    refine (accept_warrants hb .comma).bind fun b before₁ s₁ h₁ hcomma => ?_
    cases b with
    | false => exact .pure h₁ trivial
    | true =>
      apply Warrants.peek_bind
      split
      · exact .pure h₁ trivial
      · refine (expression_warrants hts (by simp) h₁ (hcomma.2 rfl)).bind
          fun e before₂ s₂ h₂ _ => ?_
        exact (ih h₂).bind fun _ _ _ h₃ _ => .pure h₃ trivial

theorem braceList_warrants {before : List Token} {s : State} (hb : Reached ts before s) :
    Warrants ts braceList s := by
  refine (expect_warrants hb .leftBrace).bind fun _ before₁ s₁ h₁ hopen => ?_
  refine (accept?_warrants h₁ .rightBrace).bind fun o before₂ s₂ h₂ hclose => ?_
  cases o with
  | some close => exact .pure h₂ trivial
  | none =>
    have hopen₂ : EndsIn [.leftBrace] before₂ := hclose.1 rfl ▸ hopen
    refine (expression_warrants hts (by simp) h₂ hopen₂).bind fun e before₃ s₃ h₃ _ => ?_
    apply Warrants.remaining_bind
    refine (moreElements_warrants hts _ h₃).bind fun es before₄ s₄ h₄ _ => ?_
    exact (expect_warrants h₄ .rightBrace).bind fun _ _ _ h₅ _ => .pure h₅ trivial

theorem brackets_warrants (name : Token) {before : List Token} {s : State}
    (hb : Reached ts before s) : Warrants ts (brackets name) s := by
  refine (accept_warrants hb .leftBracket).bind fun b before₁ s₁ h₁ hopen => ?_
  cases b with
  | false => exact .pure h₁ trivial
  | true =>
    apply Warrants.peek_bind
    split
    · exact (expect_warrants h₁ .rightBracket).bind fun _ _ _ h₂ _ => .pure h₂ trivial
    · refine (expression_warrants hts (by simp) h₁ (hopen.2 rfl)).bind fun e before₂ s₂ h₂ _ => ?_
      exact (expect_warrants h₂ .rightBracket).bind fun _ _ _ h₃ _ => .pure h₃ trivial

theorem initializer_warrants (isArray : Bool) {before : List Token} {s : State}
    (hb : Reached ts before s) (he : EndsIn [.equal] before) :
    Warrants ts (initializer isArray) s := by
  apply Warrants.peek_bind
  split
  · split
    · exact (braceList_warrants hts hb).bind fun _ _ _ h₁ _ => .pure h₁ trivial
    · exact .fail hb (by simp) (by simp)
  · split
    · exact .fail hb (by simp) (by simp)
    · exact (expression_warrants hts (by simp) hb he).bind fun _ _ _ h₁ _ => .pure h₁ trivial

theorem declarator_warrants (start : Span) (kind : Kind) (constant : Bool) {before : List Token}
    {s : State} (hb : Reached ts before s) : Warrants ts (declarator start kind constant) s := by
  refine (expectName_warrants hb).bind fun name before₁ s₁ h₁ _ => ?_
  refine (brackets_warrants hts name h₁).bind fun r before₂ s₂ h₂ _ => ?_
  obtain ⟨found, bracketSpan⟩ := r
  refine (accept_warrants h₂ .equal).bind fun b before₃ s₃ h₃ hequal => ?_
  cases b with
  | true =>
    exact (initializer_warrants hts _ h₃ (hequal.2 rfl)).bind fun _ _ _ h₄ _ => .pure h₄ trivial
  | false =>
    dsimp only
    rw [if_neg Bool.false_ne_true]
    split
    · exact .throw h₃ (by simp) (by simp)
    · cases found with
      | absent => exact .pure h₃ trivial
      | unstated => exact .throw h₃ (by simp) (by simp)
      | length e => exact .pure h₃ trivial

theorem moreDeclarators_warrants (start : Span) (kind : Kind) (constant : Bool) (fuel : Nat)
    {before : List Token} {s : State} (hb : Reached ts before s) :
    Warrants ts (moreDeclarators start kind constant fuel) s := by
  induction fuel generalizing before s with
  | zero => exact .pure hb trivial
  | succ fuel ih =>
    refine (accept_warrants hb .comma).bind fun b before₁ s₁ h₁ _ => ?_
    cases b with
    | false => exact .pure h₁ trivial
    | true =>
      refine (declarator_warrants hts start kind constant h₁).bind fun v before₂ s₂ h₂ _ => ?_
      exact (ih h₂).bind fun _ _ _ h₃ _ => .pure h₃ trivial

theorem variableDeclaration_warrants {before : List Token} {s : State} (hb : Reached ts before s) :
    Warrants ts variableDeclaration s := by
  apply Warrants.get_bind
  refine (accept_warrants hb .constKeyword).bind fun constant before₁ s₁ h₁ _ => ?_
  apply Warrants.peek_bind
  split
  · exact .fail h₁ (by simp) (by simp)
  · next kind hkind =>
    obtain ⟨t, rest, hs, -⟩ := exists_next (s := s₁) (by
      intro hk
      rw [hk] at hkind
      cases hkind)
    refine (advance_warrants h₁ hs).bind fun _ before₂ s₂ h₂ _ => ?_
    refine (declarator_warrants hts _ kind constant h₂).bind fun v before₃ s₃ h₃ _ => ?_
    apply Warrants.remaining_bind
    refine (moreDeclarators_warrants hts _ kind constant _ h₃).bind fun vs before₄ s₄ h₄ _ => ?_
    exact (expect_warrants h₄ .semicolon).bind fun _ _ _ h₅ _ => .pure h₅ trivial

theorem assignment_warrants {before : List Token} {s : State} (hb : Reached ts before s) :
    Warrants ts assignment s := by
  have hindex : Operands ts expression := expressionAt_warrants hts maxDepth 0
  refine (place_warrants hindex hb).bind fun target before₁ s₁ h₁ _ => ?_
  refine (expect_warrants h₁ .equal).bind fun _ before₂ s₂ h₂ hequal => ?_
  refine (expression_warrants hts (by simp) h₂ hequal).bind fun value before₃ s₃ h₃ _ => ?_
  exact (expect_warrants h₃ .semicolon).bind fun _ _ _ h₄ _ => .pure h₄ trivial

theorem blockItem_warrants {statement : Parser Stmt} {before : List Token} {s : State}
    (hst : ∀ before s, Reached ts before s → Warrants ts statement s) (hb : Reached ts before s) :
    Warrants ts (blockItem statement) s := by
  apply Warrants.peek_bind
  split
  · exact (variableDeclaration_warrants hts hb).bind fun _ _ _ h₁ _ => .pure h₁ trivial
  · exact (hst before s hb).bind fun _ _ _ h₁ _ => .pure h₁ trivial

theorem blockItems_warrants {statement : Parser Stmt}
    (hst : ∀ before s, Reached ts before s → Warrants ts statement s) (fuel : Nat)
    {before : List Token} {s : State} (hb : Reached ts before s) :
    Warrants ts (blockItems statement fuel) s := by
  induction fuel generalizing before s with
  | zero => exact .pure hb trivial
  | succ fuel ih =>
    apply Warrants.peek_bind
    split
    · exact .pure hb trivial
    · exact .pure hb trivial
    · have hitem := orRecover_warrants (blockItem_warrants hts hst hb) [] recoverStatement
        fun s s' => ⟨_, recoverStatement_suffix s s', rfl⟩
      refine hitem.bind fun found before₁ s₁ h₁ _ => ?_
      exact (ih h₁).bind fun _ _ _ h₂ _ => .pure h₂ trivial

theorem block_warrants {statement : Parser Stmt}
    (hst : ∀ before s, Reached ts before s → Warrants ts statement s)
    {before : List Token} {s : State} (hb : Reached ts before s) :
    Warrants ts (block statement) s := by
  refine (expect_warrants hb .leftBrace).bind fun _ before₁ s₁ h₁ _ => ?_
  apply Warrants.remaining_bind
  refine (blockItems_warrants hts hst _ h₁).bind fun body before₂ s₂ h₂ _ => ?_
  exact (expect_warrants h₂ .rightBrace).bind fun _ _ _ h₃ _ => .pure h₃ trivial

theorem branch_warrants {statement : Parser Stmt}
    (hst : ∀ before s, Reached ts before s → Warrants ts statement s)
    {before : List Token} {s : State} (hb : Reached ts before s) :
    Warrants ts (branch statement) s := by
  refine (expect_warrants hb .ifKeyword).bind fun _ before₁ s₁ h₁ _ => ?_
  refine (parenthesized_warrants hts h₁).bind fun test before₂ s₂ h₂ _ => ?_
  refine (hst before₂ s₂ h₂).bind fun body before₃ s₃ h₃ _ => ?_
  refine (accept_warrants h₃ .elseKeyword).bind fun b before₄ s₄ h₄ _ => ?_
  cases b with
  | false => exact .pure h₄ trivial
  | true => exact (hst before₄ s₄ h₄).bind fun _ _ _ h₅ _ => .pure h₅ trivial

theorem loop_warrants {statement : Parser Stmt}
    (hst : ∀ before s, Reached ts before s → Warrants ts statement s)
    {before : List Token} {s : State} (hb : Reached ts before s) :
    Warrants ts (loop statement) s := by
  refine (expect_warrants hb .whileKeyword).bind fun _ before₁ s₁ h₁ _ => ?_
  refine (parenthesized_warrants hts h₁).bind fun test before₂ s₂ h₂ _ => ?_
  exact (hst before₂ s₂ h₂).bind fun _ _ _ h₃ _ => .pure h₃ trivial

theorem statementAt_warrants (fuel : Nat) (before : List Token) (s : State)
    (hb : Reached ts before s) : Warrants ts (statementAt fuel) s := by
  induction fuel generalizing before s with
  | zero => exact .fail hb (by simp) (by simp)
  | succ fuel ih =>
    apply Warrants.peek_bind
    split
    · exact (block_warrants hts ih hb).bind fun _ _ _ h₁ _ => .pure h₁ trivial
    · exact branch_warrants hts ih hb
    · exact loop_warrants hts ih hb
    · exact (expect_warrants hb .semicolon).bind fun _ _ _ h₁ _ => .pure h₁ trivial
    · refine .of_step (bind_ok (peekSecond_eq s)) ?_
      split
      · exact call_warrants hb
      · exact assignment_warrants hts hb
    · exact .fail hb (by simp) (by simp)

theorem function_warrants {before : List Token} {s : State} (hb : Reached ts before s) :
    Warrants ts function s := by
  refine (expect_warrants hb .voidKeyword).bind fun _ before₁ s₁ h₁ _ => ?_
  refine (expectName_warrants h₁).bind fun name before₂ s₂ h₂ _ => ?_
  refine (expect_warrants h₂ .leftParen).bind fun _ before₃ s₃ h₃ _ => ?_
  refine (expect_warrants h₃ .rightParen).bind fun _ before₄ s₄ h₄ _ => ?_
  apply Warrants.remaining_bind
  exact (block_warrants hts (statementAt_warrants hts _) h₄).bind fun _ _ _ h₅ _ =>
    .pure h₅ trivial

theorem declaration_warrants {before : List Token} {s : State} (hb : Reached ts before s) :
    Warrants ts declaration s := by
  apply Warrants.peek_bind
  split
  · exact (function_warrants hts hb).bind fun _ _ _ h₁ _ => .pure h₁ trivial
  · split
    · exact (variableDeclaration_warrants hts hb).bind fun _ _ _ h₁ _ => .pure h₁ trivial
    · exact .fail hb (by simp) (by simp)

theorem declarations_warrants (fuel : Nat) {before : List Token} {s : State}
    (hb : Reached ts before s) : Warrants ts (declarations fuel) s := by
  induction fuel generalizing before s with
  | zero => exact .pure hb trivial
  | succ fuel ih =>
    apply Warrants.peek_bind
    split
    · exact .pure hb trivial
    · have hitem := orRecover_warrants (declaration_warrants hts hb) [] recoverDeclaration
        fun s s' => ⟨_, recoverDeclaration_suffix s s', rfl⟩
      refine hitem.bind fun found before₁ s₁ h₁ _ => ?_
      exact (ih h₁).bind fun _ _ _ h₂ _ => .pure h₂ trivial

end Program

end C1Lang.Parser

namespace C1Lang

open C1Lang.Parser

theorem mem_of_significant {ts : List Token} {t : Token} (h : t ∈ significant ts) : t ∈ ts :=
  (List.takeWhile_sublist _).subset (List.mem_filter.mp h).1

theorem parse_warranted {ts : List Token} (hts : ∀ t ∈ ts, Spelled t.kind t.lexeme.toList) :
    ∀ d ∈ (parse ts).diagnostics, Warranted (significant ts) d := by
  have hstart : Reached (significant ts) [] (State.ofTokens ts) := ⟨rfl, nofun⟩
  have hread : ∀ t ∈ significant ts, Spelled t.kind t.lexeme.toList := fun t ht =>
    hts t (mem_of_significant ht)
  have h := declarations_warrants hread (significant ts).length hstart
  have hprogram : program (State.ofTokens ts) =
      declarations (significant ts).length (State.ofTokens ts) := rfl
  unfold Warrants at h
  unfold parse
  rw [hprogram]
  split at h
  · next heq =>
    obtain ⟨before, hb, -⟩ := h
    rw [heq]
    exact hb.warranted
  · next heq =>
    obtain ⟨⟨before, hb⟩, hd⟩ := h
    rw [heq]
    intro d hmem
    rcases List.mem_append.mp hmem with hmem | hmem
    · exact hb.warranted d hmem
    · exact List.mem_singleton.mp hmem ▸ hd

/-- Number and name tokens are spelled as such, and a number can be read. So parsing finds no number
malformed, and none out of range but the magnitude of the smallest word where it does not stand
behind a minus sign of its own. -/
theorem parse_literals (text : String) :
    (∀ t ∈ (lex text).tokens, Spelled t.kind t.lexeme.toList ∧
      (t.kind = .int ∨ t.kind = .hex → ∃ n, Number.literal? t.lexeme = some n) ∧
      (t.kind = .float → ∃ x, Number.readDouble? t.lexeme = some x)) ∧
    ∀ d ∈ (parse (lex text).tokens).diagnostics, d.problem ≠ .malformedNumber ∧
      (d.problem = .integerOutOfRange → ∃ before t after,
        significant (lex text).tokens = before ++ t :: after ∧ d.span = t.span ∧ t.kind = .int ∧
        Number.ofDigits 10 t.lexeme.toList = 2147483648 ∧ ¬ EndsInSign before) := by
  have hspelled := lex_spelled text
  refine ⟨fun t ht => ⟨hspelled t ht, fun hk => ?_, fun hk => ?_⟩, fun d hd => ?_⟩
  · exact Option.isSome_iff_exists.mp
      (hk.elim (literal?_of_int hspelled ht) (literal?_of_hex hspelled ht))
  · exact Option.isSome_iff_exists.mp (readDouble?_of_float hspelled ht hk)
  · obtain ⟨hmalformed, hrange⟩ := parse_warranted hspelled d hd
    refine ⟨hmalformed, fun h => ?_⟩
    obtain ⟨before, t, after, htokens, hspan, ⟨hk, hmagnitude⟩, hsign⟩ := hrange h
    have hdigits := hspelled t (mem_of_significant (by simp [htokens]))
    rw [hk] at hdigits
    rw [← String.ofList_toList (s := t.lexeme)] at hmagnitude
    exact ⟨before, t, after, htokens, hspan, hk,
      (Number.isMinMagnitude_digits hdigits.1).mp hmagnitude, hsign⟩

example : (parse (lex "int x = 1 -2147483648;").tokens).diagnostics =
    [⟨.integerOutOfRange, ⟨11, 21⟩⟩] := by decide +kernel

example : (parse (lex "int x = 1 - -2147483648;").tokens).diagnostics = [] := by decide +kernel

end C1Lang
