import C1Lang.Proofs.Parser.Tracking
import C1Lang.Proofs.Program.Shape

/-!
# What the parser stores

Each part of the parser that stores keeps track with the one that builds trees, and has stored the
nodes of the tree that the other has built. So the nodes of an error-free program are laid out as
those of its tree (`parseStored_eq_some`).
-/

namespace C1Lang

namespace Storing

open C1Lang.Parser

theorem expectName_tracks (st : Store) :
    Tracks Parser.expectName expectName st
      (fun t r st' => ∃ x, r = (x, t.span) ∧ Mentioned st' (some x) ∧ Reads st st') := by
  refine .expect_bind (by decide) fun t st₁ h₁ => ?_
  let symbols := st₁.symbols.mention t.lexeme
  have h₂ : Reads st₁ { st₁ with symbols } :=
    ⟨.of_cursor_eq rfl, rfl, st₁.symbols.size_le_mention t.lexeme, id⟩
  refine .ok t ((st₁.symbols.intern t.lexeme).1, t.span) _ rfl rfl h₂.later ⟨_, rfl, ?_, ?_⟩
  · intro x hx
    cases hx
    exact st₁.symbols.intern_lt t.lexeme
  · exact h₁.trans h₂

theorem ne_eof {β : Type} {f : TokenKind → Option β} {kind : TokenKind} {b : β}
    (heof : f .eof = none) (h : f kind = some b) : kind ≠ .eof := by
  rintro rfl
  rw [heof] at h
  cases h

/-- What is read is stored with the span that it has, from any store on. -/
def Stores {α : Type} (p : Parser α) (q : Storing Nat) (add : α → Array Node → Nat × Array Node)
    (span : α → Span) : Prop :=
  ∀ st, Tracks p q st fun a id st' => Holds st (add a) (span a) id st'

section Place

variable {inner : Parser Expr} {inner' : Storing Nat}
  (hi : Stores inner inner' Arena.addExpr Expr.span)

include hi

theorem place_tracks :
    Stores (Parser.place inner) (place inner') (fun p => Arena.addExpr p.toExpr) Place.span := by
  intro st
  refine (expectName_tracks st).bind ?_
  rintro t _ st₁ - ⟨x, rfl, hx, h₁⟩
  refine .accept_bind (by decide) fun b st₂ h₂ => ?_
  have hx₂ := hx.later h₂.later
  cases b with
  | false => exact .alloc hx₂ (.of_push (((Laid.nil st₂).push hx₂).after (h₁.trans h₂)))
  | true =>
    refine (hi st₂).bind fun i id st₃ h₃ hid => ?_
    refine .expect_bind (by decide) fun u st₄ h₄ => ?_
    have hx₄ := (hx₂.later h₃).later h₄.later
    exact .alloc hx₄ (.of_push ((((hid.laid.reads h₄).cons (.nil st₄)).push hx₄).after
      (h₁.trans h₂)))

end Place

theorem literal_tracks {st st' : Store} (h : Reads st st') (v : Value) (span : Span) :
    Tracks (Pure.pure (.literal v span)) (alloc .literal span [] none) st'
      (fun e id st'' => Holds st (Arena.addExpr e) e.span id st'') :=
  Tracks.alloc (.none st') (.of_push (((Laid.nil st').push (.none st')).after h))

theorem integerLiteral_tracks {st : Store} (hne : st.parser.kind ≠ .eof) :
    Tracks (advance >>= fun _ => integerLiteral st.cursor.peek)
      (literal (Number.literal? st.cursor.peek.lexeme) .integerOutOfRange) st
      (fun e id st' => Holds st (Arena.addExpr e) e.span id st') := by
  refine .bump_bind hne fun h₁ => ?_
  unfold integerLiteral
  cases Number.literal? st.cursor.peek.lexeme with
  | none => exact .throw _
  | some n => exact literal_tracks h₁ _ _

theorem floatLiteral_tracks {st : Store} (hne : st.parser.kind ≠ .eof) :
    Tracks (advance >>= fun _ => floatLiteral st.cursor.peek)
      (literal (Number.readDouble? st.cursor.peek.lexeme) .malformedNumber) st
      (fun e id st' => Holds st (Arena.addExpr e) e.span id st') := by
  refine .bump_bind hne fun h₁ => ?_
  unfold floatLiteral
  cases Number.readDouble? st.cursor.peek.lexeme with
  | none => exact .throw _
  | some x => exact literal_tracks h₁ _ _

theorem minLiteral?_cases (st : Store) (sign : Token) :
    let next := st.cursor.peekNth 1
    ((next.kind = .int && Number.isMinMagnitude next.lexeme) = false ∧
      minLiteral? sign st.bump.parser.rest = none) ∨
    ((next.kind = .int && Number.isMinMagnitude next.lexeme) = true ∧
      minLiteral? sign st.bump.parser.rest =
        some (.literal (.int Int32.minValue) (sign.span.merge next.span),
          st.bump.bump.parser.rest) ∧
      next = st.bump.cursor.peek ∧ st.bump.parser.kind ≠ .eof) := by
  intro next
  have hnext : next = st.bump.cursor.peek := st.valid.peekNth_eq 1
  rw [hnext]
  obtain ⟨heof, hnil⟩ | ⟨hne, hcons⟩ := st.bump.parser_cases
  · rw [hnil, heof]
    exact .inl ⟨rfl, rfl⟩
  · have hrest : st.bump.parser.rest = st.bump.cursor.peek :: st.bump.bump.parser.rest :=
      congrArg State.rest hcons
    rw [hrest, minLiteral?]
    split
    · next hmin => exact .inr ⟨hmin, rfl, rfl, st.bump.parser_kind ▸ hne⟩
    · next hmin => exact .inl ⟨Bool.eq_false_iff.mpr hmin, rfl⟩

theorem Tracks.bump_bump {α β : Type} {st : Store} {a : α} {q : Token → Storing β}
    {done : α → β → Store → Prop} (hne : st.parser.kind ≠ .eof)
    (hnext : st.bump.parser.kind ≠ .eof)
    (h : Reads st st.bump.bump →
      Tracks (Pure.pure a) (q st.bump.cursor.peek) st.bump.bump done) :
    Tracks (modify (fun s : State => { s with rest := st.bump.bump.parser.rest }) >>=
        fun _ => Pure.pure a)
      (bump >>= fun _ => bump >>= q) st done := by
  rw [Store.parser_kind] at hne hnext
  have hreads := (Reads.bump hne).trans (Reads.bump hnext)
  obtain ⟨heof, -⟩ | ⟨-, hcons⟩ := st.parser_cases
  · exact absurd heof hne
  obtain ⟨heof, -⟩ | ⟨-, hcons₁⟩ := st.bump.parser_cases
  · exact absurd heof hnext
  have hstate : { st.parser with rest := st.bump.bump.parser.rest } = st.bump.bump.parser := by
    rw [hcons, hcons₁]
  have hleft : (modify fun s : State => { s with rest := st.bump.bump.parser.rest } : Parser _)
      st.parser = .ok () st.bump.bump.parser := congrArg (EStateM.Result.ok ()) hstate
  exact .of_step (bind_ok hleft) ((bind_ok rfl).trans (bind_ok rfl)) hreads.later (h hreads)

section Expression

variable {inner : Nat → Parser Expr} {inner' : Nat → Storing Nat}
  (hinner : ∀ least, Stores (inner least) (inner' least) Arena.addExpr Expr.span)

include hinner

theorem signed_tracks (op : UnaryOp) {st : Store} (hne : st.parser.kind ≠ .eof) :
    Tracks (advance >>= fun _ => Parser.signed inner op st.cursor.peek)
      (signed inner' st.cursor.peek) st
      (fun e id st' => Holds st (Arena.addExpr e) e.span id st') := by
  refine .bump_bind hne fun h₁ => (hinner signPower st.bump).bind fun e id st₂ _ he => ?_
  refine .span_bind he.span (.alloc (.none st₂) (.of_push ?_))
  exact ((he.laid.cons (.nil st₂)).push (.none st₂)).after h₁

theorem operand_tracks :
    Stores (Parser.operand inner) (operand inner') Arena.addExpr Expr.span := by
  intro st
  apply Tracks.get_bind
  obtain ⟨heof, hnil⟩ | ⟨hne, hcons⟩ := st.parser_cases
  · dsimp only
    rw [hnil, heof]
    exact .fail
  · have hkind := st.parser_kind
    have hrest : st.parser.rest = st.cursor.peek :: st.bump.parser.rest :=
      congrArg State.rest hcons
    have hleft : st.parser.kind ≠ .eof := hkind ▸ hne
    rw [hrest]
    dsimp only
    cases hk : st.cursor.peek.kind with
    | minus =>
      obtain ⟨hnext, hmin⟩ | ⟨hnext, hmin, hpeek, hleft₁⟩ := minLiteral?_cases st st.cursor.peek
      · dsimp only
        rw [hmin, hnext]
        exact signed_tracks hinner .neg hleft
      · dsimp only
        rw [hmin, hnext, hpeek]
        exact .bump_bump hleft hleft₁ fun h₂ => literal_tracks h₂ _ _
    | plus => exact signed_tracks hinner .plus hleft
    | leftParen =>
      refine .bump_bind hleft fun h₁ => (hinner 0 st.bump).bind fun e id st₂ _ he => ?_
      exact .expect_bind (by decide) fun u st₃ h₃ => .pure ((he.reads h₃).after h₁)
    | int =>
      dsimp only
      split
      · exact .fail
      · exact integerLiteral_tracks hleft
    | hex => exact integerLiteral_tracks hleft
    | float => exact floatLiteral_tracks hleft
    | identifier =>
      exact (place_tracks (hinner 0) st).map fun p _ _ h => by cases p <;> exact h
    | _ => exact .fail

theorem climb_tracks (least fuel : Nat) (left : Expr) (id : Nat) {st st₀ : Store}
    (hl : Holds st₀ (Arena.addExpr left) left.span id st) :
    Tracks (Parser.climb inner least fuel left) (climb inner' least fuel id) st
      (fun e id st' => Holds st₀ (Arena.addExpr e) e.span id st') := by
  induction fuel generalizing left id st with
  | zero => exact .pure hl
  | succ fuel ih =>
    apply Tracks.peek_bind
    cases hop : binaryOp? st.parser.kind with
    | none => exact .pure hl
    | some op =>
      dsimp only
      split
      · exact .pure hl
      · refine .bump_bind (ne_eof rfl hop) fun h₁ => ?_
        refine (hinner (rightPower op) st.bump).bind fun right id' st₂ h₂ hr => ?_
        refine .span_bind (h₂.spanAt? (h₁.later.spanAt? hl.span)) (.span_bind hr.span ?_)
        refine .alloc_bind (.none st₂) (ih _ _ (.of_push ?_))
        exact ((hl.laid.reads h₁).cons (hr.laid.cons (.nil st₂))).push (.none st₂)

end Expression

theorem expressionAt_tracks (depth least : Nat) :
    Stores (Parser.expressionAt depth least) (expressionAt depth least) Arena.addExpr
      Expr.span := by
  induction depth generalizing least with
  | zero => exact fun st => .fail
  | succ depth ih =>
    intro st
    refine (operand_tracks ih st).bind fun left id st₁ _ hl => .remaining_bind ?_
    exact climb_tracks ih least _ left id hl

theorem expression_tracks :
    Stores Parser.expression expression Arena.addExpr Expr.span := expressionAt_tracks maxDepth 0

theorem condition_tracks :
    Stores Parser.condition condition Arena.addCondition Condition.span := by
  intro st
  refine (expression_tracks st).bind fun left id st₁ _ hl => .peek_bind ?_
  cases hrel : relation? st₁.parser.kind with
  | none => exact .fail
  | some relation =>
    refine .bump_bind (ne_eof rfl hrel) fun h₂ => ?_
    refine (expression_tracks st₁.bump).bind fun right id' st₃ h₃ hr => ?_
    refine .span_bind (h₃.spanAt? (h₂.later.spanAt? hl.span)) (.span_bind hr.span ?_)
    refine .alloc (.none st₃) (.of_push ?_)
    exact ((hl.laid.reads h₂).cons (hr.laid.cons (.nil st₃))).push (.none st₃)

theorem parenthesized_tracks :
    Stores Parser.parenthesized parenthesized Arena.addCondition Condition.span := by
  intro st
  refine .expect_bind (by decide) fun _ st₁ h₁ => ?_
  refine (condition_tracks st₁).bind fun c id st₂ _ hc => ?_
  refine .expect_bind (by decide) fun _ st₃ h₃ => .pure ?_
  exact (hc.reads h₃).after h₁

theorem moreElements_tracks (fuel : Nat) (st : Store) :
    Tracks (Parser.moreElements fuel) (moreElements fuel) st
      (fun es ids st' => Laid st (Arena.addExprs es) ids st') := by
  induction fuel generalizing st with
  | zero => exact .pure (.nil st)
  | succ fuel ih =>
    refine .accept_bind (by decide) fun b st₁ h₁ => ?_
    cases b with
    | false => exact .pure ((Laid.nil st₁).after h₁)
    | true =>
      refine .peek_bind ?_
      split
      · exact .pure ((Laid.nil st₁).after h₁)
      · refine (expression_tracks st₁).bind fun e id st₂ _ he => ?_
        refine (ih st₂).bind fun es ids st₃ _ hes => .pure ?_
        exact (he.laid.cons hes).after h₁

theorem braceList_tracks (st : Store) :
    Tracks Parser.braceList braceList st
      (fun r ids st' => st'.cursor.previous = r.2 ∧ Laid st (Arena.addExprs r.1) ids st') := by
  refine .expect_bind (by decide) fun _ st₁ h₁ => ?_
  refine (Tracks.accept? (by decide)).bind fun o b st₂ _ ⟨hb, hprevious, h₂⟩ => ?_
  have hopen := h₁.trans h₂
  cases o with
  | some close =>
    rw [hb]
    exact .pure ⟨hprevious close rfl, (Laid.nil st₂).after hopen⟩
  | none =>
    rw [hb]
    refine (expression_tracks st₂).bind fun e id st₃ _ he => .remaining_bind ?_
    refine (moreElements_tracks _ st₃).bind fun es ids st₄ _ hes => ?_
    refine (Tracks.expect (by decide)).bind fun close _ st₅ _ ⟨_, hclose, h₅⟩ => .pure ⟨hclose, ?_⟩
    exact ((he.laid.cons hes).reads h₅).after hopen

inductive Lengths (st st' : Store) : Parser.Brackets → Brackets → Prop
  | absent (h : Reads st st') : Lengths st st' .absent .absent
  | unstated (h : Reads st st') : Lengths st st' .unstated .unstated
  | length {e : Expr} {id : Nat} (h : Laid st (Arena.addExpr e) id st') :
      Lengths st st' (.length e) (.length id)

theorem brackets_tracks (name : Token) (st : Store) :
    Tracks (Parser.brackets name) (brackets name.span) st
      (fun r r' st' => r'.2 = r.2 ∧ Lengths st st' r.1 r'.1) := by
  refine .accept_bind (by decide) fun b st₁ h₁ => ?_
  cases b with
  | false => exact .pure ⟨rfl, .absent h₁⟩
  | true =>
    refine .peek_bind ?_
    split
    · refine .expect_bind (by decide) fun close st₂ h₂ => .pure ⟨rfl, ?_⟩
      exact .unstated (h₁.trans h₂)
    · refine (expression_tracks st₁).bind fun e id st₂ _ he => ?_
      refine .expect_bind (by decide) fun close st₃ h₃ => .pure ⟨rfl, ?_⟩
      exact .length ((he.laid.reads h₃).after h₁)

theorem initializer_tracks (isArray : Bool) (st : Store) :
    Tracks (Parser.initializer isArray) (initializer isArray) st
      (fun r r' st' => r'.2 = r.2 ∧ Laid st (Arena.addExprs r.1) r'.1 st') := by
  refine .peek_bind ?_
  split
  · cases isArray with
    | false => exact .fail
    | true =>
      refine (braceList_tracks st).bind fun r ids st₁ _ h => ?_
      exact .of_step rfl (bind_ok rfl) (.refl st₁) (.pure ⟨congrArg Token.span h.1, h.2⟩)
  · cases isArray with
    | false =>
      refine (expression_tracks st).bind fun e id st₁ _ he => .span_bind he.span (.pure ⟨rfl, ?_⟩)
      exact he.laid.cons (.nil st₁)
    | true => exact .fail

theorem declarator_tracks (start : Span) (kind : Kind) (constant : Bool) :
    Stores (Parser.declarator start kind constant) (declarator start constant) Arena.addVariable
      Variable.span := by
  intro st
  refine (expectName_tracks st).bind ?_
  rintro t _ st₁ - ⟨x, rfl, hx, h₁⟩
  refine (brackets_tracks t st₁).bind ?_
  rintro ⟨found, stop⟩ ⟨found', _⟩ st₂ later₂ ⟨rfl, hfound⟩
  refine .accept_bind (by decide) fun b st₃ h₃ => ?_
  have hx₃ := (hx.later later₂).later h₃.later
  cases b with
  | false =>
    cases constant with
    | true => exact .throw _
    | false =>
      cases hfound with
      | absent h₂ =>
        exact .alloc hx₃ (.of_push (((Laid.nil st₃).push hx₃).after (h₁.trans (h₂.trans h₃))))
      | unstated h₂ => exact .throw _
      | length he =>
        exact .alloc hx₃ (.of_push ((((he.reads h₃).cons (.nil st₃)).push hx₃).after h₁))
  | true =>
    cases hfound with
    | absent h₂ =>
      refine (initializer_tracks false st₃).bind ?_
      rintro ⟨values, stop⟩ ⟨ids, _⟩ st₄ later₄ ⟨rfl, hv⟩
      have hx₄ := hx₃.later later₄
      exact .alloc hx₄ (.of_push ((hv.push hx₄).after (h₁.trans (h₂.trans h₃))))
    | unstated h₂ =>
      refine (initializer_tracks true st₃).bind ?_
      rintro ⟨values, stop⟩ ⟨ids, _⟩ st₄ later₄ ⟨rfl, hv⟩
      have hx₄ := hx₃.later later₄
      -- The length that was counted is stored now, behind the values.
      refine .alloc_bind (.none st₄) (.alloc hx₄ (.of_push ?_))
      exact ((hv.behind ((Laid.nil st₄).push (.none st₄))).push hx₄).after (h₁.trans (h₂.trans h₃))
    | length he =>
      refine (initializer_tracks true st₃).bind ?_
      rintro ⟨values, stop⟩ ⟨ids, _⟩ st₄ later₄ ⟨rfl, hv⟩
      have hx₄ := hx₃.later later₄
      exact .alloc hx₄ (.of_push ((((he.reads h₃).cons hv).push hx₄).after h₁))

theorem moreDeclarators_tracks (start : Span) (kind : Kind) (constant : Bool) (fuel : Nat)
    (st : Store) :
    Tracks (Parser.moreDeclarators start kind constant fuel) (moreDeclarators start constant fuel)
      st (fun vs ids st' => Laid st (Arena.addStmts (vs.map .declare)) ids st') := by
  induction fuel generalizing st with
  | zero => exact .pure (.nil st)
  | succ fuel ih =>
    refine .accept_bind (by decide) fun b st₁ h₁ => ?_
    cases b with
    | false => exact .pure ((Laid.nil st₁).after h₁)
    | true =>
      refine (declarator_tracks start kind constant st₁).bind fun v id st₂ _ hv => ?_
      refine (ih st₂).bind fun vs ids st₃ _ hvs => .pure ?_
      exact (hv.laid.cons hvs).after h₁

theorem variableDeclaration_tracks (st : Store) :
    Tracks Parser.variableDeclaration variableDeclaration st
      (fun vs ids st' => Laid st (Arena.addStmts (vs.map .declare)) ids st') := by
  apply Tracks.get_bind
  rw [← st.parser_span]
  refine .accept_bind (by decide) fun constant st₁ h₁ => .peek_bind ?_
  cases hkind : kindOf? st₁.parser.kind with
  | none => exact .fail
  | some kind =>
    refine .bump_bind (ne_eof rfl hkind) fun h₂ => ?_
    refine (declarator_tracks _ kind constant st₁.bump).bind fun v id st₃ _ hv => .remaining_bind ?_
    refine (moreDeclarators_tracks _ kind constant _ st₃).bind fun vs ids st₄ _ hvs => ?_
    refine .expect_bind (by decide) fun _ st₅ h₅ => .pure ?_
    exact ((hv.laid.cons hvs).reads h₅).after (h₁.trans h₂)

theorem call_tracks : Stores Parser.call call Arena.addStmt Stmt.span := by
  intro st
  refine (expectName_tracks st).bind ?_
  rintro t _ st₁ - ⟨x, rfl, hx, h₁⟩
  refine .expect_bind (by decide) fun _ st₂ h₂ => ?_
  refine .expect_bind (by decide) fun _ st₃ h₃ => ?_
  refine .expect_bind (by decide) fun _ st₄ h₄ => ?_
  have h := h₂.trans (h₃.trans h₄)
  have hx₄ := hx.later h.later
  exact .alloc hx₄ (.of_push (((Laid.nil st₄).push hx₄).after (h₁.trans h)))

theorem assignment_tracks : Stores Parser.assignment assignment Arena.addStmt Stmt.span := by
  intro st
  refine (place_tracks expression_tracks st).bind fun target id st₁ _ ht => ?_
  refine .expect_bind (by decide) fun _ st₂ h₂ => ?_
  refine (expression_tracks st₂).bind fun value id' st₃ h₃ hv => ?_
  refine .expect_bind (by decide) fun _ st₄ h₄ => ?_
  refine .span_bind (h₄.later.spanAt? (h₃.spanAt? (h₂.later.spanAt? ht.span))) ?_
  refine .alloc (.none st₄) (.of_push ?_)
  exact ((ht.laid.reads h₂).cons ((hv.laid.reads h₄).cons (.nil st₄))).push (.none st₄)

section Recovery

theorem skip_eq {stops : TokenKind → Bool} {drops : List Token → List Token}
    (hnil : drops [] = [])
    (hcons : ∀ t rest, drops (t :: rest) =
      if stops t.kind then t :: rest else if t.kind = .semicolon then rest else drops rest)
    {fuel : Nat} {st : Store} (hfuel : st.parser.rest.length ≤ fuel) :
    ∃ st', skip stops fuel st = .ok () st' ∧
      st'.parser = { st.parser with rest := drops st.parser.rest } ∧ Reads st st' := by
  induction fuel generalizing st with
  | zero =>
    have hrest := List.length_eq_zero_iff.mp (Nat.le_zero.mp hfuel)
    exact ⟨st, rfl, by rw [hrest, hnil, ← hrest], .refl st⟩
  | succ fuel ih =>
    have hskip : skip stops (fuel + 1) st =
        if st.cursor.peek.kind = .eof || stops st.cursor.peek.kind then .ok () st
        else (bump >>= fun _ =>
          if st.cursor.peek.kind = .semicolon then Pure.pure () else skip stops fuel) st :=
      apply_ite (fun p : Storing Unit => p st) _ _ _
    obtain ⟨heof, hrest⟩ | ⟨hne, hrest⟩ := st.parser_cases
    · refine ⟨st, ?_, by rw [hrest, hnil, ← hrest], .refl st⟩
      rw [hskip, heof]
      rfl
    · have hbump : bump st = .ok st.cursor.peek st.bump := rfl
      have hlength : st.bump.parser.rest.length ≤ fuel := by
        rw [hrest] at hfuel
        exact Nat.le_of_succ_le_succ hfuel
      rw [hskip, hrest, hcons]
      by_cases hstop : stops st.cursor.peek.kind = true
      · exact ⟨st, by simp [hstop], by rw [if_pos hstop, ← hrest], .refl st⟩
      · have hgo : ¬ (st.cursor.peek.kind = .eof || stops st.cursor.peek.kind) = true := by
          simp [hne, hstop]
        by_cases hsemicolon : st.cursor.peek.kind = .semicolon
        · refine ⟨st.bump, (if_neg hgo).trans ?_, ?_, .bump hne⟩
          · rw [bind_ok hbump, if_pos hsemicolon]
            rfl
          · rw [if_neg hstop, if_pos hsemicolon]
        · obtain ⟨st', hst', hparser, hreads⟩ := ih hlength
          refine ⟨st', (if_neg hgo).trans ?_, ?_, (Reads.bump hne).trans hreads⟩
          · rw [bind_ok hbump, if_neg hsemicolon, hst']
          · rw [if_neg hstop, if_neg hsemicolon, hparser]

def Recovers (recover : State → State → State) (recovery : Nat → Storing Unit) : Prop :=
  ∀ before st : Store, Moved before st → ∃ st', recovery before.cursor.index st = .ok () st' ∧
    st'.parser = recover before.parser st.parser ∧ Reads st st'

theorem recovers (drops : List Token → List Token) {recover : State → State → State}
    {keeps stops : TokenKind → Bool} (hnil : drops [] = [])
    (hcons : ∀ t rest, drops (t :: rest) =
      if stops t.kind then t :: rest else if t.kind = .semicolon then rest else drops rest)
    (hrecover : ∀ before after, recover before after =
      { after with
        rest := drops (if after.rest.length = before.rest.length ∧ keeps after.kind = false
          then after.rest.drop 1 else after.rest) }) :
    Recovers recover (Storing.recover keeps stops) := by
  intro before st hmoved
  have hstill : st.cursor.index = before.cursor.index ↔
      st.parser.rest.length = before.parser.rest.length := hmoved.still
  have hright : Storing.recover keeps stops before.cursor.index st =
      if st.cursor.index = before.cursor.index &&
          !(st.cursor.peek.kind = .eof || keeps st.cursor.peek.kind) then
        skip stops st.bump.parser.rest.length st.bump
      else skip stops st.parser.rest.length st :=
    apply_ite (fun p : Storing Unit => p st) _ _ _
  rw [hright, hrecover, st.parser_kind]
  obtain ⟨st', hst', hparser, hreads⟩ := skip_eq hnil hcons (Nat.le_refl st.parser.rest.length)
  obtain ⟨heof, hrest⟩ | ⟨hne, hrest⟩ := st.parser_cases
  · refine ⟨st', ?_, ?_, hreads⟩
    · rw [if_neg (by simp [heof]), hst']
    · rw [hparser, hrest, List.drop_nil, ite_self]
  · by_cases hlost : st.parser.rest.length = before.parser.rest.length ∧
        keeps st.cursor.peek.kind = false
    · obtain ⟨st', hst', hparser, hreads⟩ :=
        skip_eq hnil hcons (Nat.le_refl st.bump.parser.rest.length)
      refine ⟨st', ?_, ?_, (Reads.bump hne).trans hreads⟩
      · rw [if_pos (by simp [hne, hstill, hlost]), hst']
      · rw [hparser, if_pos hlost, hrest]
        rfl
    · refine ⟨st', ?_, ?_, hreads⟩
      · rw [if_neg (by simpa [hne, hstill] using hlost), hst']
      · rw [hparser, if_neg hlost]

theorem recoverStatement_recovers : Recovers Parser.recoverStatement recoverStatement :=
  recovers skipStatement rfl (fun t rest => by simp [skipStatement])
    fun before after => by simp [Parser.recoverStatement]

theorem recoverDeclaration_recovers :
    Recovers Parser.recoverDeclaration recoverDeclaration :=
  recovers skipDeclaration rfl (fun _ _ => rfl)
    fun before after => by simp [Parser.recoverDeclaration]

end Recovery

/-- What was stored for an item that could not be read belongs to no tree, but the problem has been
reported. -/
theorem Tracks.orRecover {α : Type} {p : Parser (List α)} {q : Storing (List Nat)} {st : Store}
    {done : List α → List Nat → Store → Prop} {recover : State → State → State}
    {recovery : Nat → Storing Unit} (h : Tracks p q st done) (hrec : Recovers recover recovery)
    (hd : ∀ st', Later st st' → ¬ st'.Clean → done [] [] st') :
    Tracks (Parser.orRecover p [] recover) (orRecover q recovery) st done := by
  cases h with
  | ok a ids st' left right later h =>
    exact .ok a ids st' (by simp [Parser.orRecover, left]) (by simp [Storing.orRecover, right])
      later h
  | error d st' left right later =>
    have hreported := later.trans (Reads.record st' d).later
    obtain ⟨st'', hrecovery, hparser, hreads⟩ := hrec st (st'.record d) hreported.moved
    have hclean : ¬ st''.Clean := fun hc => by
      simpa [Store.Clean, Store.record] using hreads.clean hc
    have hlater := hreported.trans hreads.later
    have hleft : Parser.orRecover p [] recover st.parser = .ok [] st''.parser := by
      rw [hparser]
      simp only [Parser.orRecover, left]
      rfl
    have hright : Storing.orRecover q recovery st = .ok [] st'' := by
      simp only [Storing.orRecover, right]
      exact bind_ok hrecovery
    exact .ok [] [] st'' hleft hright hlater (hd st'' hlater hclean)

theorem Laid.statements {body rest : List Stmt} {ids ids' : List Nat} {st st' st'' : Store}
    (h : Laid st (Arena.addStmts body) ids st') (k : Laid st' (Arena.addStmts rest) ids' st'') :
    Laid st (Arena.addStmts (body ++ rest)) (ids ++ ids') st'' := by
  refine ⟨h.later.trans k.later, fun hc => ?_⟩
  rw [Arena.addStmts_append, h.nodes (k.later.clean hc), k.nodes hc]

section Statement

variable {statement : Parser Stmt} {statement' : Storing Nat}
  (hst : Stores statement statement' Arena.addStmt Stmt.span)

include hst

theorem blockItem_tracks (st : Store) :
    Tracks (Parser.blockItem statement) (blockItem statement') st
      (fun found ids st' => Laid st (Arena.addStmts found) ids st') := by
  refine .peek_bind ?_
  split
  · exact (variableDeclaration_tracks st).map fun _ _ _ h => h
  · exact (hst st).bind fun s id st₁ _ hs => .pure (hs.laid.cons (.nil st₁))

theorem blockItems_tracks (fuel : Nat) (st : Store) :
    Tracks (Parser.blockItems statement fuel) (blockItems statement' fuel) st
      (fun body ids st' => Laid st (Arena.addStmts body) ids st') := by
  induction fuel generalizing st with
  | zero => exact .pure (.nil st)
  | succ fuel ih =>
    have hitem : Tracks (Parser.orRecover (Parser.blockItem statement) [] Parser.recoverStatement)
        (orRecover (blockItem statement') recoverStatement) st
        (fun found ids st' => Laid st (Arena.addStmts found) ids st') :=
      (blockItem_tracks hst st).orRecover recoverStatement_recovers fun _ => .of_reported
    apply Tracks.peek_bind
    cases hk : st.parser.kind with
    | rightBrace => exact .pure (.nil st)
    | eof => exact .pure (.nil st)
    | _ =>
      refine hitem.bind fun found ids st₁ _ hfound => ?_
      exact (ih st₁).bind fun body ids' st₂ _ hbody => .pure (hfound.statements hbody)

theorem block_tracks :
    Stores (Parser.block statement) (block statement') (fun r => Arena.addStmt (.block r.1 r.2))
      Prod.snd := by
  intro st
  refine .expect_bind (by decide) fun left st₁ h₁ => .remaining_bind ?_
  refine (blockItems_tracks hst _ st₁).bind fun body ids st₂ _ hbody => ?_
  refine .expect_bind (by decide) fun right st₃ h₃ => ?_
  refine .alloc (.none st₃) (.of_push ?_)
  exact ((hbody.reads h₃).push (.none st₃)).after h₁

theorem branch_tracks :
    Stores (Parser.branch statement) (branch statement') Arena.addStmt Stmt.span := by
  intro st
  refine .expect_bind (by decide) fun keyword st₁ h₁ => ?_
  refine (parenthesized_tracks st₁).bind fun test c st₂ _ htest => ?_
  refine (hst st₂).bind fun body b st₃ _ hbody => ?_
  refine .accept_bind (by decide) fun found st₄ h₄ => ?_
  cases found with
  | false =>
    refine .span_bind (h₄.later.spanAt? hbody.span) (.alloc (.none st₄) (.of_push ?_))
    exact ((htest.laid.cons ((hbody.laid.reads h₄).cons (.nil st₄))).push (.none st₄)).after h₁
  | true =>
    refine (hst st₄).bind fun other o st₅ _ hother => ?_
    refine .span_bind hother.span (.alloc (.none st₅) (.of_push ?_))
    have hboth := (hbody.laid.reads h₄).cons (hother.laid.cons (.nil st₅))
    exact ((htest.laid.cons hboth).push (.none st₅)).after h₁

theorem loop_tracks : Stores (Parser.loop statement) (loop statement') Arena.addStmt Stmt.span := by
  intro st
  refine .expect_bind (by decide) fun keyword st₁ h₁ => ?_
  refine (parenthesized_tracks st₁).bind fun test c st₂ _ htest => ?_
  refine (hst st₂).bind fun body b st₃ _ hbody => ?_
  refine .span_bind hbody.span (.alloc (.none st₃) (.of_push ?_))
  exact ((htest.laid.cons (hbody.laid.cons (.nil st₃))).push (.none st₃)).after h₁

end Statement

theorem statementAt_tracks (fuel : Nat) :
    Stores (Parser.statementAt fuel) (statementAt fuel) Arena.addStmt Stmt.span := by
  induction fuel with
  | zero => exact fun st => .fail
  | succ fuel ih =>
    intro st
    apply Tracks.peek_bind
    cases hk : st.parser.kind with
    | leftBrace => exact (block_tracks ih st).map fun _ _ _ h => h
    | ifKeyword => exact branch_tracks ih st
    | whileKeyword => exact loop_tracks ih st
    | semicolon =>
      refine .expect_bind (by decide) fun t st₁ h₁ => ?_
      exact .alloc (.none st₁) (.of_push (((Laid.nil st₁).push (.none st₁)).after h₁))
    | identifier =>
      refine .peekSecond_bind (by rw [hk]; decide) ?_
      split
      · exact call_tracks st
      · exact assignment_tracks st
    | _ => exact .fail

theorem function_tracks :
    Stores Parser.function function (fun f => Arena.addDeclaration (.function f))
      FunctionDef.span := by
  intro st
  refine .expect_bind (by decide) fun keyword st₁ h₁ => ?_
  refine (expectName_tracks st₁).bind ?_
  rintro t _ st₂ - ⟨x, rfl, hx, h₂⟩
  refine .expect_bind (by decide) fun _ st₃ h₃ => ?_
  refine .expect_bind (by decide) fun _ st₄ h₄ => .remaining_bind ?_
  refine (block_tracks (statementAt_tracks _) st₄).bind fun r b st₅ h₅ hbody => ?_
  have h := h₃.trans h₄
  have hx₅ := (hx.later h.later).later h₅
  refine .span_bind hbody.span (.alloc hx₅ (.of_push ?_))
  exact ((hbody.laid.cons (.nil st₅)).push hx₅).after (h₁.trans (h₂.trans h))

structure Rooted (st : Store) (p : Program) (ids : List Nat) (st' : Store) : Prop where
  later : Later st st'
  nodes : st'.Clean → ∀ roots, Arena.add p ⟨st.nodes, roots⟩ = ⟨st'.nodes, roots ++ ids⟩

namespace Rooted

variable {st st' st'' : Store} {p more : Program} {ids ids' : List Nat}

theorem nil (st : Store) : Rooted st [] [] st := ⟨.refl st, fun _ roots => by simp [Arena.add]⟩

theorem append (h : Rooted st p ids st') (k : Rooted st' more ids' st'') :
    Rooted st (p ++ more) (ids ++ ids') st'' := by
  refine ⟨h.later.trans k.later, fun hc roots => ?_⟩
  rw [Arena.add_append, h.nodes (k.later.clean hc), k.nodes hc, List.append_assoc]

theorem function {f : FunctionDef} {id : Nat}
    (h : Laid st (Arena.addDeclaration (.function f)) id st') :
    Rooted st [.function f] [id] st' :=
  ⟨h.later, fun hc roots => by simp [Arena.add, h.nodes hc]⟩

theorem globals {vs : List Variable} (h : Laid st (Arena.addStmts (vs.map .declare)) ids st') :
    Rooted st (vs.map .global) ids st' := by
  refine ⟨h.later, fun hc roots => ?_⟩
  have hadd := Arena.add_globals vs [] ⟨st.nodes, roots⟩
  rw [List.append_nil, h.nodes hc] at hadd
  exact hadd

end Rooted

theorem declaration_tracks (st : Store) :
    Tracks Parser.declaration declaration st (fun found ids st' => Rooted st found ids st') := by
  refine .peek_bind ?_
  split
  · exact (function_tracks st).bind fun f id st₁ _ hf => .pure (.function hf.laid)
  · split
    · exact (variableDeclaration_tracks st).map fun _ _ _ h => .globals h
    · exact .fail

theorem declarations_tracks (fuel : Nat) (st : Store) :
    Tracks (Parser.declarations fuel) (declarations fuel) st
      (fun p ids st' => Rooted st p ids st') := by
  induction fuel generalizing st with
  | zero => exact .pure (.nil st)
  | succ fuel ih =>
    have hitem : Tracks (Parser.orRecover Parser.declaration [] Parser.recoverDeclaration)
        (orRecover declaration recoverDeclaration) st
        (fun found ids st' => Rooted st found ids st') :=
      (declaration_tracks st).orRecover recoverDeclaration_recovers
        fun _ h hc => ⟨h, fun hc' => absurd hc' hc⟩
    refine .peek_bind ?_
    split
    · exact .pure (.nil st)
    · refine hitem.bind fun found ids st₁ _ hfound => ?_
      exact (ih st₁).bind fun p ids' st₂ _ hp => .pure (hfound.append hp)

theorem program_tracks (st : Store) :
    Tracks Parser.program program st (fun p ids st' => Rooted st p ids st') :=
  .remaining_bind (declarations_tracks _ st)

end Storing

namespace Storing

/-- What the parser that stores has found in the end is what the parser of trees gives: the same
names and the same diagnostics, and without diagnostics the nodes of the program. -/
structure Found (r : Parsed) (roots : List Nat) (st : Store) : Prop where
  symbols : st.symbols = r.symbols
  diagnostics : st.diagnostics = r.diagnostics
  arena : st.diagnostics = [] → r.program.arena = ⟨st.nodes, roots⟩
  interned : st.Interned
  finished : st.cursor.peek.kind = .eof

/-- The cursor runs through the whole list of tokens, and finds what the parser does. In
particular a number that is looked up has a node, also where something is reported. -/
theorem program_run (ts : List Token) :
    ∃ roots st, program (.ofTokens ts) = .ok roots st ∧ Found (parse ts) roots st := by
  have htracks := program_tracks (.ofTokens ts)
  obtain ⟨p, s, hp, hend, -⟩ := Parser.program_affords ts
  rw [← Store.parser_ofTokens] at hp
  cases htracks with
  | error d st left right later => cases hp.symm.trans left
  | ok q roots st left right later h =>
    have hparse : parse ts = ⟨q, st.symbols, st.diagnostics⟩ := by
      rw [parse, ← Store.parser_ofTokens, left]
      rfl
    rw [hparse]
    refine ⟨roots, st, right, rfl, rfl, fun hclean => ?_, ?_, ?_⟩
    · have hempty : (Store.ofTokens ts).nodes = #[] := by simp [Store.nodes, Store.ofTokens]
      have hadd := h.nodes hclean []
      rw [hempty, List.nil_append] at hadd
      exact hadd
    · exact later.interned fun c hc => absurd hc (Array.not_mem_empty c)
    · obtain ⟨-, rfl⟩ := EStateM.Result.ok.inj (hp.symm.trans left)
      obtain ⟨heof, -⟩ | ⟨-, hcons⟩ := st.parser_cases
      · exact heof
      · rw [hcons] at hend
        cases hend

end Storing

theorem parseStored_eq_some {ts : List Token} {p : Program} (hp : (parse ts).program? = some p) :
    ∃ cells : Array Storing.Cell,
      parseStored ts = some ⟨cells, p.arena.roots, (parse ts).symbols⟩ ∧
      cells.map Storing.Cell.toNode = p.arena.nodes ∧
      ∀ c ∈ cells, ∀ x ∈ c.symbol, x < (parse ts).symbols.size := by
  obtain ⟨roots, st, hrun, hfound⟩ := Storing.program_run ts
  unfold Parsed.program? at hp
  split at hp
  · next hclean =>
    obtain rfl := Option.some.inj hp
    rw [← hfound.diagnostics] at hclean
    rw [hfound.arena (List.isEmpty_iff.mp hclean), ← hfound.symbols]
    refine ⟨st.cells, ?_, rfl, hfound.interned⟩
    simp only [parseStored, hrun, hclean, if_true]
  · cases hp

theorem parseStored_eq_none {ts : List Token} (hp : (parse ts).program? = none) :
    parseStored ts = none := by
  obtain ⟨roots, st, hrun, hfound⟩ := Storing.program_run ts
  unfold Parsed.program? at hp
  split at hp
  · cases hp
  · next hreported =>
    rw [← hfound.diagnostics] at hreported
    simp only [parseStored, hrun, hreported, Bool.false_eq_true, if_false]

theorem parseStored_arena (ts : List Token) :
    (parseStored ts).map Stored.arena = (parse ts).program?.map Program.arena := by
  cases hp : (parse ts).program? with
  | none =>
    rw [parseStored_eq_none hp]
    rfl
  | some p =>
    obtain ⟨cells, hstored, hcells, -⟩ := parseStored_eq_some hp
    rw [hstored]
    exact congrArg (fun nodes => some (Arena.mk nodes p.arena.roots)) hcells

end C1Lang
