import C1Lang.Parser.Program
import C1Lang.Proofs.Relabeling.Basic
import C1Lang.Proofs.Sequencing

/-!
# Parsing under relabeling

The parser decides by the kinds of tokens and by the lexemes of numbers, which a relabeling keeps.
So relabeled tokens are parsed to the relabeled program, with the relabeled diagnostics
(`parse_relabeled`).
-/

namespace C1Lang

namespace Relabeling

variable (T : Relabeling)

def symbols (t : SymbolTable) : SymbolTable := ⟨t.names.map T.name⟩

def reader (s : Parser.State) : Parser.State :=
  ⟨s.rest.map T.token, T.span s.stop, T.symbols s.symbols, s.diagnostics.map T.diagnostic⟩

def named (t : Token) : Token := ⟨t.kind, T.name t.lexeme, T.span t.span⟩

theorem token_eq_named {t : Token} (h : t.kind = .identifier) : T.token t = T.named t := by
  simp [token, named, h]

theorem symbols_lookup (t : SymbolTable) (x : String) :
    (T.symbols t).lookup (T.name x) = t.lookup x := by
  have heq : (fun y => T.name y == T.name x) = (· == x) := by
    funext y
    simp [T.injective.eq_iff]
  simp [symbols, SymbolTable.lookup, List.findIdx?_map, Function.comp_def, heq]

theorem symbols_mention (t : SymbolTable) (x : String) :
    (T.symbols t).mention (T.name x) = T.symbols (t.mention x) := by
  simp only [SymbolTable.mention, SymbolTable.intern, symbols_lookup]
  cases t.lookup x with
  | some id => rfl
  | none => simp [symbols]

@[simp] theorem reader_kind (s : Parser.State) : (T.reader s).kind = s.kind := by
  obtain ⟨rest, stop, symbols, diagnostics⟩ := s
  cases rest <;> rfl

@[simp] theorem reader_span (s : Parser.State) : (T.reader s).span = T.span s.span := by
  obtain ⟨rest, stop, symbols, diagnostics⟩ := s
  cases rest <;> rfl

@[simp] theorem reader_length (s : Parser.State) :
    (T.reader s).rest.length = s.rest.length := by
  simp [reader]

/-- Where `p` reads tokens, `p'` reads the relabeled ones and gives the image of the result. -/
abbrev Reads {α β : Type} (g : α → β) (p : Parser α) (p' : Parser β) : Prop :=
  Mirrored T.diagnostic T.reader g p p'

end Relabeling

namespace Parser

open Relabeling

variable {T : Relabeling}

theorem fail_reads {α β : Type} {g : α → β} {problem : Problem}
    (hp : T.problem problem = problem) :
    T.Reads g (fail problem) (fail problem) := by
  intro s
  refine .get_bind ?_
  have hd : (⟨problem, (T.reader s).span⟩ : Diagnostic) = T.diagnostic ⟨problem, s.span⟩ := by
    rw [reader_span, diagnostic, hp]
  exact Mirrored.throw hd s

theorem peek_reads : T.Reads id peek peek := by
  intro s
  show peek (T.reader s) = .ok s.kind (T.reader s)
  rw [← reader_kind T s]
  rfl

theorem peekSecond_reads : T.Reads id peekSecond peekSecond := by
  intro s
  obtain ⟨rest, stop, symbols, diagnostics⟩ := s
  match rest with
  | [] => rfl
  | [_] => rfl
  | _ :: _ :: _ => rfl

theorem remaining_reads : T.Reads id remaining remaining := by
  intro s
  show remaining (T.reader s) = .ok s.rest.length (T.reader s)
  rw [← reader_length T s]
  rfl

theorem advance_reads : T.Reads id advance advance := by
  intro s
  refine .modify ?_
  simp [reader]

theorem accept?_reads (kind : TokenKind) :
    T.Reads (Option.map T.token) (accept? kind) (accept? kind) := by
  intro s
  obtain ⟨rest, stop, symbols, diagnostics⟩ := s
  refine .get_bind ?_
  cases rest with
  | nil => rfl
  | cons t rest =>
    by_cases hk : t.kind = kind
    · simp only [reader, List.map_cons, token_kind, hk, if_true]
      rfl
    · simp only [reader, List.map_cons, token_kind, hk, if_false]
      rfl

theorem accept_reads (kind : TokenKind) : T.Reads id (accept kind) (accept kind) :=
  (accept?_reads kind).bind fun t => .pure (by simp)

theorem expect_reads (kind : TokenKind) : T.Reads T.token (expect kind) (expect kind) := by
  refine (accept?_reads kind).bind fun t => ?_
  cases t with
  | none => exact fail_reads rfl
  | some t => exact .pure rfl

theorem accept?_kind {kind : TokenKind} {t : Token} {s s' : State}
    (h : accept? kind s = .ok (some t) s') : t.kind = kind := by
  obtain ⟨rest, stop, symbols, diagnostics⟩ := s
  unfold accept? at h
  rw [get_bind] at h
  cases rest with
  | nil => cases h
  | cons u rest =>
    by_cases hk : u.kind = kind
    · simp only [hk, if_true] at h
      cases h
      exact hk
    · simp only [hk, if_false] at h
      cases h

theorem expect_kind {kind : TokenKind} {t : Token} {s s' : State}
    (h : expect kind s = .ok t s') : t.kind = kind := by
  obtain ⟨found, s₁, hfound, hnext⟩ := bind_eq_ok h
  cases found with
  | none => cases hnext
  | some u =>
    cases hnext
    exact accept?_kind hfound

theorem expectName_reads : T.Reads T.named expectName expectName := by
  have hmention : ∀ t : Token, T.Reads id
      (modify fun s : State => { s with symbols := s.symbols.mention t.lexeme })
      (modify fun s : State => { s with symbols := s.symbols.mention (T.named t).lexeme }) := by
    intro t s
    refine .modify ?_
    simp [reader, named, symbols_mention]
  have hnext : ∀ t : Token, T.Reads T.named
      (do
        modify fun s : State => { s with symbols := s.symbols.mention t.lexeme }
        return t)
      (do
        modify fun s : State => { s with symbols := s.symbols.mention (T.named t).lexeme }
        return T.named t) := fun t => (hmention t).bind fun _ => .pure rfl
  intro s
  have hread := expect_reads (T := T) .identifier s
  unfold Mirrors at hread ⊢
  cases hstep : expect .identifier s with
  | error d s₁ =>
    rw [hstep] at hread
    simp only [expectName]
    rw [bind_error hread, bind_error hstep]
    rfl
  | ok t s₁ =>
    rw [hstep, mapOutcome, token_eq_named T (expect_kind hstep)] at hread
    simp only [expectName]
    rw [bind_ok hread, bind_ok hstep]
    exact hnext t s₁

theorem place_reads {inner : Parser Expr} (hi : T.Reads T.expr inner inner) :
    T.Reads T.place (place inner) (place inner) := by
  refine expectName_reads.bind fun name => (accept_reads _).bind fun b => .ite ?_ (.pure rfl)
  refine hi.bind fun index => (expect_reads _).bind fun close => .pure ?_
  simp only [Relabeling.place, T.merge]
  rfl

theorem minLiteral?_relabeled (sign : Token) (rest : List Token) :
    minLiteral? (T.token sign) (rest.map T.token) =
      (minLiteral? sign rest).map (Prod.map T.expr (List.map T.token)) := by
  cases rest with
  | nil => rfl
  | cons t rest =>
    by_cases hk : t.kind = .int
    · have hl := token_lexeme_of_ne T (t := t) (by simp [hk])
      cases hm : Number.isMinMagnitude t.lexeme with
      | true => simp [minLiteral?, hk, hl, hm, T.merge, Relabeling.expr]
      | false => simp [minLiteral?, hl, hm]
    · simp [minLiteral?, hk]

theorem signed_reads {inner : Nat → Parser Expr} (hi : ∀ n, T.Reads T.expr (inner n) (inner n))
    (op : UnaryOp) (sign : Token) :
    T.Reads T.expr (signed inner op sign) (signed inner op (T.token sign)) := by
  refine (hi _).bind fun e => .pure ?_
  simp [Relabeling.expr, T.merge]

theorem integerLiteral_reads {t : Token} (hk : t.kind ≠ .identifier) :
    T.Reads T.expr (integerLiteral t) (integerLiteral (T.token t)) := by
  unfold integerLiteral
  rw [token_lexeme_of_ne T hk]
  cases Number.literal? t.lexeme with
  | some n => exact .pure rfl
  | none => exact .throw rfl

theorem floatLiteral_reads {t : Token} (hk : t.kind ≠ .identifier) :
    T.Reads T.expr (floatLiteral t) (floatLiteral (T.token t)) := by
  unfold floatLiteral
  rw [token_lexeme_of_ne T hk]
  cases Number.readDouble? t.lexeme with
  | some x => exact .pure rfl
  | none => exact .throw rfl

theorem operand_reads {inner : Nat → Parser Expr}
    (hi : ∀ n, T.Reads T.expr (inner n) (inner n)) :
    T.Reads T.expr (operand inner) (operand inner) := by
  intro s
  obtain ⟨rest, stop, symbols, diagnostics⟩ := s
  refine .get_bind ?_
  cases rest with
  | nil => exact fail_reads rfl _
  | cons t rest =>
    cases hk : t.kind <;> simp only [reader, List.map_cons, token_kind, hk]
    case plus => exact Mirrored.bind advance_reads (fun _ => signed_reads hi _ t) _
    case minus =>
      rw [minLiteral?_relabeled]
      cases minLiteral? t rest with
      | none => exact Mirrored.bind advance_reads (fun _ => signed_reads hi _ t) _
      | some found => rfl
    case leftParen =>
      refine Mirrored.bind advance_reads (fun _ => (hi 0).bind fun e => ?_) _
      exact (expect_reads _).bind fun _ => .pure rfl
    case int =>
      have hne : t.kind ≠ .identifier := by simp [hk]
      rw [token_lexeme_of_ne T hne]
      split
      · exact fail_reads rfl _
      · exact Mirrored.bind advance_reads (fun _ => integerLiteral_reads hne) _
    case hex =>
      exact Mirrored.bind advance_reads (fun _ => integerLiteral_reads (by simp [hk])) _
    case float =>
      exact Mirrored.bind advance_reads (fun _ => floatLiteral_reads (by simp [hk])) _
    case identifier =>
      have hread : ∀ p : Place, T.Reads T.expr (pure p.toExpr) (pure (T.place p).toExpr) :=
        fun p => .pure (place_toExpr T p)
      exact Mirrored.bind (place_reads (hi 0)) hread _
    all_goals exact fail_reads rfl _

theorem climb_reads {inner : Nat → Parser Expr} (hi : ∀ n, T.Reads T.expr (inner n) (inner n))
    (least fuel : Nat) (left : Expr) :
    T.Reads T.expr (climb inner least fuel left) (climb inner least fuel (T.expr left)) := by
  induction fuel generalizing left with
  | zero => exact .pure rfl
  | succ fuel ih =>
    refine peek_reads.bind fun kind => ?_
    dsimp only [id]
    cases binaryOp? kind with
    | none => exact .pure rfl
    | some op =>
      refine .ite (.pure rfl) (advance_reads.bind fun _ => (hi _).bind fun right => ?_)
      have hnode := ih (.binary op left right (left.span.merge right.span))
      simpa only [Relabeling.expr, T.merge, expr_span] using hnode

theorem expressionAt_reads (depth least : Nat) :
    T.Reads T.expr (expressionAt depth least) (expressionAt depth least) := by
  induction depth generalizing least with
  | zero => exact fail_reads rfl
  | succ depth ih =>
    refine (operand_reads ih).bind fun left => ?_
    exact remaining_reads.bind fun fuel => climb_reads ih least fuel left

theorem expression_reads : T.Reads T.expr expression expression := expressionAt_reads _ _

theorem condition_reads : T.Reads T.condition condition condition := by
  refine expression_reads.bind fun left => peek_reads.bind fun kind => ?_
  dsimp only [id]
  cases relation? kind with
  | none => exact fail_reads rfl
  | some relation =>
    refine advance_reads.bind fun _ => expression_reads.bind fun right => .pure ?_
    simp [Relabeling.condition, T.merge]

theorem parenthesized_reads : T.Reads T.condition parenthesized parenthesized :=
  (expect_reads _).bind fun _ => condition_reads.bind fun _ => (expect_reads _).bind fun _ =>
    .pure rfl

theorem moreElements_reads (fuel : Nat) :
    T.Reads (List.map T.expr) (moreElements fuel) (moreElements fuel) := by
  induction fuel with
  | zero => exact .pure rfl
  | succ fuel ih =>
    refine (accept_reads _).bind fun b => .ite (peek_reads.bind fun kind => .ite (.pure rfl) ?_)
      (.pure rfl)
    exact expression_reads.bind fun e => ih.bind fun es => .pure rfl

theorem braceList_reads :
    T.Reads (Prod.map (List.map T.expr) T.token) braceList braceList := by
  refine (expect_reads _).bind fun _ => (accept?_reads _).bind fun close => ?_
  cases close with
  | some close => exact .pure rfl
  | none =>
    refine expression_reads.bind fun first => remaining_reads.bind fun fuel => ?_
    exact (moreElements_reads fuel).bind fun more => (expect_reads _).bind fun close => .pure rfl

def relabelBrackets (T : Relabeling) : Brackets → Brackets
  | .absent => .absent
  | .unstated => .unstated
  | .length e => .length (T.expr e)

theorem brackets_reads (name : Token) :
    T.Reads (Prod.map (relabelBrackets T) T.span) (brackets name) (brackets (T.named name)) := by
  refine (accept_reads _).bind fun b => .ite (peek_reads.bind fun kind => .ite ?_ ?_) (.pure rfl)
  · exact (expect_reads _).bind fun close => .pure rfl
  · exact expression_reads.bind fun e => (expect_reads _).bind fun close => .pure rfl

theorem initializer_reads (isArray : Bool) :
    T.Reads (Prod.map (List.map T.expr) T.span) (initializer isArray) (initializer isArray) := by
  refine peek_reads.bind fun kind => .ite (.ite ?_ (fail_reads rfl)) (.ite (fail_reads rfl) ?_)
  · exact braceList_reads.bind fun found => .pure rfl
  · refine expression_reads.bind fun value => .pure ?_
    simp

theorem declarator_reads (start : Span) (kind : Kind) (constant : Bool) :
    T.Reads T.declared (declarator start kind constant) (declarator (T.span start) kind constant)
    := by
  refine expectName_reads.bind fun name => (brackets_reads name).bind fun found => ?_
  obtain ⟨found, bracketSpan⟩ := found
  refine (accept_reads _).bind fun b => .ite ?_ (.ite (.throw ?_) ?_)
  · cases found with
    | absent =>
      refine (initializer_reads _).bind fun values => .pure ?_
      simp [declared, T.merge, named, relabelBrackets]
    | unstated =>
      refine (initializer_reads _).bind fun values => .pure ?_
      simp [declared, T.merge, named, relabelBrackets, extent]
    | length e =>
      refine (initializer_reads _).bind fun values => .pure ?_
      simp [declared, T.merge, named, relabelBrackets, extent]
  · simp [diagnostic, T.merge, problem]
  · cases found with
    | absent =>
      refine .pure ?_
      simp [declared, T.merge, named]
    | unstated => exact .throw rfl
    | length e =>
      refine .pure ?_
      simp [declared, T.merge, named, extent]

theorem moreDeclarators_reads (start : Span) (kind : Kind) (constant : Bool) (fuel : Nat) :
    T.Reads (List.map T.declared) (moreDeclarators start kind constant fuel)
      (moreDeclarators (T.span start) kind constant fuel) := by
  induction fuel with
  | zero => exact .pure rfl
  | succ fuel ih =>
    refine (accept_reads _).bind fun b => .ite ?_ (.pure rfl)
    exact (declarator_reads start kind constant).bind fun v => ih.bind fun vs => .pure rfl

theorem variableDeclaration_reads :
    T.Reads (List.map T.declared) variableDeclaration variableDeclaration := by
  intro s
  refine .get_bind ?_
  rw [reader_span]
  refine Mirrored.bind (accept_reads _) (fun constant => peek_reads.bind fun kind => ?_) s
  dsimp only [id]
  cases kindOf? kind with
  | none => exact fail_reads rfl
  | some kind =>
    refine advance_reads.bind fun _ => (declarator_reads _ kind constant).bind fun first => ?_
    refine remaining_reads.bind fun fuel => (moreDeclarators_reads _ kind constant fuel).bind ?_
    exact fun more => (expect_reads _).bind fun _ => .pure rfl

theorem call_reads : T.Reads T.stmt call call := by
  refine expectName_reads.bind fun name => (expect_reads _).bind fun _ => ?_
  refine (expect_reads _).bind fun _ => (expect_reads _).bind fun close => .pure ?_
  simp [stmt, T.merge, named]

theorem assignment_reads : T.Reads T.stmt assignment assignment := by
  refine (place_reads expression_reads).bind fun target => (expect_reads _).bind fun _ => ?_
  refine expression_reads.bind fun value => (expect_reads _).bind fun close => .pure ?_
  simp [stmt, T.merge]

theorem orRecover_reads {α β : Type} {g : α → β} {p : Parser α} {p' : Parser β}
    {recover : State → State → State} (default : α) (hp : T.Reads g p p')
    (hr : ∀ s s', recover (T.reader s) (T.reader s') = T.reader (recover s s')) :
    T.Reads g (orRecover p default recover) (orRecover p' (g default) recover) := by
  intro s
  have hstep := hp s
  unfold Mirrors at hstep ⊢
  simp only [orRecover]
  rw [hstep]
  cases p s with
  | ok a s' => rfl
  | error d s' =>
    have hrecord : (T.reader s').record (T.diagnostic d) = T.reader (s'.record d) := by
      simp [State.record, reader]
    simp only [mapOutcome, hrecord, hr]

theorem skipStatement_relabeled (ts : List Token) :
    skipStatement (ts.map T.token) = (skipStatement ts).map T.token := by
  induction ts with
  | nil => rfl
  | cons t rest ih =>
    simp only [List.map_cons, skipStatement, token_kind, ih, apply_ite (List.map T.token)]
    rfl

theorem skipDeclaration_relabeled (ts : List Token) :
    skipDeclaration (ts.map T.token) = (skipDeclaration ts).map T.token := by
  induction ts with
  | nil => rfl
  | cons t rest ih =>
    simp only [List.map_cons, skipDeclaration, token_kind, ih, apply_ite (List.map T.token)]

theorem recoverStatement_relabeled (s s' : State) :
    recoverStatement (T.reader s) (T.reader s') = T.reader (recoverStatement s s') := by
  simp only [recoverStatement, reader_length, reader_kind]
  split <;> simp [reader, ← skipStatement_relabeled, List.map_tail]

theorem recoverDeclaration_relabeled (s s' : State) :
    recoverDeclaration (T.reader s) (T.reader s') = T.reader (recoverDeclaration s s') := by
  simp only [recoverDeclaration, reader_length]
  split <;> simp [reader, ← skipDeclaration_relabeled, List.map_tail]

section Blocks

variable {statement : Parser Stmt}

theorem blockItem_reads (hs : T.Reads T.stmt statement statement) :
    T.Reads (List.map T.stmt) (blockItem statement) (blockItem statement) := by
  refine peek_reads.bind fun kind => .ite ?_ (hs.bind fun st => .pure rfl)
  refine variableDeclaration_reads.bind fun vs => .pure ?_
  simp [stmt]

theorem blockItems_reads (hs : T.Reads T.stmt statement statement) (fuel : Nat) :
    T.Reads (List.map T.stmt) (blockItems statement fuel) (blockItems statement fuel) := by
  induction fuel with
  | zero => exact .pure rfl
  | succ fuel ih =>
    have hitem : T.Reads (List.map T.stmt)
        (do
          let found ← orRecover (blockItem statement) [] recoverStatement
          return found ++ (← blockItems statement fuel))
        (do
          let found ← orRecover (blockItem statement) [] recoverStatement
          return found ++ (← blockItems statement fuel)) := by
      refine (orRecover_reads [] (blockItem_reads hs) recoverStatement_relabeled).bind ?_
      exact fun found => ih.bind fun rest => .pure (by simp)
    refine peek_reads.bind fun kind => ?_
    cases kind <;> first | exact .pure rfl | exact hitem

theorem block_reads (hs : T.Reads T.stmt statement statement) :
    T.Reads (Prod.map (List.map T.stmt) T.span) (block statement) (block statement) := by
  refine (expect_reads _).bind fun left => remaining_reads.bind fun fuel => ?_
  refine (blockItems_reads hs fuel).bind fun body => (expect_reads _).bind fun right => .pure ?_
  simp [T.merge]

theorem branch_reads (hs : T.Reads T.stmt statement statement) :
    T.Reads T.stmt (branch statement) (branch statement) := by
  refine (expect_reads _).bind fun keyword => parenthesized_reads.bind fun test => ?_
  refine hs.bind fun body => (accept_reads _).bind fun b => .ite (hs.bind fun other => .pure ?_)
    (.pure ?_)
  · simp [stmt, T.merge]
  · simp [stmt, T.merge]

theorem loop_reads (hs : T.Reads T.stmt statement statement) :
    T.Reads T.stmt (loop statement) (loop statement) := by
  refine (expect_reads _).bind fun keyword => parenthesized_reads.bind fun test => ?_
  refine hs.bind fun body => .pure ?_
  simp [stmt, T.merge]

end Blocks

theorem statementAt_reads (fuel : Nat) :
    T.Reads T.stmt (statementAt fuel) (statementAt fuel) := by
  induction fuel with
  | zero => exact fail_reads rfl
  | succ fuel ih =>
    refine peek_reads.bind fun kind => ?_
    cases kind
    case leftBrace =>
      refine (block_reads ih).bind fun found => .pure ?_
      simp [stmt, stmts_eq_map]
    case ifKeyword => exact branch_reads ih
    case whileKeyword => exact loop_reads ih
    case semicolon =>
      refine (expect_reads _).bind fun t => .pure ?_
      simp [stmt]
    case identifier => exact peekSecond_reads.bind fun next => .ite call_reads assignment_reads
    all_goals exact fail_reads rfl

theorem function_reads : T.Reads T.function function function := by
  refine (expect_reads _).bind fun keyword => expectName_reads.bind fun name => ?_
  refine (expect_reads _).bind fun _ => (expect_reads _).bind fun _ => ?_
  refine remaining_reads.bind fun fuel => (block_reads (statementAt_reads fuel)).bind ?_
  refine fun found => .pure ?_
  simp [Relabeling.function, T.merge, stmts_eq_map, named]

theorem declaration_reads :
    T.Reads (List.map T.declaration) declaration declaration := by
  refine peek_reads.bind fun kind => .ite ?_ (.ite ?_ (fail_reads rfl))
  · exact function_reads.bind fun f => .pure rfl
  · refine variableDeclaration_reads.bind fun vs => .pure ?_
    simp [Relabeling.declaration]

theorem declarations_reads (fuel : Nat) : T.Reads T.program (declarations fuel) (declarations fuel)
    := by
  induction fuel with
  | zero => exact .pure rfl
  | succ fuel ih =>
    refine peek_reads.bind fun kind => .ite (.pure rfl) ?_
    refine (orRecover_reads [] declaration_reads recoverDeclaration_relabeled).bind fun found => ?_
    exact ih.bind fun rest => .pure (by simp [Relabeling.program])

theorem program_reads : T.Reads T.program program program :=
  remaining_reads.bind fun fuel => declarations_reads fuel

end Parser

namespace Relabeling

variable (T : Relabeling)

def parsed (p : Parsed) : Parsed :=
  ⟨T.program p.program, T.symbols p.symbols, p.diagnostics.map T.diagnostic⟩

end Relabeling

open Relabeling in
/-- Tokens that are read as the relabeled ones are parsed to the relabeled program. -/
theorem parse_relabeled {T : Relabeling} {ts ts' : List Token}
    (h : Parser.State.ofTokens ts' = T.reader (Parser.State.ofTokens ts)) :
    parse ts' = T.parsed (parse ts) := by
  have hread := Parser.program_reads (T := T) (Parser.State.ofTokens ts)
  unfold Mirrors at hread
  unfold parse
  rw [h, hread]
  cases Parser.program (Parser.State.ofTokens ts) with
  | ok p s => rfl
  | error d s => simp [mapOutcome, reader, parsed, Relabeling.program]

end C1Lang
