import C1Lang.Proofs.Parser.Completeness

/-!
# What parsing costs

A parser pays for what it leaves behind with the tokens that it reads. A diagnostic that it
recorded and a name that it mentioned are charged to a token each, and one token more than there
are diagnostics was read whenever there are any, so that the error with which a parser stops can
still be paid for (`Spends`). A parser that succeeds has mentioned the names of its result.
-/

namespace C1Lang

def Expr.names : Expr → List String
  | literal _ _ => []
  | binary _ left right _ => left.names ++ right.names
  | unary _ operand _ => operand.names
  | name x _ => [x]
  | element x index _ => x :: index.names

def Place.names (p : Place) : List String := p.toExpr.names

def Condition.names (c : Condition) : List String := c.left.names ++ c.right.names

def Extent.names (extent : Extent) : List String := extent.length.names

def Variable.names (v : Variable) : List String :=
  v.name :: (v.extent.toList.flatMap Extent.names ++ v.initializers.flatMap Expr.names)

mutual

def Stmt.names : Stmt → List String
  | .declare v => v.names
  | .assign target value _ => target.names ++ value.names
  | .call name _ => [name]
  | .block body _ => Stmt.allNames body
  | .branch test body _ => test.names ++ body.names
  | .branchElse test body other _ => test.names ++ (body.names ++ other.names)
  | .loop test body _ => test.names ++ body.names
  | .empty _ => []

def Stmt.allNames : List Stmt → List String
  | [] => []
  | st :: rest => st.names ++ Stmt.allNames rest

end

def Declaration.names : Declaration → List String
  | function f => f.name :: Stmt.allNames f.body
  | global v => v.names

def Program.names (p : Program) : List String := p.flatMap Declaration.names

theorem Stmt.allNames_append (body rest : List Stmt) :
    Stmt.allNames (body ++ rest) = Stmt.allNames body ++ Stmt.allNames rest := by
  induction body with
  | nil => rfl
  | cons st body ih => simp [Stmt.allNames, ih]

theorem Stmt.allNames_declare (vs : List Variable) :
    Stmt.allNames (vs.map .declare) = vs.flatMap Variable.names := by
  induction vs with
  | nil => rfl
  | cons v vs ih => simp [Stmt.allNames, Stmt.names, ih]

namespace SymbolTable

/-- A name that was mentioned has a number, under which it is found again. -/
theorem lookup_of_mem {t : SymbolTable} {name : String} (h : name ∈ t.names) :
    ∃ id, t.lookup name = some id ∧ t.get? id = some name := by
  cases hid : t.lookup name with
  | none =>
    have hne := List.findIdx?_eq_none_iff.mp hid name h
    simp at hne
  | some id =>
    obtain ⟨hlt, heq, -⟩ := List.findIdx?_eq_some_iff_getElem.mp hid
    refine ⟨id, rfl, ?_⟩
    rw [get?, List.getElem?_eq_getElem hlt, eq_of_beq heq]

theorem mention_cases (t : SymbolTable) (name : String) :
    t.mention name = t ∧ name ∈ t.names ∨ (t.mention name).names = t.names ++ [name] := by
  unfold mention intern
  cases hid : t.lookup name with
  | none => exact .inr rfl
  | some id =>
    obtain ⟨hlt, heq, -⟩ := List.findIdx?_eq_some_iff_getElem.mp hid
    exact .inl ⟨rfl, eq_of_beq heq ▸ List.getElem_mem hlt⟩

theorem subset_mention (t : SymbolTable) (name : String) : t.names ⊆ (t.mention name).names := by
  rcases t.mention_cases name with ⟨h, -⟩ | h
  · rw [h]
    exact List.Subset.refl _
  · rw [h]
    exact List.subset_append_left _ _

theorem mem_mention (t : SymbolTable) (name : String) : name ∈ (t.mention name).names := by
  rcases t.mention_cases name with ⟨h, hmem⟩ | h
  · rw [h]
    exact hmem
  · rw [h]
    simp

theorem mention_size_le (t : SymbolTable) (name : String) :
    (t.mention name).size ≤ t.size + 1 := by
  unfold size
  rcases t.mention_cases name with ⟨h, -⟩ | h
  · rw [h]
    omega
  · simp [h]

end SymbolTable

namespace Parser

/-- From `s` to `s'` every diagnostic and every new name was paid for with a token. -/
structure Spends (s s' : State) : Prop where
  rest : s'.rest <:+ s.rest
  names : s.symbols.names ⊆ s'.symbols.names
  room : s'.symbols.size + s'.rest.length ≤ s.symbols.size + s.rest.length
  paid : s'.diagnostics.length = s.diagnostics.length ∨
    s'.diagnostics.length + s'.rest.length < s.diagnostics.length + s.rest.length

theorem Spends.refl (s : State) : Spends s s :=
  ⟨List.suffix_rfl, List.Subset.refl _, Nat.le_refl _, .inl rfl⟩

theorem Spends.trans {s s' s'' : State} (h : Spends s s') (k : Spends s' s'') : Spends s s'' := by
  have hlen := h.rest.length_le
  have hlen' := k.rest.length_le
  have hpaid := h.paid
  have hpaid' := k.paid
  exact ⟨k.rest.trans h.rest, List.Subset.trans h.names k.names, Nat.le_trans k.room h.room,
    by omega⟩

theorem Spends.of_suffix {s : State} {rest : List Token} (h : rest <:+ s.rest) :
    Spends s { s with rest } := by
  have hlen := h.length_le
  exact ⟨h, List.Subset.refl _, by dsimp only; omega, .inl rfl⟩

def Costs {α : Type} (p : Parser α) (s : State) (done : α → State → Prop) : Prop :=
  match p s with
  | .ok a s' => Spends s s' ∧ done a s'
  | .error _ s' => Spends s s'

namespace Costs

variable {α β : Type} {p : Parser α} {s : State} {done done' : α → State → Prop}

theorem mono (h : Costs p s done) (hd : ∀ a s', Spends s s' → done a s' → done' a s') :
    Costs p s done' := by
  unfold Costs at h ⊢
  split at h
  · exact ⟨h.1, hd _ _ h.1 h.2⟩
  · exact h

theorem pure {a : α} (h : done a s) : Costs (Pure.pure a) s done := ⟨.refl s, h⟩

theorem bind {f : α → Parser β} {done' : β → State → Prop} (h : Costs p s done)
    (hf : ∀ a s', Spends s s' → done a s' → Costs (f a) s' done') :
    Costs (p >>= f) s done' := by
  unfold Costs at h
  split at h
  · next a s' heq =>
    have hb := hf a s' h.1 h.2
    unfold Costs at hb ⊢
    rw [bind_ok heq]
    split at hb
    · exact ⟨h.1.trans hb.1, hb.2⟩
    · exact h.1.trans hb
  · next heq =>
    unfold Costs
    rw [bind_error heq]
    exact h

theorem get_bind {f : State → Parser β} {done' : β → State → Prop}
    (h : Costs (f s) s done') : Costs (get >>= f) s done' := h

theorem peek_bind {f : TokenKind → Parser β} {done' : β → State → Prop}
    (h : Costs (f s.kind) s done') : Costs (peek >>= f) s done' := h

theorem remaining_bind {f : Nat → Parser β} {done' : β → State → Prop}
    (h : Costs (f s.rest.length) s done') : Costs (remaining >>= f) s done' := h

theorem throw {d : Diagnostic} : Costs (MonadExcept.throw d : Parser α) s done := Spends.refl s

theorem fail {problem : Problem} : Costs (Parser.fail problem : Parser α) s done :=
  Spends.refl s

theorem of_eq {a : α} (s' : State) (hs : p s = .ok a s') (hp : Spends s s') (h : done a s') :
    Costs p s done := by
  unfold Costs
  rw [hs]
  exact ⟨hp, h⟩

theorem of_error {d : Diagnostic} (hs : p s = .error d s) : Costs p s done := by
  unfold Costs
  rw [hs]
  exact .refl s

theorem of_step {q : Parser α} {s' : State} (hs : p s = q s') (hp : Spends s s')
    (h : Costs q s' done) : Costs p s done := by
  unfold Costs at h ⊢
  rw [hs]
  split at h
  · exact ⟨hp.trans h.1, h.2⟩
  · exact hp.trans h

end Costs

theorem peek_eq (s : State) : peek s = .ok s.kind s := rfl

def Shorter (s s' : State) : Prop := s'.rest.length < s.rest.length

theorem Shorter.after {s s' s'' : State} (h : Shorter s s') (k : Spends s' s'') :
    Shorter s s'' := Nat.lt_of_le_of_lt k.rest.length_le h

theorem Shorter.before {s s' s'' : State} (h : Spends s s') (k : Shorter s' s'') :
    Shorter s s'' := Nat.lt_of_lt_of_le k h.rest.length_le

def Known (names : List String) (s : State) : Prop := names ⊆ s.symbols.names

theorem Known.nil (s : State) : Known [] s := List.nil_subset _

theorem Known.after {names : List String} {s s' : State} (h : Known names s) (k : Spends s s') :
    Known names s' := List.Subset.trans h k.names

theorem Known.append {names more : List String} {s : State} (h : Known names s)
    (k : Known more s) : Known (names ++ more) s := List.append_subset.mpr ⟨h, k⟩

theorem Known.cons {name : String} {names : List String} {s : State} (h : Known [name] s)
    (k : Known names s) : Known (name :: names) s := h.append k

structure Bought (names : List String) (s s' : State) : Prop where
  known : Known names s'
  shorter : Shorter s s'

theorem Bought.after {names : List String} {s s' s'' : State} (h : Bought names s s')
    (k : Spends s' s'') : Bought names s s'' := ⟨h.known.after k, h.shorter.after k⟩

theorem advance_costs {s : State} {t : Token} {ts : List Token} (hs : s.rest = t :: ts) :
    Costs advance s (fun _ s' => Shorter s s') := by
  have hrest : ts <:+ s.rest := hs ▸ List.suffix_cons t ts
  refine .of_eq _ (advance_eq hs) (.of_suffix hrest) ?_
  show ts.length < s.rest.length
  simp [hs]

theorem accept?_costs (kind : TokenKind) (s : State) :
    Costs (accept? kind) s (fun o s' => o.isSome = true → Shorter s s') := by
  apply Costs.get_bind
  split
  · exact .pure (fun h => by cases h)
  · next t ts hs =>
    split
    · refine .of_eq { s with rest := ts } rfl ?_ fun _ => ?_
      · exact .of_suffix (hs ▸ List.suffix_cons t ts)
      · show ts.length < s.rest.length
        simp [hs]
    · exact .pure (fun h => by cases h)

theorem accept_costs (kind : TokenKind) (s : State) :
    Costs (accept kind) s (fun b s' => b = true → Shorter s s') :=
  (accept?_costs kind s).bind fun _ _ _ h => .pure h

theorem expect_cases (kind : TokenKind) (s : State) :
    (∃ t ts, s.rest = t :: ts ∧ t.kind = kind ∧ expect kind s = .ok t { s with rest := ts }) ∨
      ∃ d, expect kind s = .error d s := by
  cases hs : s.rest with
  | nil => exact .inr ⟨_, bind_ok (accept?_nil hs kind)⟩
  | cons t ts =>
    have haccept := accept?_cons hs kind
    by_cases hk : t.kind = kind
    · rw [if_pos hk] at haccept
      exact .inl ⟨t, ts, rfl, hk, bind_ok haccept⟩
    · rw [if_neg hk] at haccept
      exact .inr ⟨_, bind_ok haccept⟩

theorem expect_costs (kind : TokenKind) (s : State) :
    Costs (expect kind) s (fun _ s' => Shorter s s') := by
  obtain ⟨t, ts, hs, -, heq⟩ | ⟨d, heq⟩ := expect_cases kind s
  · refine .of_eq _ heq (.of_suffix (hs ▸ List.suffix_cons t ts)) ?_
    show ts.length < s.rest.length
    simp [hs]
  · exact .of_error heq

theorem expectName_costs (s : State) :
    Costs expectName s (fun t s' => Bought [t.lexeme] s s') := by
  obtain ⟨t, ts, hs, -, heq⟩ | ⟨d, heq⟩ := expect_cases .identifier s
  · have hsize := s.symbols.mention_size_le t.lexeme
    have hlen : s.rest.length = ts.length + 1 := by simp [hs]
    refine .of_eq { s with rest := ts, symbols := s.symbols.mention t.lexeme } (bind_ok heq) ?_ ?_
    -- The table grows by one entry at most, and its token has been read.
    · exact ⟨hs ▸ List.suffix_cons t ts, s.symbols.subset_mention _, by dsimp only; omega, .inl rfl⟩
    · refine ⟨fun x hx => ?_, by show ts.length < s.rest.length; omega⟩
      rw [List.mem_singleton.mp hx]
      exact s.symbols.mem_mention _
  · exact .of_error (bind_error heq)

theorem place_costs {inner : Parser Expr}
    (hi : ∀ s, Costs inner s (fun e s' => Bought e.names s s')) (s : State) :
    Costs (place inner) s (fun p s' => Bought p.names s s') := by
  refine (expectName_costs s).bind fun t s₁ _ ht => ?_
  refine (accept_costs .leftBracket s₁).bind fun b s₂ h₂ _ => ?_
  cases b with
  | false => exact .pure (ht.after h₂)
  | true =>
    refine (hi s₂).bind fun i s₃ h₃ hi => ?_
    refine (expect_costs .rightBracket s₃).bind fun u s₄ h₄ _ => .pure ?_
    have hname := (ht.after h₂).after (h₃.trans h₄)
    exact ⟨hname.known.cons (hi.known.after h₄), hname.shorter⟩

theorem integerLiteral_costs (t : Token) (s : State) :
    Costs (integerLiteral t) s (fun e _ => e.names = []) := by
  unfold integerLiteral
  split
  · exact .pure rfl
  · exact .throw

theorem floatLiteral_costs (t : Token) (s : State) :
    Costs (floatLiteral t) s (fun e _ => e.names = []) := by
  unfold floatLiteral
  split
  · exact .pure rfl
  · exact .throw

theorem Costs.literal {p : Parser Expr} {s : State} {t : Token} {ts : List Token}
    (hs : s.rest = t :: ts) (hp : ∀ s', Costs p s' (fun e _ => e.names = [])) :
    Costs (advance >>= fun _ => p) s (fun e s' => Bought e.names s s') := by
  refine (advance_costs hs).bind fun _ s₁ _ h₁ => (hp s₁).mono fun e s₂ h₂ he => ?_
  exact ⟨he ▸ .nil s₂, h₁.after h₂⟩

section Expression

variable {inner : Nat → Parser Expr}
  (hinner : ∀ least s, Costs (inner least) s (fun e s' => Bought e.names s s'))

include hinner

theorem signed_costs (op : UnaryOp) (t : Token) (s : State) :
    Costs (signed inner op t) s (fun e s' => Bought e.names s s') :=
  (hinner signPower s).bind fun _ _ _ h => .pure h

theorem operand_costs (s : State) :
    Costs (operand inner) s (fun e s' => Bought e.names s s') := by
  apply Costs.get_bind
  split
  · exact .fail
  · next t ts hs =>
    split
    · split
      · next e rest hmin =>
        obtain ⟨u, rfl, -, -, rfl⟩ := minLiteral?_eq_some hmin
        refine .of_eq { s with rest } rfl (.of_suffix (hs ▸ ⟨[t, u], rfl⟩)) ?_
        refine ⟨.nil _, ?_⟩
        show rest.length < s.rest.length
        simp only [hs, List.length_cons]
        omega
      · refine (advance_costs hs).bind fun _ s₁ _ h₁ => ?_
        exact (signed_costs hinner _ t s₁).mono fun e s₂ h₂ he => ⟨he.known, h₁.after h₂⟩
    · refine (advance_costs hs).bind fun _ s₁ _ h₁ => ?_
      exact (signed_costs hinner _ t s₁).mono fun e s₂ h₂ he => ⟨he.known, h₁.after h₂⟩
    · refine (advance_costs hs).bind fun _ s₁ _ h₁ => (hinner 0 s₁).bind fun e s₂ h₂ he => ?_
      refine (expect_costs .rightParen s₂).bind fun u s₃ h₃ _ => .pure ?_
      exact ⟨he.known.after h₃, h₁.after (h₂.trans h₃)⟩
    · split
      · exact .fail
      · exact .literal hs (integerLiteral_costs t)
    · exact .literal hs (integerLiteral_costs t)
    · exact .literal hs (floatLiteral_costs t)
    · exact (place_costs (hinner 0) s).bind fun p _ _ h => .pure h
    · exact .fail

theorem climb_costs (least fuel : Nat) (left : Expr) (s : State) (hl : Known left.names s) :
    Costs (climb inner least fuel left) s (fun e s' => Known e.names s') := by
  induction fuel generalizing left s with
  | zero => exact .pure hl
  | succ fuel ih =>
    apply Costs.peek_bind
    split
    · exact .pure hl
    · next op hop =>
      split
      · exact .pure hl
      · obtain ⟨t, ts, hs, -⟩ := exists_next (s := s) (by
          intro hk
          rw [hk] at hop
          cases hop)
        refine (advance_costs hs).bind fun _ s₁ h₁ _ => ?_
        refine (hinner (rightPower op) s₁).bind fun r s₂ h₂ hr => ih _ s₂ ?_
        exact (hl.after (h₁.trans h₂)).append hr.known

end Expression

theorem expressionAt_costs (depth least : Nat) (s : State) :
    Costs (expressionAt depth least) s (fun e s' => Bought e.names s s') := by
  induction depth generalizing least s with
  | zero => exact .fail
  | succ n ih =>
    refine (operand_costs ih s).bind fun e s₁ _ he => ?_
    apply Costs.remaining_bind
    refine (climb_costs ih least _ e s₁ he.known).mono fun e' s₂ h₂ he' => ?_
    exact ⟨he', he.shorter.after h₂⟩

theorem expression_costs (s : State) :
    Costs expression s (fun e s' => Bought e.names s s') :=
  expressionAt_costs maxDepth 0 s

theorem condition_costs (s : State) :
    Costs condition s (fun c s' => Bought c.names s s') := by
  refine (expression_costs s).bind fun l s₁ _ hl => ?_
  apply Costs.peek_bind
  split
  · exact .fail
  · next relation hrel =>
    obtain ⟨t, ts, hs, -⟩ := exists_next (s := s₁) (by
      intro hk
      rw [hk] at hrel
      cases hrel)
    refine (advance_costs hs).bind fun _ s₂ h₂ _ => ?_
    refine (expression_costs s₂).bind fun r s₃ h₃ hr => .pure ?_
    have hl' := hl.after (h₂.trans h₃)
    exact ⟨hl'.known.append hr.known, hl'.shorter⟩

theorem parenthesized_costs (s : State) :
    Costs parenthesized s (fun c s' => Bought c.names s s') := by
  refine (expect_costs .leftParen s).bind fun _ s₁ h₁ _ => ?_
  refine (condition_costs s₁).bind fun c s₂ h₂ hc => ?_
  refine (expect_costs .rightParen s₂).bind fun _ s₃ h₃ _ => .pure ?_
  exact ⟨hc.known.after h₃, (hc.shorter.before h₁).after h₃⟩

theorem moreElements_costs (fuel : Nat) (s : State) :
    Costs (moreElements fuel) s (fun es s' => Known (es.flatMap Expr.names) s') := by
  induction fuel generalizing s with
  | zero => exact .pure (.nil s)
  | succ fuel ih =>
    refine (accept_costs .comma s).bind fun b s₁ _ _ => ?_
    cases b with
    | false => exact .pure (.nil s₁)
    | true =>
      apply Costs.peek_bind
      split
      · exact .pure (.nil s₁)
      · refine (expression_costs s₁).bind fun e s₂ _ he => ?_
        refine (ih s₂).bind fun es s₃ h₃ hes => .pure ?_
        exact (he.known.after h₃).append hes

theorem braceList_costs (s : State) :
    Costs braceList s (fun r s' => Known (r.1.flatMap Expr.names) s') := by
  refine (expect_costs .leftBrace s).bind fun _ s₁ _ _ => ?_
  refine (accept?_costs .rightBrace s₁).bind fun o s₂ _ _ => ?_
  cases o with
  | some u => exact .pure (.nil s₂)
  | none =>
    refine (expression_costs s₂).bind fun e s₃ _ he => ?_
    apply Costs.remaining_bind
    refine (moreElements_costs _ s₃).bind fun es s₄ h₄ hes => ?_
    refine (expect_costs .rightBrace s₄).bind fun u s₅ h₅ _ => .pure ?_
    exact (he.known.after (h₄.trans h₅)).append (hes.after h₅)

def Brackets.names : Brackets → List String
  | absent | unstated => []
  | length e => e.names

theorem brackets_costs (name : Token) (s : State) :
    Costs (brackets name) s (fun r s' => Known r.1.names s') := by
  refine (accept_costs .leftBracket s).bind fun b s₁ _ _ => ?_
  cases b with
  | false => exact .pure (.nil s₁)
  | true =>
    apply Costs.peek_bind
    split
    · exact (expect_costs .rightBracket s₁).bind fun u s₂ _ _ => .pure (.nil s₂)
    · refine (expression_costs s₁).bind fun e s₂ _ he => ?_
      exact (expect_costs .rightBracket s₂).bind fun u s₃ h₃ _ => .pure (he.known.after h₃)

theorem initializer_costs (isArray : Bool) (s : State) :
    Costs (initializer isArray) s (fun r s' => Known (r.1.flatMap Expr.names) s') := by
  apply Costs.peek_bind
  split
  · split
    · exact (braceList_costs s).bind fun r s₁ _ h => .pure h
    · exact .fail
  · split
    · exact .fail
    · refine (expression_costs s).bind fun e s₁ _ he => .pure ?_
      exact he.known.append (.nil s₁)

theorem declarator_costs (start : Span) (kind : Kind) (constant : Bool) (s : State) :
    Costs (declarator start kind constant) s (fun v s' => Bought v.names s s') := by
  refine (expectName_costs s).bind fun t s₁ _ ht => ?_
  refine (brackets_costs t s₁).bind fun r s₂ h₂ hr => ?_
  obtain ⟨found, bracketSpan⟩ := r
  have ht₂ := ht.after h₂
  refine (accept_costs .equal s₂).bind fun b s₃ h₃ _ => ?_
  have ht₃ := ht₂.after h₃
  have hr₃ := hr.after h₃
  cases b with
  | true =>
    refine (initializer_costs _ s₃).bind fun r s₄ h₄ hvalues => .pure ?_
    have ht₄ := ht₃.after h₄
    have hr₄ := hr₃.after h₄
    refine ⟨ht₄.known.cons (.append ?_ hvalues), ht₄.shorter⟩
    cases found with
    | absent => exact .nil s₄
    | unstated => exact .nil s₄
    | length e => exact hr₄.append (.nil s₄)
  | false =>
    dsimp only
    rw [if_neg Bool.false_ne_true]
    split
    · exact .throw
    · cases found with
      | absent => exact .pure ⟨ht₃.known.cons (.nil s₃), ht₃.shorter⟩
      | unstated => exact .throw
      | length e =>
        exact .pure ⟨ht₃.known.cons ((hr₃.append (.nil s₃)).append (.nil s₃)), ht₃.shorter⟩

theorem moreDeclarators_costs (start : Span) (kind : Kind) (constant : Bool) (fuel : Nat)
    (s : State) :
    Costs (moreDeclarators start kind constant fuel) s
      (fun vs s' => Known (vs.flatMap Variable.names) s') := by
  induction fuel generalizing s with
  | zero => exact .pure (.nil s)
  | succ fuel ih =>
    refine (accept_costs .comma s).bind fun b s₁ _ _ => ?_
    cases b with
    | false => exact .pure (.nil s₁)
    | true =>
      refine (declarator_costs start kind constant s₁).bind fun v s₂ _ hv => ?_
      refine (ih s₂).bind fun vs s₃ h₃ hvs => .pure ?_
      exact (hv.known.after h₃).append hvs

theorem variableDeclaration_costs (s : State) :
    Costs variableDeclaration s (fun vs s' => Bought (vs.flatMap Variable.names) s s') := by
  apply Costs.get_bind
  refine (accept_costs .constKeyword s).bind fun constant s₁ h₁ _ => ?_
  apply Costs.peek_bind
  split
  · exact .fail
  · next kind hkind =>
    obtain ⟨t, ts, hs, -⟩ := exists_next (s := s₁) (by
      intro hk
      rw [hk] at hkind
      cases hkind)
    refine (advance_costs hs).bind fun _ s₂ h₂ hshort => ?_
    refine (declarator_costs _ kind constant s₂).bind fun v s₃ h₃ hv => ?_
    apply Costs.remaining_bind
    refine (moreDeclarators_costs _ kind constant _ s₃).bind fun vs s₄ h₄ hvs => ?_
    refine (expect_costs .semicolon s₄).bind fun u s₅ h₅ _ => .pure ?_
    refine ⟨(hv.known.after (h₄.trans h₅)).append (hvs.after h₅), ?_⟩
    exact (hshort.before h₁).after (h₃.trans (h₄.trans h₅))

theorem call_costs (s : State) : Costs call s (fun st s' => Bought st.names s s') := by
  refine (expectName_costs s).bind fun t s₁ _ ht => ?_
  refine (expect_costs .leftParen s₁).bind fun _ s₂ h₂ _ => ?_
  refine (expect_costs .rightParen s₂).bind fun _ s₃ h₃ _ => ?_
  refine (expect_costs .semicolon s₃).bind fun _ s₄ h₄ _ => .pure ?_
  have hb := ht.after (h₂.trans (h₃.trans h₄))
  exact ⟨by simpa only [Stmt.names] using hb.known, hb.shorter⟩

theorem assignment_costs (s : State) :
    Costs assignment s (fun st s' => Bought st.names s s') := by
  refine (place_costs expression_costs s).bind fun target s₁ _ ht => ?_
  refine (expect_costs .equal s₁).bind fun _ s₂ h₂ _ => ?_
  refine (expression_costs s₂).bind fun value s₃ h₃ hv => ?_
  refine (expect_costs .semicolon s₃).bind fun _ s₄ h₄ _ => .pure ?_
  have hb := ht.after (h₂.trans (h₃.trans h₄))
  refine ⟨?_, hb.shorter⟩
  rw [Stmt.names]
  exact hb.known.append (hv.known.after h₄)

/-- What the items of a block or of a program may cost. An error that was recovered from is paid
for as well, but nothing is left over. -/
structure Affords (s s' : State) : Prop where
  rest : s'.rest <:+ s.rest
  names : s.symbols.names ⊆ s'.symbols.names
  room : s'.symbols.size + s'.rest.length ≤ s.symbols.size + s.rest.length
  paid : s'.diagnostics.length + s'.rest.length ≤ s.diagnostics.length + s.rest.length

theorem Affords.refl (s : State) : Affords s s :=
  ⟨List.suffix_rfl, List.Subset.refl _, Nat.le_refl _, Nat.le_refl _⟩

theorem Affords.trans {s s' s'' : State} (h : Affords s s') (k : Affords s' s'') :
    Affords s s'' :=
  ⟨k.rest.trans h.rest, List.Subset.trans h.names k.names, Nat.le_trans k.room h.room,
    Nat.le_trans k.paid h.paid⟩

theorem Spends.affords {s s' : State} (h : Spends s s') : Affords s s' := by
  have hlen := h.rest.length_le
  have hpaid := h.paid
  exact ⟨h.rest, h.names, h.room, by omega⟩

theorem Spends.before_items {s s' s'' : State} (h : Spends s s') (hs : Shorter s s')
    (k : Affords s' s'') : Spends s s'' := by
  have hpaid := h.paid
  have hpaid' := k.paid
  unfold Shorter at hs
  exact ⟨k.rest.trans h.rest, List.Subset.trans h.names k.names, Nat.le_trans k.room h.room,
    by omega⟩

structure Recovers (recover : State → State → State) (s : State) : Prop where
  symbols : ∀ after, (recover s after).symbols = after.symbols
  diagnostics : ∀ after, (recover s after).diagnostics = after.diagnostics
  rest : ∀ after, (recover s after).rest <:+ after.rest
  shorter : ∀ after, after.rest <:+ s.rest → Shorter s (recover s after)

/-- A token goes even if the item that failed read none. -/
theorem Shorter.of_dropped {s after next : State} (he : s.kind ≠ .eof)
    (hafter : after.rest <:+ s.rest) (hnext : next.rest <:+ after.rest)
    (hdrop : after.rest.length = s.rest.length → next.rest <:+ after.rest.drop 1) :
    Shorter s next := by
  obtain ⟨t, ts, hs, -⟩ := exists_next he
  have hle := hafter.length_le
  have hskip := hnext.length_le
  unfold Shorter
  by_cases hlen : after.rest.length = s.rest.length
  · have hdropped := (hdrop hlen).length_le
    simp only [List.length_drop, hlen, hs, List.length_cons] at hdropped ⊢
    omega
  · omega

theorem recoverStatement_recovers {s : State} (hb : s.kind ≠ .rightBrace) (he : s.kind ≠ .eof) :
    Recovers recoverStatement s := by
  refine ⟨fun _ => rfl, fun _ => rfl, recoverStatement_suffix s, fun after hafter => ?_⟩
  refine .of_dropped he hafter (recoverStatement_suffix s after) fun hlen => ?_
  -- Nothing was read, so the next token is still the one at which the item began: no brace.
  have hk : (after.kind != .rightBrace) = true := by
    rw [after.kind_eq, hafter.eq_of_length hlen, ← s.kind_eq]
    simpa using hb
  have hrest : (recoverStatement s after).rest = skipStatement (after.rest.drop 1) := by
    simp [recoverStatement, hlen, hk]
  rw [hrest]
  exact skipStatement_suffix _

theorem recoverDeclaration_recovers {s : State} (he : s.kind ≠ .eof) :
    Recovers recoverDeclaration s := by
  refine ⟨fun _ => rfl, fun _ => rfl, recoverDeclaration_suffix s, fun after hafter => ?_⟩
  refine .of_dropped he hafter (recoverDeclaration_suffix s after) fun hlen => ?_
  have hrest : (recoverDeclaration s after).rest = skipDeclaration (after.rest.drop 1) := by
    simp [recoverDeclaration, hlen]
  rw [hrest]
  exact skipDeclaration_suffix _

theorem Costs.orRecover {α : Type} {names : List α → List String} {p : Parser (List α)}
    {s : State} {recover : State → State → State}
    (h : Costs p s (fun a s' => Bought (names a) s s')) (hnil : names [] = [])
    (hrec : Recovers recover s) :
    ∃ a s', orRecover p [] recover s = .ok a s' ∧ Affords s s' ∧ Bought (names a) s s' := by
  unfold Costs at h
  split at h
  · next a s' heq => exact ⟨a, s', by simp [Parser.orRecover, heq], h.1.affords, h.2⟩
  · next d s' heq =>
    refine ⟨[], recover s (s'.record d), by simp [Parser.orRecover, heq], ?_, ?_⟩
    · -- The error is one diagnostic more. A token was left over for it, or none was spent yet and
      -- recovery drops one.
      have hrest := hrec.rest (s'.record d)
      have hshort := hrec.shorter (s'.record d) h.rest
      have hlen := hrest.length_le
      have hpaid := h.paid
      have hroom := h.room
      unfold Shorter at hshort
      simp only [State.record] at hrest hlen hshort
      refine ⟨hrest.trans h.rest, ?_, ?_, ?_⟩
      · rw [hrec.symbols]
        exact h.names
      · rw [hrec.symbols]
        simp only [State.record]
        omega
      · rw [hrec.diagnostics]
        simp only [State.record, List.length_append, List.length_singleton]
        omega
    · exact ⟨hnil ▸ .nil _, hrec.shorter _ h.rest⟩

def AtEnd (s : State) : Prop := s.kind = .rightBrace ∨ s.kind = .eof

theorem blockItems_end {statement : Parser Stmt} {s : State} (h : AtEnd s) (fuel : Nat) :
    blockItems statement (fuel + 1) s = .ok [] s := by
  rw [blockItems, bind_ok (peek_eq s)]
  rcases h with h | h
  · rw [h]
    rfl
  · rw [h]
    rfl

section Statement

variable {statement : Parser Stmt}
  (hst : ∀ s, Costs statement s (fun st s' => Bought st.names s s'))

include hst

theorem blockItem_costs (s : State) :
    Costs (blockItem statement) s (fun found s' => Bought (Stmt.allNames found) s s') := by
  apply Costs.peek_bind
  split
  · refine (variableDeclaration_costs s).bind fun vs s₁ _ hvs => .pure ?_
    rw [Stmt.allNames_declare]
    exact hvs
  · refine (hst s).bind fun st s₁ _ h => .pure ?_
    exact ⟨by simpa [Stmt.allNames] using h.known, h.shorter⟩

theorem blockItems_item {s : State} (h : ¬ AtEnd s) :
    ∃ found s', orRecover (blockItem statement) [] recoverStatement s = .ok found s' ∧
      Affords s s' ∧ Bought (Stmt.allNames found) s s' ∧
      ∀ fuel, blockItems statement (fuel + 1) s =
        (do return found ++ (← blockItems statement fuel)) s' := by
  obtain ⟨hb, he⟩ := not_or.mp h
  obtain ⟨found, s', heq, ha, hn⟩ :=
    (blockItem_costs hst s).orRecover rfl (recoverStatement_recovers hb he)
  refine ⟨found, s', heq, ha, hn, fun fuel => ?_⟩
  rw [blockItems, bind_ok (peek_eq s)]
  refine Eq.trans ?_ (bind_ok (f := fun found => do return found ++ (← blockItems statement fuel))
    heq)
  refine congrFun ?_ s
  split
  · next hk => exact absurd hk hb
  · next hk => exact absurd hk he
  · rfl

/-- The items of a block always come to an end, and with rounds enough they end where the block
does. -/
theorem blockItems_affords (fuel : Nat) (s : State) :
    ∃ body s', blockItems statement fuel s = .ok body s' ∧ Affords s s' ∧
      Known (Stmt.allNames body) s' ∧ (s.rest.length ≤ fuel → AtEnd s') := by
  induction fuel generalizing s with
  | zero =>
    refine ⟨[], s, rfl, .refl s, .nil s, fun hlen => .inr ?_⟩
    rw [s.kind_eq, List.length_eq_zero_iff.mp (Nat.le_zero.mp hlen)]
    rfl
  | succ fuel ih =>
    by_cases hs : AtEnd s
    · exact ⟨[], s, blockItems_end hs fuel, .refl s, .nil s, fun _ => hs⟩
    · obtain ⟨found, s₁, -, h₁, hfound, heq⟩ := blockItems_item hst hs
      obtain ⟨body, s₂, hbody, h₂, hknown, hend⟩ := ih s₁
      refine ⟨found ++ body, s₂, by rw [heq, bind_ok hbody]; rfl, h₁.trans h₂, ?_, fun hlen => ?_⟩
      · rw [Stmt.allNames_append]
        exact .append (List.Subset.trans hfound.known h₂.names) hknown
      · have hshort := hfound.shorter
        unfold Shorter at hshort
        exact hend (by omega)

theorem block_costs (s : State) :
    Costs (block statement) s (fun r s' => Bought (Stmt.allNames r.1) s s') := by
  obtain ⟨t, ts, hs, -, heq⟩ | ⟨d, heq⟩ := expect_cases .leftBrace s
  · obtain ⟨body, s₂, hbody, h₂, hknown, -⟩ :=
      blockItems_affords hst ts.length { s with rest := ts }
    have hopen : Shorter s { s with rest := ts } := by simp [Shorter, hs]
    have hspends : Spends s s₂ :=
      (Spends.of_suffix (hs ▸ List.suffix_cons t ts)).before_items hopen h₂
    have hlt : Shorter s s₂ := Nat.lt_of_le_of_lt h₂.rest.length_le hopen
    refine .of_step (q := do return (body, t.span.merge (← expect .rightBrace).span)) ?_ hspends ?_
    · unfold block
      rw [bind_ok heq]
      exact bind_ok hbody
    · refine (expect_costs .rightBrace s₂).bind fun u s₃ h₃ _ => .pure ?_
      exact ⟨hknown.after h₃, hlt.after h₃⟩
  · exact .of_error (bind_error heq)

theorem branch_costs (s : State) :
    Costs (branch statement) s (fun st s' => Bought st.names s s') := by
  refine (expect_costs .ifKeyword s).bind fun t s₁ _ hshort => ?_
  refine (parenthesized_costs s₁).bind fun test s₂ h₂ htest => ?_
  refine (hst s₂).bind fun body s₃ h₃ hbody => ?_
  refine (accept_costs .elseKeyword s₃).bind fun b s₄ h₄ _ => ?_
  have htest₄ := htest.known.after (h₃.trans h₄)
  have hbody₄ := hbody.known.after h₄
  have hshort₄ := hshort.after (h₂.trans (h₃.trans h₄))
  cases b with
  | false =>
    refine .pure ⟨?_, hshort₄⟩
    rw [Stmt.names]
    exact htest₄.append hbody₄
  | true =>
    refine (hst s₄).bind fun other s₅ h₅ hother => .pure ⟨?_, hshort₄.after h₅⟩
    rw [Stmt.names]
    exact (htest₄.after h₅).append ((hbody₄.after h₅).append hother.known)

theorem loop_costs (s : State) : Costs (loop statement) s (fun st s' => Bought st.names s s') := by
  refine (expect_costs .whileKeyword s).bind fun t s₁ _ hshort => ?_
  refine (parenthesized_costs s₁).bind fun test s₂ h₂ htest => ?_
  refine (hst s₂).bind fun body s₃ h₃ hbody => .pure ⟨?_, hshort.after (h₂.trans h₃)⟩
  rw [Stmt.names]
  exact (htest.known.after h₃).append hbody.known

end Statement

theorem statementAt_costs (fuel : Nat) (s : State) :
    Costs (statementAt fuel) s (fun st s' => Bought st.names s s') := by
  induction fuel generalizing s with
  | zero => exact .fail
  | succ fuel ih =>
    apply Costs.peek_bind
    split
    · refine (block_costs ih s).bind fun r s₁ _ h => .pure ?_
      rw [Stmt.names]
      exact h
    · exact branch_costs ih s
    · exact loop_costs ih s
    · refine (expect_costs .semicolon s).bind fun t s₁ _ h => .pure ?_
      rw [Stmt.names]
      exact ⟨.nil s₁, h⟩
    · refine .of_step (bind_ok (peekSecond_eq s)) (.refl s) ?_
      split
      · exact call_costs s
      · exact assignment_costs s
    · exact .fail

theorem function_costs (s : State) :
    Costs function s (fun f s' => Bought (Declaration.function f).names s s') := by
  refine (expect_costs .voidKeyword s).bind fun t s₁ h₁ hshort => ?_
  refine (expectName_costs s₁).bind fun name s₂ h₂ hname => ?_
  refine (expect_costs .leftParen s₂).bind fun u s₃ h₃ _ => ?_
  refine (expect_costs .rightParen s₃).bind fun v s₄ h₄ _ => ?_
  apply Costs.remaining_bind
  refine (block_costs (statementAt_costs _) s₄).bind fun r s₅ h₅ hbody => .pure ?_
  have hname₅ := hname.known.after (h₃.trans (h₄.trans h₅))
  exact ⟨hname₅.cons hbody.known, hshort.after (h₂.trans (h₃.trans (h₄.trans h₅)))⟩

theorem declaration_costs (s : State) :
    Costs declaration s (fun found s' => Bought (Program.names found) s s') := by
  apply Costs.peek_bind
  split
  · refine (function_costs s).bind fun f s₁ _ h => .pure ?_
    simpa [Program.names] using h
  · split
    · refine (variableDeclaration_costs s).bind fun vs s₁ _ h => .pure ?_
      simpa [Program.names, List.flatMap_map, Declaration.names] using h
    · exact .fail

theorem declarations_end {s : State} (h : s.kind = .eof) (fuel : Nat) :
    declarations (fuel + 1) s = .ok [] s := by
  rw [declarations, bind_ok (peek_eq s), if_pos h]
  rfl

theorem declarations_item {s : State} (h : s.kind ≠ .eof) :
    ∃ found s', orRecover declaration [] recoverDeclaration s = .ok found s' ∧
      Affords s s' ∧ Bought (Program.names found) s s' ∧
      ∀ fuel, declarations (fuel + 1) s = (do return found ++ (← declarations fuel)) s' := by
  obtain ⟨found, s', heq, ha, hn⟩ :=
    (declaration_costs s).orRecover rfl (recoverDeclaration_recovers h)
  refine ⟨found, s', heq, ha, hn, fun fuel => ?_⟩
  rw [declarations, bind_ok (peek_eq s), if_neg h]
  exact bind_ok heq

theorem declarations_affords (fuel : Nat) (s : State) :
    ∃ p s', declarations fuel s = .ok p s' ∧ Affords s s' ∧ Known p.names s' ∧
      (s.rest.length ≤ fuel → s'.kind = .eof) := by
  induction fuel generalizing s with
  | zero =>
    refine ⟨[], s, rfl, .refl s, .nil s, fun hlen => ?_⟩
    rw [s.kind_eq, List.length_eq_zero_iff.mp (Nat.le_zero.mp hlen)]
    rfl
  | succ fuel ih =>
    by_cases hs : s.kind = .eof
    · exact ⟨[], s, declarations_end hs fuel, .refl s, .nil s, fun _ => hs⟩
    · obtain ⟨found, s₁, -, h₁, hfound, heq⟩ := declarations_item hs
      obtain ⟨p, s₂, hp, h₂, hknown, hend⟩ := ih s₁
      refine ⟨found ++ p, s₂, by rw [heq, bind_ok hp]; rfl, h₁.trans h₂, ?_, fun hlen => ?_⟩
      · rw [Program.names, List.flatMap_append]
        exact .append (List.Subset.trans hfound.known h₂.names) hknown
      · have hshort := hfound.shorter
        unfold Shorter at hshort
        exact hend (by omega)

theorem program_affords (ts : List Token) :
    ∃ p s', program (State.ofTokens ts) = .ok p s' ∧ s'.rest = [] ∧
      Affords (State.ofTokens ts) s' ∧ Known p.names s' := by
  obtain ⟨p, s', heq, ha, hknown, hend⟩ :=
    declarations_affords (State.ofTokens ts).rest.length (State.ofTokens ts)
  refine ⟨p, s', heq, ?_, ha, hknown⟩
  have hk := hend (Nat.le_refl _)
  rw [s'.kind_eq] at hk
  cases hs : s'.rest with
  | nil => rfl
  | cons t us =>
    rw [hs] at hk
    exact absurd hk (State.ofTokens_ne_eof ts t (ha.rest.subset (hs ▸ List.mem_cons_self)))

end Parser

end C1Lang
