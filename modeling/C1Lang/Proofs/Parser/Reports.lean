import C1Lang.Proofs.Parser.Alongside

/-!
# What the parser reports, and in which order

What a parser reports is settled by the tokens that are left: two readers of the same tokens have
the same diagnostics added to theirs (`Reports`). When the tokens are in the order of the text,
every diagnostic is behind those that were recorded before it, and not behind the next token
(`InOrder`): blocks record before what is around them fails, but at earlier tokens.
-/

namespace C1Lang.Parser

structure Level (s t : State) : Prop where
  rest : t.rest = s.rest
  stop : t.stop = s.stop

theorem Level.refl (s : State) : Level s s := ⟨rfl, rfl⟩

theorem level_window : Window Level Level := by
  refine ⟨fun {s t} h => ?_⟩
  cases hs : s.rest with
  | nil => exact .inl ⟨rfl, h.rest.trans hs, h.stop.symm⟩
  | cons a rest =>
    exact .inr ⟨a, rest, rest, hs, h.rest.trans hs, fun _ _ _ => ⟨rfl, h.stop⟩,
      fun _ _ _ => ⟨rfl, h.stop⟩⟩

theorem Level.kind {s t : State} (h : Level s t) : t.kind = s.kind := level_window.kind h

structure Passes (used : List Token) (ds : List Diagnostic) (s s' : State) : Prop where
  rest : s.rest = used ++ s'.rest
  stop : s'.stop = s.stop
  diagnostics : s'.diagnostics = s.diagnostics ++ ds

theorem Passes.refl (s : State) : Passes [] [] s s := ⟨rfl, rfl, by simp⟩

theorem Passes.trans {used used' : List Token} {ds ds' : List Diagnostic} {s s' s'' : State}
    (h : Passes used ds s s') (k : Passes used' ds' s' s'') :
    Passes (used ++ used') (ds ++ ds') s s'' := by
  refine ⟨?_, k.stop.trans h.stop, ?_⟩
  · rw [h.rest, k.rest, List.append_assoc]
  · rw [k.diagnostics, h.diagnostics, List.append_assoc]

theorem Consumes.passes {used : List Token} {s s' : State} (h : Consumes used s s') :
    Passes used [] s s' := ⟨h.rest, h.stop, by simp [h.diagnostics]⟩

theorem Passes.level {used : List Token} {ds : List Diagnostic} {s t s' t' : State}
    (hs : Passes used ds s s') (ht : Passes used ds t t') (h : Level s t) : Level s' t' := by
  refine ⟨?_, ht.stop.trans (h.stop.trans hs.stop.symm)⟩
  have hrest := h.rest
  rw [hs.rest, ht.rest] at hrest
  exact List.append_cancel_left hrest

def State.starts (s : State) : List Nat := s.rest.map (·.span.start) ++ [s.stop.start]

def State.Ordered (s : State) : Prop := s.starts.Pairwise (· ≤ ·)

theorem State.starts_eq (s : State) : ∃ later, s.starts = s.span.start :: later := by
  unfold starts span
  cases s.rest with
  | nil => exact ⟨[], rfl⟩
  | cons a rest => exact ⟨_, rfl⟩

theorem State.span_mem (s : State) : s.span.start ∈ s.starts := by
  obtain ⟨later, h⟩ := s.starts_eq
  rw [h]
  exact List.mem_cons_self

theorem State.Ordered.span_le {s : State} (h : s.Ordered) {n : Nat} (hn : n ∈ s.starts) :
    s.span.start ≤ n := by
  obtain ⟨later, heq⟩ := s.starts_eq
  unfold Ordered at h
  rw [heq] at h hn
  rcases List.mem_cons.mp hn with rfl | hn
  · exact Nat.le_refl _
  · exact (List.pairwise_cons.mp h).1 n hn

section Passes

variable {used : List Token} {ds : List Diagnostic} {s s' : State} (h : Passes used ds s s')

include h

theorem Passes.starts : s.starts = used.map (·.span.start) ++ s'.starts := by
  rw [State.starts, h.rest, State.starts, h.stop, List.map_append, List.append_assoc]

theorem Passes.subset : s'.starts ⊆ s.starts := by
  rw [h.starts]
  exact List.subset_append_right _ _

theorem Passes.ordered (hs : s.Ordered) : s'.Ordered := by
  unfold State.Ordered at hs ⊢
  rw [h.starts] at hs
  exact (List.pairwise_append.mp hs).2.1

theorem Passes.span_le (hs : s.Ordered) : s.span.start ≤ s'.span.start :=
  hs.span_le (h.subset s'.span_mem)

end Passes

/-- The diagnostics are at tokens that were left at `s`, in the order of the text, and not behind
the next token at `s'`. -/
structure Located (s s' : State) (ds : List Diagnostic) : Prop where
  sorted : ds.Pairwise fun d e => d.span.start ≤ e.span.start
  within : ∀ d ∈ ds, d.span.start ∈ s.starts ∧ d.span.start ≤ s'.span.start

def InOrder (s s' : State) (ds : List Diagnostic) : Prop := s.Ordered → Located s s' ds

theorem InOrder.nil (s s' : State) : InOrder s s' [] := fun _ => ⟨.nil, nofun⟩

theorem InOrder.append {s s' s'' : State} {used used' : List Token} {ds ds' es : List Diagnostic}
    (h : InOrder s s' ds) (hp : Passes used ds s s') (k : InOrder s' s'' es)
    (kp : Passes used' ds' s' s'') : InOrder s s'' (ds ++ es) := by
  intro hs
  have hs' := hp.ordered hs
  have hds := h hs
  have hes := k hs'
  refine ⟨List.pairwise_append.mpr ⟨hds.sorted, hes.sorted, fun d hd e he => ?_⟩, fun d hd => ?_⟩
  · exact Nat.le_trans (hds.within d hd).2 (hs'.span_le (hes.within e he).1)
  · rcases List.mem_append.mp hd with hd | hd
    · exact ⟨(hds.within d hd).1, Nat.le_trans (hds.within d hd).2 (kp.span_le hs')⟩
    · exact ⟨hp.subset (hes.within d hd).1, (hes.within d hd).2⟩

theorem InOrder.of_blames {s s' : State} {used : List Token} {d : Diagnostic}
    (h : Consumes used s s') (hd : Blames d used s') : InOrder s s' [d] := by
  intro hs
  have hp := h.passes
  refine ⟨List.pairwise_singleton _ _, fun e he => ?_⟩
  obtain rfl := List.mem_singleton.mp he
  rcases hd with hd | ⟨a, ha, hd⟩
  · rw [hd]
    exact ⟨hp.subset s'.span_mem, Nat.le_refl _⟩
  · have hmem : e.span.start ∈ used.map (·.span.start) := by
      rw [hd]
      exact List.mem_map_of_mem ha
    unfold State.Ordered at hs
    rw [hp.starts] at hs ⊢
    exact ⟨List.mem_append_left _ hmem, (List.pairwise_append.mp hs).2.2 _ hmem _ s'.span_mem⟩

/-- From both readers the parser does the same, and what it adds to their diagnostics is the same
and in order. -/
def Reports {α : Type} (p : Parser α) (s t : State) : Prop :=
  match p s, p t with
  | .ok a s', .ok b t' => a = b ∧ ∃ used ds, Passes used ds s s' ∧ Passes used ds t t' ∧
      InOrder s s' ds
  | .error d s', .error e t' => d = e ∧ ∃ used ds, Passes used ds s s' ∧ Passes used ds t t' ∧
      InOrder s s' (ds ++ [d])
  | _, _ => False

namespace Reports

variable {α β : Type} {p p' : Parser α} {s t : State}

theorem of_agrees {k k' : Nat} {done : α → List Token → Prop}
    (h : Agrees Level Level k k' [] p p s t done) : Reports p s t := by
  unfold Agrees at h
  split at h
  · next a s' b t' hs ht =>
    obtain ⟨hab, -, used, hus, hut, -⟩ := h
    unfold Reports
    rw [hs, ht]
    exact ⟨hab, used, [], hus.passes, hut.passes, .nil _ _⟩
  · next d s' e t' hs ht =>
    obtain ⟨hde, -, used, -, hus, hut, -, hd⟩ := h
    unfold Reports
    rw [hs, ht]
    exact ⟨hde, used, [], hus.passes, hut.passes, .of_blames hus hd⟩
  · exact h.elim

theorem pure {a : α} : Reports (Pure.pure a) s t :=
  ⟨rfl, [], [], .refl s, .refl t, .nil _ _⟩

theorem fail {problem : Problem} (hl : Level s t) :
    Reports (Parser.fail problem : Parser α) s t := by
  have hagrees : Agrees Level Level 0 0 [] (Parser.fail problem : Parser α)
      (Parser.fail problem) s t fun _ _ => True := .fail level_window hl
  exact of_agrees hagrees

theorem bind {f : α → Parser β} (hl : Level s t) (h : Reports p s t)
    (hf : ∀ a s' t', Level s' t' → Reports (f a) s' t') : Reports (p >>= f) s t := by
  unfold Reports at h
  split at h
  · next a s' b t' hs ht =>
    obtain ⟨rfl, used, ds, hps, hpt, hin⟩ := h
    have hnext := hf a s' t' (hps.level hpt hl)
    unfold Reports at hnext ⊢
    rw [bind_ok hs, bind_ok ht]
    split at hnext
    · obtain ⟨hab, used', ds', hps', hpt', hin'⟩ := hnext
      exact ⟨hab, _, _, hps.trans hps', hpt.trans hpt', hin.append hps hin' hps'⟩
    · obtain ⟨hde, used', ds', hps', hpt', hin'⟩ := hnext
      refine ⟨hde, _, _, hps.trans hps', hpt.trans hpt', ?_⟩
      rw [List.append_assoc]
      exact hin.append hps hin' hps'
    · exact hnext
  · next d s' e t' hs ht =>
    unfold Reports
    rw [bind_error hs, bind_error ht]
    exact h
  · exact h.elim

theorem of_eq {q : Parser α} (hs : p s = q s) (ht : p t = q t) (h : Reports q s t) :
    Reports p s t := by
  unfold Reports at h ⊢
  rw [hs, ht]
  exact h

theorem peek_bind {f : TokenKind → Parser α} (hl : Level s t) (h : Reports (f s.kind) s t) :
    Reports (peek >>= f) s t := by
  refine of_eq (bind_ok (peek_eq s)) ?_ h
  rw [bind_ok (peek_eq t), hl.kind]

theorem remaining_bind {f : Nat → Parser α} (hl : Level s t) (h : Reports (f s.rest.length) s t) :
    Reports (remaining >>= f) s t := by
  refine of_eq (q := f s.rest.length) rfl ?_ h
  show f t.rest.length t = f s.rest.length t
  rw [hl.rest]

end Reports

structure Drops (recover : State → State → State) : Prop where
  passes : ∀ s s', ∃ skipped, Passes skipped [] s' (recover s s')
  level : ∀ s t s' t', Level s t → Level s' t' → Level (recover s s') (recover t t')

theorem Passes.of_suffix {s : State} {rest : List Token} (h : rest <:+ s.rest) :
    ∃ skipped, Passes skipped [] s { s with rest } := by
  obtain ⟨skipped, hrest⟩ := h
  exact ⟨skipped, hrest.symm, rfl, by simp⟩

theorem recoverStatement_drops : Drops recoverStatement := by
  refine ⟨fun s s' => Passes.of_suffix (recoverStatement_suffix s s'),
    fun s t s' t' h h' => ⟨?_, h'.stop⟩⟩
  simp only [recoverStatement, h.rest, h'.rest, h'.kind]

theorem recoverDeclaration_drops : Drops recoverDeclaration := by
  refine ⟨fun s s' => Passes.of_suffix (recoverDeclaration_suffix s s'),
    fun s t s' t' h h' => ⟨?_, h'.stop⟩⟩
  simp only [recoverDeclaration, h.rest, h'.rest]

/-- The diagnostic of an item that was given up is recorded where reading goes on. -/
theorem orRecover_reports {α : Type} {p : Parser α} {s t : State} (hl : Level s t)
    (h : Reports p s t) (default : α) {recover : State → State → State} (hr : Drops recover) :
    Reports (orRecover p default recover) s t := by
  unfold Reports at h
  unfold Reports orRecover
  split at h
  · next a s' b t' hs ht =>
    rw [hs, ht]
    exact h
  · next d s' e t' hs ht =>
    obtain ⟨rfl, used, ds, hps, hpt, hin⟩ := h
    rw [hs, ht]
    have hrecord : ∀ u : State, Passes [] [d] u (u.record d) := fun u => ⟨rfl, rfl, rfl⟩
    obtain ⟨skipped, hskip⟩ := hr.passes s (s'.record d)
    obtain ⟨skipped', hskip'⟩ := hr.passes t (t'.record d)
    have hbefore := (hps.trans (hrecord s')).level (hpt.trans (hrecord t')) hl
    have hafter := hr.level s t (s'.record d) (t'.record d) hl hbefore
    obtain rfl : skipped' = skipped := by
      have hrest := hbefore.rest
      rw [hskip.rest, hskip'.rest, hafter.rest] at hrest
      exact List.append_cancel_right hrest
    have hps' := hps.trans ((hrecord s').trans hskip)
    have hpt' := hpt.trans ((hrecord t').trans hskip')
    have hin' : InOrder s (s'.record d) (ds ++ [d]) := fun h => ⟨(hin h).sorted, (hin h).within⟩
    have hlast := hin'.append (hps.trans (hrecord s')) (.nil _ _) hskip
    rw [List.append_nil] at hlast
    exact ⟨rfl, _, _, hps', hpt', hlast⟩
  · exact h.elim

theorem expect_reports (kind : TokenKind) {s t : State} (hl : Level s t) :
    Reports (expect kind) s t := by
  unfold Reports
  obtain ⟨d, hs, ht, hd⟩ | ⟨a, rest, rest', -, ha, hs, ht⟩ := expect_alongside level_window hl kind
  · rw [hs, ht]
    exact ⟨rfl, [], [], .refl s, .refl t, .of_blames (.refl s) (.inl (congrArg Span.start hd))⟩
  · rw [hs, ht]
    exact ⟨rfl, [a], [], (Consumes.one ha.left _).passes, (Consumes.one ha.right _).passes,
      .nil _ _⟩

section Statement

variable {statement : Parser Stmt} (hst : ∀ s t, Level s t → Reports statement s t) {s t : State}

theorem parenthesized_reports (hl : Level s t) : Reports parenthesized s t :=
  .of_agrees (k := 0) (parenthesized_agrees level_window hl)

theorem variableDeclaration_reports (hl : Level s t) : Reports variableDeclaration s t :=
  .of_agrees (k := 0) (variableDeclaration_agrees level_window hl)

include hst

theorem blockItem_reports (hl : Level s t) : Reports (blockItem statement) s t := by
  refine .peek_bind hl ?_
  split
  · exact (variableDeclaration_reports hl).bind hl fun _ _ _ _ => .pure
  · exact (hst s t hl).bind hl fun _ _ _ _ => .pure

theorem blockItems_reports (fuel : Nat) (hl : Level s t) :
    Reports (blockItems statement fuel) s t := by
  induction fuel generalizing s t with
  | zero => exact .pure
  | succ fuel ih =>
    refine .peek_bind hl ?_
    split
    · exact .pure
    · exact .pure
    · refine (orRecover_reports hl (blockItem_reports hst hl) [] recoverStatement_drops).bind hl ?_
      exact fun _ s₁ t₁ h₁ => (ih h₁).bind h₁ fun _ _ _ _ => .pure

theorem block_reports (hl : Level s t) : Reports (block statement) s t := by
  refine (expect_reports .leftBrace hl).bind hl fun _ s₁ t₁ h₁ => .remaining_bind h₁ ?_
  refine (blockItems_reports hst _ h₁).bind h₁ fun _ s₂ t₂ h₂ => ?_
  exact (expect_reports .rightBrace h₂).bind h₂ fun _ _ _ _ => .pure

theorem branch_reports (hl : Level s t) : Reports (branch statement) s t := by
  refine (expect_reports .ifKeyword hl).bind hl fun _ s₁ t₁ h₁ => ?_
  refine (parenthesized_reports h₁).bind h₁ fun _ s₂ t₂ h₂ => ?_
  refine (hst s₂ t₂ h₂).bind h₂ fun _ s₃ t₃ h₃ => ?_
  have haccept : Reports (accept .elseKeyword) s₃ t₃ :=
    .of_agrees (k := 0) (accept_agrees level_window h₃ (by decide) rfl)
  refine haccept.bind h₃ fun b s₄ t₄ h₄ => ?_
  cases b with
  | false => exact .pure
  | true => exact (hst s₄ t₄ h₄).bind h₄ fun _ _ _ _ => .pure

theorem loop_reports (hl : Level s t) : Reports (loop statement) s t := by
  refine (expect_reports .whileKeyword hl).bind hl fun _ s₁ t₁ h₁ => ?_
  refine (parenthesized_reports h₁).bind h₁ fun _ s₂ t₂ h₂ => ?_
  exact (hst s₂ t₂ h₂).bind h₂ fun _ _ _ _ => .pure

end Statement

theorem statementAt_reports (fuel : Nat) (s t : State) (hl : Level s t) :
    Reports (statementAt fuel) s t := by
  induction fuel generalizing s t with
  | zero => exact .fail hl
  | succ fuel ih =>
    refine .peek_bind hl ?_
    split
    · exact (block_reports ih hl).bind hl fun _ _ _ _ => .pure
    · exact branch_reports ih hl
    · exact loop_reports ih hl
    · exact (expect_reports .semicolon hl).bind hl fun _ _ _ _ => .pure
    · refine .of_eq (bind_ok (peekSecond_eq s)) (by rw [bind_ok (peekSecond_eq t), hl.rest]) ?_
      split
      · exact .of_agrees (k := 0) (call_agrees level_window hl)
      · exact .of_agrees (k := 0) (assignment_agrees level_window hl)
    · exact .fail hl

theorem function_reports {s t : State} (hl : Level s t) : Reports function s t := by
  refine (expect_reports .voidKeyword hl).bind hl fun _ s₁ t₁ h₁ => ?_
  have hname : Reports expectName s₁ t₁ :=
    .of_agrees (k := 0) (expectName_agrees level_window h₁)
  refine hname.bind h₁ fun _ s₂ t₂ h₂ => ?_
  refine (expect_reports .leftParen h₂).bind h₂ fun _ s₃ t₃ h₃ => ?_
  refine (expect_reports .rightParen h₃).bind h₃ fun _ s₄ t₄ h₄ => .remaining_bind h₄ ?_
  exact (block_reports (statementAt_reports _) h₄).bind h₄ fun _ _ _ _ => .pure

theorem declaration_reports {s t : State} (hl : Level s t) : Reports declaration s t := by
  refine .peek_bind hl ?_
  split
  · exact (function_reports hl).bind hl fun _ _ _ _ => .pure
  · split
    · exact (variableDeclaration_reports hl).bind hl fun _ _ _ _ => .pure
    · exact .fail hl

theorem declarations_reports (fuel : Nat) {s t : State} (hl : Level s t) :
    Reports (declarations fuel) s t := by
  induction fuel generalizing s t with
  | zero => exact .pure
  | succ fuel ih =>
    refine .peek_bind hl ?_
    split
    · exact .pure
    · refine (orRecover_reports hl (declaration_reports hl) [] recoverDeclaration_drops).bind hl ?_
      exact fun _ s₁ t₁ h₁ => (ih h₁).bind h₁ fun _ _ _ _ => .pure

theorem declarations_diagnostics {s t : State} (hl : Level s t) (fuel : Nat) :
    ∃ p ds s' t', declarations fuel s = .ok p s' ∧ declarations fuel t = .ok p t' ∧
      s'.diagnostics = s.diagnostics ++ ds ∧ t'.diagnostics = t.diagnostics ++ ds ∧
      InOrder s s' ds := by
  obtain ⟨p, s', hs, -⟩ := declarations_affords fuel s
  obtain ⟨q, t', ht, -⟩ := declarations_affords fuel t
  have h := declarations_reports fuel hl
  unfold Reports at h
  rw [hs, ht] at h
  obtain ⟨rfl, used, ds, hps, hpt, hin⟩ := h
  exact ⟨p, ds, s', t', hs, ht, hps.diagnostics, hpt.diagnostics, hin⟩

def Opens (opening : List Token) : Prop :=
  opening.map (·.kind) = [.voidKeyword, .identifier, .leftParen, .rightParen, .leftBrace]

instance (opening : List Token) : Decidable (Opens opening) :=
  inferInstanceAs (Decidable (_ = _))

theorem Opens.inner {opening : List Token} (ho : Opens opening) {t : Token} (ht : t ∈ opening) :
    t.kind.isComment = false ∧ t.kind ≠ .eof := by
  have hmem : t.kind ∈ opening.map (·.kind) := List.mem_map_of_mem ht
  rw [ho] at hmem
  generalize t.kind = kind at hmem
  cases kind <;> simp_all [TokenKind.isComment]

theorem Opens.kind {opening ts : List Token} (ho : Opens opening) {s : State}
    (hs : s.rest = opening ++ ts) : s.kind = .voidKeyword := by
  obtain ⟨keyword, _, rfl, hkeyword, -⟩ := List.map_eq_cons_iff.mp ho
  rw [s.kind_eq, hs]
  exact hkeyword

theorem expect_eq {kind : TokenKind} {s : State} {a : Token} {rest : List Token}
    (hs : s.rest = a :: rest) (hk : a.kind = kind) : expect kind s = .ok a { s with rest } := by
  refine bind_ok (a := some a) ?_
  rw [accept?_cons hs, if_pos hk]

def signature : Parser (Token × Token) := do
  let keyword ← expect .voidKeyword
  let name ← expectName
  let _ ← expect .leftParen
  let _ ← expect .rightParen
  return (keyword, name)

theorem function_eq :
    function = (do
      let (keyword, name) ← signature
      let (body, bodySpan) ← block (statementAt (← remaining))
      return ⟨name.lexeme, name.span, body, bodySpan, keyword.span.merge bodySpan⟩) := by
  simp only [function, signature, bind_assoc, pure_bind]

theorem Opens.signature {opening ts : List Token} (ho : Opens opening) {s : State}
    (hs : s.rest = opening ++ ts) :
    ∃ r brace symbols, brace.kind = .leftBrace ∧
      Parser.signature s = .ok r { s with rest := brace :: ts, symbols } := by
  obtain ⟨keyword, _, rfl, hkeyword, ho⟩ := List.map_eq_cons_iff.mp ho
  obtain ⟨name, _, rfl, hname, ho⟩ := List.map_eq_cons_iff.mp ho
  obtain ⟨left, _, rfl, hleft, ho⟩ := List.map_eq_cons_iff.mp ho
  obtain ⟨right, _, rfl, hright, ho⟩ := List.map_eq_cons_iff.mp ho
  obtain ⟨brace, _, rfl, hbrace, ho⟩ := List.map_eq_cons_iff.mp ho
  obtain rfl := List.map_eq_nil_iff.mp ho
  refine ⟨(keyword, name), brace, s.symbols.mention name.lexeme, hbrace, ?_⟩
  have hmention : expectName { s with rest := [name, left, right, brace] ++ ts } =
      .ok name { s with
        rest := [left, right, brace] ++ ts, symbols := s.symbols.mention name.lexeme } :=
    bind_ok (expect_eq rfl hname)
  have hleft := expect_eq (s := { s with
    rest := [left, right, brace] ++ ts, symbols := s.symbols.mention name.lexeme }) rfl hleft
  have hright := expect_eq (s := { s with
    rest := [right, brace] ++ ts, symbols := s.symbols.mention name.lexeme }) rfl hright
  refine (bind_ok (expect_eq hs hkeyword)).trans ((bind_ok hmention).trans ?_)
  exact (bind_ok hleft).trans (bind_ok hright)

theorem function_opens {s s' : State} {r : Token × Token} {brace : Token} {ts : List Token}
    (h : signature s = .ok r s') (hs' : s'.rest = brace :: ts) (hbrace : brace.kind = .leftBrace) :
    ∃ build : List Stmt → Token → FunctionDef, (∀ body close, (build body close).body = body) ∧
      function s = (do
        let body ← blockItems (statementAt (ts.length + 1)) ts.length
        let close ← expect .rightBrace
        return build body close) { s' with rest := ts } := by
  refine ⟨fun body close => ⟨r.2.lexeme, r.2.span, body, brace.span.merge close.span,
    r.1.span.merge (brace.span.merge close.span)⟩, fun _ _ => rfl, ?_⟩
  rw [function_eq]
  refine (bind_ok h).trans ?_
  have hlen : s'.rest.length = ts.length + 1 := by rw [hs']; rfl
  show (block (statementAt s'.rest.length) >>= _) s' = _
  unfold block
  simp only [bind_assoc, pure_bind, hlen]
  exact bind_ok (expect_eq hs' hbrace)

end C1Lang.Parser

namespace C1Lang

open C1Lang.Parser

theorem parse_function {ts after : List Token} {f : FunctionDef} {s : State}
    (hk : (State.ofTokens ts).kind = .voidKeyword) (hf : function (State.ofTokens ts) = .ok f s)
    (hl : Level s (State.ofTokens after)) :
    (parse ts).program = .function f :: (parse after).program ∧
    (parse ts).diagnostics = s.diagnostics ++ (parse after).diagnostics := by
  have hcosts := function_costs (State.ofTokens ts)
  unfold Costs at hcosts
  rw [hf] at hcosts
  have hshort : s.rest.length < (State.ofTokens ts).rest.length := hcosts.2.shorter
  have hdeclaration : declaration (State.ofTokens ts) = .ok [.function f] s := by
    unfold declaration
    rw [bind_ok (peek_eq _), hk, if_pos rfl]
    exact bind_ok hf
  obtain ⟨n, hn⟩ := Nat.exists_eq_add_one_of_ne_zero (Nat.ne_zero_of_lt hshort)
  obtain ⟨p, ds, s', t', hs', ht', hds, hds', -⟩ := declarations_diagnostics hl n
  have hrun : program (State.ofTokens ts) = .ok (.function f :: p) s' := by
    show declarations (State.ofTokens ts).rest.length _ = _
    rw [hn, declarations, bind_ok (peek_eq _), hk, if_neg (by decide)]
    have hor : orRecover declaration [] recoverDeclaration (State.ofTokens ts) =
        .ok [.function f] s := by rw [orRecover, hdeclaration]
    exact (bind_ok hor).trans (bind_ok hs')
  have hrest : program (State.ofTokens after) = .ok p t' := by
    obtain ⟨extra, hextra⟩ := Nat.exists_eq_add_of_le (Nat.le_of_lt_succ (hn ▸ hshort))
    rw [hextra, ← hl.rest] at ht'
    exact (terminates.declarations (State.ofTokens after) extra).symm.trans ht'
  simp only [parse, hrun, hrest, hds, hds', true_and]
  rfl

/-- The diagnostics of a list of tokens are at its tokens or at its end, and in their order. -/
theorem parse_located (ts : List Token) (h : (State.ofTokens ts).Ordered) :
    (parse ts).diagnostics.Pairwise (fun d e => d.span.start ≤ e.span.start) ∧
    ∀ d ∈ (parse ts).diagnostics, d.span.start ∈ (State.ofTokens ts).starts := by
  have hl : Level (State.ofTokens ts) (State.ofTokens ts) := .refl _
  obtain ⟨p, ds, s', -, hs, -, hds, -, hin⟩ :=
    declarations_diagnostics hl (State.ofTokens ts).rest.length
  have hparse : (parse ts).diagnostics = ds := by
    have hrun : program (State.ofTokens ts) = .ok p s' := hs
    simp only [parse, hrun, hds]
    rfl
  rw [hparse]
  exact ⟨(hin h).sorted, fun d hd => ((hin h).within d hd).1⟩

end C1Lang
