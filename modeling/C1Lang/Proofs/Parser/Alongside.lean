import C1Lang.Proofs.Parser.Termination

/-!
# Two runs that see the same tokens

The parsers of expressions, of variable declarations and of simple statements look at the next
two tokens at most, and at nothing behind a semicolon. So two runs whose readers show them the
same tokens (`Window`) give the same result or stop for the same reason, and they read the same
tokens on the way (`Agrees`). What stops them is at the token they have come to or at one that
they have read, and they close no brace that they have not opened.
-/

namespace C1Lang.Parser

/-- How many braces are open behind a token; none if it closes one that was not opened. -/
def nest : TokenKind → Nat → Option Nat
  | .leftBrace, depth => some (depth + 1)
  | .rightBrace, 0 => none
  | .rightBrace, depth + 1 => some depth
  | _, depth => some depth

def openBraces (depth : Nat) (ts : List Token) : Option Nat :=
  ts.foldlM (fun depth t => nest t.kind depth) depth

@[simp] theorem openBraces_nil (depth : Nat) : openBraces depth [] = some depth := rfl

theorem openBraces_cons (depth : Nat) (t : Token) (ts : List Token) :
    openBraces depth (t :: ts) = (nest t.kind depth).bind (openBraces · ts) := rfl

theorem openBraces_one {depth depth' : Nat} {t : Token} (h : nest t.kind depth = some depth') :
    openBraces depth [t] = some depth' := by
  rw [openBraces_cons, h]
  rfl

theorem openBraces_append {depth depth' : Nat} {ts : List Token}
    (h : openBraces depth ts = some depth') (us : List Token) :
    openBraces depth (ts ++ us) = openBraces depth' us := by
  unfold openBraces at h ⊢
  rw [List.foldlM_append, h]
  rfl

structure Consumes (used : List Token) (s s' : State) : Prop where
  rest : s.rest = used ++ s'.rest
  stop : s'.stop = s.stop
  diagnostics : s'.diagnostics = s.diagnostics

theorem Consumes.refl (s : State) : Consumes [] s s := ⟨rfl, rfl, rfl⟩

theorem Consumes.trans {used more : List Token} {s s' s'' : State} (h : Consumes used s s')
    (k : Consumes more s' s'') : Consumes (used ++ more) s s'' := by
  refine ⟨?_, k.stop.trans h.stop, k.diagnostics.trans h.diagnostics⟩
  rw [h.rest, k.rest, List.append_assoc]

theorem Consumes.one {a : Token} {rest : List Token} {s : State} (h : s.rest = a :: rest)
    (symbols : SymbolTable) : Consumes [a] s { s with rest, symbols } := ⟨h, rfl, rfl⟩

/-- Both readers show the token `a` next. Behind it they are related by `R`, or by `D` if it is a
semicolon, whatever names have been mentioned. -/
structure Shares (R D : State → State → Prop) (s t : State) (a : Token) (rest rest' : List Token) :
    Prop where
  left : s.rest = a :: rest
  right : t.rest = a :: rest'
  on : a.kind ≠ .semicolon → ∀ symbols symbols',
    R { s with rest, symbols } { t with rest := rest', symbols := symbols' }
  off : a.kind = .semicolon → ∀ symbols symbols',
    D { s with rest, symbols } { t with rest := rest', symbols := symbols' }

structure Window (R D : State → State → Prop) : Prop where
  next : ∀ {s t : State}, R s t → (s.rest = [] ∧ t.rest = [] ∧ s.stop = t.stop) ∨
    ∃ a rest rest', Shares R D s t a rest rest'

def Blames (d : Diagnostic) (seen : List Token) (s : State) : Prop :=
  d.span.start = s.span.start ∨ ∃ a ∈ seen, d.span.start = a.span.start

section Judgement

variable {R D E : State → State → Prop} {s t : State}

theorem Window.kind (w : Window R D) (h : R s t) : t.kind = s.kind := by
  obtain ⟨hs, ht, -⟩ | ⟨a, rest, rest', ha⟩ := w.next h
  · rw [s.kind_eq, t.kind_eq, hs, ht]
  · rw [s.kind_eq, t.kind_eq, ha.left, ha.right]
    rfl

theorem Window.span (w : Window R D) (h : R s t) : t.span = s.span := by
  unfold State.span
  obtain ⟨hs, ht, hstop⟩ | ⟨a, rest, rest', ha⟩ := w.next h
  · rw [hs, ht, hstop]
  · rw [ha.left, ha.right]

/-- Both parsers give one result, with the states behind it related by `E` and `k'` braces open, or
both stop for one reason with states related by `R`. Either way they have read the same tokens.
The tokens `seen` were read before, when `k` braces were open. -/
def Agrees {α : Type} (R E : State → State → Prop) (k k' : Nat) (seen : List Token)
    (p q : Parser α) (s t : State) (done : α → List Token → Prop := fun _ _ => True) : Prop :=
  match p s, q t with
  | .ok a s', .ok b t' => a = b ∧ E s' t' ∧ ∃ used, Consumes used s s' ∧ Consumes used t t' ∧
      openBraces k used = some k' ∧ done a (seen ++ used)
  | .error d s', .error e t' => d = e ∧ R s' t' ∧ ∃ used k'', Consumes used s s' ∧
      Consumes used t t' ∧ openBraces k used = some k'' ∧ Blames d (seen ++ used) s'
  | _, _ => False

namespace Agrees

variable {α β : Type} {k k₁ k' : Nat} {seen : List Token} {p q : Parser α}
  {done done' : α → List Token → Prop}

theorem of_ok {a : α} {s' t' : State} {used : List Token} (hs : p s = .ok a s')
    (ht : q t = .ok a t') (hE : E s' t') (hus : Consumes used s s') (hut : Consumes used t t')
    (hk : openBraces k used = some k') (hd : done a (seen ++ used)) :
    Agrees R E k k' seen p q s t done := by
  unfold Agrees
  rw [hs, ht]
  exact ⟨rfl, hE, used, hus, hut, hk, hd⟩

theorem of_error {d : Diagnostic} (hs : p s = .error d s) (ht : q t = .error d t) (hR : R s t)
    (hd : Blames d seen s) : Agrees R E k k' seen p q s t done := by
  unfold Agrees
  rw [hs, ht]
  exact ⟨rfl, hR, [], k, .refl s, .refl t, rfl, by simpa using hd⟩

theorem pure {a : α} (hE : E s t) (hd : done a seen) :
    Agrees R E k k seen (Pure.pure a) (Pure.pure a) s t done :=
  of_ok rfl rfl hE (.refl s) (.refl t) rfl (by simpa using hd)

theorem throw {d : Diagnostic} (hR : R s t) (hd : Blames d seen s) :
    Agrees R E k k' seen (MonadExcept.throw d : Parser α) (MonadExcept.throw d) s t done :=
  of_error rfl rfl hR hd

theorem ok_left (h : Agrees R E k k' seen p q s t done) {a : α} {t' : State}
    (ht : q t = .ok a t') :
    ∃ s' used, p s = .ok a s' ∧ E s' t' ∧ Consumes used s s' ∧ openBraces k used = some k' := by
  unfold Agrees at h
  rw [ht] at h
  split at h
  · next a' s' b t'' hs heq =>
    cases heq
    obtain ⟨rfl, hE, used, hus, -, hk, -⟩ := h
    exact ⟨s', used, hs, hE, hus, hk⟩
  · next heq => cases heq
  · exact h.elim

theorem error_left (h : Agrees R E k k' seen p q s t done) {d : Diagnostic} {t' : State}
    (ht : q t = .error d t') :
    ∃ s' used k'', p s = .error d s' ∧ R s' t' ∧ Consumes used s s' ∧
      openBraces k used = some k'' := by
  unfold Agrees at h
  rw [ht] at h
  split at h
  · next heq => cases heq
  · next d' s' e t'' hs heq =>
    cases heq
    obtain ⟨rfl, hR, used, k'', hus, -, hk, -⟩ := h
    exact ⟨s', used, k'', hs, hR, hus, hk⟩
  · exact h.elim

theorem of_step {p' q' : Parser α} {s₁ t₁ : State} {used : List Token} (hs : p s = p' s₁)
    (ht : q t = q' t₁) (hus : Consumes used s s₁) (hut : Consumes used t t₁)
    (hk : openBraces k used = some k₁) (h : Agrees R E k₁ k' (seen ++ used) p' q' s₁ t₁ done) :
    Agrees R E k k' seen p q s t done := by
  unfold Agrees at h ⊢
  rw [hs, ht]
  split at h
  · obtain ⟨hab, hE, more, hms, hmt, hk', hd⟩ := h
    refine ⟨hab, hE, used ++ more, hus.trans hms, hut.trans hmt, ?_, ?_⟩
    · rw [openBraces_append hk, hk']
    · rwa [← List.append_assoc]
  · obtain ⟨hde, hR, more, k'', hms, hmt, hk', hd⟩ := h
    refine ⟨hde, hR, used ++ more, k'', hus.trans hms, hut.trans hmt, ?_, ?_⟩
    · rw [openBraces_append hk, hk']
    · rwa [← List.append_assoc]
  · exact h.elim

theorem bind {f g : α → Parser β} {done' : β → List Token → Prop}
    (h : Agrees R R k k₁ seen p q s t done)
    (hf : ∀ a s' t' more, R s' t' → done a (seen ++ more) →
      Agrees R E k₁ k' (seen ++ more) (f a) (g a) s' t' done') :
    Agrees R E k k' seen (p >>= f) (q >>= g) s t done' := by
  unfold Agrees at h
  split at h
  · next a s' b t' hs ht =>
    obtain ⟨rfl, hR, used, hus, hut, hk, hd⟩ := h
    exact of_step (bind_ok hs) (bind_ok ht) hus hut hk (hf a s' t' used hR hd)
  · next d s' e t' hs ht =>
    obtain ⟨rfl, hrest⟩ := h
    unfold Agrees
    rw [bind_error hs, bind_error ht]
    exact ⟨rfl, hrest⟩
  · exact h.elim

theorem map {f : α → β} {done' : β → List Token → Prop} (h : Agrees R E k k' seen p q s t done)
    (hd : ∀ a seen, done a seen → done' (f a) seen) :
    Agrees R E k k' seen (p >>= fun a => Pure.pure (f a)) (q >>= fun a => Pure.pure (f a)) s t
      done' := by
  unfold Agrees at h
  split at h
  · next a s' b t' hs ht =>
    obtain ⟨rfl, hE, used, hus, hut, hk, hdone⟩ := h
    exact of_ok (bind_ok hs) (bind_ok ht) hE hus hut hk (hd a _ hdone)
  · next d s' e t' hs ht =>
    unfold Agrees
    rw [bind_error hs, bind_error ht]
    exact h
  · exact h.elim

theorem get_bind {f g : State → Parser α} (h : Agrees R E k k' seen (f s) (g t) s t done) :
    Agrees R E k k' seen (get >>= f) (get >>= g) s t done := h

theorem peek_bind {f g : TokenKind → Parser α} (w : Window R D) (hR : R s t)
    (h : Agrees R E k k' seen (f s.kind) (g s.kind) s t done) :
    Agrees R E k k' seen (peek >>= f) (peek >>= g) s t done := by
  have hg : (peek >>= g) t = g s.kind t := by rw [bind_ok (peek_eq t), w.kind hR]
  unfold Agrees at h ⊢
  rw [bind_ok (peek_eq s), hg]
  exact h

theorem fail {problem : Problem} (w : Window R D) (hR : R s t) :
    Agrees R E k k' seen (Parser.fail problem : Parser α) (Parser.fail problem) s t done := by
  refine get_bind ?_
  rw [w.span hR]
  exact throw hR (.inl rfl)

theorem remaining_bind {f g : Nat → Parser α} (hf : Settles f) (hg : Settles g)
    (h : ∀ fuel, Agrees R E k k' seen (f fuel) (g fuel) s t done) :
    Agrees R E k k' seen (remaining >>= f) (remaining >>= g) s t done := by
  have hrun := h (s.rest.length + t.rest.length)
  have hs : (remaining >>= f) s = f (s.rest.length + t.rest.length) s := (hf s t.rest.length).symm
  have ht : (remaining >>= g) t = g (s.rest.length + t.rest.length) t := by
    rw [Nat.add_comm]
    exact (hg t s.rest.length).symm
  unfold Agrees at hrun ⊢
  rw [hs, ht]
  exact hrun

end Agrees

theorem Settles.bind {α β : Type} {loop : Nat → Parser α} (h : Settles loop)
    (f : α → Parser β) : Settles fun fuel => loop fuel >>= f :=
  fun s extra => bind_congr_step (h s extra)

end Judgement

theorem Shares.advance {R D : State → State → Prop} {s t : State} {a : Token}
    {rest rest' : List Token} (h : Shares R D s t a rest rest') {k k' : Nat} {seen : List Token}
    (hne : a.kind ≠ .semicolon) (hn : nest a.kind k = some k') :
    Agrees R R k k' seen Parser.advance Parser.advance s t (fun _ seen => a ∈ seen) := by
  refine .of_ok (advance_eq h.left) (advance_eq h.right) (h.on hne _ _) (.one h.left _)
    (.one h.right _) (openBraces_one hn) (by simp)

section Tokens

variable {R D : State → State → Prop} (w : Window R D) {k k' : Nat} {seen : List Token}
  {s t : State} (hR : R s t) {kind : TokenKind}

include w hR

theorem accept?_alongside (kind : TokenKind) :
    (accept? kind s = .ok none s ∧ accept? kind t = .ok none t) ∨
    ∃ a rest rest', a.kind = kind ∧ Shares R D s t a rest rest' ∧
      accept? kind s = .ok (some a) { s with rest } ∧
      accept? kind t = .ok (some a) { t with rest := rest' } := by
  obtain ⟨hs, ht, -⟩ | ⟨a, rest, rest', ha⟩ := w.next hR
  · exact .inl ⟨accept?_nil hs kind, accept?_nil ht kind⟩
  · rw [accept?_cons ha.left, accept?_cons ha.right]
    by_cases hk : a.kind = kind
    · rw [if_pos hk, if_pos hk]
      exact .inr ⟨a, rest, rest', hk, ha, rfl, rfl⟩
    · rw [if_neg hk, if_neg hk]
      exact .inl ⟨rfl, rfl⟩

theorem accept_agrees (hne : kind ≠ .semicolon) (hn : nest kind k = some k) :
    Agrees R R k k seen (accept kind) (accept kind) s t := by
  obtain ⟨hs, ht⟩ | ⟨a, rest, rest', rfl, ha, hs, ht⟩ := accept?_alongside w hR kind
  · exact .of_ok (bind_ok hs) (bind_ok ht) hR (.refl s) (.refl t) rfl trivial
  · exact .of_ok (bind_ok hs) (bind_ok ht) (ha.on hne _ _) (.one ha.left _) (.one ha.right _)
      (openBraces_one hn) trivial

theorem expect_alongside (kind : TokenKind) :
    (∃ d, expect kind s = .error d s ∧ expect kind t = .error d t ∧ d.span = s.span) ∨
    ∃ a rest rest', a.kind = kind ∧ Shares R D s t a rest rest' ∧
      expect kind s = .ok a { s with rest } ∧ expect kind t = .ok a { t with rest := rest' } := by
  obtain ⟨hs, ht⟩ | ⟨a, rest, rest', hk, ha, hs, ht⟩ := accept?_alongside w hR kind
  · refine .inl ⟨⟨.expectedToken (.token kind), s.span⟩, bind_ok hs, ?_, rfl⟩
    rw [← w.span hR]
    exact bind_ok ht
  · exact .inr ⟨a, rest, rest', hk, ha, bind_ok hs, bind_ok ht⟩

theorem expect_agrees (hne : kind ≠ .semicolon) (hn : nest kind k = some k') :
    Agrees R R k k' seen (expect kind) (expect kind) s t (fun a seen => a ∈ seen) := by
  obtain ⟨d, hs, ht, hd⟩ | ⟨a, rest, rest', rfl, ha, hs, ht⟩ := expect_alongside w hR kind
  · exact .of_error hs ht hR (.inl (congrArg Span.start hd))
  · exact .of_ok hs ht (ha.on hne _ _) (.one ha.left _) (.one ha.right _) (openBraces_one hn)
      (by simp)

/-- Behind a semicolon the runs may part. -/
theorem semicolon_agrees :
    Agrees R D k k seen (expect .semicolon) (expect .semicolon) s t := by
  obtain ⟨d, hs, ht, hd⟩ | ⟨a, rest, rest', hk, ha, hs, ht⟩ := expect_alongside w hR .semicolon
  · exact .of_error hs ht hR (.inl (congrArg Span.start hd))
  · exact .of_ok hs ht (ha.off hk _ _) (.one ha.left _) (.one ha.right _)
      (openBraces_one (by rw [hk]; rfl)) trivial

theorem expectName_agrees :
    Agrees R R k k seen expectName expectName s t (fun a seen => a ∈ seen) := by
  obtain ⟨d, hs, ht, hd⟩ | ⟨a, rest, rest', hk, ha, hs, ht⟩ := expect_alongside w hR .identifier
  · exact .of_error (bind_error hs) (bind_error ht) hR (.inl (congrArg Span.start hd))
  · have hne : a.kind ≠ .semicolon := by simp [hk]
    exact .of_ok (bind_ok hs) (bind_ok ht) (ha.on hne _ _) (.one ha.left _) (.one ha.right _)
      (openBraces_one (by rw [hk]; rfl)) (by simp)

end Tokens

section Literals

variable {R : State → State → Prop} {k : Nat} {u : Token} {seen : List Token} {s t : State}
  (hR : R s t) (hu : u ∈ seen)

include hR hu

theorem integerLiteral_agrees : Agrees R R k k seen (integerLiteral u) (integerLiteral u) s t := by
  unfold integerLiteral
  split
  · exact .pure hR trivial
  · exact .throw hR (.inr ⟨u, hu, rfl⟩)

theorem floatLiteral_agrees : Agrees R R k k seen (floatLiteral u) (floatLiteral u) s t := by
  unfold floatLiteral
  split
  · exact .pure hR trivial
  · exact .throw hR (.inr ⟨u, hu, rfl⟩)

end Literals

theorem binaryOp?_plain {kind : TokenKind} {op : BinaryOp} (h : binaryOp? kind = some op)
    (k : Nat) : kind ≠ .semicolon ∧ nest kind k = some k := by
  cases kind <;> cases h <;> exact ⟨by decide, rfl⟩

theorem relation?_plain {kind : TokenKind} {relation : Relation}
    (h : relation? kind = some relation) (k : Nat) :
    kind ≠ .semicolon ∧ nest kind k = some k := by
  cases kind <;> cases h <;> exact ⟨by decide, rfl⟩

theorem kindOf?_plain {kind : TokenKind} {base : Kind} (h : kindOf? kind = some base) (k : Nat) :
    kind ≠ .semicolon ∧ nest kind k = some k := by
  cases kind <;> cases h <;> exact ⟨by decide, rfl⟩

section Expression

variable {R D : State → State → Prop} (w : Window R D) {k : Nat}

theorem Window.shares (w : Window R D) {s t : State} (hR : R s t) (h : s.kind ≠ .eof) :
    ∃ a rest rest', a.kind = s.kind ∧ Shares R D s t a rest rest' := by
  obtain ⟨hs, -, -⟩ | ⟨a, rest, rest', ha⟩ := w.next hR
  · rw [s.kind_eq, hs] at h
    exact absurd rfl h
  · refine ⟨a, rest, rest', ?_, ha⟩
    rw [s.kind_eq, ha.left]
    rfl

theorem signed_agrees {R : State → State → Prop} {k : Nat} {inner : Nat → Parser Expr}
    (hinner : ∀ least seen s t, R s t → Agrees R R k k seen (inner least) (inner least) s t)
    (op : UnaryOp) (sign : Token) {seen : List Token} {s t : State} (hR : R s t) :
    Agrees R R k k seen (signed inner op sign) (signed inner op sign) s t :=
  (hinner _ _ s t hR).bind fun _ _ _ _ h _ => .pure h trivial

include w

theorem minLiteral?_alongside (sign : Token) {s t : State} (hR : R s t) :
    (minLiteral? sign s.rest = none ∧ minLiteral? sign t.rest = none) ∨
    ∃ u e rest rest', u.kind = .int ∧ Shares R D s t u rest rest' ∧
      minLiteral? sign s.rest = some (e, rest) ∧ minLiteral? sign t.rest = some (e, rest') := by
  obtain ⟨hs, ht, -⟩ | ⟨u, rest, rest', hu⟩ := w.next hR
  · rw [hs, ht]
    exact .inl ⟨rfl, rfl⟩
  · rw [hu.left, hu.right]
    unfold minLiteral?
    by_cases hmin : (u.kind = .int && Number.isMinMagnitude u.lexeme) = true
    · have hk : u.kind = .int := by simp_all
      exact .inr ⟨u, _, rest, rest', hk, hu, if_pos hmin, if_pos hmin⟩
    · exact .inl ⟨if_neg hmin, if_neg hmin⟩

theorem place_agrees {inner : Parser Expr} {seen : List Token} {s t : State} (hR : R s t)
    (hi : ∀ seen s t, R s t → Agrees R R k k seen inner inner s t) :
    Agrees R R k k seen (place inner) (place inner) s t := by
  refine (expectName_agrees w hR).bind fun name s₁ t₁ _ h₁ _ => ?_
  refine (accept_agrees w h₁ (by decide) rfl).bind fun b s₂ t₂ _ h₂ _ => ?_
  cases b with
  | false => exact .pure h₂ trivial
  | true =>
    refine (hi _ s₂ t₂ h₂).bind fun i s₃ t₃ _ h₃ _ => ?_
    exact (expect_agrees w h₃ (by decide) rfl).bind fun u s₄ t₄ _ h₄ _ => .pure h₄ trivial

variable {inner : Nat → Parser Expr}
  (hinner : ∀ least seen s t, R s t → Agrees R R k k seen (inner least) (inner least) s t)

include hinner

theorem operand_agrees {seen : List Token} {s t : State} (hR : R s t) :
    Agrees R R k k seen (operand inner) (operand inner) s t := by
  refine .get_bind ?_
  obtain ⟨hs, ht, -⟩ | ⟨a, rest, rest', ha⟩ := w.next hR
  · rw [hs, ht]
    exact .fail w hR
  · rw [ha.left, ha.right]
    have hsign : ∀ op, a.kind ≠ .semicolon → nest a.kind k = some k →
        Agrees R R k k seen (advance >>= fun _ => signed inner op a)
          (advance >>= fun _ => signed inner op a) s t := fun op hne hn =>
      (ha.advance hne hn).bind fun _ s₁ t₁ _ h₁ _ => signed_agrees hinner op a h₁
    dsimp only
    cases hk : a.kind
    case minus =>
      have hne : a.kind ≠ .semicolon := by simp [hk]
      have hon := ha.on hne s.symbols t.symbols
      obtain ⟨hs, ht⟩ | ⟨u, e, us, us', hu, hshares, hs, ht⟩ := minLiteral?_alongside w a hon
      · dsimp only at hs ht
        rw [hs, ht]
        exact hsign .neg hne (by rw [hk]; rfl)
      · dsimp only at hs ht
        rw [hs, ht]
        have hus : rest = u :: us := hshares.left
        have hut : rest' = u :: us' := hshares.right
        subst hus hut
        have hread : openBraces k [a, u] = some k := by
          simp only [openBraces, List.foldlM, hk, hu]
          rfl
        have hus : Consumes [a, u] s { s with rest := us } := ⟨ha.left, rfl, rfl⟩
        have hut : Consumes [a, u] t { t with rest := us' } := ⟨ha.right, rfl, rfl⟩
        exact .of_ok rfl rfl (hshares.on (by simp [hu]) _ _) hus hut hread trivial
    case plus => exact hsign .plus (by simp [hk]) (by rw [hk]; rfl)
    case leftParen =>
      refine (ha.advance (by simp [hk]) (by rw [hk]; rfl)).bind fun _ s₁ t₁ _ h₁ _ => ?_
      refine (hinner _ _ s₁ t₁ h₁).bind fun e s₂ t₂ _ h₂ _ => ?_
      exact (expect_agrees w h₂ (by decide) rfl).bind fun _ _ _ _ h₃ _ => .pure h₃ trivial
    case int =>
      dsimp only
      split
      · exact .fail w hR
      · refine (ha.advance (by simp [hk]) (by rw [hk]; rfl)).bind fun _ s₁ t₁ _ h₁ ha => ?_
        exact integerLiteral_agrees h₁ ha
    case hex =>
      refine (ha.advance (by simp [hk]) (by rw [hk]; rfl)).bind fun _ s₁ t₁ _ h₁ ha => ?_
      exact integerLiteral_agrees h₁ ha
    case float =>
      refine (ha.advance (by simp [hk]) (by rw [hk]; rfl)).bind fun _ s₁ t₁ _ h₁ ha => ?_
      exact floatLiteral_agrees h₁ ha
    case identifier =>
      exact (place_agrees w hR (hinner 0)).bind fun _ _ _ _ h₁ _ => .pure h₁ trivial
    all_goals exact .fail w hR

theorem climb_agrees (least fuel : Nat) (left : Expr) {seen : List Token} {s t : State}
    (hR : R s t) :
    Agrees R R k k seen (climb inner least fuel left) (climb inner least fuel left) s t := by
  induction fuel generalizing left seen s t with
  | zero => exact .pure hR trivial
  | succ fuel ih =>
    refine .peek_bind w hR ?_
    split
    · exact .pure hR trivial
    · next op hop =>
      split
      · exact .pure hR trivial
      · obtain ⟨a, rest, rest', hk, ha⟩ := w.shares hR (by
          intro hk
          rw [hk] at hop
          cases hop)
        rw [← hk] at hop
        obtain ⟨hne, hn⟩ := binaryOp?_plain hop k
        refine (ha.advance hne hn).bind fun _ s₁ t₁ _ h₁ _ => ?_
        exact (hinner _ _ s₁ t₁ h₁).bind fun r s₂ t₂ _ h₂ _ => ih _ h₂

end Expression

def declaredNames (start : Span) (constant : Bool) (kind : Kind) : Parser (List Variable) := do
  let first ← declarator start kind constant
  let more ← moreDeclarators start kind constant (← remaining)
  let _ ← expect .semicolon
  return first :: more

def typedNames (start : Span) (constant : Bool) : Parser (List Variable) := do
  match kindOf? (← peek) with
  | none => fail (.expectedToken .baseType)
  | some kind =>
    advance
    declaredNames start constant kind

theorem variableDeclaration_eq :
    variableDeclaration = (do
      let start := (← get).span
      let constant ← accept .constKeyword
      typedNames start constant) := rfl

section Declaration

variable {R D : State → State → Prop} (w : Window R D) {k : Nat}

include w

theorem expressionAt_agrees (depth least : Nat) (seen : List Token) (s t : State) (hR : R s t) :
    Agrees R R k k seen (expressionAt depth least) (expressionAt depth least) s t := by
  induction depth generalizing least seen s t with
  | zero => exact .fail w hR
  | succ depth ih =>
    refine (operand_agrees w ih hR).bind fun e s₁ t₁ _ h₁ _ => ?_
    have hsettles := terminates.operators depth least e
    exact .remaining_bind hsettles hsettles fun fuel => climb_agrees w ih least fuel e h₁

theorem expression_agrees {seen : List Token} {s t : State} (hR : R s t) :
    Agrees R R k k seen expression expression s t :=
  expressionAt_agrees w maxDepth 0 seen s t hR

theorem condition_agrees {seen : List Token} {s t : State} (hR : R s t) :
    Agrees R R k k seen condition condition s t := by
  refine (expression_agrees w hR).bind fun l s₁ t₁ _ h₁ _ => .peek_bind w h₁ ?_
  split
  · exact .fail w h₁
  · next relation hrel =>
    obtain ⟨a, rest, rest', hk, ha⟩ := w.shares h₁ (by
      intro hk
      rw [hk] at hrel
      cases hrel)
    rw [← hk] at hrel
    obtain ⟨hne, hn⟩ := relation?_plain hrel k
    refine (ha.advance hne hn).bind fun _ s₂ t₂ _ h₂ _ => ?_
    exact (expression_agrees w h₂).bind fun r s₃ t₃ _ h₃ _ => .pure h₃ trivial

theorem parenthesized_agrees {seen : List Token} {s t : State} (hR : R s t) :
    Agrees R R k k seen parenthesized parenthesized s t := by
  refine (expect_agrees w hR (by decide) rfl).bind fun _ s₁ t₁ _ h₁ _ => ?_
  refine (condition_agrees w h₁).bind fun c s₂ t₂ _ h₂ _ => ?_
  exact (expect_agrees w h₂ (by decide) rfl).bind fun _ s₃ t₃ _ h₃ _ => .pure h₃ trivial

theorem moreElements_agrees (fuel : Nat) {seen : List Token} {s t : State} (hR : R s t) :
    Agrees R R k k seen (moreElements fuel) (moreElements fuel) s t := by
  induction fuel generalizing seen s t with
  | zero => exact .pure hR trivial
  | succ fuel ih =>
    refine (accept_agrees w hR (by decide) rfl).bind fun b s₁ t₁ _ h₁ _ => ?_
    cases b with
    | false => exact .pure h₁ trivial
    | true =>
      refine .peek_bind w h₁ ?_
      split
      · exact .pure h₁ trivial
      · refine (expression_agrees w h₁).bind fun e s₂ t₂ _ h₂ _ => ?_
        exact (ih h₂).bind fun es s₃ t₃ _ h₃ _ => .pure h₃ trivial

theorem braceList_agrees {seen : List Token} {s t : State} (hR : R s t) :
    Agrees R R k k seen braceList braceList s t := by
  have hopen : nest .leftBrace k = some (k + 1) := rfl
  refine (expect_agrees w hR (by decide) hopen).bind fun _ s₁ t₁ _ h₁ _ => ?_
  obtain ⟨hs, ht⟩ | ⟨a, rest, rest', hk, ha, hs, ht⟩ := accept?_alongside w h₁ .rightBrace
  · refine .of_step (bind_ok hs) (bind_ok ht) (.refl s₁) (.refl t₁) rfl ?_
    refine (expression_agrees w h₁).bind fun e s₂ t₂ _ h₂ _ => ?_
    refine .remaining_bind (terminates.elements.bind _) (terminates.elements.bind _) fun fuel => ?_
    refine (moreElements_agrees w fuel h₂).bind fun es s₃ t₃ _ h₃ _ => ?_
    exact (expect_agrees w h₃ (by decide) rfl).map fun _ _ _ => trivial
  · have hclose : openBraces (k + 1) [a] = some k := openBraces_one (by rw [hk]; rfl)
    refine .of_step (bind_ok hs) (bind_ok ht) (.one ha.left _) (.one ha.right _) hclose ?_
    exact .pure (ha.on (by simp [hk]) _ _) trivial

theorem brackets_agrees {name : Token} {seen : List Token} {s t : State} (hR : R s t)
    (hname : name ∈ seen) :
    Agrees R R k k seen (brackets name) (brackets name) s t
      (fun r seen => ∃ a ∈ seen, r.2 = a.span) := by
  refine (accept_agrees w hR (by decide) rfl).bind fun b s₁ t₁ more h₁ _ => ?_
  cases b with
  | false => exact .pure h₁ ⟨name, List.mem_append_left more hname, rfl⟩
  | true =>
    refine .peek_bind w h₁ ?_
    split
    · refine (expect_agrees w h₁ (by decide) rfl).bind fun u s₂ t₂ _ h₂ hu => ?_
      exact .pure h₂ ⟨u, hu, rfl⟩
    · refine (expression_agrees w h₁).bind fun e s₂ t₂ _ h₂ _ => ?_
      refine (expect_agrees w h₂ (by decide) rfl).bind fun u s₃ t₃ _ h₃ hu => ?_
      exact .pure h₃ ⟨u, hu, rfl⟩

theorem initializer_agrees (isArray : Bool) {seen : List Token} {s t : State} (hR : R s t) :
    Agrees R R k k seen (initializer isArray) (initializer isArray) s t := by
  refine .peek_bind w hR ?_
  split
  · split
    · exact (braceList_agrees w hR).bind fun r s₁ t₁ _ h₁ _ => .pure h₁ trivial
    · exact .fail w hR
  · split
    · exact .fail w hR
    · exact (expression_agrees w hR).bind fun e s₁ t₁ _ h₁ _ => .pure h₁ trivial

theorem declarator_agrees {start : Token} (kind : Kind) (constant : Bool) {seen : List Token}
    {s t : State} (hR : R s t) (hstart : start ∈ seen) :
    Agrees R R k k seen (declarator start.span kind constant)
      (declarator start.span kind constant) s t := by
  refine (expectName_agrees w hR).bind fun name s₁ t₁ m₁ h₁ hname => ?_
  refine (brackets_agrees w h₁ hname).bind fun r s₂ t₂ m₂ h₂ hr => ?_
  obtain ⟨found, bracketSpan⟩ := r
  obtain ⟨last, hlast, rfl⟩ := hr
  refine (accept_agrees w h₂ (by decide) rfl).bind fun b s₃ t₃ m₃ h₃ _ => ?_
  have hlast := List.mem_append_left m₃ hlast
  have hstart := List.mem_append_left m₃ (List.mem_append_left m₂ (List.mem_append_left m₁ hstart))
  cases b with
  | true => exact (initializer_agrees w _ h₃).bind fun r s₄ t₄ _ h₄ _ => .pure h₄ trivial
  | false =>
    dsimp only
    rw [if_neg Bool.false_ne_true]
    split
    · -- the span reaches from the first token of the declaration to the name or its brackets
      refine .throw h₃ (.inr ?_)
      rcases Nat.le_total start.span.start last.span.start with hle | hle
      · exact ⟨start, hstart, Nat.min_eq_left hle⟩
      · exact ⟨last, hlast, Nat.min_eq_right hle⟩
    · cases found with
      | absent => exact .pure h₃ trivial
      | unstated => exact .throw h₃ (.inr ⟨last, hlast, rfl⟩)
      | length e => exact .pure h₃ trivial

theorem moreDeclarators_agrees {start : Token} (kind : Kind) (constant : Bool) (fuel : Nat)
    {seen : List Token} {s t : State} (hR : R s t) (hstart : start ∈ seen) :
    Agrees R R k k seen (moreDeclarators start.span kind constant fuel)
      (moreDeclarators start.span kind constant fuel) s t := by
  induction fuel generalizing seen s t with
  | zero => exact .pure hR trivial
  | succ fuel ih =>
    refine (accept_agrees w hR (by decide) rfl).bind fun b s₁ t₁ m₁ h₁ _ => ?_
    have hstart := List.mem_append_left m₁ hstart
    cases b with
    | false => exact .pure h₁ trivial
    | true =>
      refine (declarator_agrees w kind constant h₁ hstart).bind fun v s₂ t₂ m₂ h₂ _ => ?_
      have hstart := List.mem_append_left m₂ hstart
      exact (ih h₂ hstart).bind fun vs s₃ t₃ _ h₃ _ => .pure h₃ trivial

theorem declaredNames_agrees {start : Token} (constant : Bool) (kind : Kind) {seen : List Token}
    {s t : State} (hR : R s t) (hstart : start ∈ seen) :
    Agrees R D k k seen (declaredNames start.span constant kind)
      (declaredNames start.span constant kind) s t := by
  refine (declarator_agrees w kind constant hR hstart).bind fun v s₁ t₁ m₁ h₁ _ => ?_
  have hstart := List.mem_append_left m₁ hstart
  have hsettles := terminates.declarators start.span kind constant
  refine .remaining_bind (hsettles.bind _) (hsettles.bind _) fun fuel => ?_
  refine (moreDeclarators_agrees w kind constant fuel h₁ hstart).bind fun vs s₂ t₂ _ h₂ _ => ?_
  exact (semicolon_agrees w h₂).map fun _ _ _ => trivial

theorem typedNames_agrees {start : Span} (constant : Bool) {seen : List Token} {s t : State}
    (hR : R s t) (hstart : ∀ a rest, s.rest = a :: rest → ∃ b ∈ seen ++ [a], start = b.span) :
    Agrees R D k k seen (typedNames start constant) (typedNames start constant) s t := by
  refine .peek_bind w hR ?_
  split
  · exact .fail w hR
  · next kind hkind =>
    obtain ⟨a, rest, rest', hk, ha⟩ := w.shares hR (by
      intro hk
      rw [hk] at hkind
      cases hkind)
    rw [← hk] at hkind
    obtain ⟨hne, hn⟩ := kindOf?_plain hkind k
    refine .of_step (bind_ok (advance_eq ha.left)) (bind_ok (advance_eq ha.right)) (.one ha.left _)
      (.one ha.right _) (openBraces_one hn) ?_
    obtain ⟨first, hfirst, rfl⟩ := hstart a rest ha.left
    exact declaredNames_agrees w constant kind (ha.on hne _ _) hfirst

theorem variableDeclaration_agrees {seen : List Token} {s t : State} (hR : R s t) :
    Agrees R D k k seen variableDeclaration variableDeclaration s t := by
  rw [variableDeclaration_eq]
  refine .get_bind ?_
  rw [w.span hR]
  obtain ⟨hs, ht⟩ | ⟨a, rest, rest', hk, ha, hs, ht⟩ := accept?_alongside w hR .constKeyword
  · refine .of_step (bind_ok (bind_ok hs)) (bind_ok (bind_ok ht)) (.refl s) (.refl t) rfl ?_
    refine typedNames_agrees w false hR fun a rest ha => ⟨a, by simp, ?_⟩
    rw [State.span, ha]
  · have hone : openBraces k [a] = some k := openBraces_one (by rw [hk]; rfl)
    refine .of_step (bind_ok (bind_ok hs)) (bind_ok (bind_ok ht)) (.one ha.left _) (.one ha.right _)
      hone ?_
    refine typedNames_agrees w true (ha.on (by simp [hk]) _ _) fun b _ _ => ⟨a, by simp, ?_⟩
    rw [State.span, ha.left]

theorem call_agrees {seen : List Token} {s t : State} (hR : R s t) :
    Agrees R D k k seen call call s t := by
  refine (expectName_agrees w hR).bind fun name s₁ t₁ _ h₁ _ => ?_
  refine (expect_agrees w h₁ (by decide) rfl).bind fun _ s₂ t₂ _ h₂ _ => ?_
  refine (expect_agrees w h₂ (by decide) rfl).bind fun _ s₃ t₃ _ h₃ _ => ?_
  exact (semicolon_agrees w h₃).map fun _ _ _ => trivial

theorem assignment_agrees {seen : List Token} {s t : State} (hR : R s t) :
    Agrees R D k k seen assignment assignment s t := by
  refine (place_agrees w hR fun _ _ _ h => expression_agrees w h).bind fun p s₁ t₁ _ h₁ _ => ?_
  refine (expect_agrees w h₁ (by decide) rfl).bind fun _ s₂ t₂ _ h₂ _ => ?_
  refine (expression_agrees w h₂).bind fun e s₃ t₃ _ h₃ _ => ?_
  exact (semicolon_agrees w h₃).map fun _ _ _ => trivial

end Declaration

end C1Lang.Parser
