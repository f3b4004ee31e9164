import C1Lang.Proofs.Parser.Grammar
import C1Lang.Proofs.Sequencing

/-!
# What the parser reads

`Yields p s reads` describes every outcome of a parser at once. It gives a result, and when
nothing was reported on the way the tokens that it read are those that `reads` says; or it stops.
Either way it reports errors only and never gives tokens back. So a program that is read without
diagnostics is derived by the grammar (`program_yields`).
-/

namespace C1Lang.Parser

open Grammar

structure Grows (s s' : State) : Prop where
  diagnostics : ∃ ds, s'.diagnostics = s.diagnostics ++ ds ∧ ∀ d ∈ ds, d.isError = true
  rest : s'.rest <:+ s.rest

theorem Grows.refl (s : State) : Grows s s := ⟨⟨[], by simp, by simp⟩, List.suffix_rfl⟩

theorem Grows.trans {s s' s'' : State} (h : Grows s s') (k : Grows s' s'') : Grows s s'' := by
  obtain ⟨⟨ds, hds, hd⟩, hr⟩ := h
  obtain ⟨⟨es, hes, he⟩, hr'⟩ := k
  refine ⟨⟨ds ++ es, by rw [hes, hds, List.append_assoc], fun d hmem => ?_⟩, hr'.trans hr⟩
  rcases List.mem_append.mp hmem with hmem | hmem
  · exact hd d hmem
  · exact he d hmem

theorem Grows.quiet {s s' s'' : State} (h : Grows s s') (k : Grows s' s'')
    (hq : s''.diagnostics = s.diagnostics) :
    s'.diagnostics = s.diagnostics ∧ s''.diagnostics = s'.diagnostics := by
  obtain ⟨⟨ds, hds, -⟩, -⟩ := h
  obtain ⟨⟨es, hes, -⟩, -⟩ := k
  have hnil : ds ++ es = [] := by
    rw [hes, hds, List.append_assoc] at hq
    simpa using hq
  obtain ⟨rfl, rfl⟩ := List.append_eq_nil_iff.mp hnil
  simp_all

/-- The parser gives a result, which `reads` describes with the tokens that are left unless
something was reported, or it stops with an error. -/
def Yields {α : Type} (p : Parser α) (s : State) (reads : α → List Token → Prop) : Prop :=
  match p s with
  | .ok a s' => Grows s s' ∧ (s'.diagnostics = s.diagnostics → reads a s'.rest)
  | .error d s' => d.isError = true ∧ Grows s s'

theorem advance_eq {s : State} {t : Token} {ts : List Token} (hs : s.rest = t :: ts) :
    advance s = .ok () { s with rest := ts } := by
  have h : advance s = .ok () { s with rest := s.rest.drop 1 } := rfl
  rw [h, hs]
  rfl

theorem accept?_nil {s : State} (hs : s.rest = []) (kind : TokenKind) :
    accept? kind s = .ok none s := by
  unfold accept?
  rw [get_bind, hs]
  rfl

theorem accept?_cons {s : State} {a : Token} {rest : List Token} (hs : s.rest = a :: rest)
    (kind : TokenKind) :
    accept? kind s = if a.kind = kind then .ok (some a) { s with rest } else .ok none s := by
  unfold accept?
  rw [get_bind, hs]
  dsimp only
  split <;> rfl

namespace Yields

variable {α β : Type} {p : Parser α} {s : State} {reads reads' : α → List Token → Prop}

theorem mono (h : Yields p s reads) (hr : ∀ a rest, reads a rest → reads' a rest) :
    Yields p s reads' := by
  unfold Yields at h ⊢
  split at h
  · exact ⟨h.1, fun hq => hr _ _ (h.2 hq)⟩
  · exact h

theorem pure {a : α} (h : reads a s.rest) : Yields (Pure.pure a) s reads :=
  ⟨.refl s, fun _ => h⟩

theorem bind {f : α → Parser β} {reads' : β → List Token → Prop} (h : Yields p s reads)
    (hf : ∀ a s', Grows s s' →
      Yields (f a) s' (fun b rest => reads a s'.rest → reads' b rest)) :
    Yields (p >>= f) s reads' := by
  unfold Yields at h
  split at h
  · next a s' heq =>
    have hb := hf a s' h.1
    unfold Yields at hb ⊢
    rw [bind_ok heq]
    split at hb
    · next s'' heq' =>
      refine ⟨h.1.trans hb.1, fun hq => ?_⟩
      obtain ⟨hq₁, hq₂⟩ := h.1.quiet hb.1 hq
      exact hb.2 hq₂ (h.2 hq₁)
    · exact ⟨hb.1, h.1.trans hb.2⟩
  · next heq =>
    unfold Yields
    rw [bind_error heq]
    exact h

theorem get_bind {f : State → Parser β} {reads' : β → List Token → Prop}
    (h : Yields (f s) s reads') : Yields (get >>= f) s reads' := h

theorem peek_bind {f : TokenKind → Parser β} {reads' : β → List Token → Prop}
    (h : Yields (f s.kind) s reads') : Yields (peek >>= f) s reads' := h

theorem remaining_bind {f : Nat → Parser β} {reads' : β → List Token → Prop}
    (h : Yields (f s.rest.length) s reads') : Yields (remaining >>= f) s reads' := h

theorem throw {d : Diagnostic} (h : d.isError = true) :
    Yields (MonadExcept.throw d : Parser α) s reads :=
  ⟨h, .refl s⟩

theorem fail {problem : Problem} (h : problem.severity = .error) :
    Yields (Parser.fail problem : Parser α) s reads :=
  ⟨by simp [Diagnostic.isError, h], .refl s⟩

theorem bind_eq {f : α → Parser β} {reads' : β → List Token → Prop} {a : α} {s' : State}
    (hs : p s = .ok a s') (hd : s'.diagnostics = s.diagnostics)
    (hr : s'.rest <:+ s.rest) (h : Yields (f a) s' reads') :
    Yields (p >>= f) s reads' := by
  have hp : Yields p s (fun b rest => b = a ∧ rest = s'.rest) := by
    unfold Yields
    rw [hs]
    exact ⟨⟨⟨[], by simp [hd], by simp⟩, hr⟩, fun _ => ⟨rfl, rfl⟩⟩
  unfold Yields at hp h ⊢
  rw [hs] at hp
  rw [bind_ok hs]
  split at h
  · exact ⟨hp.1.trans h.1, fun hq => h.2 (hq.trans hd.symm)⟩
  · exact ⟨h.1, hp.1.trans h.2⟩

theorem advance_bind {t : Token} {ts : List Token} {f : PUnit → Parser β}
    {reads' : β → List Token → Prop} (hs : s.rest = t :: ts)
    (h : Yields (f ()) { s with rest := ts } reads') : Yields (advance >>= f) s reads' := by
  exact bind_eq (advance_eq hs) rfl (hs ▸ List.suffix_cons t ts) h

end Yields

def headKind : List Token → TokenKind
  | [] => .eof
  | t :: _ => t.kind

theorem State.kind_eq (s : State) : s.kind = headKind s.rest := by
  unfold State.kind headKind
  cases s.rest <;> rfl

theorem peekSecond_eq (s : State) : peekSecond s = .ok (headKind (s.rest.drop 1)) s := by
  unfold peekSecond
  rw [get_bind]
  cases s.rest with
  | nil => rfl
  | cons t ts => cases ts <;> rfl

def Next (kind : TokenKind) (s : State) (t : Token) (rest : List Token) : Prop :=
  s.rest = t :: rest ∧ t.kind = kind

theorem accept?_yields (kind : TokenKind) (s : State) :
    Yields (accept? kind) s (fun o rest =>
      match o with
      | some t => Next kind s t rest
      | none => rest = s.rest ∧ (kind ≠ .eof → headKind rest ≠ kind)) := by
  apply Yields.get_bind
  split
  · next hs =>
    refine .pure ⟨rfl, fun hk => ?_⟩
    rw [hs]
    exact hk.symm
  · next t ts hs =>
    split
    · next hk => exact .bind_eq rfl rfl (hs ▸ List.suffix_cons t ts) (.pure ⟨hs, hk⟩)
    · next hk =>
      refine .pure ⟨rfl, fun _ => ?_⟩
      rw [hs]
      exact hk

theorem accept_yields (kind : TokenKind) (s : State) :
    Yields (accept kind) s (fun b rest =>
      match b with
      | true => ∃ t, Next kind s t rest
      | false => rest = s.rest ∧ (kind ≠ .eof → headKind rest ≠ kind)) := by
  refine (accept?_yields kind s).bind fun o s' _ => ?_
  cases o with
  | some t => exact .pure fun h => ⟨t, h⟩
  | none => exact .pure fun h => h

theorem expect_yields (kind : TokenKind) (s : State) :
    Yields (expect kind) s (Next kind s) := by
  refine (accept?_yields kind s).bind fun o s' _ => ?_
  cases o with
  | some t => exact .pure fun h => h
  | none => exact .fail rfl

theorem expectName_yields (s : State) : Yields expectName s (Next .identifier s) := by
  refine (expect_yields .identifier s).bind fun t s' _ => ?_
  exact .bind_eq rfl rfl List.suffix_rfl (.pure fun h => h)

def level (least : Nat) : Level :=
  if least ≤ 10 then .sum else if least ≤ 20 then .term else .factor

def Stops (least : Nat) (ts : List Token) : Prop :=
  ∀ op, binaryOp? (headKind ts) = some op → leftPower op < least

/-- What is read with `depth` levels of nesting left. -/
def Reads (depth least : Nat) (ts : List Token) (e : Expr) (rest : List Token) : Prop :=
  (∃ k ≤ depth, Expression (level least) ts e k rest) ∧ Stops least rest

theorem place_yields {inner : Parser Expr} {reads : List Token → Expr → List Token → Prop}
    (hi : ∀ s, Yields inner s (reads s.rest)) (s : State) :
    Yields (place inner) s (fun p rest =>
      (∃ t, Next .identifier s t rest ∧ p = .name t.lexeme t.span) ∨
      ∃ t u v i ts, s.rest = t :: u :: ts ∧ t.kind = .identifier ∧ u.kind = .leftBracket ∧
        reads ts i (v :: rest) ∧ v.kind = .rightBracket ∧
        p = .element t.lexeme i (t.span.merge v.span)) := by
  refine (expectName_yields s).bind fun t s₁ _ => ?_
  refine (accept_yields .leftBracket s₁).bind fun b s₂ _ => ?_
  cases b with
  | false =>
    refine .pure fun hb ht => .inl ⟨t, ?_, rfl⟩
    rw [hb.1]
    exact ht
  | true =>
    refine (hi s₂).bind fun i s₃ _ => (expect_yields .rightBracket s₃).bind fun v s₄ _ => ?_
    refine .pure ?_
    intro hread₁ hi' hread₂ hread₃
    obtain ⟨hv, hvk⟩ := hread₁
    obtain ⟨u, hu, huk⟩ := hread₂
    obtain ⟨ht, htk⟩ := hread₃
    exact .inr ⟨t, u, v, i, s₂.rest, by rw [ht, hu], htk, huk, hv ▸ hi', hvk, rfl⟩

theorem minLiteral?_eq_some {t : Token} {ts rest : List Token} {e : Expr}
    (h : minLiteral? t ts = some (e, rest)) :
    ∃ u, ts = u :: rest ∧ u.kind = .int ∧ Number.isMinMagnitude u.lexeme = true ∧
      e = .literal (.int Int32.minValue) (t.span.merge u.span) := by
  cases ts with
  | nil => cases h
  | cons u us =>
    simp only [minLiteral?] at h
    split at h
    · next hu =>
      simp only [Bool.and_eq_true, decide_eq_true_eq] at hu
      cases h
      exact ⟨u, rfl, hu.1, hu.2, rfl⟩
    · cases h

theorem binaryOp?_cases {kind : TokenKind} {op : BinaryOp} (h : binaryOp? kind = some op) :
    sumOp? kind = some op ∧ leftPower op = 10 ∨ termOp? kind = some op ∧ leftPower op = 20 := by
  cases kind <;> cases h <;> simp [sumOp?, termOp?, leftPower]

theorem termOp?_of_stops {ts : List Token} (h : Stops 11 ts) : termOp? (headKind ts) = none := by
  cases ht : termOp? (headKind ts) with
  | none => rfl
  | some op =>
    have hb : binaryOp? (headKind ts) = some op ∧ leftPower op = 20 := by
      revert ht
      cases headKind ts <;> intro ht <;> cases ht <;> exact ⟨rfl, rfl⟩
    have := h op hb.1
    omega

/-- `left` was read from `ts` on, and the operators that bind tightly enough can extend it. A sum
is extended by no term operator. -/
def Extendable (least : Nat) (ts : List Token) (left : Expr) (j : Nat) (rest : List Token) :
    Prop :=
  match level least with
  | .sum => Expression .term ts left j rest ∨
      Expression .sum ts left j rest ∧ termOp? (headKind rest) = none
  | .term => Expression .term ts left j rest
  | .factor => Expression .factor ts left j rest

theorem Extendable.done {least j : Nat} {ts rest : List Token} {left : Expr}
    (h : Extendable least ts left j rest) : Expression (level least) ts left j rest := by
  unfold Extendable at h
  split at h
  · next hl => exact hl ▸ h.elim .term And.left
  · next hl => exact hl ▸ h
  · next hl => exact hl ▸ h

theorem Extendable.of_factor {j : Nat} {ts rest : List Token} {e : Expr} (least : Nat)
    (h : Expression .factor ts e j rest) : Extendable least ts e j rest := by
  unfold Extendable
  split
  · exact .inl (.factor h)
  · exact .factor h
  · exact h

theorem Extendable.extend {n least j : Nat} {ts us rest : List Token} {t : Token} {l r : Expr}
    {op : BinaryOp} (h : Extendable least ts l j (t :: us)) (ht : binaryOp? t.kind = some op)
    (hp : least ≤ leftPower op) (hr : Reads n (rightPower op) us r rest) :
    ∃ k ≤ n, Extendable least ts (.binary op l r (l.span.merge r.span)) (max j (k + 1)) rest := by
  obtain ⟨⟨k, hk, hr⟩, hstop⟩ := hr
  refine ⟨k, hk, ?_⟩
  rcases binaryOp?_cases ht with ⟨ht, h10⟩ | ⟨ht, h20⟩
  · have hsum : level least = .sum := by simp only [level, if_pos (h10 ▸ hp)]
    simp only [Extendable, hsum] at h ⊢
    rw [rightPower, h10] at hr hstop
    exact .inr ⟨.add (h.elim .term And.left) ht hr, termOp?_of_stops hstop⟩
  · have hmul : Expression .term ts l j (t :: us) →
        Expression .term ts (.binary op l r (l.span.merge r.span)) (max j (k + 1)) rest := by
      rw [rightPower, h20] at hr
      exact fun hl => .mul hl ht hr
    cases hl : level least with
    | sum =>
      simp only [Extendable, hl] at h ⊢
      rcases h with h | ⟨-, hn⟩
      · exact .inl (hmul h)
      · rw [headKind, ht] at hn
        cases hn
    | term =>
      simp only [Extendable, hl] at h ⊢
      exact hmul h
    | factor =>
      unfold level at hl
      split at hl
      · cases hl
      · rw [if_pos (h20 ▸ hp)] at hl
        cases hl

section Expression

variable {inner : Nat → Parser Expr} {n : Nat}
  (hinner : ∀ least s, Yields (inner least) s (Reads n least s.rest))

include hinner

theorem signed_yields {op : UnaryOp} {t : Token} (ht : signOp? t.kind = some op) (s : State) :
    Yields (signed inner op t) s
      (fun e rest => ∃ k ≤ n + 1, Expression .factor (t :: s.rest) e k rest) := by
  refine (hinner signPower s).bind fun e s' _ => .pure ?_
  intro hread
  obtain ⟨⟨k, hk, he⟩, -⟩ := hread
  exact ⟨k + 1, by omega, .signed ht he⟩

theorem operand_yields (s : State) :
    Yields (operand inner) s (fun e rest => ∃ k ≤ n + 1, Expression .factor s.rest e k rest) := by
  apply Yields.get_bind
  split
  · exact .fail rfl
  · next t ts hs =>
    rw [hs]
    split
    · next hk =>
      split
      · next e rest hmin =>
        obtain ⟨u, rfl, huk, hu, rfl⟩ := minLiteral?_eq_some hmin
        refine .bind_eq rfl rfl (hs ▸ ⟨[t, u], rfl⟩) (.pure ⟨1, by omega, ?_⟩)
        exact .smallest hk (smallest_iff.mpr ⟨huk, hu⟩)
      · refine .advance_bind hs (signed_yields hinner ?_ _)
        rw [hk]
        rfl
    · next hk =>
      refine .advance_bind hs (signed_yields hinner ?_ _)
      rw [hk]
      rfl
    · next hk =>
      refine .advance_bind hs ((hinner 0 _).bind fun e s₁ _ => ?_)
      refine (expect_yields .rightParen s₁).bind fun u s₂ _ => .pure ?_
      intro hread₁ hread₂
      obtain ⟨hu, huk⟩ := hread₁
      obtain ⟨⟨k, hk', he⟩, -⟩ := hread₂
      exact ⟨k + 1, by omega, .parens hk (hu ▸ he) huk⟩
    · next hk =>
      split
      · exact .fail rfl
      · next hmin =>
        refine .advance_bind hs ?_
        unfold integerLiteral
        split
        · next n hn =>
          have hmin : Number.isMinMagnitude t.lexeme = false := by simpa using hmin
          exact .pure ⟨1, by omega, .literal (literal_iff.mpr (.inl ⟨hk, hmin, n, hn, rfl⟩))⟩
        · exact .throw rfl
    · next hk =>
      refine .advance_bind hs ?_
      unfold integerLiteral
      split
      · next n hn =>
        exact .pure ⟨1, by omega, .literal (literal_iff.mpr (.inr (.inl ⟨hk, n, hn, rfl⟩)))⟩
      · exact .throw rfl
    · next hk =>
      refine .advance_bind hs ?_
      unfold floatLiteral
      split
      · next x hx =>
        exact .pure ⟨1, by omega, .literal (literal_iff.mpr (.inr (.inr ⟨hk, x, hx, rfl⟩)))⟩
      · exact .throw rfl
    · refine (place_yields (hinner 0) s).bind fun p s' _ => .pure ?_
      intro hread
      rcases hread with ⟨u, ⟨hu, huk⟩, rfl⟩ |
        ⟨u, v, w, i, us, hu, huk, hvk, ⟨⟨k, hk', hi⟩, -⟩, hwk, rfl⟩
      · rw [← hs, hu]
        exact ⟨1, by omega, .name huk⟩
      · rw [← hs, hu]
        exact ⟨k + 1, by omega, .element huk hvk hi hwk⟩
    · exact .fail rfl

theorem climb_yields (least fuel : Nat) (left : Expr) (s : State) :
    Yields (climb inner least fuel left) s (fun e rest => ∀ ts j, j ≤ n + 1 →
      s.rest.length ≤ fuel → Extendable least ts left j s.rest →
      Reads (n + 1) least ts e rest) := by
  induction fuel generalizing left s with
  | zero =>
    refine .pure fun ts j hj hlen h => ⟨⟨j, hj, h.done⟩, ?_⟩
    rw [List.length_eq_zero_iff.mp (Nat.le_zero.mp hlen)]
    intro op hc
    cases hc
  | succ fuel ih =>
    have hkind := s.kind_eq
    apply Yields.peek_bind
    split
    · next hop =>
      refine .pure fun ts j hj _ h => ⟨⟨j, hj, h.done⟩, fun op ho => ?_⟩
      rw [← hkind, hop] at ho
      cases ho
    · next op hop =>
      split
      · next hlt =>
        refine .pure fun ts j hj _ h => ⟨⟨j, hj, h.done⟩, fun op' ho => ?_⟩
        rw [← hkind, hop] at ho
        cases ho
        exact hlt
      · next hge =>
        cases hs : s.rest with
        | nil =>
          rw [hkind, hs] at hop
          cases hop
        | cons t us =>
          rw [hkind, hs] at hop
          refine .advance_bind hs ((hinner (rightPower op) _).bind fun r s₁ hg => ?_)
          refine (ih _ s₁).mono fun e rest h hr ts j hj hlen hext => ?_
          obtain ⟨k, hk, hext'⟩ := hext.extend hop (by omega) hr
          have hle : s₁.rest.length ≤ us.length := hg.rest.length_le
          simp only [List.length_cons] at hlen
          exact h ts _ (by omega) (by omega) hext'

end Expression

theorem expressionAt_yields (depth least : Nat) (s : State) :
    Yields (expressionAt depth least) s (Reads depth least s.rest) := by
  induction depth generalizing least s with
  | zero => exact .fail rfl
  | succ n ih =>
    refine (operand_yields ih s).bind fun e s₁ _ => ?_
    apply Yields.remaining_bind
    refine (climb_yields ih least _ e s₁).mono ?_
    intro e' rest h hread
    obtain ⟨k, hk, he⟩ := hread
    exact h s.rest k hk (Nat.le_refl _) (.of_factor least he)

theorem expression_yields (s : State) : Yields expression s (Whole s.rest) := by
  refine (expressionAt_yields maxDepth 0 s).mono fun e rest h => ?_
  exact h.1

theorem exists_next {s : State} (h : s.kind ≠ .eof) :
    ∃ t ts, s.rest = t :: ts ∧ t.kind = s.kind := by
  rw [State.kind_eq] at h ⊢
  cases hs : s.rest with
  | nil => exact absurd (congrArg headKind hs) h
  | cons t ts => exact ⟨t, ts, rfl, rfl⟩

theorem condition_yields (s : State) :
    Yields condition s (fun c rest => ∃ t mid relation l r, Whole s.rest l (t :: mid) ∧
      relationOp? t.kind = some relation ∧ Whole mid r rest ∧
      c = ⟨relation, l, r, l.span.merge r.span⟩) := by
  refine (expression_yields s).bind fun l s₁ _ => ?_
  apply Yields.peek_bind
  split
  · exact .fail rfl
  · next relation hrel =>
    obtain ⟨t, ts, hs, hk⟩ := exists_next (s := s₁) (by
      intro hk
      rw [hk] at hrel
      cases hrel)
    refine .advance_bind hs ((expression_yields _).bind fun r s₂ _ => .pure fun hr hl => ?_)
    rw [relation?_eq, ← hk] at hrel
    exact ⟨t, ts, relation, l, r, hs ▸ hl, hrel, hr, rfl⟩

theorem parenthesized_yields (s : State) : Yields parenthesized s (Test s.rest) := by
  refine (expect_yields .leftParen s).bind fun t s₁ _ => ?_
  refine (condition_yields s₁).bind fun c s₂ _ => ?_
  refine (expect_yields .rightParen s₂).bind fun v s₃ _ => .pure ?_
  intro hread₁ hread₂ hread₃
  obtain ⟨hv, hvk⟩ := hread₁
  obtain ⟨u, mid, relation, l, r, hl, hrel, hr, rfl⟩ := hread₂
  obtain ⟨ht, htk⟩ := hread₃
  rw [ht]
  exact .mk htk hl hrel (hv ▸ hr) hvk

theorem moreElements_yields (fuel : Nat) (s : State) :
    Yields (moreElements fuel) s (Elements s.rest) := by
  induction fuel generalizing s with
  | zero => exact .pure .done
  | succ fuel ih =>
    refine (accept_yields .comma s).bind fun b s₁ _ => ?_
    cases b with
    | false => exact .pure fun h => h.1 ▸ .done
    | true =>
      apply Yields.peek_bind
      split
      · refine .pure ?_
        intro hread
        obtain ⟨t, ht, htk⟩ := hread
        rw [ht]
        exact .comma htk
      · refine (expression_yields s₁).bind fun e s₂ _ => (ih s₂).bind fun es s₃ _ => .pure ?_
        intro hes he hread
        obtain ⟨t, ht, htk⟩ := hread
        rw [ht]
        exact .more htk he hes

theorem braceList_yields (s : State) :
    Yields braceList s (fun r rest => Braces s.rest r.1 r.2 rest) := by
  refine (expect_yields .leftBrace s).bind fun t s₁ _ => ?_
  refine (accept?_yields .rightBrace s₁).bind fun o s₂ _ => ?_
  cases o with
  | some u =>
    refine .pure ?_
    intro hread₁ hread₂
    obtain ⟨hu, huk⟩ := hread₁
    obtain ⟨ht, htk⟩ := hread₂
    rw [ht, hu]
    exact .empty htk huk
  | none =>
    refine (expression_yields s₂).bind fun e s₃ _ => ?_
    apply Yields.remaining_bind
    refine (moreElements_yields _ s₃).bind fun es s₄ _ => ?_
    refine (expect_yields .rightBrace s₄).bind fun u s₅ _ => .pure ?_
    intro hread₁ hes he hread₂ hread₃
    obtain ⟨hu, huk⟩ := hread₁
    obtain ⟨h₂, -⟩ := hread₂
    obtain ⟨ht, htk⟩ := hread₃
    rw [ht, ← h₂]
    exact .elements htk he (hu ▸ hes) huk

def BracketsRead (name : Token) (ts : List Token) : Brackets × Span → List Token → Prop
  | (.absent, span), rest => rest = ts ∧ span = name.span
  | (.unstated, span), rest => ∃ u v, ts = u :: v :: rest ∧ u.kind = .leftBracket ∧
      v.kind = .rightBracket ∧ span = v.span
  | (.length e, span), rest => ∃ u v mid, ts = u :: mid ∧ u.kind = .leftBracket ∧
      Whole mid e (v :: rest) ∧ v.kind = .rightBracket ∧ span = v.span

theorem brackets_yields (name : Token) (s : State) :
    Yields (brackets name) s (BracketsRead name s.rest) := by
  refine (accept_yields .leftBracket s).bind fun b s₁ _ => ?_
  cases b with
  | false => exact .pure fun h => ⟨h.1, rfl⟩
  | true =>
    apply Yields.peek_bind
    split
    · refine (expect_yields .rightBracket s₁).bind fun v s₂ _ => .pure ?_
      intro hread₁ hread₂
      obtain ⟨hv, hvk⟩ := hread₁
      obtain ⟨u, hu, huk⟩ := hread₂
      exact ⟨u, v, by rw [hu, hv], huk, hvk, rfl⟩
    · refine (expression_yields s₁).bind fun e s₂ _ => ?_
      refine (expect_yields .rightBracket s₂).bind fun v s₃ _ => .pure ?_
      intro hread₁ he hread₂
      obtain ⟨hv, hvk⟩ := hread₁
      obtain ⟨u, hu, huk⟩ := hread₂
      exact ⟨u, v, s₁.rest, hu, huk, hv ▸ he, hvk, rfl⟩

theorem initializer_yields (isArray : Bool) (s : State) :
    Yields (initializer isArray) s (fun r rest =>
      (isArray = true ∧ ∃ z, Braces s.rest r.1 z rest ∧ r.2 = z.span) ∨
      isArray = false ∧ ∃ e, Whole s.rest e rest ∧ r = ([e], e.span)) := by
  apply Yields.peek_bind
  cases isArray with
  | true =>
    split
    · refine (braceList_yields s).bind fun r s₁ _ => .pure fun h => ?_
      exact .inl ⟨rfl, r.2, h, rfl⟩
    · exact .fail rfl
  | false =>
    split
    · exact .fail rfl
    · refine (expression_yields s).bind fun e s₁ _ => .pure fun h => ?_
      exact .inr ⟨rfl, e, h, rfl⟩

theorem declarator_yields (start : Span) (kind : Kind) (constant : Bool) (s : State) :
    Yields (declarator start kind constant) s (Declarator kind constant s.rest) := by
  refine (expectName_yields s).bind fun t s₁ _ => ?_
  refine (brackets_yields t s₁).bind fun r s₂ _ => ?_
  obtain ⟨found, span⟩ := r
  refine (accept_yields .equal s₂).bind fun b s₃ _ => ?_
  cases b with
  | true =>
    refine (initializer_yields _ s₃).bind fun r s₄ _ => .pure ?_
    intro hr hread₁ hb hread₂
    obtain ⟨w, hw, hwk⟩ := hread₁
    obtain ⟨ht, htk⟩ := hread₂
    rw [ht]
    cases found with
    | absent =>
      obtain ⟨hb, -⟩ := hb
      obtain ⟨h, -⟩ | ⟨-, e, he, rfl⟩ := hr
      · cases h
      · rw [← hb, hw]
        exact .scalarValue htk hwk he
    | unstated =>
      obtain ⟨u, v, hb, huk, hvk, rfl⟩ := hb
      obtain ⟨-, z, hz, hz'⟩ | ⟨h, -⟩ := hr
      · rw [hb, hw, hz']
        exact .openArray htk huk hvk hwk hz
      · cases h
    | length n =>
      obtain ⟨u, v, mid, hb, huk, hn, hvk, rfl⟩ := hb
      obtain ⟨-, z, hz, hz'⟩ | ⟨h, -⟩ := hr
      · rw [hb, hz']
        exact .arrayValue htk huk (hw ▸ hn) hvk hwk hz
      · cases h
  | false =>
    dsimp only
    rw [if_neg Bool.false_ne_true]
    split
    · exact .throw rfl
    · next hc =>
      have hc' : constant = false := by simpa using hc
      cases found with
      | absent =>
        refine .pure ?_
        intro hread₁ hread₂ hread₃
        obtain ⟨h₃, -⟩ := hread₁
        obtain ⟨hb, rfl⟩ := hread₂
        obtain ⟨ht, htk⟩ := hread₃
        rw [ht, h₃, hb, Span.merge_self]
        exact .scalar hc' htk
      | unstated => exact .throw rfl
      | length n =>
        refine .pure ?_
        intro hread₁ hread₂ hread₃
        obtain ⟨h₃, -⟩ := hread₁
        obtain ⟨u, v, mid, hb, huk, hn, hvk, rfl⟩ := hread₂
        obtain ⟨ht, htk⟩ := hread₃
        rw [ht, hb, h₃]
        exact .array hc' htk huk hn hvk

theorem moreDeclarators_yields (start : Span) (kind : Kind) (constant : Bool) (fuel : Nat)
    (s : State) :
    Yields (moreDeclarators start kind constant fuel) s (Declarators kind constant s.rest) := by
  induction fuel generalizing s with
  | zero => exact .pure .done
  | succ fuel ih =>
    refine (accept_yields .comma s).bind fun b s₁ _ => ?_
    cases b with
    | false => exact .pure fun h => h.1 ▸ .done
    | true =>
      refine (declarator_yields start kind constant s₁).bind fun v s₂ _ => ?_
      refine (ih s₂).bind fun vs s₃ _ => .pure ?_
      intro hvs hv hread
      obtain ⟨t, ht, htk⟩ := hread
      rw [ht]
      exact .more htk hv hvs

theorem variableDeclaration_yields (s : State) :
    Yields variableDeclaration s (Variables s.rest) := by
  apply Yields.get_bind
  refine (accept_yields .constKeyword s).bind fun constant s₁ _ => ?_
  apply Yields.peek_bind
  split
  · exact .fail rfl
  · next kind hkind =>
    obtain ⟨t, ts, hs, hk⟩ := exists_next (s := s₁) (by
      intro hk
      rw [hk] at hkind
      cases hkind)
    refine .advance_bind hs ((declarator_yields _ kind constant _).bind fun v s₂ _ => ?_)
    apply Yields.remaining_bind
    refine (moreDeclarators_yields _ kind constant _ s₂).bind fun vs s₃ _ => ?_
    refine (expect_yields .semicolon s₃).bind fun u s₄ _ => .pure ?_
    intro hread hvs hv hc
    rw [kindOf?_eq, ← hk] at hkind
    obtain ⟨hu, huk⟩ := hread
    cases constant with
    | false =>
      rw [← hc.1, hs]
      exact .plain hkind hv (hu ▸ hvs) huk
    | true =>
      obtain ⟨w, hw, hwk⟩ := hc
      rw [hw, hs]
      exact .constant hwk hkind hv (hu ▸ hvs) huk

def Reading (ts : List Token) (st : Stmt) (rest : List Token) : Prop :=
  Statement ts st rest ∧ (st.closed = false → headKind rest ≠ .elseKeyword)

theorem Reading.of_closed {ts rest : List Token} {st : Stmt} (h : Statement ts st rest)
    (hc : st.closed = true) : Reading ts st rest :=
  ⟨h, by simp [hc]⟩

theorem call_yields (s : State) : Yields call s (Reading s.rest) := by
  refine (expectName_yields s).bind fun t s₁ _ => ?_
  refine (expect_yields .leftParen s₁).bind fun u s₂ _ => ?_
  refine (expect_yields .rightParen s₂).bind fun v s₃ _ => ?_
  refine (expect_yields .semicolon s₃).bind fun w s₄ _ => .pure ?_
  intro hread₁ hread₂ hread₃ hread₄
  obtain ⟨hw, hwk⟩ := hread₁
  obtain ⟨hv, hvk⟩ := hread₂
  obtain ⟨hu, huk⟩ := hread₃
  obtain ⟨ht, htk⟩ := hread₄
  rw [ht, hu, hv, hw]
  exact .of_closed (.call htk huk hvk hwk) rfl

theorem assignment_yields (s : State) : Yields assignment s (Reading s.rest) := by
  refine (place_yields expression_yields s).bind fun target s₁ _ => ?_
  refine (expect_yields .equal s₁).bind fun t s₂ _ => ?_
  refine (expression_yields s₂).bind fun value s₃ _ => ?_
  refine (expect_yields .semicolon s₃).bind fun u s₄ _ => .pure ?_
  intro hread₁ hvalue hread₂ htarget
  obtain ⟨hu, huk⟩ := hread₁
  obtain ⟨ht, htk⟩ := hread₂
  have hplace : Target s.rest target (t :: s₂.rest) := by
    rw [← ht]
    obtain ⟨v, ⟨hv, hvk⟩, rfl⟩ | ⟨v, w, z, i, ts, hv, hvk, hwk, hi, hzk, rfl⟩ := htarget
    · rw [hv]
      exact .name hvk
    · rw [hv]
      exact .element hvk hwk hi hzk
  exact .of_closed (.assign hplace htk (hu ▸ hvalue) huk) rfl

theorem Yields.orRecover {α : Type} {p : Parser α} {s : State} {reads : α → List Token → Prop}
    (h : Yields p s reads) (default : α) {recover : State → State → State}
    (hd : ∀ s', (recover s s').diagnostics = s'.diagnostics)
    (hr : ∀ s', (recover s s').rest <:+ s'.rest) :
    Yields (orRecover p default recover) s reads := by
  unfold Yields Parser.orRecover at *
  cases hp : p s with
  | ok a s' =>
    rw [hp] at h
    exact h
  | error d s' =>
    rw [hp] at h
    obtain ⟨he, hg⟩ := h
    have hrec : Grows s' (recover s (s'.record d)) :=
      ⟨⟨[d], hd _, by simpa using he⟩, hr (s'.record d)⟩
    refine ⟨hg.trans hrec, fun hq => ?_⟩
    obtain ⟨-, hq'⟩ := hg.quiet hrec hq
    rw [hd] at hq'
    simp [State.record] at hq'

theorem skipStatement_suffix (ts : List Token) : skipStatement ts <:+ ts := by
  induction ts with
  | nil => exact List.suffix_rfl
  | cons t ts ih =>
    unfold skipStatement
    split
    · exact List.suffix_rfl
    · split
      · exact List.suffix_cons t ts
      · exact ih.trans (List.suffix_cons t ts)

theorem skipDeclaration_suffix (ts : List Token) : skipDeclaration ts <:+ ts := by
  induction ts with
  | nil => exact List.suffix_rfl
  | cons t ts ih =>
    unfold skipDeclaration
    split
    · exact List.suffix_rfl
    · split
      · exact List.suffix_cons t ts
      · exact ih.trans (List.suffix_cons t ts)

theorem recoverStatement_suffix (before after : State) :
    (recoverStatement before after).rest <:+ after.rest := by
  refine (skipStatement_suffix _).trans ?_
  split
  · exact List.drop_suffix 1 after.rest
  · exact List.suffix_rfl

theorem recoverDeclaration_suffix (before after : State) :
    (recoverDeclaration before after).rest <:+ after.rest := by
  refine (skipDeclaration_suffix _).trans ?_
  split
  · exact List.drop_suffix 1 after.rest
  · exact List.suffix_rfl

section Statement

variable {statement : Parser Stmt} (hst : ∀ s, Yields statement s (Reading s.rest))

include hst

theorem blockItem_yields (s : State) :
    Yields (blockItem statement) s (fun found rest =>
      (∃ vs, Variables s.rest vs rest ∧ found = vs.map .declare) ∨
      ∃ st, Statement s.rest st rest ∧ found = [st]) := by
  apply Yields.peek_bind
  split
  · refine (variableDeclaration_yields s).bind fun vs s₁ _ => .pure fun h => ?_
    exact .inl ⟨vs, h, rfl⟩
  · refine (hst s).bind fun st s₁ _ => .pure fun h => ?_
    exact .inr ⟨st, h.1, rfl⟩

theorem blockItems_yields (fuel : Nat) (s : State) :
    Yields (blockItems statement fuel) s (Items s.rest) := by
  induction fuel generalizing s with
  | zero => exact .pure .done
  | succ fuel ih =>
    apply Yields.peek_bind
    split
    · exact .pure .done
    · exact .pure .done
    · refine ((blockItem_yields hst s).orRecover [] (fun _ => rfl)
        (recoverStatement_suffix s)).bind fun found s₁ _ => ?_
      refine (ih s₁).bind fun body s₂ _ => .pure fun hbody hfound => ?_
      obtain ⟨vs, hvs, rfl⟩ | ⟨st, hst, rfl⟩ := hfound
      · exact .declare hvs hbody
      · exact .statement hst hbody

theorem block_yields (s : State) :
    Yields (block statement) s (fun r rest => ∃ t u ts, s.rest = t :: ts ∧ t.kind = .leftBrace ∧
      Items ts r.1 (u :: rest) ∧ u.kind = .rightBrace ∧ r.2 = t.span.merge u.span) := by
  refine (expect_yields .leftBrace s).bind fun t s₁ _ => ?_
  apply Yields.remaining_bind
  refine (blockItems_yields hst _ s₁).bind fun body s₂ _ => ?_
  refine (expect_yields .rightBrace s₂).bind fun u s₃ _ => .pure ?_
  intro hread₁ hbody hread₂
  obtain ⟨hu, huk⟩ := hread₁
  obtain ⟨ht, htk⟩ := hread₂
  exact ⟨t, u, s₁.rest, ht, htk, hu ▸ hbody, huk, rfl⟩

theorem branch_yields (s : State) : Yields (branch statement) s (Reading s.rest) := by
  refine (expect_yields .ifKeyword s).bind fun t s₁ _ => ?_
  refine (parenthesized_yields s₁).bind fun test s₂ _ => ?_
  refine (hst s₂).bind fun body s₃ _ => ?_
  refine (accept_yields .elseKeyword s₃).bind fun b s₄ _ => ?_
  cases b with
  | false =>
    refine .pure ?_
    intro hread₁ hread₂ htest hread₃
    obtain ⟨h₄, hne⟩ := hread₁
    obtain ⟨hbody, -⟩ := hread₂
    obtain ⟨ht, htk⟩ := hread₃
    rw [ht]
    exact ⟨.branch htk htest (h₄ ▸ hbody), fun _ => hne (by decide)⟩
  | true =>
    refine (hst s₄).bind fun other s₅ _ => .pure ?_
    intro hread₁ hread₂ hread₃ htest hread₄
    obtain ⟨hother, hopen⟩ := hread₁
    obtain ⟨u, hu, huk⟩ := hread₂
    obtain ⟨hbody, hclosed⟩ := hread₃
    obtain ⟨ht, htk⟩ := hread₄
    rw [ht]
    have hc : body.closed = true := by
      cases hb : body.closed with
      | true => rfl
      | false => exact absurd (by rw [hu]; exact huk) (hclosed hb)
    exact ⟨.branchElse htk htest (hu ▸ hbody) hc huk hother, hopen⟩

theorem loop_yields (s : State) : Yields (loop statement) s (Reading s.rest) := by
  refine (expect_yields .whileKeyword s).bind fun t s₁ _ => ?_
  refine (parenthesized_yields s₁).bind fun test s₂ _ => ?_
  refine (hst s₂).bind fun body s₃ _ => .pure ?_
  intro hread₁ htest hread₂
  obtain ⟨hbody, hopen⟩ := hread₁
  obtain ⟨ht, htk⟩ := hread₂
  rw [ht]
  exact ⟨.loop htk htest hbody, hopen⟩

end Statement

theorem statementAt_yields (fuel : Nat) (s : State) :
    Yields (statementAt fuel) s (Reading s.rest) := by
  induction fuel generalizing s with
  | zero => exact .fail rfl
  | succ fuel ih =>
    apply Yields.peek_bind
    split
    · refine (block_yields ih s).bind fun r s₁ _ => .pure ?_
      intro hread
      obtain ⟨t, u, ts, hs, htk, hbody, huk, hr⟩ := hread
      rw [hs, hr]
      exact .of_closed (.block htk hbody huk) rfl
    · exact branch_yields ih s
    · exact loop_yields ih s
    · refine (expect_yields .semicolon s).bind fun t s₁ _ => .pure ?_
      intro hread
      obtain ⟨ht, htk⟩ := hread
      rw [ht]
      exact .of_closed (.empty htk) rfl
    · refine .bind_eq (peekSecond_eq s) rfl List.suffix_rfl ?_
      split
      · exact call_yields s
      · exact assignment_yields s
    · exact .fail rfl

theorem function_yields (s : State) :
    Yields function s (fun f rest => ∃ t name u v w x ts body,
      s.rest = t :: name :: u :: v :: w :: ts ∧ t.kind = .voidKeyword ∧
      name.kind = .identifier ∧ u.kind = .leftParen ∧ v.kind = .rightParen ∧
      w.kind = .leftBrace ∧ Items ts body (x :: rest) ∧ x.kind = .rightBrace ∧
      f = ⟨name.lexeme, name.span, body, w.span.merge x.span,
        t.span.merge (w.span.merge x.span)⟩) := by
  refine (expect_yields .voidKeyword s).bind fun t s₁ _ => ?_
  refine (expectName_yields s₁).bind fun name s₂ _ => ?_
  refine (expect_yields .leftParen s₂).bind fun u s₃ _ => ?_
  refine (expect_yields .rightParen s₃).bind fun v s₄ _ => ?_
  apply Yields.remaining_bind
  refine (block_yields (statementAt_yields _) s₄).bind fun r s₅ _ => .pure ?_
  intro hread₁ hread₂ hread₃ hread₄ hread₅
  obtain ⟨w, x, ts, hw, hwk, hbody, hxk, hr⟩ := hread₁
  obtain ⟨hv, hvk⟩ := hread₂
  obtain ⟨hu, huk⟩ := hread₃
  obtain ⟨hn, hnk⟩ := hread₄
  obtain ⟨ht, htk⟩ := hread₅
  refine ⟨t, name, u, v, w, x, ts, r.1, ?_, htk, hnk, huk, hvk, hwk, hbody, hxk, ?_⟩
  · rw [ht, hn, hu, hv, hw]
  · rw [← hr]

theorem declaration_yields (s : State) :
    Yields declaration s (fun found rest => rest.length < s.rest.length ∧
      ∀ p, Derives rest p → Derives s.rest (found ++ p)) := by
  apply Yields.peek_bind
  split
  · refine (function_yields s).bind fun f s₁ _ => .pure ?_
    intro hread
    obtain ⟨t, name, u, v, w, x, ts, body, hs, htk, hnk, huk, hvk, hwk, hbody, hxk, rfl⟩ := hread
    rw [hs]
    have hlen := hbody.length_le
    simp only [List.length_cons] at hlen ⊢
    exact ⟨by omega, fun p hp => .function htk hnk huk hvk hwk hbody hxk hp⟩
  · split
    · exact (variableDeclaration_yields s).bind fun vs s₁ _ => .pure fun hvs =>
        ⟨hvs.length_lt, fun p hp => .globals hvs hp⟩
    · exact .fail rfl

theorem declarations_yields (fuel : Nat) (s : State) :
    Yields (declarations fuel) s (fun p _ => s.rest.length ≤ fuel →
      (∀ t ∈ s.rest, t.kind ≠ .eof) → Derives s.rest p) := by
  induction fuel generalizing s with
  | zero =>
    refine .pure fun hlen _ => ?_
    rw [List.length_eq_zero_iff.mp (Nat.le_zero.mp hlen)]
    exact .done
  | succ fuel ih =>
    apply Yields.peek_bind
    split
    · next hk =>
      refine .pure fun _ heof => ?_
      rw [s.kind_eq] at hk
      cases hs : s.rest with
      | nil => exact .done
      | cons t ts =>
        rw [hs] at hk heof
        exact absurd hk (heof t List.mem_cons_self)
    · refine ((declaration_yields s).orRecover [] (fun _ => rfl)
        (recoverDeclaration_suffix s)).bind fun found s₁ hg => ?_
      refine (ih s₁).bind fun p s₂ _ => .pure fun hp hfound hlen heof => ?_
      exact hfound.2 p (hp (by omega) fun t ht => heof t (hg.rest.subset ht))

theorem State.ofTokens_ne_eof (ts : List Token) :
    ∀ t ∈ (State.ofTokens ts).rest, t.kind ≠ .eof := by
  intro t ht
  have hmem := (List.mem_filter.mp ht).1
  simpa using List.all_eq_true.mp List.all_takeWhile t hmem

theorem program_yields (ts : List Token) :
    Yields program (State.ofTokens ts) (fun p _ => Derives (State.ofTokens ts).rest p) := by
  apply Yields.remaining_bind
  refine (declarations_yields _ _).mono fun p _ h => ?_
  exact h (Nat.le_refl _) (State.ofTokens_ne_eof ts)

end C1Lang.Parser

namespace C1Lang

open Grammar

/-- The tokens that count: those before the end marker without the comments. -/
def significant (ts : List Token) : List Token :=
  (ts.takeWhile (·.kind != .eof)).filter fun t =>
    !(t.kind == .lineComment || t.kind == .blockComment)

theorem parse_isError (ts : List Token) : ∀ d ∈ (parse ts).diagnostics, d.isError = true := by
  have h := Parser.program_yields ts
  unfold Parser.Yields at h
  unfold parse
  split at h
  · next p s heq =>
    rw [heq]
    obtain ⟨⟨⟨ds, hds, hd⟩, -⟩, -⟩ := h
    obtain rfl : s.diagnostics = ds := hds
    exact hd
  · next d s heq =>
    rw [heq]
    obtain ⟨he, ⟨ds, hds, hd⟩, -⟩ := h
    obtain rfl : s.diagnostics = ds := hds
    intro x hx
    rcases List.mem_append.mp hx with hx | hx
    · exact hd x hx
    · exact List.mem_singleton.mp hx ▸ he

theorem derives_of_parse {ts : List Token} {p : Program} (h : (parse ts).program? = some p) :
    Derives (significant ts) p := by
  have hy := Parser.program_yields ts
  unfold Parser.Yields at hy
  unfold Parsed.program? parse at h
  split at hy
  · next q s heq =>
    rw [heq] at h
    dsimp only at h
    split at h
    · next hempty =>
      cases h
      exact hy.2 (List.isEmpty_iff.mp hempty)
    · cases h
  · next d s heq =>
    rw [heq] at h
    simp at h

end C1Lang
