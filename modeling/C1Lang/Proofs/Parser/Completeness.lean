import C1Lang.Proofs.Parser.Soundness

/-!
# What the parser accepts

`Takes p ts a rest` says that from the tokens `ts` on a parser gives `a`, leaves `rest`, and
reports nothing. Every phrase that the grammar derives is taken, provided that what comes behind
it does not continue it. For expressions this is the comparison of climbing with the levels of the
grammar: having read an expression of a level, the parser is where it would be after one operand
(`Expression.climbs`). Together with soundness, the parser accepts what the grammar derives and
nothing else (`parse_iff_derives`).
-/

namespace C1Lang.Parser

open Grammar

def Takes {α : Type} (p : Parser α) (ts : List Token) (a : α) (rest : List Token) : Prop :=
  ∀ s, s.rest = ts → ∃ symbols, p s = .ok a { s with rest, symbols }

namespace Takes

variable {α β : Type} {p : Parser α} {f : α → Parser β} {ts mid rest : List Token} {a : α} {b : β}

theorem pure : Takes (Pure.pure a) rest a rest := by
  intro s heq
  subst heq
  exact ⟨s.symbols, rfl⟩

theorem bind (h : Takes p ts a mid) (hf : Takes (f a) mid b rest) :
    Takes (p >>= f) ts b rest := by
  intro s hs
  obtain ⟨symbols, hp⟩ := h s hs
  obtain ⟨symbols', hp'⟩ := hf { s with rest := mid, symbols } rfl
  exact ⟨symbols', (bind_ok hp).trans hp'⟩

theorem get_bind {f : State → Parser β} (h : ∀ s, s.rest = ts → Takes (f s) ts b rest) :
    Takes (get >>= f) ts b rest :=
  fun s hs => h s hs s hs

theorem peek_bind {f : TokenKind → Parser β} (h : Takes (f (headKind ts)) ts b rest) :
    Takes (peek >>= f) ts b rest := by
  intro s heq
  subst heq
  rw [← s.kind_eq] at h
  exact h s rfl

theorem remaining_bind {f : Nat → Parser β} (h : Takes (f ts.length) ts b rest) :
    Takes (remaining >>= f) ts b rest := by
  intro s heq
  subst heq
  exact h s rfl

theorem peekSecond_bind {f : TokenKind → Parser β}
    (h : Takes (f (headKind (ts.drop 1))) ts b rest) :
    Takes (peekSecond >>= f) ts b rest := by
  intro s heq
  subst heq
  rw [bind_ok (peekSecond_eq s)]
  exact h s rfl

theorem advance {t : Token} : Takes Parser.advance (t :: ts) () ts := by
  intro s hs
  exact ⟨s.symbols, advance_eq hs⟩

theorem accept? {t : Token} {kind : TokenKind} (h : t.kind = kind) :
    Takes (Parser.accept? kind) (t :: ts) (some t) ts := by
  refine get_bind fun s hs => ?_
  rw [hs]
  dsimp only
  rw [if_pos h]
  intro s hs
  exact ⟨s.symbols, rfl⟩

theorem accept?_none {kind : TokenKind} (h : headKind ts ≠ kind) :
    Takes (Parser.accept? kind) ts none ts := by
  refine get_bind fun s hs => ?_
  cases ts with
  | nil =>
    rw [hs]
    exact pure
  | cons t ts =>
    rw [hs]
    dsimp only
    rw [if_neg (show ¬ t.kind = kind from h)]
    exact pure

theorem accept {t : Token} {kind : TokenKind} (h : t.kind = kind) :
    Takes (Parser.accept kind) (t :: ts) true ts :=
  (accept? h).bind pure

theorem accept_false {kind : TokenKind} (h : headKind ts ≠ kind) :
    Takes (Parser.accept kind) ts false ts :=
  (accept?_none h).bind pure

theorem expect {t : Token} {kind : TokenKind} (h : t.kind = kind) :
    Takes (Parser.expect kind) (t :: ts) t ts :=
  (accept? h).bind pure

theorem expectName {t : Token} (h : t.kind = .identifier) :
    Takes Parser.expectName (t :: ts) t ts := by
  refine (expect h).bind fun s hs => ?_
  subst hs
  exact ⟨_, rfl⟩

end Takes

/-- The parser is where it would be after one operand `e` that ends before `rest`. -/
def Climbs (n least : Nat) (ts : List Token) (e : Expr) (rest : List Token) : Prop :=
  ∀ s, s.rest = ts → ∃ symbols, expressionAt (n + 1) least s =
    climb (expressionAt n) least rest.length e { s with rest, symbols }

theorem Climbs.of_operand {n : Nat} {ts rest : List Token} {e : Expr} (least : Nat)
    (h : Takes (operand (expressionAt n)) ts e rest) : Climbs n least ts e rest := by
  intro s hs
  obtain ⟨symbols, ho⟩ := h s hs
  exact ⟨symbols, bind_ok ho⟩

theorem peek_bind_eq {β : Type} (f : TokenKind → Parser β) (s : State) :
    (peek >>= f) s = f (headKind s.rest) s := by
  rw [← s.kind_eq]
  rfl

theorem climb_of_stops {inner : Nat → Parser Expr} {least : Nat} {s : State}
    (h : Stops least s.rest) (fuel : Nat) (e : Expr) :
    climb inner least fuel e s = .ok e s := by
  cases fuel with
  | zero => rfl
  | succ fuel =>
    rw [climb, peek_bind_eq]
    cases hop : binaryOp? (headKind s.rest) with
    | none => rfl
    | some op =>
      dsimp only
      rw [if_pos (h op hop)]
      rfl

theorem climb_round {inner : Nat → Parser Expr} {least : Nat} {s : State} {t : Token}
    {ts : List Token} {op : BinaryOp} (hs : s.rest = t :: ts) (hop : binaryOp? t.kind = some op)
    (hle : least ≤ leftPower op) (fuel : Nat) (e : Expr) :
    climb inner least (fuel + 1) e s =
      (inner (rightPower op) >>= fun r =>
        climb inner least fuel (.binary op e r (e.span.merge r.span))) { s with rest := ts } := by
  rw [climb, peek_bind_eq, hs]
  simp only [headKind, hop]
  rw [if_neg (by omega), bind_ok (advance_eq hs)]

theorem climb_fuel {n least : Nat} (fuel fuel' : Nat) (e : Expr) (s : State)
    (h : s.rest.length ≤ fuel) (h' : s.rest.length ≤ fuel') :
    climb (expressionAt n) least fuel e s = climb (expressionAt n) least fuel' e s := by
  induction fuel generalizing fuel' e s with
  | zero =>
    have hstop : Stops least s.rest := by
      rw [List.length_eq_zero_iff.mp (Nat.le_zero.mp h)]
      intro op hc
      cases hc
    rw [climb_of_stops hstop, climb_of_stops hstop]
  | succ fuel ih =>
    by_cases hstop : Stops least s.rest
    · rw [climb_of_stops hstop, climb_of_stops hstop]
    · obtain ⟨op, hop, hle⟩ : ∃ op, binaryOp? (headKind s.rest) = some op ∧
          least ≤ leftPower op := by
        simpa [Stops] using hstop
      cases hs : s.rest with
      | nil =>
        rw [hs] at hop
        cases hop
      | cons t ts =>
        rw [hs] at hop h h'
        cases fuel' with
        | zero => simp at h'
        | succ fuel' =>
          simp only [List.length_cons, Nat.add_le_add_iff_right] at h h'
          rw [climb_round hs hop hle, climb_round hs hop hle]
          have hy := expressionAt_yields n (rightPower op) { s with rest := ts }
          unfold Yields at hy
          split at hy
          · next r s' heq =>
            have hlen : s'.rest.length ≤ ts.length := hy.1.rest.length_le
            rw [bind_ok heq, bind_ok heq]
            exact ih fuel' _ s' (by omega) (by omega)
          · next heq => rw [bind_error heq, bind_error heq]

theorem Climbs.takes {n least : Nat} {ts rest : List Token} {e : Expr}
    (h : Climbs n least ts e rest) (hs : Stops least rest) :
    Takes (expressionAt (n + 1) least) ts e rest := by
  intro s hts
  obtain ⟨symbols, hc⟩ := h s hts
  exact ⟨symbols, hc.trans (climb_of_stops hs _ e)⟩

theorem binaryOp?_of_sumOp? {kind : TokenKind} {op : BinaryOp} (h : sumOp? kind = some op) :
    binaryOp? kind = some op ∧ leftPower op = 10 ∧ termOp? kind = none ∧ kind ≠ .leftBracket := by
  cases kind <;> cases h <;> exact ⟨rfl, rfl, rfl, by decide⟩

theorem binaryOp?_of_termOp? {kind : TokenKind} {op : BinaryOp} (h : termOp? kind = some op) :
    binaryOp? kind = some op ∧ leftPower op = 20 ∧ kind ≠ .leftBracket := by
  cases kind <;> cases h <;> exact ⟨rfl, rfl, by decide⟩

/-- Where an expression of a level can end when operators that bind as tightly as `least` are
looked for. -/
structure Ends (level : Level) (least : Nat) (rest : List Token) : Prop where
  bracket : headKind rest ≠ .leftBracket
  sum : level = .sum → least ≤ 10 ∧ termOp? (headKind rest) = none
  term : level = .term → least ≤ 20

theorem Ends.ofFactor {least : Nat} {rest : List Token} (h : headKind rest ≠ .leftBracket) :
    Ends .factor least rest := by
  refine ⟨h, ?_, ?_⟩
  · intro hl
    cases hl
  · intro hl
    cases hl

theorem Ends.ofTerm {least : Nat} {rest : List Token} (h : headKind rest ≠ .leftBracket)
    (hle : least ≤ 20) : Ends .term least rest := by
  refine ⟨h, ?_, fun _ => hle⟩
  intro hl
  cases hl

theorem Ends.ofSum {least : Nat} {rest : List Token} (h : headKind rest ≠ .leftBracket)
    (hle : least ≤ 10) (hnone : termOp? (headKind rest) = none) : Ends .sum least rest := by
  refine ⟨h, fun _ => ⟨hle, hnone⟩, ?_⟩
  intro hl
  cases hl

theorem stops_of_termOp? {rest : List Token} (h : termOp? (headKind rest) = none) :
    Stops 11 rest := by
  intro op hop
  rcases binaryOp?_cases hop with ⟨-, h10⟩ | ⟨ht, -⟩
  · omega
  · rw [h] at ht
    cases ht

theorem stops_of_lt {least : Nat} (h : 20 < least) (rest : List Token) : Stops least rest := by
  intro op hop
  rcases binaryOp?_cases hop with ⟨-, h10⟩ | ⟨-, h20⟩ <;> omega

structure Follows (rest : List Token) : Prop where
  bracket : headKind rest ≠ .leftBracket
  operator : binaryOp? (headKind rest) = none

theorem Follows.stops {rest : List Token} (h : Follows rest) (least : Nat) :
    Stops least rest := by
  intro op hop
  rw [h.operator] at hop
  cases hop

theorem Follows.ends {rest : List Token} (h : Follows rest) : Ends .sum 0 rest := by
  refine .ofSum h.bracket (Nat.zero_le _) ?_
  cases ht : termOp? (headKind rest) with
  | none => rfl
  | some op =>
    have := h.operator
    rw [(binaryOp?_of_termOp? ht).1] at this
    cases this

theorem Follows.of_kind {t : Token} {ts : List Token} {kind : TokenKind} (ht : t.kind = kind)
    (hb : kind ≠ .leftBracket) (ho : binaryOp? kind = none) : Follows (t :: ts) :=
  ⟨by rw [headKind, ht]; exact hb, by rw [headKind, ht]; exact ho⟩

theorem Expression.pos {level : Level} {ts rest : List Token} {e : Expr} {k : Nat}
    (h : Grammar.Expression level ts e k rest) : 1 ≤ k := by
  induction h with
  | term _ ih => exact ih
  | factor _ ih => exact ih
  | add => omega
  | mul => omega
  | signed => omega
  | smallest => omega
  | parens => omega
  | literal => omega
  | name => omega
  | element => omega

theorem Climbs.extend {n least : Nat} {ts mid rest : List Token} {t : Token} {l r : Expr}
    {op : BinaryOp} (hl : Climbs (n + 1) least ts l (t :: mid)) (hop : binaryOp? t.kind = some op)
    (hle : least ≤ leftPower op) (hr : Takes (expressionAt (n + 1) (rightPower op)) mid r rest)
    (hlen : rest.length ≤ mid.length) :
    Climbs (n + 1) least ts (.binary op l r (l.span.merge r.span)) rest := by
  intro s hs
  obtain ⟨symbols, hc⟩ := hl s hs
  obtain ⟨symbols', hr⟩ := hr { s with rest := mid, symbols } rfl
  refine ⟨symbols', hc.trans ?_⟩
  rw [List.length_cons, climb_round rfl hop hle, bind_ok hr]
  exact climb_fuel _ _ _ _ hlen (Nat.le_refl _)

theorem minLiteral?_eq_none {t : Token} (h : t.kind = .int → Number.isMinMagnitude t.lexeme = false)
    (sign : Token) (ts : List Token) : minLiteral? sign (t :: ts) = none := by
  dsimp only [minLiteral?]
  rw [if_neg]
  intro hmin
  simp only [Bool.and_eq_true, decide_eq_true_eq] at hmin
  simp [h hmin.1] at hmin

theorem Expression.minLiteral? {level : Level} {ts rest : List Token} {e : Expr} {k : Nat}
    (h : Grammar.Expression level ts e k rest) (sign : Token) :
    Parser.minLiteral? sign ts = none := by
  induction h with
  | term _ ih => exact ih
  | factor _ ih => exact ih
  | add _ _ _ ihl _ => exact ihl
  | mul _ _ _ ihl _ => exact ihl
  | signed ht _ _ => exact minLiteral?_eq_none (fun hk => by simp [hk, signOp?] at ht) _ _
  | smallest ht _ => exact minLiteral?_eq_none (fun hk => by simp [hk] at ht) _ _
  | parens ht _ _ _ => exact minLiteral?_eq_none (fun hk => by simp [hk] at ht) _ _
  | literal hv =>
    rcases literal_iff.mp hv with ⟨-, hm, -⟩ | ⟨ht, -⟩ | ⟨ht, -⟩
    · exact minLiteral?_eq_none (fun _ => hm) _ _
    · exact minLiteral?_eq_none (fun hk => by simp [hk] at ht) _ _
    · exact minLiteral?_eq_none (fun hk => by simp [hk] at ht) _ _
  | name ht => exact minLiteral?_eq_none (fun hk => by simp [hk] at ht) _ _
  | element ht _ _ _ _ => exact minLiteral?_eq_none (fun hk => by simp [hk] at ht) _ _

section Operand

variable {inner : Nat → Parser Expr} {ts rest : List Token} {t u v : Token} {e : Expr}

theorem operand_signed {op : UnaryOp} (ht : signOp? t.kind = some op)
    (hmin : minLiteral? t ts = none) (h : Takes (inner signPower) ts e rest) :
    Takes (operand inner) (t :: ts) (.unary op e (t.span.merge e.span)) rest := by
  have hsigned : Takes (signed inner op t) ts (.unary op e (t.span.merge e.span)) rest :=
    h.bind .pure
  refine .get_bind fun s hs => ?_
  rw [hs]
  cases hk : t.kind <;> rw [hk] at ht <;> cases ht
  · simp only [hk]
    exact Takes.advance.bind hsigned
  · simp only [hk, hmin]
    exact Takes.advance.bind hsigned

theorem operand_smallest (ht : t.kind = .minus) (h : Smallest u) :
    Takes (operand inner) (t :: u :: rest)
      (.literal (.int Int32.minValue) (t.span.merge u.span)) rest := by
  obtain ⟨hu, hmin⟩ := smallest_iff.mp h
  refine .get_bind fun s hs => ?_
  rw [hs]
  simp only [ht, minLiteral?, hu, hmin]
  intro s hs
  exact ⟨s.symbols, rfl⟩

theorem operand_parens (ht : t.kind = .leftParen) (h : Takes (inner 0) ts e (u :: rest))
    (hu : u.kind = .rightParen) : Takes (operand inner) (t :: ts) e rest := by
  refine .get_bind fun s hs => ?_
  rw [hs]
  simp only [ht]
  exact Takes.advance.bind (h.bind ((Takes.expect hu).bind .pure))

theorem operand_literal {v : Value} (h : Literal t v) :
    Takes (operand inner) (t :: rest) (.literal v t.span) rest := by
  refine .get_bind fun s hs => ?_
  rw [hs]
  rcases literal_iff.mp h with ⟨ht, hm, n, hn, rfl⟩ | ⟨ht, n, hn, rfl⟩ | ⟨ht, x, hx, rfl⟩
  · simp only [ht, hm]
    refine Takes.advance.bind ?_
    simp only [integerLiteral, hn]
    exact .pure
  · simp only [ht]
    refine Takes.advance.bind ?_
    simp only [integerLiteral, hn]
    exact .pure
  · simp only [ht]
    refine Takes.advance.bind ?_
    simp only [floatLiteral, hx]
    exact .pure

theorem place_name {inner : Parser Expr} (ht : t.kind = .identifier)
    (hr : headKind rest ≠ .leftBracket) :
    Takes (place inner) (t :: rest) (.name t.lexeme t.span) rest := by
  refine (Takes.expectName ht).bind ((Takes.accept_false hr).bind ?_)
  exact .pure

theorem place_element {inner : Parser Expr} (ht : t.kind = .identifier)
    (hu : u.kind = .leftBracket) (h : Takes inner ts e (v :: rest)) (hv : v.kind = .rightBracket) :
    Takes (place inner) (t :: u :: ts) (.element t.lexeme e (t.span.merge v.span)) rest := by
  refine (Takes.expectName ht).bind ((Takes.accept hu).bind ?_)
  exact h.bind ((Takes.expect hv).bind .pure)

theorem operand_place {p : Place} (ht : t.kind = .identifier)
    (h : Takes (place (inner 0)) (t :: ts) p rest) :
    Takes (operand inner) (t :: ts) p.toExpr rest := by
  refine .get_bind fun s hs => ?_
  rw [hs]
  simp only [ht]
  exact h.bind .pure

end Operand

theorem Expression.climbs {level : Level} {ts rest : List Token} {e : Expr} {k : Nat}
    (h : Grammar.Expression level ts e k rest) {n least : Nat} (hk : k ≤ n + 1)
    (hr : Ends level least rest) : Climbs n least ts e rest := by
  induction h generalizing n least with
  | term _ ih =>
    have hle := (hr.sum rfl).1
    exact ih hk (.ofTerm hr.bracket (by omega))
  | factor _ ih => exact ih hk (.ofFactor hr.bracket)
  | add hl hop hr' ihl ihr =>
    obtain ⟨hb, h10, hterm, hbracket⟩ := binaryOp?_of_sumOp? hop
    obtain ⟨hle, hnone⟩ := hr.sum rfl
    obtain ⟨n, rfl⟩ : ∃ m, n = m + 1 := ⟨n - 1, by have := Expression.pos hr'; omega⟩
    refine (ihl (by omega) (.ofSum hbracket hle hterm)).extend hb (by omega) ?_
      (Nat.le_of_lt hr'.length_lt)
    rw [rightPower, h10]
    exact (ihr (by omega) (.ofTerm hr.bracket (by omega))).takes (stops_of_termOp? hnone)
  | mul hl hop hr' ihl ihr =>
    obtain ⟨hb, h20, hbracket⟩ := binaryOp?_of_termOp? hop
    have hle := hr.term rfl
    obtain ⟨n, rfl⟩ : ∃ m, n = m + 1 := ⟨n - 1, by have := Expression.pos hr'; omega⟩
    refine (ihl (by omega) (.ofTerm hbracket hle)).extend hb (by omega) ?_
      (Nat.le_of_lt hr'.length_lt)
    rw [rightPower, h20]
    exact (ihr (by omega) (.ofFactor hr.bracket)).takes (stops_of_lt (by omega) _)
  | signed ht he ih =>
    obtain ⟨n, rfl⟩ : ∃ m, n = m + 1 := ⟨n - 1, by have := Expression.pos he; omega⟩
    refine .of_operand least (operand_signed ht (Expression.minLiteral? he _) ?_)
    exact (ih (by omega) (.ofFactor hr.bracket)).takes (stops_of_lt (by decide) _)
  | smallest ht hu => exact .of_operand least (operand_smallest ht hu)
  | @parens _ rest _ u _ _ ht he hu ih =>
    obtain ⟨n, rfl⟩ : ∃ m, n = m + 1 := ⟨n - 1, by have := Expression.pos he; omega⟩
    have hf : Follows (u :: rest) := .of_kind hu (by decide) rfl
    exact .of_operand least (operand_parens ht ((ih (by omega) hf.ends).takes (hf.stops 0)) hu)
  | literal ht => exact .of_operand least (operand_literal ht)
  | name ht => exact .of_operand least (operand_place ht (place_name ht hr.bracket))
  | @element _ rest _ _ v _ _ ht hu hi hv ih =>
    obtain ⟨n, rfl⟩ : ∃ m, n = m + 1 := ⟨n - 1, by have := Expression.pos hi; omega⟩
    have hf : Follows (v :: rest) := .of_kind hv (by decide) rfl
    exact .of_operand least (operand_place ht
      (place_element ht hu ((ih (by omega) hf.ends).takes (hf.stops 0)) hv))

theorem Whole.takes {ts rest : List Token} {e : Expr} (h : Grammar.Whole ts e rest)
    (hf : Follows rest) : Takes expression ts e rest := by
  obtain ⟨k, hk, he⟩ := h
  exact (Expression.climbs (n := maxDepth - 1) he hk hf.ends).takes (hf.stops 0)

theorem relationOp?_follows {t : Token} {relation : Relation}
    (h : relationOp? t.kind = some relation) (ts : List Token) : Follows (t :: ts) := by
  cases hk : t.kind <;> rw [hk] at h <;> cases h <;> exact .of_kind hk (by decide) rfl

theorem Test.takes {ts rest : List Token} {c : Condition} (h : Grammar.Test ts c rest) :
    Takes parenthesized ts c rest := by
  cases h with
  | mk ht hl hu hr hv =>
    refine (Takes.expect ht).bind (.bind ?_ ((Takes.expect hv).bind .pure))
    refine (Whole.takes hl (relationOp?_follows hu _)).bind (.peek_bind ?_)
    simp only [headKind, relation?_eq, hu]
    exact Takes.advance.bind ((Whole.takes hr (.of_kind hv (by decide) rfl)).bind .pure)

theorem Target.takes {ts rest : List Token} {p : Place} (h : Grammar.Target ts p rest)
    (hr : headKind rest ≠ .leftBracket) : Takes (place expression) ts p rest := by
  cases h with
  | name ht => exact place_name ht hr
  | element ht hu hi hv =>
    exact place_element ht hu (Whole.takes hi (.of_kind hv (by decide) rfl)) hv

def startsExpression : TokenKind → Bool
  | .plus | .minus | .leftParen | .int | .hex | .float | .identifier => true
  | _ => false

theorem Expression.starts {level : Level} {ts rest : List Token} {e : Expr} {k : Nat}
    (h : Grammar.Expression level ts e k rest) : startsExpression (headKind ts) = true := by
  induction h with
  | term _ ih => exact ih
  | factor _ ih => exact ih
  | add _ _ _ ihl _ => exact ihl
  | mul _ _ _ ihl _ => exact ihl
  | @signed _ _ t _ _ _ ht _ _ =>
    rw [headKind]
    revert ht
    cases t.kind <;> intro ht <;> cases ht <;> rfl
  | smallest ht _ => simp [headKind, ht, startsExpression]
  | parens ht _ _ _ => simp [headKind, ht, startsExpression]
  | literal ht =>
    cases ht with
    | decimal ht _ _ => simp [headKind, ht, startsExpression]
    | hexadecimal ht _ => simp [headKind, ht, startsExpression]
    | float ht _ => simp [headKind, ht, startsExpression]
  | name ht => simp [headKind, ht, startsExpression]
  | element ht _ _ _ _ => simp [headKind, ht, startsExpression]

theorem Whole.head_ne {ts rest : List Token} {e : Expr} (h : Grammar.Whole ts e rest)
    {kind : TokenKind} (hk : startsExpression kind = false) : headKind ts ≠ kind := by
  obtain ⟨k, -, he⟩ := h
  intro heq
  subst heq
  rw [Expression.starts he] at hk
  cases hk

theorem Elements.follows {ts rest : List Token} {es : List Expr}
    (h : Grammar.Elements ts es rest) (hr : headKind rest = .rightBrace) : Follows ts := by
  cases h with
  | done => exact ⟨by simp [hr], by simp [hr, binaryOp?]⟩
  | comma ht => exact .of_kind ht (by decide) rfl
  | more ht _ _ => exact .of_kind ht (by decide) rfl

theorem Elements.takes {ts rest : List Token} {es : List Expr}
    (h : Grammar.Elements ts es rest) (hr : headKind rest = .rightBrace) {fuel : Nat}
    (hf : ts.length ≤ fuel) : Takes (moreElements fuel) ts es rest := by
  induction h generalizing fuel with
  | done =>
    cases fuel with
    | zero => exact .pure
    | succ fuel => exact (Takes.accept_false (by simp [hr])).bind .pure
  | comma ht =>
    cases fuel with
    | zero => simp at hf
    | succ fuel =>
      refine (Takes.accept ht).bind (.peek_bind ?_)
      rw [if_pos hr]
      exact .pure
  | more ht he hes ih =>
    cases fuel with
    | zero => simp at hf
    | succ fuel =>
      have hlen := he.length_lt
      simp only [List.length_cons] at hf
      refine (Takes.accept ht).bind (.peek_bind ?_)
      rw [if_neg (Whole.head_ne he rfl)]
      exact (Whole.takes he (Elements.follows hes hr)).bind
        ((ih hr (by omega)).bind .pure)

theorem Braces.takes {ts rest : List Token} {es : List Expr} {z : Token}
    (h : Grammar.Braces ts es z rest) : Takes braceList ts (es, z) rest := by
  cases h with
  | empty ht hz => exact (Takes.expect ht).bind ((Takes.accept? hz).bind .pure)
  | elements ht he hes hz =>
    refine (Takes.expect ht).bind ((Takes.accept?_none (Whole.head_ne he rfl)).bind ?_)
    refine (Whole.takes he (Elements.follows hes hz)).bind (.remaining_bind ?_)
    exact (Elements.takes hes hz (Nat.le_refl _)).bind ((Takes.expect hz).bind .pure)

theorem Braces.head {ts rest : List Token} {es : List Expr} {z : Token}
    (h : Grammar.Braces ts es z rest) : headKind ts = .leftBrace := by
  cases h with
  | empty ht _ => exact ht
  | elements ht _ _ _ => exact ht

theorem initializer_braces {ts rest : List Token} {es : List Expr} {z : Token}
    (h : Grammar.Braces ts es z rest) : Takes (initializer true) ts (es, z.span) rest := by
  refine .peek_bind ?_
  rw [if_pos (Braces.head h)]
  exact (Braces.takes h).bind .pure

theorem initializer_whole {ts rest : List Token} {e : Expr} (h : Grammar.Whole ts e rest)
    (hf : Follows rest) : Takes (initializer false) ts ([e], e.span) rest := by
  refine .peek_bind ?_
  rw [if_neg (Whole.head_ne h rfl)]
  exact (Whole.takes h hf).bind .pure

section Brackets

variable {name u v : Token} {ts rest : List Token} {n : Expr}

theorem brackets_absent (h : headKind rest ≠ .leftBracket) :
    Takes (brackets name) rest (.absent, name.span) rest :=
  (Takes.accept_false h).bind .pure

theorem brackets_unstated (hu : u.kind = .leftBracket) (hv : v.kind = .rightBracket) :
    Takes (brackets name) (u :: v :: rest) (.unstated, v.span) rest := by
  refine (Takes.accept hu).bind (.peek_bind ?_)
  rw [if_pos (show headKind (v :: rest) = .rightBracket from hv)]
  exact (Takes.expect hv).bind .pure

theorem brackets_length (hu : u.kind = .leftBracket) (hn : Grammar.Whole ts n (v :: rest))
    (hv : v.kind = .rightBracket) :
    Takes (brackets name) (u :: ts) (.length n, v.span) rest := by
  refine (Takes.accept hu).bind (.peek_bind ?_)
  rw [if_neg (Whole.head_ne hn rfl)]
  exact (Whole.takes hn (.of_kind hv (by decide) rfl)).bind ((Takes.expect hv).bind .pure)

end Brackets

def EndsDeclarator (rest : List Token) : Prop :=
  headKind rest = .comma ∨ headKind rest = .semicolon

theorem EndsDeclarator.follows {rest : List Token} (h : EndsDeclarator rest) : Follows rest := by
  rcases h with h | h <;> exact ⟨by simp [h], by simp [h, binaryOp?]⟩

theorem EndsDeclarator.ne_equal {rest : List Token} (h : EndsDeclarator rest) :
    headKind rest ≠ .equal := by
  rcases h with h | h <;> simp [h]

theorem Declarator.takes {kind : Kind} {constant : Bool} {ts rest : List Token} {x : Variable}
    (start : Span) (h : Grammar.Declarator kind constant ts x rest) (hr : EndsDeclarator rest) :
    Takes (declarator start kind constant) ts x rest := by
  cases h with
  | scalar hc ht =>
    subst hc
    refine (Takes.expectName ht).bind ((brackets_absent hr.follows.bracket).bind ?_)
    refine (Takes.accept_false hr.ne_equal).bind ?_
    simp only [Span.merge_self]
    exact .pure
  | scalarValue ht hu he =>
    refine (Takes.expectName ht).bind ((brackets_absent (by simp [headKind, hu])).bind ?_)
    refine (Takes.accept hu).bind ?_
    exact (initializer_whole he hr.follows).bind .pure
  | array hc ht hu hn hv =>
    subst hc
    refine (Takes.expectName ht).bind ((brackets_length hu hn hv).bind ?_)
    refine (Takes.accept_false hr.ne_equal).bind ?_
    exact .pure
  | arrayValue ht hu hn hv hw hes =>
    refine (Takes.expectName ht).bind ((brackets_length hu hn hv).bind ?_)
    refine (Takes.accept hw).bind ?_
    exact (initializer_braces hes).bind .pure
  | openArray ht hu hv hw hes =>
    refine (Takes.expectName ht).bind ((brackets_unstated hu hv).bind ?_)
    refine (Takes.accept hw).bind ?_
    exact (initializer_braces hes).bind .pure

theorem Declarators.ends {kind : Kind} {constant : Bool} {ts rest : List Token}
    {xs : List Variable} (h : Grammar.Declarators kind constant ts xs rest)
    (hr : headKind rest = .semicolon) : EndsDeclarator ts := by
  cases h with
  | done => exact .inr hr
  | more ht _ _ => exact .inl ht

theorem Declarators.takes {kind : Kind} {constant : Bool} {ts rest : List Token}
    {xs : List Variable} (start : Span) (h : Grammar.Declarators kind constant ts xs rest)
    (hr : headKind rest = .semicolon) {fuel : Nat} (hf : ts.length ≤ fuel) :
    Takes (moreDeclarators start kind constant fuel) ts xs rest := by
  induction h generalizing fuel with
  | done =>
    cases fuel with
    | zero => exact .pure
    | succ fuel => exact (Takes.accept_false (by simp [hr])).bind .pure
  | more ht hx hxs ih =>
    cases fuel with
    | zero => simp at hf
    | succ fuel =>
      have hlen := hx.length_lt
      simp only [List.length_cons] at hf
      refine (Takes.accept ht).bind ?_
      exact (Declarator.takes start hx (Declarators.ends hxs hr)).bind
        ((ih hr (by omega)).bind .pure)

theorem Variables.takes {ts rest : List Token} {xs : List Variable}
    (h : Grammar.Variables ts xs rest) : Takes variableDeclaration ts xs rest := by
  refine .get_bind fun s _ => ?_
  cases h with
  | @plain us _ _ t _ _ _ _ ht hx hxs hu =>
    have hconst : headKind (t :: us) ≠ .constKeyword := by
      rw [headKind]
      intro hk
      rw [hk] at ht
      cases ht
    refine (Takes.accept_false hconst).bind (.peek_bind ?_)
    simp only [headKind, kindOf?_eq, ht]
    refine Takes.advance.bind ((Declarator.takes _ hx (Declarators.ends hxs hu)).bind ?_)
    refine .remaining_bind ((Declarators.takes _ hxs hu (Nat.le_refl _)).bind ?_)
    exact (Takes.expect hu).bind .pure
  | constant hw ht hx hxs hu =>
    refine (Takes.accept hw).bind (.peek_bind ?_)
    simp only [headKind, kindOf?_eq, ht]
    refine Takes.advance.bind ((Declarator.takes _ hx (Declarators.ends hxs hu)).bind ?_)
    refine .remaining_bind ((Declarators.takes _ hxs hu (Nat.le_refl _)).bind ?_)
    exact (Takes.expect hu).bind .pure

theorem Variables.starts {ts rest : List Token} {xs : List Variable}
    (h : Grammar.Variables ts xs rest) : (headKind ts).startsVariable = true := by
  cases h with
  | @plain _ _ _ t _ _ _ _ ht _ _ _ =>
    rw [headKind]
    revert ht
    cases t.kind <;> intro ht <;> cases ht <;> rfl
  | constant hw _ _ _ _ => simp [headKind, hw, TokenKind.startsVariable]

def opensStatement : TokenKind → Bool
  | .leftBrace | .ifKeyword | .whileKeyword | .semicolon | .identifier => true
  | _ => false

theorem Target.starts {ts rest : List Token} {p : Place} (h : Grammar.Target ts p rest)
    (hr : headKind rest ≠ .leftParen) :
    headKind ts = .identifier ∧ headKind (ts.drop 1) ≠ .leftParen := by
  cases h with
  | name ht => exact ⟨ht, hr⟩
  | element ht hu _ _ => exact ⟨ht, by simp [headKind, hu]⟩

theorem Statement.starts {ts rest : List Token} {st : Stmt}
    (h : Grammar.Statement ts st rest) : opensStatement (headKind ts) = true := by
  cases h with
  | block ht _ _ => simp [headKind, ht, opensStatement]
  | branch ht _ _ => simp [headKind, ht, opensStatement]
  | branchElse ht _ _ _ _ _ => simp [headKind, ht, opensStatement]
  | loop ht _ _ => simp [headKind, ht, opensStatement]
  | empty ht => simp [headKind, ht, opensStatement]
  | call ht _ _ _ => simp [headKind, ht, opensStatement]
  | assign htarget ht _ _ =>
    rw [(Target.starts htarget (by simp [headKind, ht])).1]
    rfl

theorem not_startsVariable {kind : TokenKind} (h : opensStatement kind = true) :
    ¬ kind.startsVariable = true := by
  revert h
  cases kind <;> decide

theorem Items.head_ne_else {ts rest : List Token} {body : List Stmt}
    (h : Grammar.Items ts body rest) (hr : headKind rest = .rightBrace) :
    headKind ts ≠ .elseKeyword := by
  intro he
  cases h with
  | done => simp [hr] at he
  | declare hvs _ => simpa [he, TokenKind.startsVariable] using Variables.starts hvs
  | statement hst _ => simpa [he, opensStatement] using Statement.starts hst

theorem Takes.orRecover {α : Type} {p : Parser α} {ts rest : List Token} {a : α}
    (h : Takes p ts a rest) (default : α) (recover : State → State → State) :
    Takes (Parser.orRecover p default recover) ts a rest := by
  intro s hs
  obtain ⟨symbols, hp⟩ := h s hs
  exact ⟨symbols, by simp only [Parser.orRecover, hp]⟩

theorem block_takes {statement : Parser Stmt} {t u : Token} {ts rest : List Token}
    {body : List Stmt} (ht : t.kind = .leftBrace)
    (h : Takes (blockItems statement ts.length) ts body (u :: rest)) (hu : u.kind = .rightBrace) :
    Takes (block statement) (t :: ts) (body, t.span.merge u.span) rest :=
  (Takes.expect ht).bind (.remaining_bind (h.bind ((Takes.expect hu).bind .pure)))

theorem blockItems_round {statement : Parser Stmt} {ts mid rest : List Token}
    {found body : List Stmt} {fuel : Nat} (hk : headKind ts ≠ .rightBrace)
    (he : headKind ts ≠ .eof) (h : Takes (blockItem statement) ts found mid)
    (hrest : Takes (blockItems statement fuel) mid body rest) :
    Takes (blockItems statement (fuel + 1)) ts (found ++ body) rest := by
  refine .peek_bind ?_
  split
  · next h' => exact absurd h' hk
  · next h' => exact absurd h' he
  · exact (h.orRecover _ _).bind (hrest.bind .pure)

mutual

theorem Statement.takes : {ts rest : List Token} → {st : Stmt} → Grammar.Statement ts st rest →
    (fuel : Nat) → ts.length ≤ fuel → (st.closed = false → headKind rest ≠ .elseKeyword) →
    Takes (statementAt fuel) ts st rest
  | _, _, _, h, 0, hf, _ => by
    have := h.length_lt
    omega
  | _, _, _, .block ht hbody hu, fuel + 1, hf, _ => by
    simp only [List.length_cons, Nat.add_le_add_iff_right] at hf
    refine .peek_bind ?_
    simp only [headKind, ht]
    exact (block_takes ht (Items.takes hbody hu fuel _ hf (Nat.le_refl _)) hu).bind .pure
  | _, _, _, .branch ht htest hbody, fuel + 1, hf, hr => by
    have hlen := htest.length_lt
    simp only [List.length_cons, Nat.add_le_add_iff_right] at hf
    refine .peek_bind ?_
    simp only [headKind, ht]
    refine (Takes.expect ht).bind ((Test.takes htest).bind ?_)
    refine (Statement.takes hbody fuel (by omega) fun _ => hr rfl).bind ?_
    exact (Takes.accept_false (hr rfl)).bind .pure
  | _, _, _, .branchElse ht htest hbody hclosed hu hother, fuel + 1, hf, hr => by
    have hlen := htest.length_lt
    have hlen' := hbody.length_lt
    simp only [List.length_cons, Nat.add_le_add_iff_right] at hf hlen'
    refine .peek_bind ?_
    simp only [headKind, ht]
    refine (Takes.expect ht).bind ((Test.takes htest).bind ?_)
    refine (Statement.takes hbody fuel (by omega) fun h => by simp [hclosed] at h).bind ?_
    refine (Takes.accept hu).bind ?_
    exact (Statement.takes hother fuel (by omega) hr).bind .pure
  | _, _, _, .loop ht htest hbody, fuel + 1, hf, hr => by
    have hlen := htest.length_lt
    simp only [List.length_cons, Nat.add_le_add_iff_right] at hf
    refine .peek_bind ?_
    simp only [headKind, ht]
    refine (Takes.expect ht).bind ((Test.takes htest).bind ?_)
    exact (Statement.takes hbody fuel (by omega) hr).bind .pure
  | _, _, _, .empty ht, fuel + 1, _, _ => by
    refine .peek_bind ?_
    simp only [headKind, ht]
    exact (Takes.expect ht).bind .pure
  | _, _, _, .call ht hu hv hw, fuel + 1, _, _ => by
    refine .peek_bind ?_
    simp only [headKind, ht]
    refine .peekSecond_bind ?_
    simp only [List.drop_succ_cons, List.drop_zero, headKind, hu, if_true]
    exact (Takes.expectName ht).bind ((Takes.expect hu).bind ((Takes.expect hv).bind
      ((Takes.expect hw).bind .pure)))
  | _, _, _, .assign htarget ht hvalue hu, fuel + 1, _, _ => by
    obtain ⟨hhead, hsecond⟩ := Target.starts htarget (by simp [headKind, ht])
    refine .peek_bind ?_
    simp only [hhead]
    refine .peekSecond_bind ?_
    rw [if_neg hsecond]
    refine (Target.takes htarget (by simp [headKind, ht])).bind ((Takes.expect ht).bind ?_)
    exact (Whole.takes hvalue (.of_kind hu (by decide) rfl)).bind ((Takes.expect hu).bind .pure)

theorem Items.takes : {ts rest : List Token} → {body : List Stmt} → Grammar.Items ts body rest →
    headKind rest = .rightBrace → (fuel fuel' : Nat) → ts.length ≤ fuel → ts.length ≤ fuel' →
    Takes (blockItems (statementAt fuel) fuel') ts body rest
  | _, _, _, .done, hr, _, 0, _, _ => .pure
  | _, _, _, .done, hr, _, _ + 1, _, _ => by
    refine .peek_bind ?_
    simp only [hr]
    exact .pure
  | _, _, _, .declare hvs hbody, hr, fuel, 0, hf, hf' => by
    have := hvs.length_lt
    omega
  | _, _, _, .statement hst hbody, hr, fuel, 0, hf, hf' => by
    have := hst.length_lt
    omega
  | ts, _, _, .declare hvs hbody, hr, fuel, fuel' + 1, hf, hf' => by
    have hlen := hvs.length_lt
    have hstart := Variables.starts hvs
    have hbrace : headKind ts ≠ .rightBrace := fun h => by
      simp [h, TokenKind.startsVariable] at hstart
    have heof : headKind ts ≠ .eof := fun h => by simp [h, TokenKind.startsVariable] at hstart
    refine blockItems_round hbrace heof (.peek_bind ?_)
      (Items.takes hbody hr fuel fuel' (by omega) (by omega))
    rw [if_pos hstart]
    exact (Variables.takes hvs).bind .pure
  | ts, _, _, .statement hst hbody, hr, fuel, fuel' + 1, hf, hf' => by
    have hlen := hst.length_lt
    have hstart := Statement.starts hst
    have hbrace : headKind ts ≠ .rightBrace := fun h => by simp [h, opensStatement] at hstart
    have heof : headKind ts ≠ .eof := fun h => by simp [h, opensStatement] at hstart
    show Takes _ ts ([_] ++ _) _
    refine blockItems_round hbrace heof (.peek_bind ?_)
      (Items.takes hbody hr fuel fuel' (by omega) (by omega))
    rw [if_neg (not_startsVariable hstart)]
    exact (Statement.takes hst fuel hf fun _ => Items.head_ne_else hbody hr).bind .pure

end

theorem declarations_round {ts mid : List Token} {found p : Program} {fuel : Nat}
    (he : headKind ts ≠ .eof) (h : Takes declaration ts found mid)
    (hp : Takes (declarations fuel) mid p []) :
    Takes (declarations (fuel + 1)) ts (found ++ p) [] := by
  refine .peek_bind ?_
  rw [if_neg he]
  exact (h.orRecover _ _).bind (hp.bind .pure)

theorem Derives.takes {ts : List Token} {p : Program} (h : Derives ts p) {fuel : Nat}
    (hf : ts.length ≤ fuel) : Takes (declarations fuel) ts p [] := by
  induction h generalizing fuel with
  | done =>
    cases fuel with
    | zero => exact .pure
    | succ fuel => exact .peek_bind .pure
  | function ht hname hu hv hw hbody hx _ ih =>
    have hlen := hbody.length_le
    simp only [List.length_cons] at hf hlen
    obtain ⟨fuel, rfl⟩ : ∃ m, fuel = m + 1 := ⟨fuel - 1, by omega⟩
    show Takes _ _ ([_] ++ _) _
    refine declarations_round (by simp [headKind, ht]) (.peek_bind ?_) (ih (by omega))
    rw [if_pos (show headKind (_ :: _) = _ from ht)]
    refine .bind ?_ .pure
    refine (Takes.expect ht).bind ((Takes.expectName hname).bind ?_)
    refine (Takes.expect hu).bind ((Takes.expect hv).bind (.remaining_bind ?_))
    refine (block_takes hw (Items.takes hbody hx _ _ ?_ (Nat.le_refl _)) hx).bind .pure
    simp
  | globals hvs _ ih =>
    have hlen := hvs.length_lt
    have hstart := Variables.starts hvs
    obtain ⟨fuel, rfl⟩ : ∃ m, fuel = m + 1 := ⟨fuel - 1, by omega⟩
    refine declarations_round (fun h => by simp [h, TokenKind.startsVariable] at hstart)
      (.peek_bind ?_) (ih (by omega))
    rw [if_neg (fun h => by simp [h, TokenKind.startsVariable] at hstart), if_pos hstart]
    exact (Variables.takes hvs).bind .pure

end C1Lang.Parser

namespace C1Lang

open Grammar

theorem parse_of_derives {ts : List Token} {p : Program} (h : Derives (significant ts) p) :
    (parse ts).program? = some p := by
  obtain ⟨symbols, hp⟩ : ∃ symbols, Parser.program (Parser.State.ofTokens ts) =
      .ok p { Parser.State.ofTokens ts with rest := [], symbols } :=
    (Parser.Takes.remaining_bind (Parser.Derives.takes h (Nat.le_refl _)))
      (Parser.State.ofTokens ts) rfl
  unfold parse
  rw [hp]
  rfl

/-- The parser accepts a list of tokens exactly when the grammar derives a program from those that
count, and gives that program; there is no other. -/
theorem parse_iff_derives (ts : List Token) :
    (∀ p, (parse ts).program? = some p ↔ Derives (significant ts) p) ∧
    ((parse ts).program?.isSome = true ↔
      ∃ p, Derives (significant ts) p ∧ ∀ q, Derives (significant ts) q → q = p) := by
  refine ⟨fun p => ⟨derives_of_parse, parse_of_derives⟩, ⟨fun h => ?_, ?_⟩⟩
  · obtain ⟨p, hp⟩ := Option.isSome_iff_exists.mp h
    refine ⟨p, derives_of_parse hp, fun q hq => ?_⟩
    have hq' := parse_of_derives hq
    rw [hp] at hq'
    exact (Option.some.inj hq').symm
  · intro hread
    obtain ⟨p, hp, -⟩ := hread
    rw [parse_of_derives hp]
    rfl

end C1Lang
