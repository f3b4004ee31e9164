import C1Lang.Parser.Program
import C1Lang.Proofs.Number.Notation

/-!
# The grammar of programs

Every phrase is a relation between the tokens from its first one on, its tree, and the tokens
behind it. Expressions come in three levels, sums of terms of factors, and carry the depth of
their nesting: one for an expression as a whole, and one more for each right operand, signed
operand, parenthesis or index around the innermost position. No whole expression is deeper than
the limit.
-/

namespace C1Lang

/-- Whether an `else` behind the statement would belong to a branch outside of it. -/
def Stmt.closed : Stmt → Bool
  | .branch _ _ _ => false
  | .branchElse _ _ other _ => other.closed
  | .loop _ body _ => body.closed
  | .declare _ | .assign _ _ _ | .call _ _ | .block _ _ | .empty _ => true

namespace Grammar

inductive Level
  | sum
  | term
  | factor
deriving DecidableEq, Repr

def sumOp? : TokenKind → Option BinaryOp
  | .plus => some .add
  | .minus => some .sub
  | _ => none

def termOp? : TokenKind → Option BinaryOp
  | .asterisk => some .mul
  | .slash => some .div
  | .percent => some .mod
  | _ => none

def signOp? : TokenKind → Option UnaryOp
  | .plus => some .plus
  | .minus => some .neg
  | _ => none

def relationOp? : TokenKind → Option Relation
  | .equalEqual => some .eq
  | .bangEqual => some .ne
  | .less => some .lt
  | .lessEqual => some .le
  | .greater => some .gt
  | .greaterEqual => some .ge
  | _ => none

def baseType? : TokenKind → Option Kind
  | .intType => some .int
  | .floatType => some .float
  | _ => none

def depthLimit : Nat := 500

def Smallest (t : Token) : Prop :=
  t.kind = .int ∧ Number.Numeral 10 t.lexeme.toList 2147483648

/-- The magnitude of the smallest word is no literal of its own. -/
inductive Literal (t : Token) : Value → Prop
  | decimal {n : Nat} : t.kind = .int → ¬ Smallest t → Number.WordText t.lexeme.toList n →
      Literal t (.int (Int32.ofNat n))
  | hexadecimal {n : Nat} : t.kind = .hex → Number.WordText t.lexeme.toList n →
      Literal t (.int (Int32.ofNat n))
  | float {x : Float} : t.kind = .float → Number.DoubleText t.lexeme.toList x →
      Literal t (.float x)

/-- An expression of a level, nested as deep as the number says. -/
inductive Expression : Level → List Token → Expr → Nat → List Token → Prop
  | term {ts rest : List Token} {e : Expr} {k : Nat} :
      Expression .term ts e k rest → Expression .sum ts e k rest
  | factor {ts rest : List Token} {e : Expr} {k : Nat} :
      Expression .factor ts e k rest → Expression .term ts e k rest
  | add {ts mid rest : List Token} {t : Token} {op : BinaryOp} {l r : Expr} {j k : Nat} :
      Expression .sum ts l j (t :: mid) → sumOp? t.kind = some op →
      Expression .term mid r k rest →
      Expression .sum ts (.binary op l r (l.span.merge r.span)) (max j (k + 1)) rest
  | mul {ts mid rest : List Token} {t : Token} {op : BinaryOp} {l r : Expr} {j k : Nat} :
      Expression .term ts l j (t :: mid) → termOp? t.kind = some op →
      Expression .factor mid r k rest →
      Expression .term ts (.binary op l r (l.span.merge r.span)) (max j (k + 1)) rest
  | signed {ts rest : List Token} {t : Token} {op : UnaryOp} {e : Expr} {k : Nat} :
      signOp? t.kind = some op → Expression .factor ts e k rest →
      Expression .factor (t :: ts) (.unary op e (t.span.merge e.span)) (k + 1) rest
  | smallest {rest : List Token} {t u : Token} :
      t.kind = .minus → Smallest u →
      Expression .factor (t :: u :: rest)
        (.literal (.int Int32.minValue) (t.span.merge u.span)) 1 rest
  | parens {ts rest : List Token} {t u : Token} {e : Expr} {k : Nat} :
      t.kind = .leftParen → Expression .sum ts e k (u :: rest) → u.kind = .rightParen →
      Expression .factor (t :: ts) e (k + 1) rest
  | literal {rest : List Token} {t : Token} {v : Value} :
      Literal t v → Expression .factor (t :: rest) (.literal v t.span) 1 rest
  | name {rest : List Token} {t : Token} :
      t.kind = .identifier → Expression .factor (t :: rest) (.name t.lexeme t.span) 1 rest
  | element {ts rest : List Token} {t u v : Token} {i : Expr} {k : Nat} :
      t.kind = .identifier → u.kind = .leftBracket → Expression .sum ts i k (v :: rest) →
      v.kind = .rightBracket →
      Expression .factor (t :: u :: ts) (.element t.lexeme i (t.span.merge v.span)) (k + 1) rest

def Whole (ts : List Token) (e : Expr) (rest : List Token) : Prop :=
  ∃ k ≤ depthLimit, Expression .sum ts e k rest

inductive Test : List Token → Condition → List Token → Prop
  | mk {ts mid rest : List Token} {t u v : Token} {relation : Relation} {l r : Expr} :
      t.kind = .leftParen → Whole ts l (u :: mid) → relationOp? u.kind = some relation →
      Whole mid r (v :: rest) → v.kind = .rightParen →
      Test (t :: ts) ⟨relation, l, r, l.span.merge r.span⟩ rest

inductive Target : List Token → Place → List Token → Prop
  | name {rest : List Token} {t : Token} :
      t.kind = .identifier → Target (t :: rest) (.name t.lexeme t.span) rest
  | element {ts rest : List Token} {t u v : Token} {i : Expr} :
      t.kind = .identifier → u.kind = .leftBracket → Whole ts i (v :: rest) →
      v.kind = .rightBracket →
      Target (t :: u :: ts) (.element t.lexeme i (t.span.merge v.span)) rest

/-- What follows the first element of a brace list; a comma may end it. -/
inductive Elements : List Token → List Expr → List Token → Prop
  | done {rest : List Token} : Elements rest [] rest
  | comma {rest : List Token} {t : Token} : t.kind = .comma → Elements (t :: rest) [] rest
  | more {ts mid rest : List Token} {t : Token} {e : Expr} {es : List Expr} :
      t.kind = .comma → Whole ts e mid → Elements mid es rest → Elements (t :: ts) (e :: es) rest

inductive Braces : List Token → List Expr → Token → List Token → Prop
  | empty {rest : List Token} {t u : Token} :
      t.kind = .leftBrace → u.kind = .rightBrace → Braces (t :: u :: rest) [] u rest
  | elements {ts mid rest : List Token} {t u : Token} {e : Expr} {es : List Expr} :
      t.kind = .leftBrace → Whole ts e mid → Elements mid es (u :: rest) → u.kind = .rightBrace →
      Braces (t :: ts) (e :: es) u rest

/-- One declared name. A constant has a value, and so has an array whose length is left open;
the value of an array is a brace list, that of a scalar is not. -/
inductive Declarator (kind : Kind) (constant : Bool) : List Token → Variable → List Token → Prop
  | scalar {rest : List Token} {t : Token} :
      constant = false → t.kind = .identifier →
      Declarator kind constant (t :: rest)
        ⟨t.lexeme, t.span, kind, constant, none, [], t.span⟩ rest
  | scalarValue {ts rest : List Token} {t u : Token} {e : Expr} :
      t.kind = .identifier → u.kind = .equal → Whole ts e rest →
      Declarator kind constant (t :: u :: ts)
        ⟨t.lexeme, t.span, kind, constant, none, [e], t.span.merge e.span⟩ rest
  | array {ts rest : List Token} {t u v : Token} {n : Expr} :
      constant = false → t.kind = .identifier → u.kind = .leftBracket → Whole ts n (v :: rest) →
      v.kind = .rightBracket →
      Declarator kind constant (t :: u :: ts)
        ⟨t.lexeme, t.span, kind, constant, some (.stated n), [], t.span.merge v.span⟩ rest
  | arrayValue {ts mid rest : List Token} {t u v w z : Token} {n : Expr} {es : List Expr} :
      t.kind = .identifier → u.kind = .leftBracket → Whole ts n (v :: w :: mid) →
      v.kind = .rightBracket → w.kind = .equal → Braces mid es z rest →
      Declarator kind constant (t :: u :: ts)
        ⟨t.lexeme, t.span, kind, constant, some (.stated n), es, t.span.merge z.span⟩ rest
  | openArray {mid rest : List Token} {t u v w z : Token} {es : List Expr} :
      t.kind = .identifier → u.kind = .leftBracket → v.kind = .rightBracket →
      w.kind = .equal → Braces mid es z rest →
      Declarator kind constant (t :: u :: v :: w :: mid)
        ⟨t.lexeme, t.span, kind, constant, some (.counted (Int32.ofNat es.length) v.span), es,
          t.span.merge z.span⟩ rest

inductive Declarators (kind : Kind) (constant : Bool) :
    List Token → List Variable → List Token → Prop
  | done {rest : List Token} : Declarators kind constant rest [] rest
  | more {ts mid rest : List Token} {t : Token} {v : Variable} {vs : List Variable} :
      t.kind = .comma → Declarator kind constant ts v mid →
      Declarators kind constant mid vs rest → Declarators kind constant (t :: ts) (v :: vs) rest

inductive Variables : List Token → List Variable → List Token → Prop
  | plain {ts mid rest : List Token} {t u : Token} {kind : Kind} {v : Variable}
      {vs : List Variable} :
      baseType? t.kind = some kind → Declarator kind false ts v mid →
      Declarators kind false mid vs (u :: rest) → u.kind = .semicolon →
      Variables (t :: ts) (v :: vs) rest
  | constant {ts mid rest : List Token} {w t u : Token} {kind : Kind} {v : Variable}
      {vs : List Variable} :
      w.kind = .constKeyword → baseType? t.kind = some kind → Declarator kind true ts v mid →
      Declarators kind true mid vs (u :: rest) → u.kind = .semicolon →
      Variables (w :: t :: ts) (v :: vs) rest

mutual

/-- A statement. An `else` belongs to the nearest branch that is open. -/
inductive Statement : List Token → Stmt → List Token → Prop
  | block {ts rest : List Token} {t u : Token} {body : List Stmt} :
      t.kind = .leftBrace → Items ts body (u :: rest) → u.kind = .rightBrace →
      Statement (t :: ts) (.block body (t.span.merge u.span)) rest
  | branch {ts mid rest : List Token} {t : Token} {test : Condition} {body : Stmt} :
      t.kind = .ifKeyword → Test ts test mid → Statement mid body rest →
      Statement (t :: ts) (.branch test body (t.span.merge body.span)) rest
  | branchElse {ts mid mid' rest : List Token} {t u : Token} {test : Condition}
      {body other : Stmt} :
      t.kind = .ifKeyword → Test ts test mid → Statement mid body (u :: mid') →
      body.closed = true → u.kind = .elseKeyword → Statement mid' other rest →
      Statement (t :: ts) (.branchElse test body other (t.span.merge other.span)) rest
  | loop {ts mid rest : List Token} {t : Token} {test : Condition} {body : Stmt} :
      t.kind = .whileKeyword → Test ts test mid → Statement mid body rest →
      Statement (t :: ts) (.loop test body (t.span.merge body.span)) rest
  | empty {rest : List Token} {t : Token} :
      t.kind = .semicolon → Statement (t :: rest) (.empty t.span) rest
  | call {rest : List Token} {t u v w : Token} :
      t.kind = .identifier → u.kind = .leftParen → v.kind = .rightParen → w.kind = .semicolon →
      Statement (t :: u :: v :: w :: rest) (.call t.lexeme (t.span.merge w.span)) rest
  | assign {ts mid rest : List Token} {t u : Token} {target : Place} {value : Expr} :
      Target ts target (t :: mid) → t.kind = .equal → Whole mid value (u :: rest) →
      u.kind = .semicolon →
      Statement ts (.assign target value (target.span.merge u.span)) rest

inductive Items : List Token → List Stmt → List Token → Prop
  | done {rest : List Token} : Items rest [] rest
  | declare {ts mid rest : List Token} {vs : List Variable} {body : List Stmt} :
      Variables ts vs mid → Items mid body rest → Items ts (vs.map .declare ++ body) rest
  | statement {ts mid rest : List Token} {st : Stmt} {body : List Stmt} :
      Statement ts st mid → Items mid body rest → Items ts (st :: body) rest

end

inductive Derives : List Token → Program → Prop
  | done : Derives [] []
  | function {ts mid : List Token} {t name u v w x : Token} {body : List Stmt} {p : Program} :
      t.kind = .voidKeyword → name.kind = .identifier → u.kind = .leftParen →
      v.kind = .rightParen → w.kind = .leftBrace → Items ts body (x :: mid) →
      x.kind = .rightBrace → Derives mid p →
      Derives (t :: name :: u :: v :: w :: ts)
        (.function ⟨name.lexeme, name.span, body, w.span.merge x.span,
          t.span.merge (w.span.merge x.span)⟩ :: p)
  | globals {ts mid : List Token} {vs : List Variable} {p : Program} :
      Variables ts vs mid → Derives mid p → Derives ts (vs.map .global ++ p)

/-! ## What the parser goes by -/

theorem relation?_eq (kind : TokenKind) : Parser.relation? kind = relationOp? kind := by
  cases kind <;> rfl

theorem kindOf?_eq (kind : TokenKind) : Parser.kindOf? kind = baseType? kind := by
  cases kind <;> rfl

theorem smallest_iff {t : Token} :
    Smallest t ↔ t.kind = .int ∧ Number.isMinMagnitude t.lexeme = true := by
  rw [Smallest, Number.isMinMagnitude_iff]

theorem literal_iff {t : Token} {v : Value} : Literal t v ↔
    (t.kind = .int ∧ Number.isMinMagnitude t.lexeme = false ∧
      ∃ n, Number.literal? t.lexeme = some n ∧ v = .int n) ∨
    (t.kind = .hex ∧ ∃ n, Number.literal? t.lexeme = some n ∧ v = .int n) ∨
    (t.kind = .float ∧ ∃ x, Number.readDouble? t.lexeme = some x ∧ v = .float x) := by
  constructor
  · intro h
    cases h with
    | decimal ht hsmall hword =>
      refine .inl ⟨ht, ?_, _, Number.literal?_eq_some_iff.mpr ⟨_, hword, rfl⟩, rfl⟩
      rw [← Bool.not_eq_true]
      exact fun hmin => hsmall (smallest_iff.mpr ⟨ht, hmin⟩)
    | hexadecimal ht hword =>
      exact .inr (.inl ⟨ht, _, Number.literal?_eq_some_iff.mpr ⟨_, hword, rfl⟩, rfl⟩)
    | float ht htext =>
      exact .inr (.inr ⟨ht, _, Number.readDouble?_eq_some_iff.mpr htext, rfl⟩)
  · rintro (⟨ht, hmin, n, hread, rfl⟩ | ⟨ht, n, hread, rfl⟩ | ⟨ht, x, hread, rfl⟩)
    · obtain ⟨n, hword, rfl⟩ := Number.literal?_eq_some_iff.mp hread
      refine .decimal ht (fun hsmall => ?_) hword
      rw [(smallest_iff.mp hsmall).2] at hmin
      cases hmin
    · obtain ⟨n, hword, rfl⟩ := Number.literal?_eq_some_iff.mp hread
      exact .hexadecimal ht hword
    · exact .float ht (Number.readDouble?_eq_some_iff.mp hread)

section Length

variable {ts rest : List Token}

theorem Expression.length_lt {level : Level} {e : Expr} {k : Nat}
    (h : Expression level ts e k rest) : rest.length < ts.length := by
  induction h with
  | term _ ih => exact ih
  | factor _ ih => exact ih
  | add _ _ _ ihl ihr => simp only [List.length_cons] at ihl; omega
  | mul _ _ _ ihl ihr => simp only [List.length_cons] at ihl; omega
  | signed _ _ ih => simp only [List.length_cons]; omega
  | smallest => simp only [List.length_cons]; omega
  | parens _ _ _ ih => simp only [List.length_cons] at ih ⊢; omega
  | literal => simp
  | name => simp
  | element _ _ _ _ ih => simp only [List.length_cons] at ih ⊢; omega

theorem Whole.length_lt {e : Expr} (h : Whole ts e rest) : rest.length < ts.length := by
  obtain ⟨k, -, h⟩ := h
  exact h.length_lt

theorem Test.length_lt {c : Condition} (h : Test ts c rest) : rest.length < ts.length := by
  cases h with
  | mk _ hl _ hr _ =>
    have hl := hl.length_lt
    have hr := hr.length_lt
    simp only [List.length_cons] at hl hr ⊢
    omega

theorem Target.length_lt {p : Place} (h : Target ts p rest) : rest.length < ts.length := by
  cases h with
  | name => simp
  | element _ _ hi _ =>
    have hi := hi.length_lt
    simp only [List.length_cons] at hi ⊢
    omega

theorem Elements.length_le {es : List Expr} (h : Elements ts es rest) :
    rest.length ≤ ts.length := by
  induction h with
  | done => exact Nat.le_refl _
  | comma => simp
  | more _ he _ ih =>
    have he := he.length_lt
    simp only [List.length_cons]
    omega

theorem Braces.length_lt {es : List Expr} {z : Token} (h : Braces ts es z rest) :
    rest.length < ts.length := by
  cases h with
  | empty => simp only [List.length_cons]; omega
  | elements _ he hes _ =>
    have he := he.length_lt
    have hes := hes.length_le
    simp only [List.length_cons] at hes ⊢
    omega

theorem Declarator.length_lt {kind : Kind} {constant : Bool} {v : Variable}
    (h : Declarator kind constant ts v rest) : rest.length < ts.length := by
  cases h with
  | scalar => simp
  | scalarValue _ _ he =>
    have he := he.length_lt
    simp only [List.length_cons]
    omega
  | array _ _ _ hn _ =>
    have hn := hn.length_lt
    simp only [List.length_cons] at hn ⊢
    omega
  | arrayValue _ _ hn _ _ hes =>
    have hn := hn.length_lt
    have hes := hes.length_lt
    simp only [List.length_cons] at hn ⊢
    omega
  | openArray _ _ _ _ hes =>
    have hes := hes.length_lt
    simp only [List.length_cons]
    omega

theorem Declarators.length_le {kind : Kind} {constant : Bool} {vs : List Variable}
    (h : Declarators kind constant ts vs rest) : rest.length ≤ ts.length := by
  induction h with
  | done => exact Nat.le_refl _
  | more _ hv _ ih =>
    have hv := hv.length_lt
    simp only [List.length_cons]
    omega

theorem Variables.length_lt {vs : List Variable} (h : Variables ts vs rest) :
    rest.length < ts.length := by
  cases h with
  | plain _ hv hvs _ =>
    have hv := hv.length_lt
    have hvs := hvs.length_le
    simp only [List.length_cons] at hvs ⊢
    omega
  | constant _ _ hv hvs _ =>
    have hv := hv.length_lt
    have hvs := hvs.length_le
    simp only [List.length_cons] at hvs ⊢
    omega

end Length

mutual

theorem Statement.length_lt : {ts rest : List Token} → {st : Stmt} → Statement ts st rest →
    rest.length < ts.length
  | _, _, _, .block _ hbody _ => by
    have hbody := hbody.length_le
    simp only [List.length_cons] at hbody ⊢
    omega
  | _, _, _, .branch _ htest hbody => by
    have htest := htest.length_lt
    have hbody := hbody.length_lt
    simp only [List.length_cons]
    omega
  | _, _, _, .branchElse _ htest hbody _ _ hother => by
    have htest := htest.length_lt
    have hbody := hbody.length_lt
    have hother := hother.length_lt
    simp only [List.length_cons] at hbody ⊢
    omega
  | _, _, _, .loop _ htest hbody => by
    have htest := htest.length_lt
    have hbody := hbody.length_lt
    simp only [List.length_cons]
    omega
  | _, _, _, .empty _ => by simp
  | _, _, _, .call _ _ _ _ => by
    simp only [List.length_cons]
    omega
  | _, _, _, .assign htarget _ hvalue _ => by
    have htarget := htarget.length_lt
    have hvalue := hvalue.length_lt
    simp only [List.length_cons] at htarget hvalue
    omega

theorem Items.length_le : {ts rest : List Token} → {body : List Stmt} → Items ts body rest →
    rest.length ≤ ts.length
  | _, _, _, .done => Nat.le_refl _
  | _, _, _, .declare hvs hbody => by
    have hvs := hvs.length_lt
    have hbody := hbody.length_le
    omega
  | _, _, _, .statement hst hbody => by
    have hst := hst.length_lt
    have hbody := hbody.length_le
    omega

end

end Grammar

end C1Lang
