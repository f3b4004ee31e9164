import C1Lang.Proofs.Compiled
import C1Lang.Proofs.Parser.Completeness
import C1Lang.Proofs.Token.Reading

/-!
# Formulas from text to constant

A formula is an integer expression as one writes it down: decimal numbers, signs, and operators in
parentheses. Its value is computed with integers that wrap to 32 bits. Compiling the text of a
formula as the value of a constant gives that value. The proof follows the text: it is lexed to the
tokens of the formula, these are parsed to its tree, and folding the tree computes the value.
-/

namespace C1Lang

def wrap (n : Int) : Int := n.bmod (0x100000000)

/-- Arithmetic on integers that wrap. Division truncates; by zero there is none. -/
def BinaryOp.onWords? : BinaryOp → Int → Int → Option Int
  | add, a, b => some (wrap (a + b))
  | sub, a, b => some (wrap (a - b))
  | mul, a, b => some (wrap (a * b))
  | div, a, b => if b = 0 then none else some (wrap (a.tdiv b))
  | mod, a, b => if b = 0 then none else some (a.tmod b)

inductive Formula
  | number (n : Fin 0x80000000)
  | negate (e : Formula)
  | binary (op : BinaryOp) (l r : Formula)
deriving DecidableEq, Repr

namespace Formula

def height : Formula → Nat
  | number _ => 0
  | negate e => e.height + 1
  | binary _ l r => max l.height r.height + 1

def text : Formula → String
  | number n => toString n.val
  | negate e => "-(" ++ e.text ++ ")"
  | binary op l r => "(" ++ l.text ++ " " ++ op.symbol ++ " " ++ r.text ++ ")"

def value? : Formula → Option Int
  | number n => some n.val
  | negate e => e.value?.map fun a => wrap (-a)
  | binary op l r => l.value?.bind fun a => r.value?.bind fun b => op.onWords? a b

def source (e : Formula) : String := "const int r = " ++ e.text ++ ";"

/-! ## Its tokens -/

def sign : BinaryOp → TokenKind
  | .add => .plus
  | .sub => .minus
  | .mul => .asterisk
  | .div => .slash
  | .mod => .percent

inductive Spelled : Formula → List Token → Prop
  | number {n : Fin 0x80000000} {t : Token} :
      t.kind = .int → t.lexeme = String.ofList (Nat.toDigits 10 n) → Spelled (.number n) [t]
  | negate {e : Formula} {ts : List Token} {t u v : Token} :
      t.kind = .minus → u.kind = .leftParen → Spelled e ts → v.kind = .rightParen →
      Spelled (.negate e) (t :: u :: (ts ++ [v]))
  | binary {op : BinaryOp} {l r : Formula} {ts us : List Token} {t u v : Token} :
      t.kind = .leftParen → Spelled l ts → u.kind = sign op → Spelled r us →
      v.kind = .rightParen → Spelled (.binary op l r) (t :: (ts ++ u :: (us ++ [v])))

theorem Spelled.significant {e : Formula} {ts : List Token} (h : Spelled e ts) :
    ∀ t ∈ ts, t.kind ≠ .eof ∧ t.kind.isComment = false := by
  induction h with
  | number ht _ => simp [ht, TokenKind.isComment]
  | negate ht hu _ hv ih =>
    simp only [List.forall_mem_cons, List.forall_mem_append, ht, hu, hv]
    exact ⟨by decide, by decide, ih, by decide, by simp⟩
  | @binary op _ _ _ _ _ _ _ ht _ hu _ hv ihl ihr =>
    simp only [List.forall_mem_cons, List.forall_mem_append, ht, hu, hv]
    exact ⟨by decide, ihl, by cases op <;> decide, ihr, by decide, by simp⟩

open Lexer

theorem sign_lexes (op : BinaryOp) (rest : List Char) :
    Lexes op.symbol.toList (' ' :: rest) (Single (sign op) op.symbol.toList) := by
  cases op <;> exact .token rfl

theorem lexes (e : Formula) {rest : List Char} (hr : EndsNumber rest) :
    Lexes e.text.toList rest (Spelled e) := by
  induction e generalizing rest with
  | number n =>
    have htext : (number n).text.toList = Nat.toDigits 10 n := by
      simp [text]
    rw [htext]
    refine (number_lexes (by have := n.isLt; unfold Number.minMagnitude; omega) hr).mono ?_
    rintro _ ⟨t, rfl, ht, hlexeme⟩
    exact .number ht hlexeme
  | negate e ih =>
    have htext : (negate e).text.toList = ['-'] ++ (['('] ++ (e.text.toList ++ [')'])) := by
      simp [text]
    rw [htext]
    refine ((punctuation_lexes rfl _).append ((punctuation_lexes rfl _).append
      ((ih (.cons rfl (by decide) _)).append (punctuation_lexes rfl rest)))).mono ?_
    rintro _ ⟨_, _, rfl, ⟨t, rfl, ht, -⟩, _, _, rfl, ⟨u, rfl, hu, -⟩, ts, _, rfl, he, v, rfl, hv,
      -⟩
    exact .negate ht hu he hv
  | binary op l r ihl ihr =>
    have htext : (binary op l r).text.toList = ['('] ++ ((l.text.toList ++ [' ']) ++
        ((op.symbol.toList ++ [' ']) ++ (r.text.toList ++ [')']))) := by
      simp [text]
    rw [htext]
    refine ((punctuation_lexes rfl _).append ((ihl (.cons rfl (by decide) _)).spaced.append
      ((sign_lexes op _).spaced.append ((ihr (.cons rfl (by decide) _)).append
      (punctuation_lexes rfl rest))))).mono ?_
    rintro _ ⟨_, _, rfl, ⟨t, rfl, ht, -⟩, ts, _, rfl, hl, _, _, rfl, ⟨u, rfl, hu, -⟩, us, _, rfl,
      hr, v, rfl, hv, -⟩
    exact .binary ht hl hu hr hv

def SourceSpelled (e : Formula) (ts : List Token) : Prop :=
  ∃ a b c d us z, ts = a :: b :: c :: d :: (us ++ [z]) ∧ a.kind = .constKeyword ∧
    b.kind = .intType ∧ c.kind = .identifier ∧ c.lexeme = "r" ∧ d.kind = .equal ∧
    Spelled e us ∧ z.kind = .semicolon

theorem source_lexes (e : Formula) : Lexes e.source.toList [] (SourceSpelled e) := by
  have htext : e.source.toList = ("const".toList ++ [' ']) ++ (("int".toList ++ [' ']) ++
      (("r".toList ++ [' ']) ++ (("=".toList ++ [' ']) ++ (e.text.toList ++ [';'])))) :=
    -- Rewriting with the same lemma would try it on every literal, which is slow.
    calc e.source.toList
      _ = ("const int r = " ++ e.text).toList ++ ";".toList := String.toList_append
      _ = "const int r = ".toList ++ e.text.toList ++ ";".toList :=
        congrArg (· ++ _) String.toList_append
      _ = "const int r = ".toList ++ (e.text.toList ++ ";".toList) := List.append_assoc _ _ _
  rw [htext]
  refine ((Lexes.token rfl).spaced.append ((Lexes.token rfl).spaced.append
    ((Lexes.token rfl).spaced.append ((Lexes.token rfl).spaced.append
    ((e.lexes (.cons rfl (by decide) _)).append (punctuation_lexes rfl [])))))).mono ?_
  rintro _ ⟨_, _, rfl, ⟨a, rfl, ha, -⟩, _, _, rfl, ⟨b, rfl, hb, -⟩, _, _, rfl, ⟨c, rfl, hc, hname⟩,
    _, _, rfl, ⟨d, rfl, hd, -⟩, us, _, rfl, he, z, rfl, hz, -⟩
  exact ⟨a, b, c, d, us, z, rfl, ha, hb, hc, hname, hd, he, hz⟩

/-! ## Its tree -/

inductive Written : Formula → Expr → Prop
  | number (n : Fin 0x80000000) (span : Span) :
      Written (.number n) (.literal (.int (Int32.ofNat n)) span)
  | negate {e : Formula} {x : Expr} (span : Span) :
      Written e x → Written (.negate e) (.unary .neg x span)
  | binary {l r : Formula} {x y : Expr} (op : BinaryOp) (span : Span) :
      Written l x → Written r y → Written (.binary op l r) (.binary op x y span)

open Grammar

theorem binary_derives {op : BinaryOp} {ts mid rest : List Token} {t : Token} {x y : Expr}
    {j k : Nat} (hl : Expression .factor ts x j (t :: mid)) (ht : t.kind = sign op)
    (hr : Expression .factor mid y k rest) :
    Expression .sum ts (.binary op x y (x.span.merge y.span)) (max j (k + 1)) rest := by
  cases op with
  | add => exact .add (.term (.factor hl)) (by rw [ht]; rfl) (.factor hr)
  | sub => exact .add (.term (.factor hl)) (by rw [ht]; rfl) (.factor hr)
  | mul => exact .term (.mul (.factor hl) (by rw [ht]; rfl) hr)
  | div => exact .term (.mul (.factor hl) (by rw [ht]; rfl) hr)
  | mod => exact .term (.mul (.factor hl) (by rw [ht]; rfl) hr)

theorem Spelled.derives {e : Formula} {ts : List Token} (h : Spelled e ts) (rest : List Token) :
    ∃ x k, Expression .factor (ts ++ rest) x k rest ∧ k ≤ 2 * e.height + 1 ∧ Written e x := by
  -- An operator or a sign adds two to the depth: one for the parentheses, one for its operand.
  induction h generalizing rest with
  | @number n t ht hlexeme =>
    have hn : n.val < Number.minMagnitude := n.isLt
    have hliteral : Literal t (.int (Int32.ofNat n)) := by
      refine literal_iff.mpr (.inl ⟨ht, ?_, _, ?_, rfl⟩)
      · rw [hlexeme, Number.isMinMagnitude_toDigits hn]
      · rw [hlexeme, Number.literal?_toDigits (Nat.le_of_lt hn)]
    exact ⟨_, 1, .literal hliteral, Nat.le_refl _, .number n t.span⟩
  | @negate e ts t u v ht hu _ hv ih =>
    obtain ⟨x, k, hx, hk, hw⟩ := ih (v :: rest)
    refine ⟨_, k + 1 + 1, .signed (by rw [ht]; rfl) ?_, ?_, .negate _ hw⟩
    · simpa using Expression.parens hu (.term (.factor hx)) hv
    · simp only [height]
      omega
  | @binary op l r ts us t u v ht _ hu _ hv ihl ihr =>
    obtain ⟨x, j, hx, hj, hwl⟩ := ihl (u :: (us ++ (v :: rest)))
    obtain ⟨y, k, hy, hk, hwr⟩ := ihr (v :: rest)
    refine ⟨.binary op x y (x.span.merge y.span), max j (k + 1) + 1, ?_, ?_, .binary op _ hwl hwr⟩
    · simpa using Expression.parens ht (binary_derives hx hu hy) hv
    · simp only [height]
      omega

def constant (x : Expr) (nameSpan span : Span) : Program :=
  [.global ⟨"r", nameSpan, .int, true, none, [x], span⟩]

theorem SourceSpelled.derives {e : Formula} (hh : e.height ≤ 249) {ts : List Token}
    (h : SourceSpelled e ts) :
    ∃ x nameSpan span, Derives ts (constant x nameSpan span) ∧ Written e x := by
  obtain ⟨a, b, c, d, us, z, rfl, ha, hb, hc, hname, hd, he, hz⟩ := h
  obtain ⟨x, k, hx, hk, hw⟩ := he.derives [z]
  have hwhole : Whole (us ++ [z]) x [z] := by
    refine ⟨k, ?_, .term (.factor hx)⟩
    unfold depthLimit
    omega
  have hdeclarator : Declarator .int true (c :: d :: (us ++ [z]))
      ⟨"r", c.span, .int, true, none, [x], c.span.merge x.span⟩ [z] :=
    hname ▸ .scalarValue hc hd hwhole
  exact ⟨x, _, _, .globals (.constant ha (by rw [hb]; rfl) hdeclarator .done hz) .done, hw⟩

theorem SourceSpelled.significant {e : Formula} {ts : List Token} (h : SourceSpelled e ts)
    {eof : Token} (heof : eof.kind = .eof) : C1Lang.significant (ts ++ [eof]) = ts := by
  have hall : ∀ t ∈ ts, t.kind ≠ .eof ∧ t.kind.isComment = false := by
    obtain ⟨a, b, c, d, us, z, rfl, ha, hb, hc, -, hd, he, hz⟩ := h
    simp only [List.forall_mem_cons, List.forall_mem_append, ha, hb, hc, hd, hz]
    exact ⟨by decide, by decide, by decide, by decide, he.significant, by decide, by simp⟩
  have hbefore : ∀ t ∈ ts, (t.kind != .eof) = true := fun t ht => by simpa using (hall t ht).1
  have hcounts : ∀ t ∈ ts, (!t.kind.isComment) = true := fun t ht => by simp [(hall t ht).2]
  unfold C1Lang.significant
  rw [List.takeWhile_append_of_pos hbefore, List.takeWhile_cons_of_neg (by simp [heof]),
    List.append_nil]
  exact List.filter_eq_self.mpr hcounts

theorem parse_source {e : Formula} (hh : e.height ≤ 249) :
    (lex e.source).diagnostics = [] ∧ ∃ x nameSpan span,
      (parse (lex e.source).tokens).program? = some (constant x nameSpan span) ∧ Written e x := by
  obtain ⟨ts, eof, htokens, heof, hdiagnostics, hts⟩ := lex_of_lexes e.source_lexes
  obtain ⟨x, nameSpan, span, hd, hw⟩ := hts.derives hh
  refine ⟨hdiagnostics, x, nameSpan, span, parse_of_derives ?_, hw⟩
  rwa [htokens, hts.significant heof]

end Formula

/-! ## Its value -/

namespace Lower

/-- The step gives the integer as a word, or, when there is none, stops at a division by zero. -/
def Computes (step : Lower Value) (s : State) : Option Int → Prop
  | some v => ∃ n : Int32, n.toInt = v ∧ step s = .ok (.int n) s
  | none => ∃ span, step s = .error (.problem ⟨.divisionByZero, span⟩) s

theorem Computes.bind {step : Lower Value} {s : State} {f : Value → Lower Value} {v? : Option Int}
    {g : Int → Option Int} (h : Computes step s v?)
    (hf : ∀ n : Int32, Computes (f (.int n)) s (g n.toInt)) :
    Computes (step >>= f) s (v?.bind g) := by
  cases v? with
  | some v =>
    obtain ⟨n, rfl, hstep⟩ := h
    have hn := hf n
    unfold Computes at hn ⊢
    rwa [bind_ok hstep]
  | none =>
    obtain ⟨span, hstep⟩ := h
    exact ⟨span, bind_error hstep⟩

theorem foldBinary_computes (op : BinaryOp) (span : Span) (a b : Int32) (s : State) :
    Computes (match Value.foldBinary op (.int a) (.int b) with
      | .ok u => pure u
      | .error problem => report problem span) s (op.onWords? a.toInt b.toInt) := by
  have hzero : b.toInt = 0 ↔ b = 0 := by
    rw [← Int32.toInt_inj, Int32.toInt_zero]
  cases op with
  | add => exact ⟨a + b, Int32.toInt_add a b, rfl⟩
  | sub => exact ⟨a - b, Int32.toInt_sub a b, rfl⟩
  | mul => exact ⟨a * b, Int32.toInt_mul a b, rfl⟩
  | div =>
    by_cases hb : b = 0
    · simp only [BinaryOp.onWords?, Value.foldBinary, Value.foldInt, hzero, if_pos hb]
      exact ⟨span, rfl⟩
    · simp only [BinaryOp.onWords?, Value.foldBinary, Value.foldInt, hzero, if_neg hb]
      exact ⟨a / b, Int32.toInt_div a b, rfl⟩
  | mod =>
    by_cases hb : b = 0
    · simp only [BinaryOp.onWords?, Value.foldBinary, Value.foldInt, hzero, if_pos hb]
      exact ⟨span, rfl⟩
    · simp only [BinaryOp.onWords?, Value.foldBinary, Value.foldInt, hzero, if_neg hb]
      exact ⟨a % b, Int32.toInt_mod a b, rfl⟩

theorem fold_computes {e : Formula} {x : Expr} (h : e.Written x) (ctx : Context) (s : State) :
    Computes (fold ctx x) s e.value? := by
  induction h with
  | number n span => exact ⟨Int32.ofNat n, Int32.toInt_ofNat_of_lt n.isLt, rfl⟩
  | negate span _ ih =>
    rw [fold_unary, Formula.value?, Option.map_eq_bind]
    exact ih.bind fun n => ⟨-n, Int32.toInt_neg n, rfl⟩
  | binary op span _ _ ihl ihr =>
    rw [fold_binary, Formula.value?]
    exact ihl.bind fun a => ihr.bind fun b => foldBinary_computes op span a b s

end Lower

section Module

variable {name : String} {d : Declaration} {s : Lower.State}

theorem lower_singleton (h : Lower.declaration d { module := { name } } = .ok () s) :
    lower name [d] = .ok ⟨s.module, s.diagnostics⟩ := by
  have hrecording : Lower.recording (Lower.declaration d) () { module := { name } } = .ok () s := by
    rw [Lower.recording, h]
  rw [lower, Lower.declarations, bind_ok hrecording]
  rfl

theorem lower_singleton_of_error {problem : Diagnostic}
    (h : Lower.declaration d { module := { name } } = .error (.problem problem) s) :
    lower name [d] = .ok ⟨s.module, s.diagnostics ++ [problem]⟩ := by
  have hrecording : Lower.recording (Lower.declaration d) () { module := { name } } =
      .ok () (s.record problem) := by
    rw [Lower.recording, h]
  rw [lower, Lower.declarations, bind_ok hrecording]
  rfl

variable {x : Expr} (nameSpan span : Span)

theorem declaration_constant (name : String) (x : Expr) :
    let v : Variable := ⟨"r", nameSpan, .int, true, none, [x], span⟩
    Lower.declaration (.global v) { module := { name } } =
      (Lower.constantInitializer .atModule .int x >>= fun c =>
        Lower.addGlobal v (.scalar .i32) (some (.scalar c))) { module := { name } } := rfl

theorem lower_constant {n : Int32}
    (h : Lower.fold .atModule x { module := { name } } = .ok (.int n) { module := { name } }) :
    lower name (Formula.constant x nameSpan span) =
      .ok ⟨{ name, globals := #[⟨"r", .scalar .i32, true, some (.scalar (.int n))⟩] }, []⟩ := by
  have hinit : Lower.constantInitializer .atModule .int x { module := { name } } =
      .ok (.int n) { module := { name } } := bind_ok h
  exact lower_singleton ((declaration_constant nameSpan span name x).trans (bind_ok hinit))

theorem lower_constant_of_error {problem : Diagnostic}
    (h : Lower.fold .atModule x { module := { name } } =
      .error (.problem problem) { module := { name } }) :
    lower name (Formula.constant x nameSpan span) = .ok ⟨{ name }, [problem]⟩ :=
  lower_singleton_of_error
    ((declaration_constant nameSpan span name x).trans (bind_error (bind_error h)))

end Module

theorem compile_of_lower {path text : String} {p : Program} {l : Lowered}
    (hlex : (lex text).diagnostics = [])
    (hparse : (parse (lex text).tokens).program? = some p)
    (hlower : lower (moduleName path) p = .ok l) (verify : Bool) :
    compile path text verify =
      .ok ⟨if l.valid then some l.module else none, l.diagnostics, []⟩ := by
  have hdefects : l.module.defects = [] := by
    obtain ⟨_, hjudged, hsound, -⟩ := lower_judged (moduleName path) p
    rw [hlower] at hjudged
    cases hjudged
    exact hsound.defects_eq_nil
  rw [← Lowered.compiled_eq hdefects verify]
  simp [compile, Progress.ofText, hlex, hparse, hlower, Except.map]

/-- Compiling a formula that is not too deep gives a module of one constant, its value, without a
diagnostic; or, when something in it is divided by zero, no module and one diagnostic. -/
theorem compile_formula (e : Formula) (hh : e.height ≤ 249) (path : String) (verify : Bool) :
    (∀ v, e.value? = some v → ∃ n : Int32, n.toInt = v ∧
      compile path e.source verify =
        .ok ⟨some { name := moduleName path,
                    globals := #[⟨"r", .scalar .i32, true, some (.scalar (.int n))⟩],
                    functions := #[] }, [], []⟩) ∧
    (e.value? = none → ∃ d : Diagnostic, d.problem.code = "C0041" ∧
      compile path e.source verify = .ok ⟨none, [d], []⟩) := by
  obtain ⟨hlex, x, nameSpan, span, hparse, hw⟩ := Formula.parse_source hh
  have hcomputes := Lower.fold_computes hw .atModule { module := { name := moduleName path } }
  constructor
  · intro v hv
    rw [hv] at hcomputes
    obtain ⟨n, hn, hfold⟩ := hcomputes
    exact ⟨n, hn, compile_of_lower hlex hparse (lower_constant nameSpan span hfold) verify⟩
  · intro hv
    rw [hv] at hcomputes
    obtain ⟨place, hfold⟩ := hcomputes
    exact ⟨⟨.divisionByZero, place⟩, rfl,
      compile_of_lower hlex hparse (lower_constant_of_error nameSpan span hfold) verify⟩

def smallestNegated : Formula :=
  .binary .div (.binary .sub (.negate (.number 2147483647)) (.number 1)) (.negate (.number 1))

theorem compile_smallestNegated :
    smallestNegated.source = "const int r = ((-(2147483647) - 1) / -(1));" ∧
    smallestNegated.height ≤ 249 ∧ smallestNegated.value? = some (-2147483648) ∧
    ∃ n : Int32, n.toInt = -2147483648 ∧
      compile "main.c1" smallestNegated.source true =
        .ok ⟨some { name := moduleName "main.c1",
                    globals := #[⟨"r", .scalar .i32, true, some (.scalar (.int n))⟩],
                    functions := #[] }, [], []⟩ :=
  ⟨by decide, by decide, by decide,
    (compile_formula smallestNegated (by decide) "main.c1" true).1 _ (by decide)⟩

end C1Lang
