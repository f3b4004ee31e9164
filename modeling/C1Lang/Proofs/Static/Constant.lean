import C1Lang.Proofs.Lower.Outcome

/-!
# Constant expressions

`Folds e v` says which expressions have a value at compile time: those without variables in which
no integer is divided by zero and no remainder of floats is taken. Lowering in a constant context
finds that value, or stops when there is none, and changes nothing (`fold_ends`).
-/

namespace C1Lang

/-- Arithmetic on 32-bit words. Everything wraps, division truncates. -/
def BinaryOp.onInts : BinaryOp → Int32 → Int32 → Int32
  | add, a, b => a + b
  | sub, a, b => a - b
  | mul, a, b => a * b
  | div, a, b => a / b
  | mod, a, b => a % b

def BinaryOp.onFloats? : BinaryOp → Float → Float → Option Float
  | add, x, y => some (x + y)
  | sub, x, y => some (x - y)
  | mul, x, y => some (x * y)
  | div, x, y => some (x / y)
  | mod, _, _ => none

def BinaryOp.divides (op : BinaryOp) : Prop := op = div ∨ op = mod

instance (op : BinaryOp) : Decidable op.divides := inferInstanceAs (Decidable (_ ∨ _))

def UnaryOp.onInt : UnaryOp → Int32 → Int32
  | plus, a => a
  | neg, a => -a

def UnaryOp.onFloat : UnaryOp → Float → Float
  | plus, x => x
  | neg, x => -x

/-- The expression has a value at compile time. -/
inductive Folds : Expr → Value → Prop
  | literal (v : Value) (span : Span) : Folds (.literal v span) v
  | ints {op : BinaryOp} {l r : Expr} {span : Span} {a b : Int32} :
      Folds l (.int a) → Folds r (.int b) → (op.divides → b ≠ 0) →
      Folds (.binary op l r span) (.int (op.onInts a b))
  | floats {op : BinaryOp} {l r : Expr} {span : Span} {v w : Value} {x : Float} :
      Folds l v → Folds r w → v.kind = .float ∨ w.kind = .float →
      op.onFloats? v.toFloat w.toFloat = some x → Folds (.binary op l r span) (.float x)
  | int {op : UnaryOp} {e : Expr} {span : Span} {a : Int32} :
      Folds e (.int a) → Folds (.unary op e span) (.int (op.onInt a))
  | float {op : UnaryOp} {e : Expr} {span : Span} {x : Float} :
      Folds e (.float x) → Folds (.unary op e span) (.float (op.onFloat x))

theorem Folds.unique {e : Expr} {v w : Value} (h : Folds e v) (k : Folds e w) : v = w := by
  induction h generalizing w with
  | literal => cases k; rfl
  | ints hl hr _ ihl ihr =>
    cases k with
    | ints hl' hr' _ =>
      cases ihl hl'
      cases ihr hr'
      rfl
    | floats hl' hr' hk _ =>
      rw [← ihl hl', ← ihr hr'] at hk
      simp [Value.kind] at hk
  | floats hl hr hk hx ihl ihr =>
    cases k with
    | ints hl' hr' _ =>
      rw [ihl hl', ihr hr'] at hk
      simp [Value.kind] at hk
    | floats hl' hr' _ hx' =>
      rw [ihl hl', ihr hr', hx'] at hx
      cases hx
      rfl
  | int _ ih =>
    cases k with
    | int h' => cases ih h'; rfl
    | float h' => cases ih h'
  | float _ ih =>
    cases k with
    | int h' => cases ih h'
    | float h' => cases ih h'; rfl

theorem Folds.unary {op : UnaryOp} {e : Expr} {span : Span} {v : Value} (h : Folds e v) :
    Folds (.unary op e span) (Value.foldUnary op v) := by
  cases v with
  | int a => cases op <;> exact Folds.int h
  | float x => cases op <;> exact Folds.float h

theorem Folds.binary (op : BinaryOp) (span : Span) {l r : Expr} {v w : Value} (hl : Folds l v)
    (hr : Folds r w) :
    match Value.foldBinary op v w with
    | .ok x => Folds (.binary op l r span) x
    | .error p => p.severity = .error ∧ ∀ x, ¬ Folds (.binary op l r span) x := by
  have key : ∀ x, Folds (.binary op l r span) x →
      (∃ a b, v = .int a ∧ w = .int b ∧ (op.divides → b ≠ 0)) ∨
        (v.kind = .float ∨ w.kind = .float) ∧ ∃ y, op.onFloats? v.toFloat w.toFloat = some y := by
    intro x hx
    cases hx with
    | ints hl' hr' hz => exact .inl ⟨_, _, hl.unique hl', hr.unique hr', hz⟩
    | floats hl' hr' hk hy =>
      rw [← hl.unique hl', ← hr.unique hr'] at hk hy
      exact .inr ⟨hk, _, hy⟩
  cases v with
  | int a =>
    cases w with
    | int b =>
      cases op with
      | add => exact .ints hl hr (by simp [BinaryOp.divides])
      | sub => exact .ints hl hr (by simp [BinaryOp.divides])
      | mul => exact .ints hl hr (by simp [BinaryOp.divides])
      | div =>
        by_cases hb : b = 0
        · simp only [Value.foldBinary, Value.foldInt, hb, if_pos, Except.map]
          exact ⟨rfl, fun x hx => by simpa [Value.kind, BinaryOp.divides, hb] using key x hx⟩
        · simp only [Value.foldBinary, Value.foldInt, if_neg hb, Except.map]
          exact .ints hl hr fun _ => hb
      | mod =>
        by_cases hb : b = 0
        · simp only [Value.foldBinary, Value.foldInt, hb, if_pos, Except.map]
          exact ⟨rfl, fun x hx => by simpa [Value.kind, BinaryOp.divides, hb] using key x hx⟩
        · simp only [Value.foldBinary, Value.foldInt, if_neg hb, Except.map]
          exact .ints hl hr fun _ => hb
    | float y =>
      cases op with
      | mod => exact ⟨rfl, fun x hx => by simpa [BinaryOp.onFloats?] using key x hx⟩
      | _ => exact .floats hl hr (.inr rfl) rfl
  | float x =>
    cases op with
    | mod => exact ⟨rfl, fun x hx => by simpa [BinaryOp.onFloats?] using key x hx⟩
    | _ => exact .floats hl hr (.inl rfl) rfl

namespace Lower

theorem asValue_bind {α : Type} (step : Lower α) (f : α → Lower Evaluated) :
    asValue (step >>= f) = step >>= fun a => asValue (f a) :=
  bind_assoc step f _

theorem fold_unary (ctx : Context) (op : UnaryOp) (e : Expr) (span : Span) :
    fold ctx (.unary op e span) = fold ctx e >>= fun v => pure (Value.foldUnary op v) :=
  asValue_bind (fold ctx e) _

theorem fold_binary (ctx : Context) (op : BinaryOp) (l r : Expr) (span : Span) :
    fold ctx (.binary op l r span) = fold ctx l >>= fun v => fold ctx r >>= fun w =>
      match Value.foldBinary op v w with
      | .ok u => pure u
      | .error problem => report problem span := by
  refine (asValue_bind (fold ctx l) _).trans (bind_congr fun v => ?_)
  refine (asValue_bind (fold ctx r) _).trans (bind_congr fun w => ?_)
  cases Value.foldBinary op v w <;> rfl

theorem asValue_ends {s : State} {e : Expr} {step : Lower Evaluated}
    (h : Ends step s (fun r s' => ∃ v, r = .folded v ∧ Folds e v ∧ s' = s)
      (fun s' => (∀ v, ¬ Folds e v) ∧ s' = s)) :
    Ends (asValue step) s (fun v s' => Folds e v ∧ s' = s)
      (fun s' => (∀ v, ¬ Folds e v) ∧ s' = s) := by
  refine h.bind ?_ (fun _ h => h)
  intro r s' hdone
  obtain ⟨v, rfl, hv, rfl⟩ := hdone
  exact .pure ⟨hv, rfl⟩

theorem fold_ends (ctx : Context) (e : Expr) (s : State) :
    Ends (fold ctx e) s (fun v s' => Folds e v ∧ s' = s)
      (fun s' => (∀ v, ¬ Folds e v) ∧ s' = s) := by
  apply asValue_ends
  induction e with
  | literal v span => exact .pure ⟨v, rfl, .literal v span, rfl⟩
  | binary op l r span ihl ihr =>
    refine (asValue_ends ihl).bind ?_ ?_
    · intro v s' hdone
      obtain ⟨hv, rfl⟩ := hdone
      refine (asValue_ends ihr).bind ?_ ?_
      · intro w s' hdone
        obtain ⟨hw, rfl⟩ := hdone
        have := Folds.binary op span hv hw
        cases hf : Value.foldBinary op v w with
        | ok x =>
          rw [hf] at this
          exact .pure ⟨x, rfl, this, rfl⟩
        | error p =>
          rw [hf] at this
          exact .report this.1 ⟨this.2, rfl⟩
      · intro s' hdone
        obtain ⟨hn, rfl⟩ := hdone
        refine ⟨fun x hx => ?_, rfl⟩
        cases hx with
        | ints _ hr _ => exact hn _ hr
        | floats _ hr _ _ => exact hn _ hr
    · intro s' hdone
      obtain ⟨hn, rfl⟩ := hdone
      refine ⟨fun x hx => ?_, rfl⟩
      cases hx with
      | ints hl _ _ => exact hn _ hl
      | floats hl _ _ _ => exact hn _ hl
  | unary op e span ih =>
    refine (asValue_ends ih).bind ?_ ?_
    · intro v s' hdone
      obtain ⟨hv, rfl⟩ := hdone
      exact .pure ⟨_, rfl, hv.unary, rfl⟩
    · intro s' hdone
      obtain ⟨hn, rfl⟩ := hdone
      refine ⟨fun x hx => ?_, rfl⟩
      cases hx with
      | int h => exact hn _ h
      | float h => exact hn _ h
  | name name span => exact .report rfl ⟨fun v hv => (by cases hv), rfl⟩
  | element name index span _ => exact .report rfl ⟨fun v hv => (by cases hv), rfl⟩

end Lower

end C1Lang
