import C1Lang.Proofs.Formula
import C1Lang.Proofs.Static.Constant

/-!
# Evaluation of constants

The value of an expression at compile time, computed on the tree alone: integers are computed
exactly and brought back to 32 bits, and the first part without a value says what is wrong.
Lowering in a constant context is this evaluation, and it leaves the state as it was
(`expr_evaluates`).
-/

namespace C1Lang

def UnaryOp.applied : UnaryOp → Value → Value
  | plus, v => v
  | neg, .int a => .int (Int32.ofInt (wrap (-a.toInt)))
  | neg, .float x => .float (-x)

def BinaryOp.applied (op : BinaryOp) (span : Span) : Value → Value → Except Diagnostic Value
  | .int a, .int b =>
    match op.onWords? a.toInt b.toInt with
    | some n => .ok (.int (Int32.ofInt n))
    | none => .error ⟨.divisionByZero, span⟩
  | v, w =>
    match op.onFloats? v.toFloat w.toFloat with
    | some x => .ok (.float x)
    | none => .error ⟨.moduloOnFloat, span⟩

namespace Expr

def evaluate : Expr → Except Diagnostic Value
  | literal v _ => .ok v
  | unary op e _ => do
    let v ← e.evaluate
    return op.applied v
  | binary op l r span => do
    let v ← l.evaluate
    let w ← r.evaluate
    op.applied span v w
  | name x span | element x _ span => .error ⟨.variableInConstant x, span⟩

/-- A literal is a float. Indices do not count. -/
def hasFloat : Expr → Bool
  | literal v _ => v.kind = .float
  | unary _ e _ => e.hasFloat
  | binary _ l r _ => l.hasFloat || r.hasFloat
  | name _ _ | element _ _ _ => false

end Expr

theorem ofInt_of_toInt {a : Int32} {n : Int} (h : a.toInt = n) : Int32.ofInt n = a :=
  h ▸ Int32.ofInt_toInt a

namespace Value

theorem foldInt_eq (op : BinaryOp) (a b : Int32) :
    foldInt op a b =
      match op.onWords? a.toInt b.toInt with
      | some n => .ok (Int32.ofInt n)
      | none => .error .divisionByZero := by
  have hzero : b.toInt = 0 ↔ b = 0 := by rw [← Int32.toInt_inj, Int32.toInt_zero]
  cases op with
  | add => exact congrArg Except.ok (ofInt_of_toInt (Int32.toInt_add a b)).symm
  | sub => exact congrArg Except.ok (ofInt_of_toInt (Int32.toInt_sub a b)).symm
  | mul => exact congrArg Except.ok (ofInt_of_toInt (Int32.toInt_mul a b)).symm
  | div =>
    by_cases hb : b = 0
    · simp [foldInt, BinaryOp.onWords?, hb]
    · simp only [foldInt, BinaryOp.onWords?, hzero, if_neg hb]
      exact congrArg Except.ok (ofInt_of_toInt (Int32.toInt_div a b)).symm
  | mod =>
    by_cases hb : b = 0
    · simp [foldInt, BinaryOp.onWords?, hb]
    · simp only [foldInt, BinaryOp.onWords?, hzero, if_neg hb]
      exact congrArg Except.ok (ofInt_of_toInt (Int32.toInt_mod a b)).symm

theorem foldFloat_eq (op : BinaryOp) (x y : Float) :
    foldFloat op x y =
      match op.onFloats? x y with
      | some z => .ok z
      | none => .error .moduloOnFloat := by
  cases op <;> rfl

theorem foldUnary_eq (op : UnaryOp) (v : Value) : foldUnary op v = op.applied v := by
  cases op with
  | plus => cases v <;> rfl
  | neg =>
    cases v with
    | int a => exact congrArg int (ofInt_of_toInt (Int32.toInt_neg a)).symm
    | float x => rfl

theorem applied_eq_foldBinary (op : BinaryOp) (span : Span) (v w : Value) :
    op.applied span v w =
      match foldBinary op v w with
      | .ok u => .ok u
      | .error problem => .error ⟨problem, span⟩ := by
  have hfloat (x y : Float) : (match op.onFloats? x y with
      | some z => Except.ok (float z)
      | none => .error (⟨.moduloOnFloat, span⟩ : Diagnostic)) =
      match (foldFloat op x y).map float with
      | .ok u => .ok u
      | .error problem => .error ⟨problem, span⟩ := by
    rw [foldFloat_eq]
    cases op.onFloats? x y <;> rfl
  cases v with
  | int a =>
    cases w with
    | int b =>
      rw [BinaryOp.applied, foldBinary, foldInt_eq]
      cases op.onWords? a.toInt b.toInt <;> rfl
    | float y => exact hfloat _ _
  | float x => exact hfloat _ _

theorem kind_sign (op : UnaryOp) (v : Value) : (op.applied v).kind = v.kind := by
  cases op <;> cases v <;> rfl

theorem kind_operator {op : BinaryOp} {span : Span} {v w u : Value}
    (h : op.applied span v w = .ok u) : u.kind = v.kind.unify w.kind := by
  unfold BinaryOp.applied at h
  split at h
  · split at h
    · cases h
      rfl
    · cases h
  · next hne =>
    split at h
    · cases h
      cases v with
      | float x => rfl
      | int a =>
        cases w with
        | float y => rfl
        | int b => exact absurd rfl (hne a b rfl)
    · cases h

end Value

theorem Expr.kind_evaluate {e : Expr} {v : Value} (h : e.evaluate = .ok v) :
    v.kind = .float ↔ e.hasFloat = true := by
  induction e generalizing v with
  | literal w span =>
    cases h
    simp [hasFloat]
  | unary op e span ih =>
    rw [evaluate] at h
    cases he : e.evaluate with
    | error d => rw [he] at h; cases h
    | ok w =>
      rw [he] at h
      cases h
      rw [Value.kind_sign, hasFloat]
      exact ih he
  | binary op l r span ihl ihr =>
    rw [evaluate] at h
    cases hl : l.evaluate with
    | error d => rw [hl] at h; cases h
    | ok x =>
      cases hr : r.evaluate with
      | error d => rw [hl, hr] at h; cases h
      | ok y =>
        rw [hl, hr] at h
        have hunify : x.kind.unify y.kind = .float ↔ x.kind = .float ∨ y.kind = .float := by
          cases x <;> cases y <;> simp [Value.kind, Kind.unify]
        rw [Value.kind_operator h, hasFloat, Bool.or_eq_true, hunify, ihl hl, ihr hr]
  | name x span => cases h
  | element x i span _ => cases h

namespace Lower

def evaluated (result : Except Diagnostic Value) (s : State) :
    EStateM.Result Stop State Evaluated :=
  match result with
  | .ok v => .ok (.folded v) s
  | .error d => .error (.problem d) s

theorem asValue_ok {step : Lower Evaluated} {s : State} {v : Value}
    (h : step s = .ok (.folded v) s) (f : Value → Lower Evaluated) :
    (asValue step >>= f) s = f v s := bind_ok (bind_ok h)

theorem asValue_error {step : Lower Evaluated} {s : State} {stop : Stop}
    (h : step s = .error stop s) (f : Value → Lower Evaluated) :
    (asValue step >>= f) s = .error stop s := bind_error (bind_error h)

theorem expr_eq_evaluated (ctx : Context) (e : Expr) (s : State) :
    expr ctx.withConstant e s = evaluated e.evaluate s := by
  induction e with
  | literal v span => rfl
  | unary op e span ih =>
    rw [Expr.evaluate]
    cases he : e.evaluate with
    | error d =>
      rw [he] at ih
      exact asValue_error ih _
    | ok v =>
      rw [he] at ih
      refine Eq.trans (asValue_ok ih _) ?_
      show _ = evaluated (.ok (op.applied v)) s
      rw [← Value.foldUnary_eq]
      rfl
  | binary op l r span ihl ihr =>
    rw [Expr.evaluate]
    cases hl : l.evaluate with
    | error d =>
      rw [hl] at ihl
      exact asValue_error ihl _
    | ok v =>
      rw [hl] at ihl
      refine Eq.trans (asValue_ok ihl _) ?_
      -- the right operand is looked at only now
      cases hr : r.evaluate with
      | error d =>
        rw [hr] at ihr
        exact asValue_error ihr _
      | ok w =>
        rw [hr] at ihr
        refine Eq.trans (asValue_ok ihr _) ?_
        show _ = evaluated (op.applied span v w) s
        rw [Value.applied_eq_foldBinary]
        cases Value.foldBinary op v w <;> rfl
  | name x span => rfl
  | element x i span _ => rfl

/-- In a constant context an expression is evaluated, from any state. Nothing is emitted, declared
or recorded, and no part of it is lowered to code. The value is a float exactly if one of the
literals is that are reached by way of operands. -/
theorem expr_evaluates (ctx : Context) (e : Expr) (s : State) :
    match e.evaluate with
    | .ok v => expr ctx.withConstant e s = .ok (.folded v) s ∧
        (v.kind = .float ↔ e.hasFloat = true)
    | .error d => expr ctx.withConstant e s = .error (.problem d) s := by
  have hrun := expr_eq_evaluated ctx e s
  cases he : e.evaluate with
  | ok v =>
    rw [he] at hrun
    exact ⟨hrun, Expr.kind_evaluate he⟩
  | error d =>
    rw [he] at hrun
    exact hrun

/-- In `1 / 0 + a[2.5]` the division is what is wrong, and the index makes no float of it. -/
example :
    let zero : Span := ⟨0, 0⟩
    let one : Expr := .literal (.int 1) zero
    let e : Expr := .binary .add (.binary .div one (.literal (.int 0) zero) ⟨0, 5⟩)
      (.element "a" (.literal (.float 2.5) zero) zero) zero
    e.evaluate = .error ⟨.divisionByZero, ⟨0, 5⟩⟩ ∧ e.hasFloat = false := ⟨rfl, rfl⟩

end Lower

end C1Lang
