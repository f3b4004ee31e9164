import C1Lang.Proofs.Execution.Expression
import C1Lang.Proofs.Lower.Emission

/-!
# Folding and running agree

An expression that has a value at compile time can be lowered wherever a function is being built,
and its code computes that value on any machine. The code only writes temporaries of its own
(`Runs`), so that the operands of an operator do not disturb each other.
-/

namespace C1Lang.Lower

open IR IR.Builder Execution

structure Inside (s : State) (b : Builder) : Prop where
  builder : s.builder = some b
  exists_current : b.current < b.blocks.size

/-- The code from `b` to `b'` brings the temporaries from `before` to `after`. It leaves the
temporaries of `b` and the store alone. -/
def Runs (b b' : Builder) (before after : Temps → Prop) : Prop :=
  ∃ is, b'.code = b.code ++ is ∧ ∀ m c, before c.point.temps →
    ∃ c', is.foldlM (perform m) c = .ok c' ∧ Passes b c.point.temps b' c'.point.temps ∧
      c'.store = c.store ∧ after c'.point.temps

variable {s : State} {b b' b'' : Builder} {x y o : Operand} {v w u : Value} {k : Kind}

namespace Runs

variable {P Q R : Temps → Prop}

theorem refl (h : ∀ T, P T → Q T) : Runs b b P Q :=
  ⟨[], by simp, fun _ c hc => ⟨c, rfl, .refl b _, rfl, h _ hc⟩⟩

theorem trans (h : Runs b b' P Q) (k : Runs b' b'' Q R) : Runs b b'' P R := by
  obtain ⟨is, hcode, hrun⟩ := h
  obtain ⟨js, hcode', hrun'⟩ := k
  refine ⟨is ++ js, by rw [hcode', hcode, List.append_assoc], fun m c hc => ?_⟩
  obtain ⟨c₁, heq, hp, hs, hq⟩ := hrun m c hc
  obtain ⟨c₂, heq', hp', hs', hr⟩ := hrun' m c₁ hq
  refine ⟨c₂, ?_, hp.trans hp', hs'.trans hs, hr⟩
  rw [List.foldlM_append, heq]
  exact heq'

theorem frame (h : Runs b b' P Q) (d : Datum) :
    Runs b b' (fun T => P T ∧ Shows b T o d) (fun T => Q T ∧ Shows b' T o d) := by
  obtain ⟨is, hcode, hrun⟩ := h
  refine ⟨is, hcode, fun m c hc => ?_⟩
  obtain ⟨c', heq, hp, hs, hq⟩ := hrun m c hc.1
  exact ⟨c', heq, hp, hs, hq, hc.2.mono hp⟩

theorem mono {P' Q' : Temps → Prop} (h : Runs b b' P Q) (hp : ∀ T, P' T → P T)
    (hq : ∀ T, Q T → Q' T) : Runs b b' P' Q' :=
  ((refl hp).trans h).trans (refl hq)

theorem compute (hb : b.current < b.blocks.size) (ty : Ty) {i : Instr} {d : Datum}
    (h : ∀ m c, P c.point.temps → perform m c i = .ok (c.set b.temps.size d)) :
    Runs b (b.compute ty i) P fun T => Shows (b.compute ty i) T (.temp b.temps.size) d := by
  refine ⟨[i], compute_code_of_lt hb ty i, fun m c hc => ?_⟩
  refine ⟨c.set b.temps.size d, ?_, .compute b _ ty i d, rfl, .fresh b _ ty i d⟩
  simp only [List.foldlM_cons, List.foldlM_nil, h m c hc]
  rfl

end Runs

/-- The operand is the constant, or a temporary. Only the former is converted without code. -/
def Plain (o : Operand) (v : Value) : Prop := o = .const v.toConst ∨ ∃ t, o = .temp t

structure Turns (b : Builder) (before : Temps → Prop) (b' : Builder) (o : Operand) (v : Value) :
    Prop where
  straight : Straight b b'
  form : Plain o v
  runs : Runs b b' before fun T => Shows b' T o (.value v)

theorem Inside.straight (h : Inside s b) (k : Straight b b') : Inside (s.building b') b' := by
  refine ⟨rfl, ?_⟩
  rw [k.appends.current, k.appends.size]
  exact h.exists_current

theorem Inside.building (h : Inside s b) : s.building b = s := by
  unfold State.building
  rw [← h.builder]

theorem Turns.const (b : Builder) (P : Temps → Prop) (v : Value) :
    Turns b P b (.const v.toConst) v :=
  ⟨.refl b, .inl rfl, .refl fun T _ => .const b T v⟩

theorem value_of_shows {c : Config} (h : Shows b c.point.temps o (.value v)) :
    c.value o = .ok v := by
  simp [Config.value, h.datum]

theorem compute_turns (hs : Inside s b) (ty : Ty) (instr : Nat → Instr) {P : Temps → Prop}
    (h : ∀ m c, P c.point.temps →
      perform m c (instr b.temps.size) = .ok (c.set b.temps.size (.value v))) :
    ∃ b' o, compute ty instr s = .ok o (s.building b') ∧ Turns b P b' o v :=
  ⟨_, _, compute_eq_of_lt hs.builder hs.exists_current ty instr,
    (Straight.refl b).compute ty _, .inr ⟨_, rfl⟩, .compute hs.exists_current ty h⟩

theorem cast_perform {op : Cast} {m : Module} {c : Config} (t : Nat)
    (hx : Shows b c.point.temps x (.value v)) (hv : op.run v = .ok w) :
    perform m c (.cast t op x) = .ok (c.set t (.value w)) := by
  simp only [perform, value_of_shows hx]
  show (op.run v >>= _) = _
  rw [hv]
  rfl

theorem coerce_turns (hs : Inside s b) (hx : Plain x v) (k : Kind) :
    ∃ b' o, coerce x v.kind k s = .ok o (s.building b') ∧
      Turns b (fun T => Shows b T x (.value v)) b' o (convert v k) := by
  by_cases hk : v.kind = k
  · subst hk
    refine ⟨b, x, ?_, .refl b, ?_, .refl ?_⟩
    · unfold coerce
      rw [if_pos rfl, hs.building]
      rfl
    · rwa [convert_self]
    · intro T hT
      rwa [convert_self]
  · rcases hx with rfl | ⟨t, rfl⟩
    · refine ⟨b, .const (convert v k).toConst, ?_, .const b _ _⟩
      unfold coerce
      rw [hs.building, if_neg hk]
      cases v <;> rfl
    · unfold coerce
      rw [if_neg hk]
      cases k with
      | float =>
        refine compute_turns hs _ _ fun m c hc => cast_perform _ hc ?_
        cases v with
        | int n => rfl
        | float z => exact absurd rfl hk
      | int =>
        refine compute_turns hs _ _ fun m c hc => cast_perform _ hc ?_
        cases v with
        | int n => exact absurd rfl hk
        | float z => rfl

theorem meet_turns (hs : Inside s b) (hx : Plain x v)
    (hy : Plain y w) :
    ∃ b' x' y', meet (x, v.kind) (y, w.kind) s =
        .ok (x', y', v.kind.unify w.kind) (s.building b') ∧ Straight b b' ∧
      Runs b b' (fun T => Shows b T x (.value v) ∧ Shows b T y (.value w))
        (fun T => Shows b' T x' (.value (convert v (v.kind.unify w.kind))) ∧
          Shows b' T y' (.value (convert w (v.kind.unify w.kind)))) := by
  obtain ⟨b₁, x', hl, hleft⟩ := coerce_turns hs hx (v.kind.unify w.kind)
  obtain ⟨b₂, y', hr, hright⟩ :=
    coerce_turns (hs.straight hleft.straight) hy (v.kind.unify w.kind)
  refine ⟨b₂, x', y', ?_, hleft.straight.trans hright.straight, ?_⟩
  · unfold meet
    rw [bind_ok hl, bind_ok hr]
    rfl
  · refine (hleft.runs.frame _).trans ?_
    exact (hright.runs.frame _).mono (fun T h => h.symm) (fun T h => h.symm)

theorem binary_turns {op : BinaryOp} (span : Span) (hs : Inside s b)
    (hx : Plain x v)
    (hy : Plain y w) (hu : op.run v w = .ok u) :
    ∃ b' o, binary op span (x, v.kind) (y, w.kind) s =
        .ok (.runtime o u.kind) (s.building b') ∧
      Turns b (fun T => Shows b T x (.value v) ∧ Shows b T y (.value w)) b' o u := by
  -- A remainder of floats has no value, so there is an instruction for the operator.
  have hfloat : ¬ (op = .mod ∧ v.kind.unify w.kind = .float) := by
    rintro ⟨rfl, hk⟩
    cases v with
    | float => cases hu
    | int =>
      cases w with
      | int => cases hk
      | float => cases hu
  obtain ⟨a, ha⟩ := arith?_isSome hfloat
  obtain ⟨b₁, x', y', hmeet, hst, hruns⟩ := meet_turns hs hx hy
  obtain ⟨b₂, o, hcompute, hturns⟩ := compute_turns (v := u) (hs.straight hst)
    (v.kind.unify w.kind).ty (.binary · a x' y')
    (P := fun T => Shows b₁ T x' (.value (convert v (v.kind.unify w.kind))) ∧
      Shows b₁ T y' (.value (convert w (v.kind.unify w.kind)))) (by
    intro m c hc
    simp only [perform, value_of_shows hc.1, value_of_shows hc.2]
    show (a.run _ _ >>= _) = _
    rw [arith_run v w ha, hu]
    rfl)
  refine ⟨b₂, o, ?_, hst.trans hturns.straight, hturns.form, hruns.trans hturns.runs⟩
  unfold binary
  rw [if_neg (by simpa using hfloat), bind_ok hmeet]
  simp only [ha]
  rw [bind_ok hcompute, binary_run_kind hu]
  rfl

theorem unary_turns (op : UnaryOp) (hs : Inside s b)
    (hx : Plain x v) :
    ∃ b' o, unary op (x, v.kind) s = .ok (.runtime o v.kind) (s.building b') ∧
      Turns b (fun T => Shows b T x (.value v)) b' o (op.run v) := by
  cases op with
  | plus =>
    have hplus : UnaryOp.plus.run v = v := by cases v <;> rfl
    rw [hplus]
    refine ⟨b, x, ?_, .refl b, hx, .refl fun T h => h⟩
    rw [hs.building]
    rfl
  | neg =>
    obtain ⟨b', o, hcompute, hturns⟩ := compute_turns (v := UnaryOp.neg.run v) hs v.kind.ty
      (.unary · (negation v.kind) x) (P := fun T => Shows b T x (.value v)) (by
      intro m c hc
      simp only [perform, value_of_shows hc]
      cases v <;> rfl)
    exact ⟨b', o, bind_ok hcompute, hturns⟩

def Reproduces (ctx : Context) (e : Expr) (v : Value) : Prop :=
  ∀ s b, Inside s b → ∃ b' o, rvalue ctx e s = .ok (o, v.kind) (s.building b') ∧
    Turns b (fun _ => True) b' o v

theorem Reproduces.binary {ctx : Context} {op : BinaryOp} {l r : Expr} (span : Span)
    (hl : Reproduces ctx l v) (hr : Reproduces ctx r w) (hu : op.run v w = .ok u) :
    Reproduces ctx (.binary op l r span) u := by
  intro s b hs
  obtain ⟨b₁, x, heq₁, h₁⟩ := hl s b hs
  have hs₁ := hs.straight h₁.straight
  obtain ⟨b₂, y, heq₂, h₂⟩ := hr _ b₁ hs₁
  have hs₂ := hs₁.straight h₂.straight
  obtain ⟨b₃, o, heq₃, h₃⟩ := binary_turns span hs₂ h₁.form h₂.form hu
  have hexpr : expr ctx.read (.binary op l r span) s = .ok (.runtime o u.kind) (s.building b₃) :=
    (bind_ok heq₁).trans ((bind_ok heq₂).trans heq₃)
  refine ⟨b₃, o, bind_ok hexpr, (h₁.straight.trans h₂.straight).trans h₃.straight, h₃.form, ?_⟩
  -- The left operand has to outlast the code of the right one.
  have hboth : Runs b₁ b₂ (fun T => Shows b₁ T x (.value v))
      (fun T => Shows b₂ T x (.value v) ∧ Shows b₂ T y (.value w)) :=
    (h₂.runs.frame _).mono (fun T h => ⟨trivial, h⟩) (fun T h => h.symm)
  exact (h₁.runs.trans hboth).trans h₃.runs

theorem Reproduces.unary {ctx : Context} {e : Expr} (op : UnaryOp) (span : Span)
    (h : Reproduces ctx e v) : Reproduces ctx (.unary op e span) (op.run v) := by
  intro s b hs
  obtain ⟨b₁, x, heq₁, h₁⟩ := h s b hs
  obtain ⟨b₂, o, heq₂, h₂⟩ := unary_turns op (hs.straight h₁.straight) h₁.form
  have hexpr : expr ctx.read (.unary op e span) s = .ok (.runtime o v.kind) (s.building b₂) :=
    (bind_ok heq₁).trans heq₂
  refine ⟨b₂, o, ?_, h₁.straight.trans h₂.straight, h₂.form, h₁.runs.trans h₂.runs⟩
  rw [unary_kind]
  exact bind_ok hexpr

theorem Folds.reproduces {e : Expr} (h : Folds e v) (ctx : Context) : Reproduces ctx e v := by
  induction h with
  | literal v span =>
    intro s b hs
    refine ⟨b, _, ?_, .const b _ v⟩
    rw [hs.building]
    rfl
  | ints _ _ hz ihl ihr =>
    refine .binary _ ihl ihr ?_
    rw [BinaryOp.run, if_neg fun hd => hz hd.1 hd.2]
  | floats _ _ hk hx ihl ihr => exact .binary _ ihl ihr (binary_run_floats hk hx)
  | int _ ih => exact .unary _ _ ih
  | float _ ih => exact .unary _ _ ih

/-- Folding and lowering agree. What is folded to a value can be lowered for any kind, and the code
computes the value in that kind; what cannot be lowered is not folded. -/
theorem fold_agrees_rvalue (ctx : Context) (e : Expr) (k : Kind) (s : State) (b : Builder)
    (hs : s.builder = some b) (hb : b.current < b.blocks.size) :
    (∀ v s', fold ctx e s = .ok v s' →
      ∃ o s₁ o' b' is, rvalue ctx e s = .ok (o, v.kind) s₁ ∧
        coerce o v.kind k s₁ = .ok o' (s.building b') ∧
        Straight b b' ∧ b'.code = b.code ++ is ∧
        ∀ m c, ∃ c', is.foldlM (perform m) c = .ok c' ∧ c'.value o' = .ok (v.convert k).1) ∧
    (∀ stop s', rvalue ctx e s = .error stop s' →
      ∃ d, fold ctx e s = .error (.problem d) s) := by
  have hinside : Inside s b := ⟨hs, hb⟩
  have hfold := fold_ends ctx e s
  unfold Ends at hfold
  constructor
  · intro v s' heq
    rw [heq] at hfold
    obtain ⟨b₁, o, hrvalue, h₁⟩ := Folds.reproduces hfold.1 ctx s b hinside
    obtain ⟨b₂, o', hcoerce, h₂⟩ := coerce_turns (hinside.straight h₁.straight) h₁.form k
    obtain ⟨is, hcode, hrun⟩ := h₁.runs.trans h₂.runs
    refine ⟨o, _, o', b₂, is, hrvalue, hcoerce, h₁.straight.trans h₂.straight, hcode, ?_⟩
    intro m c
    obtain ⟨c', hperform, -, -, hshows⟩ := hrun m c trivial
    exact ⟨c', hperform, value_of_shows hshows⟩
  · intro stop s' herror
    split at hfold
    · next v s'' heq =>
      obtain ⟨b', o, hrvalue, -⟩ := Folds.reproduces hfold.1 ctx s b hinside
      rw [hrvalue] at herror
      cases herror
    · next d s'' heq =>
      rw [hfold.2.2] at heq
      exact ⟨d, heq⟩
    · exact hfold.elim

def quotient : Expr :=
  .binary .div (.literal (.int 7) ⟨0, 0⟩)
    (.binary .sub (.literal (.int 1) ⟨0, 0⟩) (.literal (.int 3) ⟨0, 0⟩) ⟨0, 0⟩) ⟨0, 0⟩

theorem quotient_agrees :
    let s : State := { module := { name := "m" }, builder := some (.start "f") }
    fold .inFunction quotient s = .ok (.int (-3)) s ∧
    ∃ o s₁ o' b' is, rvalue .inFunction quotient s = .ok (o, .int) s₁ ∧
      coerce o .int .float s₁ = .ok o' (s.building b') ∧
      Straight (.start "f") b' ∧ b'.code = (Builder.start "f").code ++ is ∧
      ∀ m c, ∃ c', is.foldlM (perform m) c = .ok c' ∧
        c'.value o' = .ok (.float (Int32.toFloat (-3))) := by
  have hfold : ∀ s : State, fold .inFunction quotient s = .ok (.int (-3)) s := fun s => rfl
  exact ⟨hfold _, (fold_agrees_rvalue .inFunction quotient .float _ (.start "f") rfl
    (by decide)).1 _ _ (hfold _)⟩

end C1Lang.Lower
