import C1Lang.Proofs.Execution.Code

/-!
# Running expressions

The code of an expression computes the value that the expression has, or traps when it does
(`Lowers.follows`). Conversions between kinds are casts, or were made when the code was built.
-/

namespace C1Lang.Lower

open IR IR.Builder Execution

variable {m : Module} {n : Nat} {F : Function} {T : Temps} {s : Store}
  {K : List (Point × Memory)} {σ : Scopes} {b b' : Builder} {x x' y y' o : Operand}
  {j k : Kind} {v w : Value}

theorem cast_lands {ty : Ty} {op : Cast} (hb : b.Open)
    (hF : (b.compute ty (.cast b.temps.size op x)).finish.Within F)
    (hx : Shows b T x (.value v)) (hv : op.run v = .ok w) :
    ∃ c, Steps m (stand b F T s K) c ∧
      Lands F s K b T (b.compute ty (.cast b.temps.size op x)) (.temp b.temps.size)
        (.value w) c := by
  have hp : perform m (stand b F T s K) (.cast b.temps.size op x) =
      (Except.ok w).map fun w => (stand b F T s K).set b.temps.size (.value w) := by
    simp only [perform, hx.value]
    show (op.run v >>= _) = _
    rw [hv]
    rfl
  obtain ⟨c, hs, -, hc⟩ := compute_follows (n := 0) hb hF hp (by simp) (by simp)
  exact ⟨c, hs, hc⟩

theorem Coerces.lands (h : Coerces b x j k b' x') (hb : b.Open) (hF : b'.finish.Within F)
    (hx : Shows b T x (.value v)) (hv : v.kind = j) :
    ∃ c, Steps m (stand b F T s K) c ∧ Lands F s K b T b' x' (.value (convert v k)) c := by
  cases h with
  | same =>
    subst hv
    rw [convert_self]
    exact ⟨_, .refl, T, rfl, .refl b T, hx⟩
  | int =>
    cases hx.datum
    exact ⟨_, .refl, T, rfl, .refl b T, .const b T (.float _)⟩
  | float =>
    cases hx.datum
    exact ⟨_, .refl, T, rfl, .refl b T, .const b T (.int _)⟩
  | toFloat =>
    cases v with
    | int a => exact cast_lands hb hF hx rfl
    | float a => cases hv
  | toInt =>
    cases v with
    | int a => cases hv
    | float a => exact cast_lands hb hF hx rfl

theorem Meets.lands (h : Meets b x j y k b' x' y') (hb : b.Open) (hF : b'.finish.Within F)
    (hx : Shows b T x (.value v)) (hv : v.kind = j) (hy : Shows b T y (.value w))
    (hw : w.kind = k) :
    ∃ T', Steps m (stand b F T s K) (stand b' F T' s K) ∧ Passes b T b' T' ∧
      Shows b' T' x' (.value (convert v (j.unify k))) ∧
      Shows b' T' y' (.value (convert w (j.unify k))) := by
  cases h with
  | @mk b₁ _ _ _ hl hr =>
    have hb₁ := hl.straight.opened hb
    have hF₁ : b₁.finish.Within F := (hr.straight.within hb₁).trans hF
    obtain ⟨_, hs₁, T₁, rfl, hp₁, hx₁⟩ := hl.lands (m := m) (s := s) (K := K) hb hF₁ hx hv
    obtain ⟨_, hs₂, T₂, rfl, hp₂, hy₂⟩ :=
      hr.lands (m := m) (s := s) (K := K) hb₁ hF (hy.mono hp₁) hw
    exact ⟨T₂, hs₁.trans hs₂, hp₁.trans hp₂, hx₁.mono hp₂, hy₂⟩

theorem arith_run {op : BinaryOp} {a : Arith} (v w : Value)
    (ha : arith? op (v.kind.unify w.kind) = some a) :
    a.run (convert v (v.kind.unify w.kind)) (convert w (v.kind.unify w.kind)) = op.run v w := by
  cases v <;> cases w <;> cases op <;> cases ha <;>
    first | rfl | simp [Arith.run, convert, Value.convert, Value.kind, Kind.unify, BinaryOp.run,
      BinaryOp.divides, BinaryOp.onInts]

theorem binary_run_ne {op : BinaryOp} {a : Arith} (v w : Value)
    (ha : arith? op (v.kind.unify w.kind) = some a) :
    op.run v w ≠ .error .exhausted ∧ op.run v w ≠ .error .stuck := by
  cases v <;> cases w <;> simp only [BinaryOp.run] <;> cases op <;> cases ha <;>
    simp [BinaryOp.onFloats?] <;> split <;> simp

theorem binary_perform {a : Arith} (t : Nat) (hx : Shows b T x (.value v))
    (hy : Shows b T y (.value w)) : perform m (stand b F T s K) (.binary t a x y) =
      (a.run v w).map fun u => (stand b F T s K).set t (.value u) := by
  simp only [perform, hx.value, hy.value]
  show (a.run v w >>= _) = _
  cases a.run v w <;> rfl

theorem unary_perform (t : Nat) (hx : Shows b T x (.value v)) :
    perform m (stand b F T s K) (.unary t (negation v.kind) x) =
      (Except.ok (UnaryOp.neg.run v)).map fun u => (stand b F T s K).set t (.value u) := by
  simp only [perform, hx.value]
  cases v <;> rfl

theorem content_follows {a : Address} (hb : b.Open) (hF : (content b k o).finish.Within F)
    (ho : Shows b T o (.address a)) :
    Follows m n (stand b F T s K) (.ok (s.read k a)) fun v c =>
      v = s.read k a ∧ Lands F s K b T (content b k o) (.temp b.temps.size) (.value v) c := by
  have ht : F.temps[b.temps.size]? = some k.ty := by
    apply getElem?_extend hF.temps
    exact addTemp_getElem? b k.ty
  have hk : (stand b F T s K).kind b.temps.size = .ok k := by
    cases k <;> simp only [Config.kind, stand, ht] <;> rfl
  have hperform : perform m (stand b F T s K) (.load b.temps.size o) =
      (Except.ok (s.read k a)).map fun v => (stand b F T s K).set b.temps.size (.value v) := by
    simp only [perform, ho.address, hk]
    rfl
  refine (compute_follows hb hF hperform (by simp) (by simp)).mono fun v c hv => ?_
  exact ⟨(Except.ok.inj hv.1).symm, hv.2⟩

theorem element_follows {z : Binding} {r : Except Halt Value} {c : Config} (hz : z.isArray = true)
    (hb : b'.Open) (hF : (element b' z o).finish.Within F)
    (hr : Follows m n c r fun v c => v.kind = .int ∧ Lands F s K b T b' o (.value v) c) :
    Follows m n c (s.reach z.site (some r)) fun a c =>
      Lands F s K b T (element b' z o) (.temp b'.temps.size) (.address a) c := by
  have hreach : s.reach z.site (some r) = r >>= s.element z.storage := by
    simp [Store.reach, Binding.site, hz]
  rw [hreach]
  refine hr.bind fun v c hv => ?_
  obtain ⟨hk, T₁, rfl, hp₁, ho⟩ := hv
  have hperform : perform m (stand b' F T₁ s K) (.elementPtr b'.temps.size z.storage.operand o) =
      (s.element z.storage v).map fun a =>
        (stand b' F T₁ s K).set b'.temps.size (.address a) := by
    simp only [perform, (Shows.storage b' T₁ z.storage).address, ho.value]
    show (s.element z.storage v >>= _) = _
    cases s.element z.storage v <;> rfl
  have helement : s.element z.storage v ≠ .error .exhausted ∧
      s.element z.storage v ≠ .error .stuck := by
    cases v with
    | int i =>
      simp only [Store.element]
      split <;> simp
    | float _ => cases hk
  exact (compute_follows hb hF hperform helement.1 helement.2).mono fun a c hc => hc.2.after hp₁

theorem find_view {name : String} {z : Binding} (h : σ.lookup name = some z) :
    find (σ.view Binding.site) name = .ok z.site := by
  simp only [find, Scopes.find?_view, h, Option.map_some]

theorem Lowers.follows {e : Expr} (h : Lowers σ b e b' o k) (hb : b.Open)
    (hF : b'.finish.Within F) (T : Temps) :
    Follows m n (stand b F T s K) (eval (σ.view Binding.site) s e) fun v c =>
      v.kind = k ∧ Lands F s K b T b' o (.value v) c := by
  induction h generalizing T with
  | @literal b v span => exact .pure ⟨rfl, T, rfl, .refl b T, .const b T v⟩
  | @binary b b₁ b₂ b₃ op l r span x y x' y' j k a hl hr hm ha ihl ihr =>
    have hb₁ := hl.straight.opened hb
    have hb₂ := hr.straight.opened hb₁
    have hb₃ := hm.straight.opened hb₂
    have hF₃ : b₃.finish.Within F := (((Straight.refl b₃).compute _ _).within hb₃).trans hF
    have hF₂ : b₂.finish.Within F := (hm.straight.within hb₂).trans hF₃
    have hF₁ : b₁.finish.Within F := (hr.straight.within hb₁).trans hF₂
    refine (ihl hb hF₁ T).bind fun v c hv => ?_
    obtain ⟨hvk, T₁, rfl, hp₁, hx⟩ := hv
    refine (ihr hb₁ hF₂ T₁).bind fun w c hw => ?_
    obtain ⟨hwk, T₂, rfl, hp₂, hy⟩ := hw
    obtain ⟨T₃, hs, hp₃, hx', hy'⟩ := hm.lands (m := m) (s := s) (K := K) hb₂ hF₃
      (hx.mono hp₂) hvk hy hwk
    subst hvk hwk
    have hperform := binary_perform (m := m) (F := F) (s := s) (K := K) (a := a) b₃.temps.size
      hx' hy'
    rw [arith_run v w ha] at hperform
    obtain ⟨hexhausted, hstuck⟩ := binary_run_ne v w ha
    refine .of_steps hs ((compute_follows hb₃ hF hperform hexhausted hstuck).mono fun u c hu => ?_)
    exact ⟨binary_run_kind hu.1, hu.2.after ((hp₁.trans hp₂).trans hp₃)⟩
  | plus _ ih =>
    refine (ih hb hF T).bind fun v c hv => .pure ?_
    have hplus : UnaryOp.plus.run v = v := by cases v <;> rfl
    rw [hplus]
    exact hv
  | @neg b b₁ e span x k he ih =>
    have hb₁ := he.straight.opened hb
    have hF₁ : b₁.finish.Within F := (((Straight.refl b₁).compute _ _).within hb₁).trans hF
    refine (ih hb hF₁ T).bind fun v c hv => ?_
    obtain ⟨rfl, T₁, rfl, hp₁, hx⟩ := hv
    refine (compute_follows hb₁ hF (unary_perform _ hx) (by simp) (by simp)).mono fun u c hu => ?_
    exact ⟨Except.ok.inj hu.1 ▸ unary_kind _ v, hu.2.after hp₁⟩
  | @name b n span z hz ha =>
    have hreach : s.reach z.site none = .ok ⟨z.storage, 0⟩ := by
      simp [Store.reach, Binding.site, ha]
    have heval : eval (σ.view Binding.site) s (.name n span) =
        .ok (s.read z.kind ⟨z.storage, 0⟩) := by
      rw [eval, find_view hz]
      show (s.reach z.site none >>= _) = _
      rw [hreach]
      rfl
    rw [heval]
    refine (content_follows hb hF (.storage b T z.storage)).mono fun v c hv => ?_
    exact ⟨hv.1 ▸ read_kind _ _ _, hv.2⟩
  | @element b b₁ n i span z o hz ha hi ih =>
    have hb₁ := hi.straight.opened hb
    have hb₂ := ((Straight.refl b₁).compute (.pointer z.kind.ty)
      (.elementPtr b₁.temps.size z.storage.operand o)).opened hb₁
    have hF₂ : (Lower.element b₁ z o).finish.Within F :=
      (((Straight.refl _).compute _ _).within hb₂).trans hF
    have hF₁ : b₁.finish.Within F := (((Straight.refl b₁).compute _ _).within hb₁).trans hF₂
    simp only [eval, find_view hz]
    refine (element_follows ha hb₁ hF₂ (ih hb hF₁ T)).bind fun a c hc => ?_
    obtain ⟨T₂, rfl, hp₂, ho⟩ := hc
    refine (content_follows hb₂ hF ho).mono fun v c hv => ?_
    exact ⟨hv.1 ▸ read_kind _ _ _, hv.2.after hp₂⟩

theorem Points.follows {z : Binding} {i : Option Expr} (h : Points σ b z i b' o) (hb : b.Open)
    (hF : b'.finish.Within F) (T : Temps) :
    Follows m n (stand b F T s K) (s.reach z.site (i.map (eval (σ.view Binding.site) s)))
      fun a c => Lands F s K b T b' o (.address a) c := by
  cases h with
  | scalar ha =>
    have hreach : s.reach z.site none = .ok ⟨z.storage, 0⟩ := by
      simp [Store.reach, Binding.site, ha]
    rw [Option.map_none, hreach]
    exact .pure ⟨T, rfl, .refl b T, .storage b T z.storage⟩
  | @array b₁ i o ha hi =>
    have hb₁ := hi.straight.opened hb
    have hF₁ : b₁.finish.Within F := (((Straight.refl b₁).compute _ _).within hb₁).trans hF
    exact element_follows ha hb₁ hF (hi.follows hb hF₁ T)

theorem predicate_run (r : Relation) (v w : Value) :
    (predicate r (v.kind.unify w.kind)).run (convert v (v.kind.unify w.kind))
      (convert w (v.kind.unify w.kind)) = .ok (r.holds v w) := by
  cases v <;> cases w <;> cases r <;> rfl

theorem Compares.follows {e : Condition} (h : Compares σ b e b' o) (hb : b.Open)
    (hF : b'.finish.Within F) (T : Temps) :
    Follows m n (stand b F T s K) (Execution.test (σ.view Binding.site) s e) fun f c =>
      Lands F s K b T b' o (.flag f) c := by
  cases h with
  | @mk b₁ b₂ b₃ x y x' y' j k hl hr hm =>
    have hb₁ := hl.straight.opened hb
    have hb₂ := hr.straight.opened hb₁
    have hb₃ := hm.straight.opened hb₂
    have hF₃ : b₃.finish.Within F := (((Straight.refl b₃).compute _ _).within hb₃).trans hF
    have hF₂ : b₂.finish.Within F := (hm.straight.within hb₂).trans hF₃
    have hF₁ : b₁.finish.Within F := (hr.straight.within hb₁).trans hF₂
    refine (hl.follows hb hF₁ T).bind fun v c hv => ?_
    obtain ⟨hvk, T₁, rfl, hp₁, hx⟩ := hv
    refine (hr.follows hb₁ hF₂ T₁).bind fun w c hw => ?_
    obtain ⟨hwk, T₂, rfl, hp₂, hy⟩ := hw
    obtain ⟨T₃, hs, hp₃, hx', hy'⟩ := hm.lands (m := m) (s := s) (K := K) hb₂ hF₃
      (hx.mono hp₂) hvk hy hwk
    subst hvk hwk
    have hperform : perform m (stand b₃ F T₃ s K) (.compare b₃.temps.size
        (predicate e.relation (v.kind.unify w.kind)) x' y') =
        (Except.ok (e.relation.holds v w)).map fun f =>
          (stand b₃ F T₃ s K).set b₃.temps.size (.flag f) := by
      simp only [perform, hx'.value, hy'.value]
      show (Predicate.run _ _ _ >>= _) = _
      rw [predicate_run]
      rfl
    refine .of_steps hs ((compute_follows hb₃ hF hperform (by simp) (by simp)).mono
      fun f c hf => ?_)
    exact hf.2.after ((hp₁.trans hp₂).trans hp₃)

end C1Lang.Lower
