import C1Lang.Proofs.Execution.Expression

/-!
# Running statements

The code of a statement does what the statement does, wherever calls are answered and as long as
the fuel lasts (`Generates.follows`). The test of a loop is one block, to which every round leads
back; each round takes a step at least.
-/

namespace C1Lang.Execution

open IR

@[simp] theorem cells_length_write (s : Store) (a : Address) (v : Value) (x : Storage) :
    ((s.write a v).cells x).length = (s.cells x).length := by
  obtain ⟨object, offset⟩ := a
  have key : ∀ (M : Memory) (i j : Nat), ((M.modify i (·.set offset v)).getD j []).length =
      (M.getD j []).length := by
    intro M i j
    simp only [List.getD_eq_getElem?_getD, List.getElem?_modify]
    cases M[j]? with
    | none => rfl
    | some cells => by_cases hij : i = j <;> simp [hij]
  cases object <;> cases x <;> simp only [Store.write, Store.cells, key]

def Shaped (F : Function) (s : Store) : Prop :=
  ∀ i, (s.cells (.slot i)).length = (F.blank.getD i []).length

theorem Shaped.write {F : Function} {s : Store} (h : Shaped F s) (a : Address) (v : Value) :
    Shaped F (s.write a v) := by
  intro i
  rw [cells_length_write]
  exact h i

def Arrives (F : Function) (K : List (Point × Memory)) (b : Builder) (s : Store) (c : Config) :
    Prop :=
  Shaped F s ∧ ∃ T, c = stand b F T s K

/-- The machine answers calls of known functions as `call` does. -/
def Answers (m : Module) (n : Nat) (call : String → Memory → Except Halt Memory)
    (functions : List (String × Lower.FunctionRecord)) : Prop :=
  ∀ x ∈ functions, ∀ c, step m c = (perform m c (.call x.2.id)).map .inl →
    Follows m n c (call x.1 c.store.globals) fun globals c' =>
      c' = { c.advance with store.globals := globals }

end C1Lang.Execution

namespace C1Lang.Lower

open IR IR.Builder Execution

variable {m : Module} {n : Nat} {F : Function} {T : Temps} {s : Store}
  {K : List (Point × Memory)} {σ : Scopes} {b b' : Builder} {x x' p o : Operand}
  {j k : Kind} {v w : Value}

theorem store_steps {a : Address} (hb : b.Open) (hF : (b.push (.store p x)).finish.Within F)
    (hp : Shows b T p (.address a)) (hx : Shows b T x (.value v)) :
    Steps m (stand b F T s K) (stand (b.push (.store p x)) F T (s.write a v) K) := by
  apply Steps.one
  rw [step_push hb hF, stand_push hb]
  simp only [perform, hp.address, hx.value]
  rfl

theorem coerced_store_steps {a : Address} (h : Coerces b x j k b' x') (hb : b.Open)
    (hF : (b'.push (.store p x')).finish.Within F) (hp : Shows b T p (.address a))
    (hx : Shows b T x (.value v)) (hv : v.kind = j) :
    ∃ T', Steps m (stand b F T s K)
      (stand (b'.push (.store p x')) F T' (s.write a (convert v k)) K) := by
  have hb' := h.straight.opened hb
  have hF' : b'.finish.Within F := (((Straight.refl b').push _).within hb').trans hF
  obtain ⟨_, hs, T', rfl, hpass, hx'⟩ := h.lands (m := m) (s := s) (K := K) hb hF' hx hv
  exact ⟨T', hs.trans (store_steps hb' hF (hp.mono hpass) hx')⟩

theorem assign_follows {target : Place} {value : Expr} {b₁ b₂ b₃ : Builder}
    (hv : Lowers σ b value b₁ x j) (hp : Locates σ b₁ target b₂ p k) (hc : Coerces b₂ x j k b₃ x')
    (hb : b.Open) (hF : (b₃.push (.store p x')).finish.Within F) (hs : Shaped F s) (T : Temps) :
    Follows m n (stand b F T s K) (assign (σ.view Binding.site) target value s)
      (Arrives F K (b₃.push (.store p x'))) := by
  have hb₁ := hv.straight.opened hb
  have hb₂ := hp.straight.opened hb₁
  have hb₃ := hc.straight.opened hb₂
  have hF₂ : b₂.finish.Within F :=
    ((hc.straight.push _).within hb₂).trans hF
  have hF₁ : b₁.finish.Within F := (hp.straight.within hb₁).trans hF₂
  refine (hv.follows hb hF₁ T).bind fun v c hv' => ?_
  obtain ⟨hvk, T₁, rfl, hp₁, hx⟩ := hv'
  cases hp with
  | mk hz _ hpoint =>
    rw [find_view hz]
    refine (hpoint.follows hb₁ hF₂ T₁).bind fun a c ha => ?_
    obtain ⟨T₂, rfl, hp₂, ho⟩ := ha
    obtain ⟨T₃, hsteps⟩ := coerced_store_steps (m := m) (s := s) (K := K) hc hb₂ hF ho
      (hx.mono hp₂) hvk
    exact ⟨_, hsteps, hs.write a _, T₃, rfl⟩

theorem element_ofNat {slot index : Nat} (h : index < (s.cells (.slot slot)).length)
    (hmax : index < 2147483648) :
    s.element (.slot slot) (.int (Int32.ofNat index)) = .ok ⟨.slot slot, index⟩ := by
  have hi := Int32.toInt_ofNat_of_lt hmax
  simp only [Store.element, hi]
  rw [if_pos ⟨by omega, by omega⟩, Int.toNat_natCast]

theorem elementAt_straight (b : Builder) (slot : Nat) (k : Kind) (index : Nat) (x : Operand) :
    Straight b ((elementAt b slot k index).push (.store (.temp b.temps.size) x)) :=
  ((Straight.refl b).compute _ _).push _

theorem elementAt_steps {slot index : Nat} (hb : b.Open)
    (hF : ((elementAt b slot k index).push (.store (.temp b.temps.size) x)).finish.Within F)
    (hx : Shows b T x (.value v)) (h : index < (s.cells (.slot slot)).length)
    (hmax : index < 2147483648) :
    ∃ T', Steps m (stand b F T s K)
      (stand ((elementAt b slot k index).push (.store (.temp b.temps.size) x)) F T'
        (s.write ⟨.slot slot, index⟩ v) K) := by
  have hb' : (elementAt b slot k index).Open := ((Straight.refl b).compute _ _).opened hb
  have hF' : (elementAt b slot k index).finish.Within F :=
    (((Straight.refl _).push _).within hb').trans hF
  have hperform : perform m (stand b F T s K) (.elementPtr b.temps.size (.slot slot)
      (.const (.int (Int32.ofNat index)))) =
      (Except.ok (⟨.slot slot, index⟩ : Address)).map fun a =>
        (stand b F T s K).set b.temps.size (.address a) := by
    show (s.element (.slot slot) (.int (Int32.ofNat index)) >>= _) = _
    rw [element_ofNat h hmax]
    rfl
  obtain ⟨_, hs, -, T', rfl, hp, ha⟩ :=
    compute_follows (n := 0) hb hF' hperform (by simp) (by simp)
  exact ⟨T', hs.trans (store_steps hb' hF ha (hx.mono hp))⟩

theorem Stores.follows {slot count index : Nat} {es : List Expr}
    (h : Stores σ slot k count index es b b') (hb : b.Open) (hF : b'.finish.Within F)
    (hs : Shaped F s) (T : Temps) (hlen : index + count ≤ (s.cells (.slot slot)).length)
    (hmax : index + count < 2147483648) :
    Follows m n (stand b F T s K) (fill (σ.view Binding.site) (.slot slot) k count index es s)
      (Arrives F K b') := by
  induction h generalizing s T with
  | done => exact .pure ⟨hs, T, rfl⟩
  | @zero count index b b' hrest ih =>
    have hone := (elementAt_straight b slot k index (.const (Const.zero k.scalar))).opened hb
    have hF₁ := (hrest.straight.within hone).trans hF
    have hzero : Shows b T (.const (Const.zero k.scalar)) (.value (Execution.zero k)) := by
      rw [← zero_toConst]
      exact .const b T _
    obtain ⟨T₁, hsteps⟩ := elementAt_steps (m := m) (s := s) (K := K) hb hF₁ hzero (by omega)
      (by omega)
    refine .of_steps hsteps (ih hone hF (hs.write _ _) T₁ ?_ (by omega))
    rw [cells_length_write]
    omega
  | @value count index e es b b₁ b₂ b' x x' j he hc hrest ih =>
    have hb₁ := he.straight.opened hb
    have hb₂ := hc.straight.opened hb₁
    have hstraight := elementAt_straight b₂ slot k index x'
    have hone := hstraight.opened hb₂
    have hF₃ := (hrest.straight.within hone).trans hF
    have hF₂ : b₂.finish.Within F := (hstraight.within hb₂).trans hF₃
    have hF₁ : b₁.finish.Within F := (hc.straight.within hb₁).trans hF₂
    refine (he.follows hb hF₁ T).bind fun v c hv => ?_
    obtain ⟨hvk, T₁, rfl, hp₁, hx⟩ := hv
    obtain ⟨_, hs₁, T₂, rfl, hp₂, hx'⟩ := hc.lands (m := m) (s := s) (K := K) hb₁ hF₂ hx hvk
    obtain ⟨T₃, hsteps⟩ := elementAt_steps (m := m) (s := s) (K := K) hb₂ hF₃ hx' (by omega)
      (by omega)
    refine .of_steps (hs₁.trans hsteps) (ih hone hF (hs.write _ _) T₃ ?_ (by omega))
    rw [cells_length_write]
    omega

theorem Shaped.length {slot : Nat} {name : String} {ty : Ty} (hs : Shaped F s)
    (hslot : F.locals[slot]? = some ⟨name, ty⟩) :
    (s.cells (.slot slot)).length = ty.blank.length := by
  have hget : F.blank[slot]? = some ty.blank := by
    simp only [Function.blank, List.getElem?_map, Array.getElem?_toList, hslot, Option.map_some]
  rw [hs slot, List.getD_eq_getElem?_getD, hget, Option.getD_some]

theorem Initializes.follows {slot : Nat} {u : Variable} {ty : Ty}
    (h : Initializes σ slot u ty b b') (hb : b.Open) (hF : b'.finish.Within F) (hs : Shaped F s)
    (hslot : F.locals[slot]? = some ⟨u.name, ty⟩) (T : Temps) :
    Follows m n (stand b F T s K) (prepare (σ.view Binding.site) (.slot slot) u s)
      (Arrives F K b') := by
  cases h with
  | scalar hu hi =>
    simp only [prepare, hu, hi]
    exact .pure ⟨hs, T, rfl⟩
  | value hu hi he hc =>
    simp only [prepare, hu, hi]
    have hb₁ := he.straight.opened hb
    have hF₁ := ((hc.straight.push _).within hb₁).trans hF
    refine (he.follows hb hF₁ T).bind fun v c hv => ?_
    obtain ⟨hvk, T₁, rfl, hp₁, hx⟩ := hv
    obtain ⟨T₂, hsteps⟩ := coerced_store_steps (m := m) (s := s) (K := K) hc hb₁ hF
      (Shows.storage _ T₁ (.slot slot)) hx hvk
    exact ⟨_, hsteps, hs.write _ _, T₂, rfl⟩
  | array hu _ hi =>
    simp only [prepare, hi]
    exact .pure ⟨hs, T, rfl⟩
  | elements hu hspan hi hstores =>
    have hprepare : prepare (σ.view Binding.site) (.slot slot) u s =
        fill (σ.view Binding.site) (.slot slot) u.kind (size u) 0 u.initializers s := by
      cases hes : u.initializers with
      | nil => exact absurd hes hi
      | cons e es => simp only [prepare, hu, hes]
    rw [hprepare, size_of_spans hu hspan]
    have hlen := Shaped.length hs hslot
    rw [array_blank, List.length_replicate] at hlen
    obtain ⟨a, -, -, ha⟩ := hspan.folds
    have hmax := a.toInt_lt
    exact hstores.follows hb hF hs T (by omega) (by omega)

theorem fork_step {f : Bool} (hb : b.Open) (hF : (fork b x).finish.Within F)
    (hx : Shows b T x (.flag f)) : step m (stand b F T s K) =
      .ok (.inl ⟨⟨F, if f then b.blocks.size else b.blocks.size + 1, 0, T⟩, s, K⟩) := by
  rw [← stand_create hb, ← stand_create hb.create]
  exact branch_step hb.create.create hF ⟨hx.datum, hx.old⟩

theorem forkElse_step {f : Bool} (hb : b.Open) (hF : (forkElse b x).finish.Within F)
    (hx : Shows b T x (.flag f)) : step m (stand b F T s K) =
      .ok (.inl ⟨⟨F, if f then b.blocks.size else b.blocks.size + 1, 0, T⟩, s, K⟩) := by
  rw [← stand_create hb, ← stand_create hb.create, ← stand_create hb.create.create]
  exact branch_step hb.create.create.create hF ⟨hx.datum, hx.old⟩

theorem enterLoop_step (hb : b.Open) (hF : (enterLoop b).finish.Within F) :
    step m (stand b F T s K) = .ok (.inl (stand (enterLoop b) F T s K)) := by
  have hstand : stand (enterLoop b) F T s K = ⟨⟨F, b.blocks.size, 0, T⟩, s, K⟩ :=
    stand_leave (three_waits hb).1 _
  rw [hstand, ← stand_create hb, ← stand_create hb.create, ← stand_create hb.create.create]
  exact goto_step hb.create.create.create hF

theorem branch_follows {σ : Scopes} {e : Condition} {b₁ b₂ : Builder}
    {body : Store → Except Halt Store} (hc : Compares σ b e b₁ x) (hb : b.Open)
    (h₂ : (fork b₁ x).Extends b₂)
    (hF : (b₂.leave (.goto (b₁.blocks.size + 1)) (b₁.blocks.size + 1)).finish.Within F)
    (hs : Shaped F s) (T : Temps)
    (hbody : ∀ T, Follows m n (stand (fork b₁ x) F T s K) (body s) (Arrives F K b₂)) :
    Follows m n (stand b F T s K)
      (do if ← Execution.test (σ.view Binding.site) s e then body s else return s)
      (Arrives F K (b₂.leave (.goto (b₁.blocks.size + 1)) (b₁.blocks.size + 1))) := by
  have hb₁ := hc.straight.opened hb
  have hfork := (fork_extends hb₁ x).1
  have hwaits := (branch_extends hb₁ h₂).1
  have hF₂ : b₂.finish.Within F := (within_leave h₂.opened _ _).trans hF
  have hF₁ : (fork b₁ x).finish.Within F := h₂.within.trans hF₂
  refine (hc.follows hb (hfork.within.trans hF₁) T).bind fun f c hf => ?_
  obtain ⟨T₁, rfl, -, hx⟩ := hf
  have hstep := fork_step (m := m) (s := s) (K := K) hb₁ hF₁ hx
  cases f with
  | true =>
    have hstand : stand (fork b₁ x) F T₁ s K = ⟨⟨F, b₁.blocks.size, 0, T₁⟩, s, K⟩ :=
      stand_leave (two_waits hb₁).1 _
    rw [if_pos rfl, ← hstand] at hstep
    refine .of_steps (.one hstep) ((hbody T₁).after fun s₂ c hc => ?_)
    obtain ⟨hs₂, T₂, rfl⟩ := hc
    exact ⟨_, .one (goto_step h₂.opened hF), hs₂, T₂, (stand_leave hwaits _).symm⟩
  | false => exact ⟨_, .one hstep, hs, T₁, (stand_leave hwaits _).symm⟩

theorem branchElse_follows {σ : Scopes} {e : Condition} {b₁ b₂ b₃ : Builder}
    {body other : Store → Except Halt Store} (hc : Compares σ b e b₁ x) (hb : b.Open)
    (h₂ : (forkElse b₁ x).Extends b₂)
    (h₃ : (b₂.leave (.goto (b₁.blocks.size + 2)) (b₁.blocks.size + 1)).Extends b₃)
    (hF : (b₃.leave (.goto (b₁.blocks.size + 2)) (b₁.blocks.size + 2)).finish.Within F)
    (T : Temps)
    (hbody : ∀ T, Follows m n (stand (forkElse b₁ x) F T s K) (body s) (Arrives F K b₂))
    (hother : ∀ T, Follows m n
      (stand (b₂.leave (.goto (b₁.blocks.size + 2)) (b₁.blocks.size + 1)) F T s K) (other s)
      (Arrives F K b₃)) :
    Follows m n (stand b F T s K)
      (do if ← Execution.test (σ.view Binding.site) s e then body s else other s)
      (Arrives F K (b₃.leave (.goto (b₁.blocks.size + 2)) (b₁.blocks.size + 2))) := by
  have hb₁ := hc.straight.opened hb
  have hfork := (forkElse_extends hb₁ x).1
  obtain ⟨hwaits₂, -, -⟩ := branchElse_enters hb₁ h₂
  have hwaits₃ := (branchElse_extends hb₁ h₂ h₃).1
  have hF₃ : b₃.finish.Within F := (within_leave h₃.opened _ _).trans hF
  have hF₂ := h₃.within.trans hF₃
  have hF₁ : (forkElse b₁ x).finish.Within F :=
    h₂.within.trans ((within_leave h₂.opened _ _).trans hF₂)
  refine (hc.follows hb (hfork.within.trans hF₁) T).bind fun f c hf => ?_
  obtain ⟨T₁, rfl, -, hx⟩ := hf
  have hstep := forkElse_step (m := m) (s := s) (K := K) hb₁ hF₁ hx
  have hend : ∀ T s, stand (b₃.leave (.goto (b₁.blocks.size + 2)) (b₁.blocks.size + 2)) F T s K =
      ⟨⟨F, b₁.blocks.size + 2, 0, T⟩, s, K⟩ := fun T s => stand_leave hwaits₃ _
  cases f with
  | true =>
    have hstand : stand (forkElse b₁ x) F T₁ s K = ⟨⟨F, b₁.blocks.size, 0, T₁⟩, s, K⟩ :=
      stand_leave (three_waits hb₁).1 _
    rw [if_pos rfl, ← hstand] at hstep
    refine .of_steps (.one hstep) ((hbody T₁).after fun s₂ c hc => ?_)
    obtain ⟨hs₂, T₂, rfl⟩ := hc
    exact ⟨_, .one (goto_step h₂.opened hF₂), hs₂, T₂, (hend T₂ s₂).symm⟩
  | false =>
    have hstand := stand_leave (F := F) (T := T₁) (s := s) (K := K) hwaits₂
      (.goto (b₁.blocks.size + 2))
    rw [if_neg (by simp), ← hstand] at hstep
    refine .of_steps (.one hstep) ((hother T₁).after fun s₂ c hc => ?_)
    obtain ⟨hs₂, T₂, rfl⟩ := hc
    exact ⟨_, .one (goto_step h₃.opened hF), hs₂, T₂, (hend T₂ s₂).symm⟩

theorem rounds_follow {σ : Scopes} {e : Condition} {b₁ b₂ : Builder}
    {body : Store → Except Halt Store} (hc : Compares σ (enterLoop b) e b₁ x) (hb : b.Open)
    (h₂ : (b₁.leave (.branch x (b.blocks.size + 1) (b.blocks.size + 2))
      (b.blocks.size + 1)).Extends b₂)
    (hF : (b₂.leave (.goto b.blocks.size) (b.blocks.size + 2)).finish.Within F)
    (hbody : ∀ s T, Shaped F s → Follows m n
      (stand (b₁.leave (.branch x (b.blocks.size + 1) (b.blocks.size + 2)) (b.blocks.size + 1))
        F T s K) (body s) (Arrives F K b₂))
    (r : Nat) (hr : r ≤ n) (s : Store) (hs : Shaped F s) (T : Temps) :
    Follows m r (stand (enterLoop b) F T s K)
      (rounds (Execution.test (σ.view Binding.site) · e) body r s)
      (Arrives F K (b₂.leave (.goto b.blocks.size) (b.blocks.size + 2))) := by
  obtain ⟨hwaits₁, -, -⟩ := loop_enters hb hc.straight x
  have hwaits₂ := (loop_extends hb hc.straight h₂).1
  have hopen := (enterLoop_extends hb).1.opened
  have hb₁ := hc.straight.opened hopen
  have hF₂ : b₂.finish.Within F := (within_leave h₂.opened _ _).trans hF
  have hF₁ := h₂.within.trans hF₂
  induction r generalizing s T with
  | zero => exact .zero
  | succ r ih =>
    have hF₀ : b₁.finish.Within F := (within_leave hb₁ _ _).trans hF₁
    refine (hc.follows hopen hF₀ T).bind fun f c hf => ?_
    obtain ⟨T₁, rfl, -, hx⟩ := hf
    have hstep := branch_step (m := m) (s := s) (K := K) hb₁ hF₁ hx
    cases f with
    | true =>
      rw [if_pos rfl, ← stand_leave hwaits₁ (.branch x (b.blocks.size + 1) (b.blocks.size + 2))]
        at hstep
      refine .of_steps (.one hstep) (((hbody s T₁ hs).weaken hr).bind fun s₂ c hc => ?_)
      obtain ⟨hs₂, T₂, rfl⟩ := hc
      have hback := goto_step (m := m) (T := T₂) (s := s₂) (K := K) h₂.opened hF
      rw [← stand_leave (three_waits hb).1 (.goto b.blocks.size)] at hback
      exact .of_step hback (ih (by omega) s₂ hs₂ T₂)
    | false =>
      rw [if_neg (by simp)] at hstep
      exact ⟨_, .one hstep, hs, T₁, (stand_leave hwaits₂ _).symm⟩

theorem call_follows {functions : List (String × FunctionRecord)}
    {call : String → Memory → Except Halt Memory} {name : String} {f : FunctionRecord}
    (hcall : Answers m n call functions) (hf : functions.lookup name = some f) (hb : b.Open)
    (hF : (b.push (.call f.id)).finish.Within F) (hs : Shaped F s) (T : Temps) :
    Follows m n (stand b F T s K) (do
      let globals ← call name s.globals
      return { s with globals }) (Arrives F K (b.push (.call f.id))) := by
  refine (hcall _ (mem_of_lookup hf) (stand b F T s K) (step_push hb hF)).bind
    fun globals c hc => .pure ?_
  refine ⟨hs, T, ?_⟩
  rw [hc, stand_push hb]
  rfl

theorem Pictures.enter {E : Layout} (h : Pictures E σ b) (kind : ScopeKind) :
    Pictures ⟨[] :: E.names, E.locals⟩ (σ.enter kind) b := by
  refine ⟨?_, h.locals⟩
  rw [h.names]
  rfl

theorem addLocal_getElem? {name : String} {ty : Ty}
    (h : (b.addLocal name ty).2.finish.Within F) :
    F.locals[b.locals.size]? = some ⟨name, ty⟩ := by
  apply getElem?_extend h.locals
  simp [Builder.addLocal, Builder.finish]

/-- The machine does in `F`, from `b` to `b'`, what a part of a program does where the names are
those of `σ`. -/
def Does (m : Module) (n : Nat) (F : Function) (K : List (Point × Memory)) (σ : Scopes)
    (b : Builder) (part : Layout → Store → Except Halt Store) (b' : Builder) : Prop :=
  b.Open → b'.finish.Within F → ∀ E, Pictures E σ b → ∀ s, Shaped F s → ∀ T,
    Follows m n (stand b F T s K) (part E s) (Arrives F K b')

mutual

theorem Generates.follows {functions : List (String × FunctionRecord)}
    {call : String → Memory → Except Halt Memory} (hcall : Answers m n call functions) :
    {σ σ' : Scopes} → {b b' : Builder} → {st : Stmt} → Generates functions σ b st σ' b' →
    Does m n F K σ b (exec call n · st) b'
  | _, _, _, _, .declare _, h@(.declare _ hi) => by
    intro hb hF E hE s hs T
    have hnames := (h.layout E _ hE).names
    rw [Layout.after] at hnames
    simp only [exec, hnames, hE.locals]
    exact hi.follows hb hF hs (addLocal_getElem? ((hi.straight.within hb).trans hF)) T
  | _, _, _, _, _, .assign hv hp hc => by
    intro hb hF E hE s hs T
    simp only [exec, hE.names]
    exact assign_follows hv hp hc hb hF hs T
  | _, _, _, _, _, .call hf => by
    intro hb hF E hE s hs T
    simp only [exec]
    exact call_follows hcall hf hb hF hs T
  | _, _, _, _, _, .block hbody => by
    intro hb hF E hE s hs T
    simp only [exec]
    exact hbody.follows hcall hb hF _ (hE.enter .block) s hs T
  | _, _, _, _, _, .branch (x := x) hc hbody => by
    intro hb hF E hE s hs T
    have hb₁ := hc.straight.opened hb
    have hopen := (fork_extends hb₁ x).1.opened
    have h₂ := hbody.extends hopen
    have hE₁ := hE.straight hc.straight
    simp only [exec, hE.names]
    exact branch_follows hc hb h₂ hF hs T fun T =>
      hbody.follows hcall hopen ((within_leave h₂.opened _ _).trans hF) E ⟨hE₁.names, hE₁.locals⟩
        s hs T
  | _, _, _, _, _, .branchElse (x := x) hc hbody hother => by
    intro hb hF E hE s hs T
    have hb₁ := hc.straight.opened hb
    have hopen := (forkElse_extends hb₁ x).1.opened
    have h₂ := hbody.extends hopen
    have hopen' := (branchElse_enters hb₁ h₂).2.2.opened
    have h₃ := hother.extends hopen'
    have hF₃ := (within_leave h₃.opened _ _).trans hF
    have hF₂ := (within_leave h₂.opened _ _).trans (h₃.within.trans hF₃)
    have hE₁ := hE.straight hc.straight
    have hE₂ := hbody.layout E _ ⟨hE₁.names, hE₁.locals⟩
    simp only [exec, hE.names]
    exact branchElse_follows hc hb h₂ h₃ hF T
      (fun T => hbody.follows hcall hopen hF₂ E ⟨hE₁.names, hE₁.locals⟩ s hs T)
      fun T => hother.follows hcall hopen' hF₃ _ ⟨hE₂.names, hE₂.locals⟩ s hs T
  | σ, _, b, _, _, .loop (x := x) hc hbody => by
    intro hb hF E hE s hs T
    have hopen := (loop_enters hb hc.straight x).2.2.opened
    have h₂ := hbody.extends hopen
    have hF₂ := (within_leave h₂.opened _ _).trans hF
    have hloop : Pictures E σ (enterLoop b) := ⟨hE.names, hE.locals⟩
    have hE₁ := hloop.straight hc.straight
    have hb₁ := hc.straight.opened (enterLoop_extends hb).1.opened
    have hF₁ := (within_leave hb₁ _ _).trans (h₂.within.trans hF₂)
    have hF₀ := (hc.straight.within (enterLoop_extends hb).1.opened).trans hF₁
    simp only [exec, hE.names]
    refine .of_steps (.one (enterLoop_step hb hF₀)) (rounds_follow hc hb h₂ hF ?_ n
      (Nat.le_refl n) s hs T)
    intro s T hs
    exact hbody.follows hcall hopen hF₂ E ⟨hE₁.names, hE₁.locals⟩ s hs T
  | _, _, _, _, _, .empty => by
    intro hb hF E hE s hs T
    simp only [exec]
    exact .pure ⟨hs, T, rfl⟩

theorem GeneratesAll.follows {functions : List (String × FunctionRecord)}
    {call : String → Memory → Except Halt Memory} (hcall : Answers m n call functions) :
    {σ σ' : Scopes} → {b b' : Builder} → {body : List Stmt} →
    GeneratesAll functions σ b body σ' b' → Does m n F K σ b (execAll call n · body) b'
  | _, _, _, _, _, .nil => by
    intro hb hF E hE s hs T
    simp only [execAll]
    exact .pure ⟨hs, T, rfl⟩
  | _, _, _, _, _, .cons hst hrest => by
    intro hb hF E hE s hs T
    have h := hst.extends hb
    have hF₁ := (hrest.extends h.opened).within.trans hF
    simp only [execAll]
    refine (hst.follows hcall hb hF₁ E hE s hs T).bind fun s₁ c hc => ?_
    obtain ⟨hs₁, T₁, rfl⟩ := hc
    exact hrest.follows hcall h.opened hF _ (hst.layout E _ hE) s₁ hs₁ T₁

end

end C1Lang.Lower
