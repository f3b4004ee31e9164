import C1Lang.Proofs.Lower.Statement

/-!
# Lowering of programs

Declarations are lowered one after the other. Between two of them the tables agree with the module
(`Settled`), which keeps every rule of the verifier. A declaration that stops has left no trace
but diagnostics. So lowering ends without a fault, whatever the program holds, and reports errors
exactly when the program is not correct (`lower_judged`).
-/

namespace C1Lang

namespace Lower

open IR

def Warned (s s' : State) : Prop :=
  ∃ ds, s' = { s with diagnostics := s.diagnostics ++ ds } ∧ ∀ d ∈ ds, d.isError = false

theorem Warned.refl (s : State) : Warned s s := ⟨[], by simp, by simp⟩

theorem Warned.trans {s s' s'' : State} (h : Warned s s') (k : Warned s' s'') :
    Warned s s'' := by
  obtain ⟨ds, rfl, hd⟩ := h
  obtain ⟨es, rfl, he⟩ := k
  refine ⟨ds ++ es, by simp, fun d hmem => ?_⟩
  rcases List.mem_append.mp hmem with hmem | hmem
  · exact hd d hmem
  · exact he d hmem

theorem Warned.errors {s s' : State} (h : Warned s s') : s'.errors = s.errors := by
  obtain ⟨ds, rfl, hd⟩ := h
  have : ds.countP Diagnostic.isError = 0 := by
    refine List.countP_eq_zero.mpr fun d hmem => ?_
    simp [hd d hmem]
  simp [State.errors, this]

theorem constantInitializer_ends (ctx : Context) (kind : Kind) (e : Expr) (s : State) :
    Ends (constantInitializer ctx kind e) s
      (fun c s' => c.scalar = kind.scalar ∧ (∃ v, Folds e v) ∧ Warned s s')
      (fun s' => (¬ ∃ v, Folds e v) ∧ Warned s s') := by
  refine (fold_ends ctx e s).bind ?_ ?_
  · intro v s' hdone
    obtain ⟨hv, rfl⟩ := hdone
    cases v with
    | int n => cases kind <;> exact .pure ⟨rfl, ⟨_, hv⟩, .refl s'⟩
    | float x =>
      cases kind with
      | float => exact .pure ⟨rfl, ⟨_, hv⟩, .refl s'⟩
      | int =>
        simp only [Value.convert]
        cases x.toInt32.toFloat != x with
        | false => exact .pure ⟨rfl, ⟨_, hv⟩, .refl s'⟩
        | true => exact .of_eq rfl ⟨rfl, ⟨_, hv⟩, [_], rfl, by simp [Diagnostic.isError,
            Problem.severity]⟩
  · intro s' hdone
    obtain ⟨hn, rfl⟩ := hdone
    exact ⟨fun h => h.elim hn, .refl s'⟩

theorem constantInitializers_ends (ctx : Context) (kind : Kind) (es : List Expr) (s : State) :
    Ends (constantInitializers ctx kind es) s
      (fun cs s' => cs.length = es.length ∧ (∀ c ∈ cs, c.scalar = kind.scalar) ∧
        (∀ e ∈ es, ∃ v, Folds e v) ∧ Warned s s')
      (fun s' => (¬ ∀ e ∈ es, ∃ v, Folds e v) ∧ Warned s s') := by
  induction es generalizing s with
  | nil => exact .pure ⟨rfl, by simp, by simp, .refl s⟩
  | cons e rest ih =>
    unfold constantInitializers
    refine (constantInitializer_ends ctx kind e s).bind ?_ ?_
    · intro c s₁ hdone
      obtain ⟨hc, he, hw₁⟩ := hdone
      refine (ih s₁).bind ?_ ?_
      · intro cs s₂ hdone
        obtain ⟨hlen, hcs, hes, hw₂⟩ := hdone
        refine .pure ⟨by simp [hlen], ?_, ?_, hw₁.trans hw₂⟩
        · exact List.forall_mem_cons.mpr ⟨hc, hcs⟩
        · exact List.forall_mem_cons.mpr ⟨he, hes⟩
      · intro s₂ hdone
        obtain ⟨hn, hw₂⟩ := hdone
        exact ⟨fun h => hn (List.forall_mem_cons.mp h).2, hw₁.trans hw₂⟩
    · intro s₁ hdone
      obtain ⟨hn, hw₁⟩ := hdone
      exact ⟨fun h => hn (List.forall_mem_cons.mp h).1, hw₁⟩

def State.withGlobal (s : State) (v : Variable) (g : Global) : State :=
  { s with
    module := (s.module.addGlobal g).2
    scopes := s.scopes.declare v.name (v.binding (.global s.module.globals.size)) }

theorem addGlobal_eq {s : State} {v : Variable} (h : s.scopes.lookupCurrent v.name = none)
    (ty : Ty) (init : Option Init) :
    addGlobal v ty init s = .ok () (s.withGlobal v ⟨v.name, ty, v.constant, init⟩) := by
  have hs : ({ s with module := (s.module.addGlobal ⟨v.name, ty, v.constant, init⟩).2 } :
      State).scopes.lookupCurrent v.name = none := h
  exact bind_eq hs (.global s.module.globals.size)

theorem Warned.lookupCurrent {s s' : State} (h : Warned s s') {name : String}
    (hn : s.scopes.lookupCurrent name = none) : s'.scopes.lookupCurrent name = none := by
  obtain ⟨ds, rfl, -⟩ := h
  exact hn

def Globalizes (v : Variable) (s s' : State) : Prop :=
  v.Constant ∧ ∃ s₁ g, Warned s s₁ ∧ Describes v g ∧ s' = s₁.withGlobal v g

theorem globalScalar_ends {s : State} {v : Variable} (ctx : Context)
    (hn : s.scopes.lookupCurrent v.name = none) (hv : v.extent = none) :
    Ends (globalScalar ctx v) s (fun _ => Globalizes v s)
      (fun s' => ¬ v.Constant ∧ Warned s s') := by
  have hsized : v.Sized := by simp [Variable.Sized, hv]
  have harr : ∀ {n}, v.isArray = true → ∃ k, v.kind.ty = .array n k := by
    simp [Variable.isArray, hv]
  unfold globalScalar
  cases hi : v.initializers with
  | nil =>
    refine .of_eq (addGlobal_eq hn _ _) ⟨⟨hsized, ?_⟩, s, _, .refl s, ?_, rfl⟩
    · simp [Variable.values, hv, hi]
    · exact ⟨rfl, rfl, fun _ => rfl, harr⟩
  | cons e rest =>
    have hvalues : v.values = [e] := by simp [Variable.values, hv, hi]
    refine (constantInitializer_ends ctx v.kind e s).bind ?_ ?_
    · intro c s₁ hdone
      obtain ⟨hc, he, hw⟩ := hdone
      refine .of_eq (addGlobal_eq (hw.lookupCurrent hn) _ _) ⟨⟨hsized, ?_⟩, s₁, _, hw, ?_, rfl⟩
      · rw [hvalues]
        exact List.forall_mem_singleton.mpr he
      · exact ⟨rfl, by simp [Global.wellFormed, Init.fits, Kind.ty, hc], fun _ => rfl, harr⟩
    · intro s' hdone
      obtain ⟨hn, hw⟩ := hdone
      exact ⟨fun hc => hn (hc.values e (by simp [hvalues])), hw⟩

theorem zero_scalar (s : Scalar) : (Const.zero s).scalar = s := by cases s <;> rfl

theorem globalArray_ends {s : State} {v : Variable} {extent : Extent} {n : Nat} (ctx : Context)
    (hn : s.scopes.lookupCurrent v.name = none) (hv : v.extent = some extent)
    (hs : Spans v extent.length n) :
    Ends (globalArray ctx v n) s (fun _ => Globalizes v s)
      (fun s' => ¬ v.Constant ∧ Warned s s') := by
  have hvalues : v.values = v.initializers := by simp [Variable.values, hv]
  refine (constantInitializers_ends ctx v.kind v.initializers s).bind ?_ ?_
  · intro cs s₁ hdone
    obtain ⟨hlen, hcs, hes, hw⟩ := hdone
    refine .of_eq (addGlobal_eq (hw.lookupCurrent hn) _ _) ⟨⟨?_, ?_⟩, s₁, _, hw, ?_, rfl⟩
    · intro extent' he
      rw [hv] at he
      cases he
      exact ⟨n, hs⟩
    · rwa [hvalues]
    · refine ⟨rfl, ?_, by simp [Variable.isArray, hv], fun _ => ⟨n, rfl⟩⟩
      have hcover := hs.covers
      have hsize : cs.length + (n - cs.length) = n := by omega
      simpa [Global.wellFormed, Init.fits, hsize, zero_scalar] using hcs
  · intro s' hdone
    obtain ⟨hn, hw⟩ := hdone
    exact ⟨fun hc => hn (hvalues ▸ hc.values), hw⟩

theorem globalVariable_ends {s : State} {v : Variable}
    (hn : s.scopes.lookupCurrent v.name = none) (hf : s.functions.lookup v.name = none) :
    Ends (variableDeclaration .atModule v) s (fun _ => Globalizes v s)
      (fun s' => ¬ v.Constant ∧ Warned s s') := by
  unfold variableDeclaration
  apply Ends.get_bind
  rw [hn, hf]
  cases hv : v.extent with
  | none => exact globalScalar_ends .atModule hn hv
  | some extent =>
    refine (arrayLength_ends .atModule v extent.length s).bind ?_ ?_
    · intro n s' hdone
      obtain ⟨hs, rfl⟩ := hdone
      exact globalArray_ends .atModule hn hv hs
    · intro s' hdone
      obtain ⟨hs, rfl⟩ := hdone
      refine ⟨fun hc => ?_, .refl s'⟩
      obtain ⟨n, hn⟩ := hc.sized extent hv
      exact hs n hn

def State.opening (s : State) (f : FunctionDef) : State :=
  { s with
    module := (s.module.declare f.name).2
    functions := functionEntry s.module f :: s.functions
    builder := some (Builder.start f.name)
    scopes := s.scopes.enter .function }

def State.closing (s : State) (id : Nat) (b : Builder) : State :=
  { s with
    module := s.module.define id (b.leave .ret b.current).finish
    builder := none
    scopes := s.scopes.exit }

theorem finishFunction_eq {s : State} {b : Builder} (hs : s.builder = some b) (hb : b.Open) :
    finishFunction s = .ok (b.leave .ret b.current).finish { s with builder := none } := by
  obtain ⟨c, hc, ht⟩ := id hb
  have hterm : b.terminated? = some false := by simp [Builder.terminated?, hc, ht]
  unfold finishFunction
  rw [get_bind]
  simp only [hs, hterm]
  exact bind_ok (terminate_eq hs hb .ret)

theorem opening_ready {s : State} {f : FunctionDef} (hfits : ∀ g, s.scopes.Fits s.module g)
    (hc : ∀ x ∈ s.functions, x.2.id < s.module.functions.size) :
    Ready (s.opening f) (Builder.start f.name) := by
  refine ⟨rfl, Builder.start_open _, ?_, ?_⟩
  · exact ((hfits _).mono (Module.within_declare _ _) (.refl _)).enter _
  · have hsize : (s.opening f).module.functions.size = s.module.functions.size + 1 := by
      simp [State.opening, Module.declare]
    rw [hsize]
    refine List.forall_mem_cons.mpr ⟨Nat.lt_succ_self _, fun x hx => ?_⟩
    exact Nat.lt_succ_of_lt (hc x hx)

theorem function_ends {s : State} {f : FunctionDef} {done : Unit → State → Prop}
    {stopped : State → Prop} (hn : s.functions.lookup f.name = none)
    (hg : s.scopes.lookupGlobal f.name = none)
    (h : Ends (stmts .inFunction f.body) (s.opening f)
      (fun _ s' => ∃ b, Proceeds (s.opening f) (Builder.start f.name) [] s' b ∧
        done () (s'.closing s.module.functions.size b)) stopped) :
    Ends (function f) s done stopped := by
  unfold function
  apply Ends.get_bind
  rw [hn, hg]
  have hdecl : declareFunction f s = .ok s.module.functions.size { s with
      module := (s.module.declare f.name).2
      functions := (f.name, ⟨s.module.functions.size, f.nameSpan⟩) :: s.functions } := rfl
  refine .bind_eq hdecl (.bind_eq rfl (.bind_eq rfl (h.bind ?_ (fun _ h => h))))
  intro _ s' hend
  obtain ⟨b, hp, hdone⟩ := hend
  refine .bind_eq rfl ?_
  have hlt : s.module.functions.size < s'.module.functions.size := by
    simp [hp.module, State.opening, Module.declare]
  have hfinish := finishFunction_eq (s := { s' with scopes := s'.scopes.exit })
    hp.ready.builder hp.ready.opened
  have hdef : defineFunction s.module.functions.size (b.leave .ret b.current).finish
      { s' with scopes := s'.scopes.exit, builder := none } =
      .ok () (s'.closing s.module.functions.size b) := by
    unfold defineFunction
    rw [get_bind]
    simp only [Module.define?, if_pos hlt]
    rfl
  exact .bind_eq hfinish (.of_eq hdef hdone)

/-- Between two declarations the tables agree with the module, which keeps the rules. -/
structure Settled (s : State) : Prop where
  inner : s.scopes.inner = []
  sound : s.module.Sound
  functions : s.module.functionNames = (s.functions.map Prod.fst).reverse
  globals : s.module.globalNames = (s.scopes.global.bindings.map Prod.fst).reverse
  callees : ∀ x ∈ s.functions, x.2.id < s.module.functions.size
  fits : ∀ f, s.scopes.Fits s.module f

theorem settled_start (name : String) : Settled { module := { name } } :=
  ⟨rfl, Module.sound_empty name, rfl, rfl, fun x hx => absurd hx List.not_mem_nil,
    fun f scope hs x hx => by
      obtain rfl := List.mem_singleton.mp hs
      cases hx⟩

theorem Settled.record {s : State} (h : Settled s) (d : Diagnostic) : Settled (s.record d) :=
  ⟨h.inner, h.sound, h.functions, h.globals, h.callees, h.fits⟩

theorem Warned.settled {s s' : State} (h : Warned s s') (hs : Settled s) : Settled s' := by
  obtain ⟨ds, rfl, -⟩ := h
  exact ⟨hs.inner, hs.sound, hs.functions, hs.globals, hs.callees, hs.fits⟩

theorem Settled.lookupCurrent {s : State} (h : Settled s) (name : String) :
    s.scopes.lookupCurrent name = s.scopes.lookupGlobal name := by
  simp [Scopes.lookupCurrent, Scopes.current, h.inner, Scopes.lookupGlobal]

theorem Settled.fresh {s : State} (h : Settled s) {name : String}
    (hf : s.functions.lookup name = none) (hg : s.scopes.lookupGlobal name = none) :
    name ∉ s.module.globalNames ∧ name ∉ s.module.functionNames := by
  rw [h.functions, h.globals]
  exact ⟨fun hm => lookup_eq_none.mp hg (List.mem_reverse.mp hm),
    fun hm => lookup_eq_none.mp hf (List.mem_reverse.mp hm)⟩

theorem Settled.withGlobal {s : State} (h : Settled s) {v : Variable} {g : Global}
    (hf : s.functions.lookup v.name = none) (hn : s.scopes.lookupGlobal v.name = none)
    (hg : Describes v g) : Settled (s.withGlobal v g) := by
  obtain ⟨hfresh, hfresh'⟩ := h.fresh hf hn
  have hscopes : (s.withGlobal v g).scopes = { s.scopes with global := { s.scopes.global with
      bindings := (v.name, v.binding (.global s.module.globals.size)) ::
        s.scopes.global.bindings } } := by
    simp [State.withGlobal, Scopes.declare, h.inner]
  have htype : ∀ f, (s.module.addGlobal g).2.operandType? f (.global s.module.globals.size) =
      some (.pointer g.ty) := by
    intro f
    simp [Module.operandType?, Module.addGlobal]
  refine ⟨?_, ?_, h.functions, ?_, h.callees, fun f => ?_⟩
  · rw [hscopes]
    exact h.inner
  · exact h.sound.addGlobal hg.wellFormed (hg.name ▸ hfresh) (hg.name ▸ hfresh')
  · have hnames : (s.withGlobal v g).module.globalNames = s.module.globalNames ++ [g.name] := by
      simp [State.withGlobal, Module.globalNames, Module.addGlobal]
    rw [hnames, hscopes, h.globals, hg.name]
    simp
  · refine ((h.fits f).mono (Module.within_addGlobal _ g) (.refl f)).declare _ ⟨?_, ?_⟩
    · intro hv
      exact hg.scalar hv ▸ htype f
    · intro hv
      obtain ⟨n, hn⟩ := hg.array hv
      exact ⟨n, hn ▸ htype f⟩

theorem Settled.closing {s s' : State} {f : FunctionDef} {b : Builder} (h : Settled s)
    (hf : s.functions.lookup f.name = none) (hn : s.scopes.lookupGlobal f.name = none)
    (hp : Proceeds (s.opening f) (Builder.start f.name) [] s' b) :
    Settled (s'.closing s.module.functions.size b) := by
  obtain ⟨hfresh, hfresh'⟩ := h.fresh hf hn
  have hmodule : s'.module = (s.module.declare f.name).2 := hp.module
  have hscopes : s'.scopes.exit = s.scopes := hp.outer
  have hget : (s.module.declare f.name).2.functions[s.module.functions.size]? =
      some { name := f.name } := by
    simp [Module.declare]
  have hname : (b.leave .ret b.current).finish.name = f.name := hp.built.name
  have hsound := (h.sound.declare hfresh hfresh').define hget hname hp.built.finish_sound
  have hclosed : (s'.closing s.module.functions.size b).module =
      (s.module.declare f.name).2.define s.module.functions.size
        (b.leave .ret b.current).finish := by
    simp only [State.closing, hmodule]
  refine ⟨?_, hclosed ▸ hsound, ?_, ?_, ?_, fun g => ?_⟩
  · show s'.scopes.exit.inner = []
    rw [hscopes]
    exact h.inner
  · rw [hclosed, Module.functionNames_define hget hname]
    show _ = (s'.functions.map Prod.fst).reverse
    have hnames : (s.module.declare f.name).2.functionNames =
        s.module.functionNames ++ [f.name] := by
      simp [Module.functionNames, Module.declare]
    rw [hp.functions, hnames, h.functions]
    simp [State.opening, functionEntry]
  · show s'.module.globalNames = (s'.scopes.exit.global.bindings.map Prod.fst).reverse
    rw [hscopes, hmodule]
    exact h.globals
  · intro x hx
    have := hp.ready.callees x hx
    simpa [State.closing, Module.define] using this
  · show s'.scopes.exit.Fits _ _
    rw [hscopes, hclosed]
    exact (h.fits g).mono ((Module.within_declare _ _).trans (Module.within_define _ _ _)) (.refl g)

def Declares (d : Declaration) (s s' : State) : Prop :=
  Settled s' ∧ Judged s s' (Adds s.functions s.scopes s.module d s'.functions s'.scopes s'.module)
    (d.Correct s.known (s.scopes.global.view Binding.usage))

def Declined (d : Declaration) (s s' : State) : Prop :=
  Settled s' ∧ s.errors ≤ s'.errors ∧
    ¬ d.Correct s.known (s.scopes.global.view Binding.usage)

theorem mem_view_of_lookup {s : Scope} {name : String} {x : Binding}
    (h : s.find? name = some x) : name ∈ (s.view Binding.usage).map Prod.fst := by
  unfold Scope.view
  rw [List.map_map]
  exact List.mem_map.mpr ⟨_, mem_of_lookup h, rfl⟩

theorem mem_known {s : State} {name : String} {f : FunctionRecord}
    (h : s.functions.lookup name = some f) : name ∈ s.known :=
  List.mem_map.mpr ⟨_, mem_of_lookup h, rfl⟩

theorem functionDefinition_ends {s : State} (f : FunctionDef) (h : Settled s) :
    Ends (declaration (.function f)) s (fun _ => Declares (.function f) s)
      (Declined (.function f) s) := by
  cases hf : s.functions.lookup f.name with
  | some previous =>
    refine Ends.get_bind ?_
    rw [hf]
    exact .report rfl ⟨h, Nat.le_refl _, fun hc => hc.1 (mem_known hf)⟩
  | none =>
    cases hg : s.scopes.lookupGlobal f.name with
    | some global =>
      refine Ends.get_bind ?_
      rw [hf, hg]
      exact .report rfl ⟨h, Nat.le_refl _, fun hc => hc.2.1 (mem_view_of_lookup hg)⟩
    | none =>
      have hr := opening_ready (f := f) h.fits h.callees
      refine function_ends hf hg ((stmts_ends .inFunction rfl f.body _ _ hr
        (List.cons_ne_nil _ _) (Declined (.function f) s)).mono ?_ (fun _ h => h))
      intro _ s' hdone
      obtain ⟨b, hp, -, hj⟩ := hdone
      refine ⟨b, hp, h.closing hf hg hp, ?_⟩
      have hout : s'.scopes.exit = s.scopes := hp.outer
      have hmodule : s'.module = (s.module.declare f.name).2 := hp.module
      have hstatic : (s.opening f).scopes.static =
          [[], s.scopes.global.view Binding.usage] := by
        simp [State.opening, Scopes.static, Scopes.view, Scopes.all, Scopes.enter, h.inner,
          Scope.view]
      rw [hstatic] at hj
      obtain ⟨he, hcode⟩ | ⟨he, hn⟩ := hj
      · have hadds := Adds.function (m := s.module) hf hg hcode
        refine .inl ⟨he, ?_⟩
        simp only [State.closing, hp.functions, hout, hmodule]
        exact hadds
      · exact .inr ⟨he, fun hc => hn hc.2.2⟩

theorem globalDeclaration_ends {s : State} (v : Variable) (h : Settled s) :
    Ends (declaration (.global v)) s (fun _ => Declares (.global v) s)
      (Declined (.global v) s) := by
  cases hn : s.scopes.lookupCurrent v.name with
  | some previous =>
    refine Ends.get_bind ?_
    rw [hn]
    rw [h.lookupCurrent] at hn
    exact .report rfl ⟨h, Nat.le_refl _, fun hc => hc.2.1 (mem_view_of_lookup hn)⟩
  | none =>
    cases hf : s.functions.lookup v.name with
    | some f =>
      refine Ends.get_bind ?_
      rw [hn, hf]
      exact .report rfl ⟨h, Nat.le_refl _, fun hc => hc.1 (mem_known hf)⟩
    | none =>
      refine (globalVariable_ends hn hf).mono ?_ ?_
      · intro _ s' hdone
        obtain ⟨hc, s₁, g, hw, hg, rfl⟩ := hdone
        rw [h.lookupCurrent] at hn
        have hs₁ := hw.settled h
        have he := hw.errors
        obtain ⟨ds, rfl, -⟩ := hw
        exact ⟨hs₁.withGlobal hf hn hg, .inl ⟨he, .global hf hn hc hg⟩⟩
      · intro s' hdone
        obtain ⟨hc, hw⟩ := hdone
        exact ⟨hw.settled h, Nat.le_of_eq hw.errors.symm, fun hcor => hc hcor.2.2⟩

theorem declaration_ends {s : State} (d : Declaration) (h : Settled s) :
    Ends (declaration d) s (fun _ => Declares d s) (Declined d s) := by
  cases d with
  | function f => exact functionDefinition_ends f h
  | global v => exact globalDeclaration_ends v h

theorem Judged.le {s s' : State} {code correct : Prop} (h : Judged s s' code correct) :
    s.errors ≤ s'.errors := by
  rcases h with ⟨he, -⟩ | ⟨hlt, -⟩
  · exact Nat.le_of_eq he.symm
  · exact Nat.le_of_lt hlt

theorem declarations_ends (p : Program) {s : State} (h : Settled s) (stopped : State → Prop) :
    Ends (declarations p) s (fun _ s' => Settled s' ∧
      Judged s s' (Assembles s.functions s.scopes s.module p s'.module)
        (Declaration.AllCorrect s.known (s.scopes.global.view Binding.usage) p)) stopped := by
  induction p generalizing s with
  | nil => exact .pure ⟨h, .inl ⟨rfl, .nil⟩⟩
  | cons d rest ih =>
    refine ((declaration_ends d h).recording ?_).bind ?_ (fun _ h => h)
    · intro s₁ e he hdone
      obtain ⟨hs₁, hle, hn⟩ := hdone
      refine ⟨hs₁.record e, .inr ⟨?_, hn⟩⟩
      rw [State.errors_record _ he]
      exact Nat.lt_succ_of_le hle
    · intro _ s₁ hdone
      obtain ⟨hs₁, hj₁⟩ := hdone
      refine (ih hs₁).mono ?_ (fun _ h => h)
      intro _ s₂ hdone
      obtain ⟨hs₂, hj₂⟩ := hdone
      refine ⟨hs₂, hj₁.both hj₁.le hj₂.le (fun _ => hj₂) .cons And.left fun hadds hc => ?_⟩
      obtain ⟨-, hknown, hglobals, -⟩ := hadds.correct h.inner
      unfold State.known
      rw [hknown, hglobals]
      exact hc.2

end Lower

theorem errors_eq_zero_iff (ds : List Diagnostic) :
    ds.countP Diagnostic.isError = 0 ↔ Diagnostic.valid ds = true := by
  simp [Diagnostic.valid, List.countP_eq_zero]

/-- Whatever a program holds, lowering it ends without a fault, in a module that keeps the rules.
It is the module of the program, or there was an error, and the program is not correct. -/
theorem lower_judged (name : String) (p : Program) :
    ∃ l, lower name p = .ok l ∧ l.module.Sound ∧
      (l.valid = true ∧ Lower.Assembles [] {} { name } p l.module ∨
        l.valid = false ∧ ¬ p.Correct) := by
  have h := Lower.declarations_ends p (Lower.settled_start name) (fun _ => False)
  unfold Lower.Ends at h
  unfold lower
  split at h
  · next s heq =>
    obtain ⟨hs, hj⟩ := h
    refine ⟨_, by rw [heq], hs.sound, ?_⟩
    obtain ⟨he, hasm⟩ | ⟨hlt, hn⟩ := hj
    · exact .inl ⟨(errors_eq_zero_iff s.diagnostics).mp he, hasm⟩
    · refine .inr ⟨?_, hn⟩
      rw [Lowered.valid, ← Bool.not_eq_true, ← errors_eq_zero_iff]
      exact Nat.ne_of_gt (Nat.lt_of_le_of_lt (Nat.zero_le _) hlt)
  · exact h.2.elim
  · exact h.elim

/-- Lowering reports no error exactly for the programs that are statically correct. -/
theorem lower_valid_iff (name : String) (p : Program) :
    ∃ l, lower name p = .ok l ∧ (l.valid = true ↔ p.Correct) := by
  obtain ⟨l, hl, -, ⟨hv, hasm⟩ | ⟨hv, hn⟩⟩ := lower_judged name p
  · exact ⟨l, hl, iff_of_true hv (hasm.correct rfl)⟩
  · exact ⟨l, hl, iff_of_false (by simp [hv]) hn⟩

end C1Lang
