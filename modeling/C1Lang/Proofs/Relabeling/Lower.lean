import C1Lang.Lower.Program
import C1Lang.Proofs.Relabeling.Basic
import C1Lang.Proofs.Sequencing

/-!
# Lowering under relabeling

Lowering tells names apart and nothing else, and it carries spans along without looking at them.
So the relabeled program is lowered to the renamed module, with the relabeled diagnostics
(`lower_relabeled`). It does not look at what was recorded before either, which is why the states
that are related here may differ in the diagnostics recorded `earlier`.
-/

namespace C1Lang

namespace IR

variable (ρ : String → String)

theorem Builder.modifyCurrent?_rename (b : Builder) (change : Block → Block) :
    (b.rename ρ).modifyCurrent? change = (b.modifyCurrent? change).map (·.rename ρ) := by
  have ht : (b.rename ρ).terminated? = b.terminated? := rfl
  unfold Builder.modifyCurrent?
  rw [ht]
  cases b.terminated? <;> rfl

theorem Builder.start_rename (name : String) :
    (Builder.start name).rename ρ = Builder.start (ρ name) := by
  simp [Builder.start, Builder.rename]

theorem Builder.addLocal_rename (b : Builder) (name : String) (ty : Ty) :
    (b.rename ρ).addLocal (ρ name) ty = Prod.map id (·.rename ρ) (b.addLocal name ty) := by
  simp [Builder.addLocal, Builder.rename, Local.rename]

theorem Module.addGlobal_rename (m : Module) (g : Global) :
    (m.rename ρ).addGlobal (g.rename ρ) = Prod.map id (·.rename ρ) (m.addGlobal g) := by
  simp [Module.addGlobal, Module.rename]

theorem Module.declare_rename (m : Module) (name : String) :
    (m.rename ρ).declare (ρ name) = Prod.map id (·.rename ρ) (m.declare name) := by
  simp [Module.declare, Module.rename, Function.rename]

theorem Module.define?_rename (m : Module) (id : Nat) (f : Function) :
    (m.rename ρ).define? id (f.rename ρ) = (m.define? id f).map (·.rename ρ) := by
  by_cases h : id < m.functions.size
  · simp [Module.define?, Module.rename, h]
  · simp [Module.define?, Module.rename, h]

end IR

theorem lookup_map_of_injective {α β : Type} {f : String → String} (hf : Function.Injective f)
    (g : α → β) (l : List (String × α)) (x : String) :
    (l.map (Prod.map f g)).lookup (f x) = (l.lookup x).map g := by
  induction l with
  | nil => rfl
  | cons entry rest ih =>
    obtain ⟨y, a⟩ := entry
    by_cases h : x = y
    · simp [h]
    · have hxy : (x == y) = false := by simpa using h
      have hf' : (f x == f y) = false := by simpa using fun heq => h (hf heq)
      simp only [List.map_cons, Prod.map, List.lookup_cons, hf', hxy]
      exact ih

namespace Relabeling

variable (T : Relabeling)

def binding (b : Binding) : Binding := { b with span := T.span b.span }

def scope (s : Scope) : Scope := { s with bindings := s.bindings.map (Prod.map T.name T.binding) }

def scopes (s : Scopes) : Scopes := ⟨s.inner.map T.scope, T.scope s.global⟩

def functionRecord (r : Lower.FunctionRecord) : Lower.FunctionRecord :=
  { r with span := T.span r.span }

def stop : Lower.Stop → Lower.Stop
  | .problem d => .problem (T.diagnostic d)
  | .fault f => .fault f

def state (earlier : List Diagnostic) (s : Lower.State) : Lower.State :=
  ⟨s.module.rename T.name, T.scopes s.scopes,
    s.functions.map (Prod.map T.name T.functionRecord), s.builder.map (·.rename T.name),
    earlier ++ s.diagnostics.map T.diagnostic⟩

theorem scope_find? (s : Scope) (x : String) :
    (T.scope s).find? (T.name x) = (s.find? x).map T.binding :=
  lookup_map_of_injective T.injective T.binding s.bindings x

theorem scopes_current (s : Scopes) : (T.scopes s).current = T.scope s.current := by
  obtain ⟨inner, global⟩ := s
  cases inner <;> rfl

theorem scopes_lookupCurrent (s : Scopes) (x : String) :
    (T.scopes s).lookupCurrent (T.name x) = (s.lookupCurrent x).map T.binding := by
  simp only [Scopes.lookupCurrent, scopes_current, scope_find?]

theorem scopes_lookupGlobal (s : Scopes) (x : String) :
    (T.scopes s).lookupGlobal (T.name x) = (s.lookupGlobal x).map T.binding :=
  T.scope_find? s.global x

theorem scopes_lookup (s : Scopes) (x : String) :
    (T.scopes s).lookup (T.name x) = (s.lookup x).map T.binding := by
  have hall : (T.scopes s).all = s.all.map T.scope := by simp [Scopes.all, scopes]
  simp only [Scopes.lookup, hall, List.findSome?_map, List.map_findSome?]
  congr 1
  funext scope
  exact T.scope_find? scope x

theorem scopes_declare? (s : Scopes) (x : String) (b : Binding) :
    (T.scopes s).declare? (T.name x) (T.binding b) = (s.declare? x b).map T.scopes := by
  unfold Scopes.declare?
  rw [scopes_lookupCurrent]
  cases s.lookupCurrent x with
  | some found => rfl
  | none =>
    obtain ⟨inner, global⟩ := s
    cases inner <;> rfl

theorem functions_lookup (fs : List (String × Lower.FunctionRecord)) (x : String) :
    (fs.map (Prod.map T.name T.functionRecord)).lookup (T.name x) =
      (fs.lookup x).map T.functionRecord :=
  lookup_map_of_injective T.injective T.functionRecord fs x

theorem same_state (earlier : List Diagnostic) (s : Lower.State) :
    same.state earlier s = { s with diagnostics := earlier ++ s.diagnostics } := by
  have hscope : same.scope = id := by
    funext x
    rw [scope, show Prod.map same.name same.binding = id from rfl, List.map_id]
    rfl
  have hscopes : same.scopes s.scopes = s.scopes := by simp [scopes, hscope]
  have hbuilder : s.builder.map (·.rename same.name) = s.builder := by
    cases s.builder with
    | none => rfl
    | some b => simp [IR.Builder.rename, IR.Local.rename]
  have hfunctions : s.functions.map (Prod.map same.name same.functionRecord) = s.functions := by
    rw [show Prod.map same.name same.functionRecord = id from rfl, List.map_id]
  have hdiagnostics : s.diagnostics.map same.diagnostic = s.diagnostics := by
    simp [funext same_diagnostic]
  have hmodule : s.module.rename same.name = s.module := s.module.rename_id
  simp only [state, hscopes, hbuilder, hfunctions, hdiagnostics, hmodule]

/-- Where `step` runs on a state, `step'` runs on the relabeled one and gives the image of the
result. -/
abbrev Lowers (earlier : List Diagnostic) {α β : Type} (g : α → β) (step : Lower α)
    (step' : Lower β) : Prop :=
  Mirrored T.stop (T.state earlier) g step step'

end Relabeling

namespace Lower

open Relabeling

variable {T : Relabeling} {earlier : List Diagnostic}

theorem report_lowers {α β : Type} {g : α → β} {p p' : Problem} (hp : p' = T.problem p)
    (span : Span) : T.Lowers earlier g (report p span) (report p' (T.span span)) := by
  subst hp
  exact .throw rfl

theorem fault_lowers {α β : Type} {g : α → β} (f : Fault) :
    T.Lowers earlier g (fault f) (fault f) := .throw rfl

theorem recording_lowers {α β : Type} {g : α → β} {step : Lower α} {step' : Lower β}
    (h : T.Lowers earlier g step step') (default : α) :
    T.Lowers earlier g (recording step default) (recording step' (g default)) := by
  intro s
  have hs := h s
  unfold Mirrors at hs ⊢
  unfold recording
  rw [hs]
  cases step s with
  | ok a s' => rfl
  | error stop s' =>
    cases stop with
    | fault f => rfl
    | problem d => simp [mapOutcome, Relabeling.stop, State.record, state]

section Primitives

theorem onBuilder_lowers {α : Type} {change change' : IR.Builder → α × IR.Builder}
    (h : ∀ b, change' (b.rename T.name) = Prod.map id (·.rename T.name) (change b)) :
    T.Lowers earlier id (onBuilder change) (onBuilder change') := by
  intro s
  obtain ⟨module, scopes, functions, builder, diagnostics⟩ := s
  cases builder with
  | none => rfl
  | some b =>
    show onBuilder change' _ = mapOutcome _ _ _ (onBuilder change _)
    simp only [onBuilder, state, Option.map_some, h]
    rfl

theorem onBlock_lowers {change change' : IR.Builder → Option IR.Builder}
    (h : ∀ b, change' (b.rename T.name) = (change b).map (·.rename T.name)) :
    T.Lowers earlier id (onBlock change) (onBlock change') := by
  intro s
  obtain ⟨module, scopes, functions, builder, diagnostics⟩ := s
  cases builder with
  | none => rfl
  | some b =>
    show onBlock change' _ = mapOutcome _ _ _ (onBlock change _)
    simp only [onBlock, state, Option.map_some, h]
    cases change b <;> rfl

theorem emit_lowers (i : IR.Instr) : T.Lowers earlier id (emit i) (emit i) :=
  onBlock_lowers fun b => b.modifyCurrent?_rename T.name _

theorem terminate_lowers (t : IR.Terminator) :
    T.Lowers earlier id (terminate t) (terminate t) :=
  onBlock_lowers fun b => b.modifyCurrent?_rename T.name _

theorem newBlock_lowers : T.Lowers earlier id newBlock newBlock := onBuilder_lowers fun _ => rfl

theorem switchTo_lowers (block : Nat) :
    T.Lowers earlier id (switchTo block) (switchTo block) := onBuilder_lowers fun _ => rfl

theorem newTemp_lowers (ty : IR.Ty) : T.Lowers earlier id (newTemp ty) (newTemp ty) :=
  onBuilder_lowers fun _ => rfl

theorem newSlot_lowers (name : String) (ty : IR.Ty) :
    T.Lowers earlier id (newSlot name ty) (newSlot (T.name name) ty) :=
  onBuilder_lowers fun b => b.addLocal_rename T.name name ty

theorem compute_lowers (ty : IR.Ty) (instr : Nat → IR.Instr) :
    T.Lowers earlier id (compute ty instr) (compute ty instr) :=
  (newTemp_lowers ty).bind fun _ => (emit_lowers _).bind fun _ => .pure rfl

end Primitives

section Expressions

theorem coerce_lowers (operand : IR.Operand) (source target : Kind) :
    T.Lowers earlier id (coerce operand source target) (coerce operand source target) := by
  unfold coerce
  refine .ite (.pure rfl) ?_
  cases operand with
  | const c =>
    cases c with
    | int n => exact .pure rfl
    | float x => exact .pure rfl
    | bool b => cases target <;> exact compute_lowers _ _
  | temp t => cases target <;> exact compute_lowers _ _
  | slot l => cases target <;> exact compute_lowers _ _
  | global g => cases target <;> exact compute_lowers _ _

theorem meet_lowers (left right : IR.Operand × Kind) :
    T.Lowers earlier id (meet left right) (meet left right) :=
  (coerce_lowers _ _ _).bind fun _ => (coerce_lowers _ _ _).bind fun _ => .pure rfl

theorem asValue_lowers {step step' : Lower Evaluated} (h : T.Lowers earlier id step step') :
    T.Lowers earlier id (asValue step) (asValue step') := by
  refine h.bind fun v => ?_
  cases v with
  | folded v => exact .pure rfl
  | runtime operand kind => exact fault_lowers _

theorem asOperand_lowers {step step' : Lower Evaluated} (h : T.Lowers earlier id step step') :
    T.Lowers earlier id (asOperand step) (asOperand step') := by
  refine h.bind fun v => ?_
  cases v with
  | folded v => exact .pure rfl
  | runtime operand kind => exact .pure rfl

theorem binary_lowers (op : BinaryOp) (span : Span) (left right : IR.Operand × Kind) :
    T.Lowers earlier id (binary op span left right) (binary op (T.span span) left right) := by
  refine .ite (report_lowers rfl span) ((meet_lowers left right).bind fun found => ?_)
  obtain ⟨l, r, kind⟩ := found
  dsimp only [id]
  cases arith? op kind with
  | none => exact fault_lowers _
  | some a => exact (compute_lowers _ _).bind fun _ => .pure rfl

theorem unary_lowers (op : UnaryOp) (operand : IR.Operand × Kind) :
    T.Lowers earlier id (unary op operand) (unary op operand) := by
  cases op with
  | plus => exact .pure rfl
  | neg => exact (compute_lowers _ _).bind fun _ => .pure rfl

section Places

variable {index index' : Lower (IR.Operand × Kind)}

theorem elementAddress_lowers (h : T.Lowers earlier id index index') (name : String)
    (b : Binding) (span : Span) :
    T.Lowers earlier id (elementAddress name b span index)
      (elementAddress (T.name name) (T.binding b) (T.span span) index') :=
  h.bind fun _ => .ite (compute_lowers _ _) (report_lowers rfl span)

def Indexed (T : Relabeling) (earlier : List Diagnostic)
    (index index' : Option (Span × Lower (IR.Operand × Kind))) : Prop :=
  Option.Rel (fun i i' => i'.1 = T.span i.1 ∧ T.Lowers earlier id i.2 i'.2) index index'

theorem placeAddress_lowers {index index' : Option (Span × Lower (IR.Operand × Kind))}
    (h : Indexed T earlier index index') (name : String) (span : Span) (b : Binding) :
    T.Lowers earlier id (placeAddress name span b index)
      (placeAddress (T.name name) (T.span span) (T.binding b) index') := by
  obtain ⟨storage, constant, isArray, kind, bspan⟩ := b
  cases h with
  | none =>
    cases isArray with
    | false => exact .pure rfl
    | true => exact report_lowers rfl span
  | @some i i' hi =>
    obtain ⟨indexSpan, index⟩ := i
    obtain ⟨indexSpan', index'⟩ := i'
    obtain ⟨rfl, hi⟩ := hi
    cases isArray with
    | false => exact report_lowers rfl span
    | true => exact elementAddress_lowers hi name _ indexSpan

theorem place_lowers {index index' : Option (Span × Lower (IR.Operand × Kind))}
    (h : Indexed T earlier index index') (ctx : Context) (name : String) (span : Span) :
    T.Lowers earlier id (place ctx name span index)
      (place ctx (T.name name) (T.span span) index') := by
  refine .ite (report_lowers rfl span) fun s => .get_bind ?_
  rw [show (T.state earlier s).scopes = T.scopes s.scopes from rfl, scopes_lookup]
  cases s.scopes.lookup name with
  | none => exact report_lowers rfl span s
  | some b =>
    refine Mirrored.ite (report_lowers rfl span) ?_ s
    refine (placeAddress_lowers h name span b).bind fun address => ?_
    cases ctx.access with
    | address => exact .pure rfl
    | read => exact (compute_lowers _ _).bind fun _ => .pure rfl

end Places

theorem foldBinary_problem {op : BinaryOp} {l r : Value} {p : Problem}
    (h : Value.foldBinary op l r = .error p) : T.problem p = p := by
  have hint : ∀ {a b : Int32}, Value.foldInt op a b = .error p → T.problem p = p := by
    intro a b h
    cases op <;> simp only [Value.foldInt] at h <;> first | cases h | skip
    all_goals
      split at h <;> cases h
      rfl
  have hfloat : ∀ {a b : Float}, Value.foldFloat op a b = .error p → T.problem p = p := by
    intro a b h
    cases op <;> cases h
    rfl
  cases l with
  | int a =>
    cases r with
    | int b =>
      simp only [Value.foldBinary] at h
      cases hf : Value.foldInt op a b with
      | error q => rw [hf] at h; cases h; exact hint hf
      | ok v => rw [hf] at h; cases h
    | float b =>
      simp only [Value.foldBinary] at h
      cases hf : Value.foldFloat op (Value.int a).toFloat (Value.float b).toFloat with
      | error q => rw [hf] at h; cases h; exact hfloat hf
      | ok v => rw [hf] at h; cases h
  | float a =>
    simp only [Value.foldBinary] at h
    cases hf : Value.foldFloat op (Value.float a).toFloat r.toFloat with
    | error q => rw [hf] at h; cases h; exact hfloat hf
    | ok v => rw [hf] at h; cases h

theorem expr_lowers (ctx : Context) (e : Expr) :
    T.Lowers earlier id (expr ctx e) (expr ctx (T.expr e)) := by
  induction e generalizing ctx with
  | literal v span =>
    simp only [expr, Relabeling.expr]
    exact .pure rfl
  | binary op left right span hl hr =>
    simp only [expr, Relabeling.expr]
    refine .ite ((asValue_lowers (hl _)).bind fun l => (asValue_lowers (hr _)).bind fun r => ?_) ?_
    · dsimp only [id]
      cases hf : Value.foldBinary op l r with
      | ok v => exact .pure rfl
      | error p => exact report_lowers (foldBinary_problem hf).symm span
    · refine (asOperand_lowers (hl _)).bind fun l => (asOperand_lowers (hr _)).bind fun r => ?_
      exact binary_lowers op span l r
  | unary op operand span ih =>
    simp only [expr, Relabeling.expr]
    refine .ite ((asValue_lowers (ih _)).bind fun v => .pure rfl) ?_
    exact (asOperand_lowers (ih _)).bind fun v => unary_lowers op v
  | name x span =>
    simp only [expr, Relabeling.expr]
    exact place_lowers .none ctx x span
  | element x index span ih =>
    simp only [expr, Relabeling.expr]
    exact place_lowers (.some ⟨expr_span T index, asOperand_lowers (ih _)⟩) ctx x span

theorem fold_lowers (ctx : Context) (e : Expr) :
    T.Lowers earlier id (fold ctx e) (fold ctx (T.expr e)) := asValue_lowers (expr_lowers _ e)

theorem rvalue_lowers (ctx : Context) (e : Expr) :
    T.Lowers earlier id (rvalue ctx e) (rvalue ctx (T.expr e)) :=
  asOperand_lowers (expr_lowers _ e)

theorem address_lowers (ctx : Context) (target : Place) :
    T.Lowers earlier id (address ctx target) (address ctx (T.place target)) := by
  unfold address
  rw [place_toExpr]
  refine (expr_lowers _ _).bind fun v => ?_
  cases v with
  | runtime operand kind => exact .pure rfl
  | folded v => exact fault_lowers _

theorem condition_lowers (ctx : Context) (c : Condition) :
    T.Lowers earlier id (condition ctx c) (condition ctx (T.condition c)) :=
  (rvalue_lowers ctx c.left).bind fun _ => (rvalue_lowers ctx c.right).bind fun _ =>
    (meet_lowers _ _).bind fun _ => compute_lowers _ _

theorem test_lowers (ctx : Context) (c : Condition) :
    T.Lowers earlier id (test ctx c) (test ctx (T.condition c)) :=
  recording_lowers (condition_lowers ctx c) _

end Expressions

section Variables

theorem bind_lowers (v : Variable) (storage : Storage) :
    T.Lowers earlier id (Lower.bind v storage) (Lower.bind (T.declared v) storage) := by
  intro s
  refine .get_bind ?_
  have hv : (T.declared v).isArray = v.isArray := by simp [Variable.isArray, declared]
  have hd := T.scopes_declare? s.scopes v.name
    ⟨storage, v.constant, v.isArray, v.kind, v.nameSpan⟩
  simp only [hv]
  rw [show (T.state earlier s).scopes = T.scopes s.scopes from rfl]
  simp only [binding] at hd
  simp only [declared, hd]
  cases s.scopes.declare? v.name ⟨storage, v.constant, v.isArray, v.kind, v.nameSpan⟩ with
  | none => exact fault_lowers _ s
  | some scopes => exact .set rfl

theorem arrayLength_lowers (ctx : Context) (v : Variable) (length : Expr) :
    T.Lowers earlier id (arrayLength ctx v length)
      (arrayLength ctx (T.declared v) (T.expr length)) := by
  refine (fold_lowers ctx length).bind fun value => ?_
  cases value with
  | float x =>
    dsimp only [id]
    rw [expr_span]
    exact report_lowers rfl _
  | int n =>
    dsimp only [id]
    have hl : (T.declared v).initializers.length = v.initializers.length := by simp [declared]
    rw [expr_span, hl]
    exact .ite (report_lowers rfl _) (.ite (report_lowers rfl _) (.pure rfl))

theorem constantInitializer_lowers (ctx : Context) (kind : Kind) (e : Expr) :
    T.Lowers earlier id (constantInitializer ctx kind e)
      (constantInitializer ctx kind (T.expr e)) := by
  refine (fold_lowers ctx e).bind fun v => ?_
  dsimp only [id]
  rw [expr_span]
  split
  · refine Mirrored.bind (g := id) (fun s => .modify ?_) fun _ => .pure rfl
    simp [State.record, state, diagnostic, problem]
  · exact .pure rfl

theorem constantInitializers_lowers (ctx : Context) (kind : Kind) (es : List Expr) :
    T.Lowers earlier id (constantInitializers ctx kind es)
      (constantInitializers ctx kind (es.map T.expr)) := by
  induction es with
  | nil => exact .pure rfl
  | cons e rest ih =>
    exact (constantInitializer_lowers ctx kind e).bind fun c => ih.bind fun cs => .pure rfl

theorem addGlobal_lowers (v : Variable) (ty : IR.Ty) (init : Option IR.Init) :
    T.Lowers earlier id (addGlobal v ty init) (addGlobal (T.declared v) ty init) := by
  intro s
  refine .get_bind ?_
  have hg := s.module.addGlobal_rename T.name ⟨v.name, ty, v.constant, init⟩
  simp only [IR.Global.rename] at hg
  rw [show (T.state earlier s).module = s.module.rename T.name from rfl]
  simp only [declared, hg]
  exact Mirrors.bind (.set rfl) fun _ => bind_lowers v _

theorem globalScalar_lowers (ctx : Context) (v : Variable) :
    T.Lowers earlier id (globalScalar ctx v) (globalScalar ctx (T.declared v)) := by
  unfold globalScalar
  rw [show (T.declared v).initializers = v.initializers.map T.expr from rfl]
  cases v.initializers with
  | nil => exact addGlobal_lowers v _ _
  | cons e rest =>
    exact (constantInitializer_lowers ctx v.kind e).bind fun c => addGlobal_lowers v _ _

theorem globalArray_lowers (ctx : Context) (v : Variable) (length : Nat) :
    T.Lowers earlier id (globalArray ctx v length) (globalArray ctx (T.declared v) length) :=
  (constantInitializers_lowers ctx v.kind v.initializers).bind fun _ => addGlobal_lowers v _ _

theorem localScalar_lowers (ctx : Context) (v : Variable) :
    T.Lowers earlier id (localScalar ctx v) (localScalar ctx (T.declared v)) := by
  refine (newSlot_lowers v.name _).bind fun slot => (bind_lowers v _).bind fun _ => ?_
  rw [show (T.declared v).initializers = v.initializers.map T.expr from rfl]
  cases v.initializers with
  | nil => exact .pure rfl
  | cons e rest =>
    exact (rvalue_lowers ctx e).bind fun _ => (coerce_lowers _ _ _).bind fun _ => emit_lowers _

theorem storeElement_lowers (slot : Nat) (kind : Kind) (index : Nat) (value : IR.Operand) :
    T.Lowers earlier id (storeElement slot kind index value)
      (storeElement slot kind index value) :=
  (compute_lowers _ _).bind fun _ => emit_lowers _

theorem storeElements_lowers (ctx : Context) (slot : Nat) (kind : Kind) (count index : Nat)
    (es : List Expr) :
    T.Lowers earlier id (storeElements ctx slot kind count index es)
      (storeElements ctx slot kind count index (es.map T.expr)) := by
  induction count generalizing index es with
  | zero => cases es <;> exact .pure rfl
  | succ count ih =>
    cases es with
    | nil => exact (storeElement_lowers _ _ _ _).bind fun _ => ih _ []
    | cons e rest =>
      refine (rvalue_lowers ctx e).bind fun _ => (coerce_lowers _ _ _).bind fun _ => ?_
      exact (storeElement_lowers _ _ _ _).bind fun _ => ih _ rest

theorem localArray_lowers (ctx : Context) (v : Variable) (length : Nat) :
    T.Lowers earlier id (localArray ctx v length) (localArray ctx (T.declared v) length) := by
  refine (newSlot_lowers v.name _).bind fun slot => (bind_lowers v _).bind fun _ => ?_
  rw [show (T.declared v).initializers = v.initializers.map T.expr from rfl, List.isEmpty_map]
  exact .ite (.pure rfl) (storeElements_lowers _ _ _ _ _ _)

theorem variableDeclaration_lowers (ctx : Context) (v : Variable) :
    T.Lowers earlier id (variableDeclaration ctx v) (variableDeclaration ctx (T.declared v)) := by
  intro s
  refine .get_bind ?_
  rw [show (T.state earlier s).scopes = T.scopes s.scopes from rfl,
    show (T.state earlier s).functions = s.functions.map (Prod.map T.name T.functionRecord)
      from rfl,
    show (T.declared v).name = T.name v.name from rfl, scopes_lookupCurrent, functions_lookup]
  cases s.scopes.lookupCurrent v.name with
  | some previous => exact report_lowers rfl _ s
  | none =>
    have hlength : ∀ x : Extent, T.Lowers earlier id (arrayLength ctx v x.length)
        (arrayLength ctx (T.declared v) (T.extent x).length) := by
      intro x
      rw [extent_length]
      exact arrayLength_lowers ctx v x.length
    rw [show (T.declared v).extent = v.extent.map T.extent from rfl]
    cases ctx.inGlobalScope with
    | false =>
      cases v.extent with
      | none => exact localScalar_lowers ctx v s
      | some x => exact (hlength x).bind (fun n => localArray_lowers ctx v n) s
    | true =>
      cases s.functions.lookup v.name with
      | some f => exact report_lowers rfl _ s
      | none =>
        cases v.extent with
        | none => exact globalScalar_lowers ctx v s
        | some x => exact (hlength x).bind (fun n => globalArray_lowers ctx v n) s

end Variables

section Statements

theorem assignment_lowers (ctx : Context) (target : Place) (value : Expr) :
    T.Lowers earlier id (assignment ctx target value)
      (assignment ctx (T.place target) (T.expr value)) :=
  (rvalue_lowers ctx value).bind fun _ => (address_lowers ctx target).bind fun _ =>
    (coerce_lowers _ _ _).bind fun _ => emit_lowers _

theorem call_lowers (name : String) (span : Span) :
    T.Lowers earlier id (call name span) (call (T.name name) (T.span span)) := by
  intro s
  refine .get_bind ?_
  rw [show (T.state earlier s).functions = s.functions.map (Prod.map T.name T.functionRecord)
    from rfl, functions_lookup]
  cases s.functions.lookup name with
  | none => exact report_lowers rfl span s
  | some f => exact emit_lowers _ s

theorem enterScope_lowers (kind : ScopeKind) :
    T.Lowers earlier id (enterScope kind) (enterScope kind) := fun _ => .modify rfl

theorem exitScope_lowers : T.Lowers earlier id exitScope exitScope := by
  intro s
  refine .modify ?_
  simp [state, Relabeling.scopes, Scopes.exit]

variable {condition condition' : Lower IR.Operand} {body body' other other' : Lower Unit}

theorem branch_lowers (hc : T.Lowers earlier id condition condition')
    (hb : T.Lowers earlier id body body') :
    T.Lowers earlier id (branch condition body) (branch condition' body') := by
  refine hc.bind fun c => newBlock_lowers.bind fun thenBlock => newBlock_lowers.bind fun next => ?_
  refine (terminate_lowers _).bind fun _ => (switchTo_lowers _).bind fun _ => ?_
  exact (recording_lowers hb ()).bind fun _ => (terminate_lowers _).bind fun _ =>
    switchTo_lowers _

theorem branchElse_lowers (hc : T.Lowers earlier id condition condition')
    (hb : T.Lowers earlier id body body') (ho : T.Lowers earlier id other other') :
    T.Lowers earlier id (branchElse condition body other) (branchElse condition' body' other') := by
  refine hc.bind fun c => newBlock_lowers.bind fun thenBlock => ?_
  refine newBlock_lowers.bind fun elseBlock => newBlock_lowers.bind fun next => ?_
  refine (terminate_lowers _).bind fun _ => (switchTo_lowers _).bind fun _ => ?_
  refine (recording_lowers hb ()).bind fun _ => (terminate_lowers _).bind fun _ => ?_
  refine (switchTo_lowers _).bind fun _ => (recording_lowers ho ()).bind fun _ => ?_
  exact (terminate_lowers _).bind fun _ => switchTo_lowers _

theorem loop_lowers (hc : T.Lowers earlier id condition condition')
    (hb : T.Lowers earlier id body body') :
    T.Lowers earlier id (loop condition body) (loop condition' body') := by
  refine newBlock_lowers.bind fun testBlock => newBlock_lowers.bind fun bodyBlock => ?_
  refine newBlock_lowers.bind fun next => (terminate_lowers _).bind fun _ => ?_
  refine (switchTo_lowers _).bind fun _ => hc.bind fun c => (terminate_lowers _).bind fun _ => ?_
  refine (switchTo_lowers _).bind fun _ => (recording_lowers hb ()).bind fun _ => ?_
  exact (terminate_lowers _).bind fun _ => switchTo_lowers _

mutual

theorem stmt_lowers (ctx : Context) (st : Stmt) :
    T.Lowers earlier id (stmt ctx st) (stmt ctx (T.stmt st)) := by
  cases st with
  | declare v =>
    simp only [stmt, Relabeling.stmt]
    exact variableDeclaration_lowers ctx v
  | assign target value span =>
    simp only [stmt, Relabeling.stmt]
    exact assignment_lowers ctx target value
  | call name span =>
    simp only [stmt, Relabeling.stmt]
    exact call_lowers name span
  | block body span =>
    simp only [stmt, Relabeling.stmt]
    exact (enterScope_lowers _).bind fun _ => (stmts_lowers ctx body).bind fun _ =>
      exitScope_lowers
  | branch c body span =>
    simp only [stmt, Relabeling.stmt]
    exact branch_lowers (test_lowers ctx c) (stmt_lowers ctx body)
  | branchElse c body other span =>
    simp only [stmt, Relabeling.stmt]
    exact branchElse_lowers (test_lowers ctx c) (stmt_lowers ctx body) (stmt_lowers ctx other)
  | loop c body span =>
    simp only [stmt, Relabeling.stmt]
    exact loop_lowers (test_lowers ctx c) (stmt_lowers ctx body)
  | empty span =>
    simp only [stmt, Relabeling.stmt]
    exact .pure rfl

theorem stmts_lowers (ctx : Context) (body : List Stmt) :
    T.Lowers earlier id (stmts ctx body) (stmts ctx (T.stmts body)) := by
  cases body with
  | nil =>
    simp only [stmts, Relabeling.stmts]
    exact .pure rfl
  | cons st rest =>
    simp only [stmts, Relabeling.stmts]
    exact (recording_lowers (stmt_lowers ctx st) ()).bind fun _ => stmts_lowers ctx rest

end

end Statements

section Declarations

theorem finishFunction_lowers :
    T.Lowers earlier (IR.Function.rename T.name) finishFunction finishFunction := by
  intro s
  refine .get_bind ?_
  rw [show (T.state earlier s).builder = s.builder.map (·.rename T.name) from rfl]
  cases s.builder with
  | none => exact fault_lowers _ s
  | some b =>
    rw [Option.map_some]
    dsimp only
    rw [show (b.rename T.name).terminated? = b.terminated? from rfl]
    cases b.terminated? with
    | none => exact fault_lowers _ s
    | some terminated =>
      cases terminated with
      | true =>
        obtain ⟨module, scopes, functions, builder, diagnostics⟩ := s
        cases builder <;> rfl
      | false =>
        refine .bind (terminate_lowers _ s) fun _ s' => ?_
        obtain ⟨module, scopes, functions, builder, diagnostics⟩ := s'
        cases builder <;> rfl

theorem declareFunction_lowers (f : FunctionDef) :
    T.Lowers earlier id (declareFunction f) (declareFunction (T.function f)) := by
  intro s
  refine .get_bind ?_
  rw [show (T.state earlier s).module = s.module.rename T.name from rfl,
    show (T.function f).name = T.name f.name from rfl, IR.Module.declare_rename]
  exact Mirrors.bind (.set rfl) fun _ => Mirrored.pure rfl

theorem defineFunction_lowers (number : Nat) (f : IR.Function) :
    T.Lowers earlier id (defineFunction number f)
      (defineFunction number (f.rename T.name)) := by
  intro s
  refine .get_bind ?_
  rw [show (T.state earlier s).module = s.module.rename T.name from rfl,
    IR.Module.define?_rename]
  cases s.module.define? number f with
  | none => exact fault_lowers _ s
  | some module => exact .set rfl

theorem function_lowers (f : FunctionDef) :
    T.Lowers earlier id (function f) (function (T.function f)) := by
  intro s
  refine .get_bind ?_
  rw [show (T.state earlier s).scopes = T.scopes s.scopes from rfl,
    show (T.state earlier s).functions = s.functions.map (Prod.map T.name T.functionRecord)
      from rfl,
    show (T.function f).name = T.name f.name from rfl, scopes_lookupGlobal, functions_lookup]
  cases s.functions.lookup f.name with
  | some previous => exact report_lowers rfl _ s
  | none =>
    cases s.scopes.lookupGlobal f.name with
    | some global => exact report_lowers rfl _ s
    | none =>
      have hstart : T.Lowers earlier id
          (modify fun s : State => { s with builder := some (IR.Builder.start f.name) })
          (modify fun s : State =>
            { s with builder := some (IR.Builder.start (T.name f.name)) }) :=
        fun s => .modify (by simp [state, IR.Builder.start_rename])
      refine Mirrored.bind (declareFunction_lowers f) (fun number => hstart.bind fun _ => ?_) s
      refine (enterScope_lowers _).bind fun _ => (stmts_lowers _ f.body).bind fun _ => ?_
      exact exitScope_lowers.bind fun _ => finishFunction_lowers.bind fun found =>
        defineFunction_lowers number found

theorem declaration_lowers (d : Declaration) :
    T.Lowers earlier id (declaration d) (declaration (T.declaration d)) := by
  cases d with
  | function f => exact function_lowers f
  | global v => exact variableDeclaration_lowers .atModule v

theorem declarations_lowers (p : Program) :
    T.Lowers earlier id (declarations p) (declarations (T.program p)) := by
  induction p with
  | nil => exact .pure rfl
  | cons d rest ih =>
    exact (recording_lowers (declaration_lowers d) ()).bind fun _ => ih

end Declarations

end Lower

namespace Relabeling

def lowered (T : Relabeling) (l : Lowered) : Lowered :=
  ⟨l.module.rename T.name, l.diagnostics.map T.diagnostic⟩

end Relabeling

/-- The relabeled program is lowered to the renamed module, with the relabeled diagnostics. -/
theorem lower_relabeled (T : Relabeling) (name : String) (p : Program) :
    lower name (T.program p) = (lower name p).map T.lowered := by
  have hp : T.Lowers [] id (Lower.declarations p) (Lower.declarations (T.program p)) :=
    Lower.declarations_lowers p
  have h := hp { module := { name } }
  have hstart : T.state [] { module := { name } } = { module := { name } } := by
    simp [Relabeling.state, IR.Module.rename, Relabeling.scopes, Relabeling.scope]
  unfold Mirrors at h
  unfold lower
  rw [hstart] at h
  rw [h]
  cases Lower.declarations p { module := { name } } with
  | ok u s => rfl
  | error stop s =>
    cases stop with
    | fault f => rfl
    | problem d => simp [mapOutcome, Relabeling.stop, Relabeling.state, Except.map,
        Relabeling.lowered]

end C1Lang
