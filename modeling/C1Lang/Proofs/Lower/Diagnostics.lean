import C1Lang.Proofs.Lower.Walk
import C1Lang.Proofs.Program.Sites

/-!
# What lowering reports, and in which order

Lowering an expression stops at a span of it, if at all, and records nothing (`StopsAt`). A
statement can record any number of diagnostics, in its body and in the test before it, but no two
of them at the same site and none at a site before that of an earlier one (`Tells`). So the
diagnostics of a program are picked from its sites (`lower_picks`).
-/

namespace C1Lang

namespace Lower

/-- The step records nothing. A problem that stops it is at one of the spans. -/
def StopsAt {α : Type} (spans : List Span) (step : Lower α) (s : State) : Prop :=
  match step s with
  | .ok _ s' => s'.diagnostics = s.diagnostics
  | .error (.problem d) s' => s'.diagnostics = s.diagnostics ∧ d.span ∈ spans
  | .error (.fault _) _ => True

/-- What the step records, and the problem that stops it, are picked from the sites. -/
def Tells {α : Type} (sites : List (List Span)) (step : Lower α) (s : State) : Prop :=
  match step s with
  | .ok _ s' => ∃ ds, s'.diagnostics = s.diagnostics ++ ds ∧ Picks (ds.map (·.span)) sites
  | .error (.problem d) s' =>
    ∃ ds, s'.diagnostics = s.diagnostics ++ ds ∧ Picks ((ds ++ [d]).map (·.span)) sites
  | .error (.fault _) _ => True

section Judgements

variable {α β : Type} {step : Lower α} {f : α → Lower β} {s : State} {spans spans' : List Span}
  {sites sites' : List (List Span)}

namespace StopsAt

theorem mono (h : StopsAt spans step s) (hs : spans ⊆ spans') : StopsAt spans' step s := by
  unfold StopsAt at h ⊢
  split at h
  · exact h
  · exact ⟨h.1, hs h.2⟩
  · trivial

theorem pure {a : α} : StopsAt spans (Pure.pure a) s := rfl

theorem fault {x : Fault} : StopsAt spans (Lower.fault x : Lower α) s := trivial

theorem report {problem : Problem} {span : Span} (h : span ∈ spans) :
    StopsAt spans (Lower.report problem span : Lower α) s := ⟨rfl, h⟩

theorem set {s' : State} (h : s'.diagnostics = s.diagnostics) :
    StopsAt spans (MonadStateOf.set s' : Lower PUnit) s := h

theorem modify {change : State → State} (h : (change s).diagnostics = s.diagnostics) :
    StopsAt spans (modify change : Lower PUnit) s := h

theorem get_bind {f : State → Lower β} (h : StopsAt spans (f s) s) :
    StopsAt spans (get >>= f) s := h

theorem bind (h : StopsAt spans step s) (hf : ∀ a s', StopsAt spans (f a) s') :
    StopsAt spans (step >>= f) s := by
  unfold StopsAt at h
  split at h
  · next a s' hstep =>
    have hnext := hf a s'
    unfold StopsAt at hnext ⊢
    rw [bind_ok hstep, ← h]
    exact hnext
  · next hstep =>
    unfold StopsAt
    rw [bind_error hstep]
    exact h
  · next hstep =>
    unfold StopsAt
    rw [bind_error hstep]
    trivial

end StopsAt

namespace Tells

theorem mono (h : Tells sites step s) (hs : sites.Sublist sites') : Tells sites' step s := by
  unfold Tells at h ⊢
  split at h
  · obtain ⟨ds, heq, hp⟩ := h
    exact ⟨ds, heq, hp.mono hs⟩
  · obtain ⟨ds, heq, hp⟩ := h
    exact ⟨ds, heq, hp.mono hs⟩
  · trivial

theorem of_stops (h : StopsAt spans step s) : Tells (spans :: sites) step s := by
  unfold StopsAt at h
  unfold Tells
  split at h
  · exact ⟨[], by simpa using h, .nil⟩
  · exact ⟨[], by simpa using h.1, .cons h.2 .nil⟩
  · trivial

theorem of_quiet (h : StopsAt [] step s) : Tells sites step s := by
  unfold StopsAt at h
  unfold Tells
  split at h
  · exact ⟨[], by simpa using h, .nil⟩
  · cases h.2
  · trivial

theorem get_bind {f : State → Lower β} (h : Tells sites (f s) s) :
    Tells sites (get >>= f) s := h

theorem bind (h : Tells sites step s) (hf : ∀ a s', Tells sites' (f a) s') :
    Tells (sites ++ sites') (step >>= f) s := by
  unfold Tells at h
  split at h
  · next a s' hstep =>
    obtain ⟨ds, heq, hp⟩ := h
    have hnext := hf a s'
    unfold Tells at hnext ⊢
    rw [bind_ok hstep]
    split at hnext
    · obtain ⟨es, heq', hp'⟩ := hnext
      refine ⟨ds ++ es, by rw [heq', heq, List.append_assoc], ?_⟩
      rw [List.map_append]
      exact hp.append hp'
    · obtain ⟨es, heq', hp'⟩ := hnext
      refine ⟨ds ++ es, by rw [heq', heq, List.append_assoc], ?_⟩
      rw [List.append_assoc, List.map_append]
      exact hp.append hp'
    · trivial
  · next hstep =>
    obtain ⟨ds, heq, hp⟩ := h
    unfold Tells
    rw [bind_error hstep]
    exact ⟨ds, heq, hp.mono (List.sublist_append_left _ _)⟩
  · next hstep =>
    unfold Tells
    rw [bind_error hstep]
    trivial

theorem after (h : StopsAt [] step s) (hf : ∀ a s', Tells sites (f a) s') :
    Tells sites (step >>= f) s := by
  have hquiet : Tells [] step s := of_quiet h
  exact hquiet.bind hf

theorem within (h : StopsAt spans step s) (hf : ∀ a s', Tells (spans :: sites) (f a) s') :
    Tells (spans :: sites) (step >>= f) s := by
  unfold StopsAt at h
  split at h
  · next a s' hstep =>
    have hnext := hf a s'
    unfold Tells at hnext ⊢
    rw [bind_ok hstep, ← h]
    exact hnext
  · next hstep =>
    unfold Tells
    rw [bind_error hstep]
    exact ⟨[], by simpa using h.1, .cons h.2 .nil⟩
  · next hstep =>
    unfold Tells
    rw [bind_error hstep]
    trivial

theorem record {d : Diagnostic} (h : d.span ∈ spans) :
    Tells (spans :: sites) (modify (·.record d) : Lower PUnit) s := ⟨[d], rfl, .cons h .nil⟩

theorem before (h : Tells sites step s) (hf : ∀ a s', StopsAt [] (f a) s') :
    Tells sites (step >>= f) s := by
  have hquiet : ∀ a s', Tells [] (f a) s' := fun a s' => of_quiet (hf a s')
  have hboth := h.bind hquiet
  rwa [List.append_nil] at hboth

theorem recording {a : α} (h : Tells sites step s) : Tells sites (Lower.recording step a) s := by
  unfold Tells at h
  unfold Tells Lower.recording
  split at h
  · next hstep =>
    rw [hstep]
    exact h
  · next d s' hstep =>
    obtain ⟨ds, heq, hp⟩ := h
    rw [hstep]
    refine ⟨ds ++ [d], ?_, hp⟩
    show s'.diagnostics ++ [d] = _
    rw [heq, List.append_assoc]
  · next hstep =>
    rw [hstep]
    trivial

end Tells

end Judgements

section Expressions

variable {spans : List Span} {s : State}

theorem onBuilder_stops {α : Type} (change : IR.Builder → α × IR.Builder) :
    StopsAt spans (onBuilder change) s := by
  unfold StopsAt onBuilder
  cases s.builder with
  | none => trivial
  | some b => rfl

theorem onBlock_stops (change : IR.Builder → Option IR.Builder) :
    StopsAt spans (onBlock change) s := by
  unfold StopsAt onBlock
  cases s.builder with
  | none => trivial
  | some b =>
    dsimp only
    cases change b with
    | none => trivial
    | some b => rfl

theorem compute_stops (ty : IR.Ty) (instr : Nat → IR.Instr) :
    StopsAt spans (compute ty instr) s :=
  (onBuilder_stops _).bind fun _ _ => (onBlock_stops _).bind fun _ _ => .pure

theorem coerce_stops (o : IR.Operand) (source target : Kind) :
    StopsAt spans (coerce o source target) s := by
  unfold coerce
  split
  · exact .pure
  · split
    · exact .pure
    · exact .pure
    · split <;> exact compute_stops _ _

theorem meet_stops (l r : IR.Operand × Kind) : StopsAt spans (meet l r) s :=
  (coerce_stops _ _ _).bind fun _ _ => (coerce_stops _ _ _).bind fun _ _ => .pure

theorem binary_stops (op : BinaryOp) {span : Span} (h : span ∈ spans)
    (l r : IR.Operand × Kind) : StopsAt spans (binary op span l r) s := by
  unfold binary
  split
  · exact .report h
  · refine (meet_stops l r).bind fun result _ => ?_
    obtain ⟨x, y, kind⟩ := result
    dsimp only
    split
    · exact .fault
    · exact (compute_stops _ _).bind fun _ _ => .pure

theorem unary_stops (op : UnaryOp) (o : IR.Operand × Kind) : StopsAt spans (unary op o) s := by
  cases op with
  | plus => exact .pure
  | neg => exact (compute_stops _ _).bind fun _ _ => .pure

theorem asValue_stops {step : Lower Evaluated} (h : StopsAt spans step s) :
    StopsAt spans (asValue step) s := by
  refine h.bind fun r _ => ?_
  cases r with
  | folded v => exact .pure
  | runtime o kind => exact .fault

theorem asOperand_stops {step : Lower Evaluated} (h : StopsAt spans step s) :
    StopsAt spans (asOperand step) s := by
  refine h.bind fun r _ => ?_
  cases r with
  | folded v => exact .pure
  | runtime o kind => exact .pure

theorem placeAddress_stops (name : String) {span : Span} (hspan : span ∈ spans) (b : Binding)
    {index : Option (Span × Lower (IR.Operand × Kind))}
    (hindex : ∀ i ∈ index, i.1 ∈ spans ∧ StopsAt spans i.2 s) :
    StopsAt spans (placeAddress name span b index) s := by
  unfold placeAddress
  split
  · exact .pure
  · exact .report hspan
  · exact .report hspan
  · next indexSpan index =>
    obtain ⟨hmem, hstops⟩ := hindex _ rfl
    refine hstops.bind fun result _ => ?_
    obtain ⟨i, kind⟩ := result
    dsimp only
    split
    · exact compute_stops _ _
    · exact .report hmem

theorem place_stops (ctx : Context) (name : String) {span : Span} (hspan : span ∈ spans)
    {index : Option (Span × Lower (IR.Operand × Kind))}
    (hindex : ∀ i ∈ index, i.1 ∈ spans ∧ StopsAt spans i.2 s) :
    StopsAt spans (place ctx name span index) s := by
  unfold place
  split
  · exact .report hspan
  · refine .get_bind ?_
    split
    · exact .report hspan
    · next b _ =>
      split
      · exact .report hspan
      · refine (placeAddress_stops name hspan b hindex).bind fun address _ => ?_
        split
        · exact .pure
        · exact (compute_stops _ _).bind fun _ _ => .pure

theorem expr_stops (e : Expr) (ctx : Context) (s : State) : StopsAt e.spans (expr ctx e) s := by
  induction e generalizing ctx s with
  | literal v span =>
    unfold expr
    exact .pure
  | binary op left right span ihl ihr =>
    have hl : ∀ ctx s, StopsAt (Expr.binary op left right span).spans (expr ctx left) s :=
      fun ctx s => (ihl ctx s).mono (by simp [Expr.spans])
    have hr : ∀ ctx s, StopsAt (Expr.binary op left right span).spans (expr ctx right) s :=
      fun ctx s => (ihr ctx s).mono (by simp [Expr.spans])
    unfold expr
    split
    · refine (asValue_stops (hl _ s)).bind fun l s₁ => (asValue_stops (hr _ s₁)).bind ?_
      intro r s₂
      split
      · exact .pure
      · exact .report List.mem_cons_self
    · refine (asOperand_stops (hl _ s)).bind fun l s₁ => (asOperand_stops (hr _ s₁)).bind ?_
      exact fun r s₂ => binary_stops op List.mem_cons_self l r
  | unary op operand span ih =>
    have ho : ∀ ctx s, StopsAt (Expr.unary op operand span).spans (expr ctx operand) s :=
      fun ctx s => (ih ctx s).mono (List.subset_cons_self _ _)
    unfold expr
    split
    · exact (asValue_stops (ho _ s)).bind fun _ _ => .pure
    · exact (asOperand_stops (ho _ s)).bind fun o _ => unary_stops op o
  | name name span =>
    unfold expr
    exact place_stops ctx name List.mem_cons_self (by simp)
  | element name index span ih =>
    unfold expr
    refine place_stops ctx name List.mem_cons_self fun i hi => ?_
    cases hi
    have hindex := (ih ctx.read s).mono (List.subset_cons_self span index.spans)
    exact ⟨List.mem_cons_of_mem _ index.span_mem, asOperand_stops hindex⟩

theorem fold_stops (ctx : Context) (e : Expr) (s : State) : StopsAt e.spans (fold ctx e) s :=
  asValue_stops (expr_stops e _ s)

theorem rvalue_stops (ctx : Context) (e : Expr) (s : State) : StopsAt e.spans (rvalue ctx e) s :=
  asOperand_stops (expr_stops e _ s)

theorem address_stops (ctx : Context) (target : Place) (s : State) :
    StopsAt target.spans (address ctx target) s := by
  refine (expr_stops target.toExpr _ s).bind fun r _ => ?_
  cases r with
  | runtime o kind => exact .pure
  | folded v => exact .fault

theorem condition_stops (ctx : Context) (c : Condition) (s : State) :
    StopsAt c.spans (condition ctx c) s := by
  refine ((rvalue_stops ctx c.left s).mono (List.subset_append_left _ _)).bind fun l s₁ => ?_
  refine ((rvalue_stops ctx c.right s₁).mono (List.subset_append_right _ _)).bind fun r _ => ?_
  exact (meet_stops l r).bind fun _ _ => compute_stops _ _

theorem test_tells (ctx : Context) (c : Condition) (s : State) :
    Tells [c.spans] (test ctx c) s :=
  (Tells.of_stops (condition_stops ctx c s)).recording

end Expressions

section Variables

variable {spans : List Span} {s : State}

theorem bind_stops (v : Variable) (storage : Storage) : StopsAt spans (bind v storage) s := by
  refine .get_bind ?_
  split
  · exact .set rfl
  · exact .fault

theorem arrayLength_stops (ctx : Context) (v : Variable) {extent : Extent}
    (hv : v.extent = some extent) : StopsAt v.spans (arrayLength ctx v extent.length) s := by
  have hlength : extent.length.spans ⊆ v.spans := by
    intro span hspan
    simp [Variable.spans, hv, hspan]
  have hspan := hlength extent.length.span_mem
  refine ((fold_stops ctx extent.length s).mono hlength).bind fun n _ => ?_
  cases n with
  | float x => exact .report hspan
  | int n =>
    dsimp only
    split
    · exact .report hspan
    · split
      · exact .report (List.mem_cons_of_mem _ List.mem_cons_self)
      · exact .pure

theorem constantInitializer_tells (ctx : Context) (kind : Kind) (e : Expr)
    {sites : List (List Span)} (s : State) :
    Tells (e.spans :: sites) (constantInitializer ctx kind e) s := by
  refine .within (fold_stops ctx e s) fun v s' => ?_
  split
  · exact (Tells.record e.span_mem).before fun _ _ => .pure
  · exact .of_stops .pure

theorem constantInitializers_tells (ctx : Context) (kind : Kind) (es : List Expr) (s : State) :
    Tells (es.map Expr.spans) (constantInitializers ctx kind es) s := by
  induction es generalizing s with
  | nil => exact .of_quiet .pure
  | cons e es ih =>
    have he : Tells [e.spans] (constantInitializer ctx kind e) s :=
      constantInitializer_tells ctx kind e s
    exact he.bind fun c s' => (ih s').before fun _ _ => .pure

theorem addGlobal_stops (v : Variable) (ty : IR.Ty) (init : Option IR.Init) :
    StopsAt spans (addGlobal v ty init) s := by
  refine .get_bind ?_
  exact (StopsAt.set rfl).bind fun _ _ => bind_stops v _

theorem globalScalar_tells (ctx : Context) (v : Variable) (s : State) :
    Tells (v.initializers.map Expr.spans) (globalScalar ctx v) s := by
  unfold globalScalar
  split
  · exact .of_quiet (addGlobal_stops v _ _)
  · next e es h =>
    rw [h]
    exact (constantInitializer_tells ctx v.kind e s).before fun c _ => addGlobal_stops v _ _

theorem globalArray_tells (ctx : Context) (v : Variable) (length : Nat) (s : State) :
    Tells (v.initializers.map Expr.spans) (globalArray ctx v length) s :=
  (constantInitializers_tells ctx v.kind v.initializers s).before fun _ _ => addGlobal_stops v _ _

theorem localScalar_tells (ctx : Context) (v : Variable) (s : State) :
    Tells (v.initializers.map Expr.spans) (localScalar ctx v) s := by
  refine .after (onBuilder_stops _) fun slot s₁ => .after (bind_stops v _) fun _ s₂ => ?_
  split
  · exact .of_quiet .pure
  · next e es h =>
    rw [h]
    refine .of_stops ((rvalue_stops ctx e s₂).bind fun value _ => ?_)
    exact (coerce_stops _ _ _).bind fun _ _ => onBlock_stops _

theorem storeElement_stops (slot : Nat) (kind : Kind) (index : Nat) (value : IR.Operand) :
    StopsAt spans (storeElement slot kind index value) s :=
  (compute_stops _ _).bind fun _ _ => onBlock_stops _

theorem storeElements_tells (ctx : Context) (slot : Nat) (kind : Kind) (count index : Nat)
    (es : List Expr) (s : State) :
    Tells (es.map Expr.spans) (storeElements ctx slot kind count index es) s := by
  induction count generalizing index es s with
  | zero =>
    unfold storeElements
    exact .of_quiet .pure
  | succ count ih =>
    cases es with
    | nil =>
      unfold storeElements
      exact .after (storeElement_stops _ _ _ _) fun _ s' => ih (index + 1) [] s'
    | cons e es =>
      refine .within (rvalue_stops ctx e s) fun value s₁ => ?_
      refine .within (coerce_stops _ _ _) fun operand s₂ => ?_
      refine .within (storeElement_stops slot kind index operand) fun _ s₃ => ?_
      exact (ih (index + 1) es s₃).mono (List.sublist_cons_self _ _)

theorem localArray_tells (ctx : Context) (v : Variable) (length : Nat) (s : State) :
    Tells (v.initializers.map Expr.spans) (localArray ctx v length) s := by
  refine .after (onBuilder_stops _) fun slot s₁ => .after (bind_stops v _) fun _ s₂ => ?_
  split
  · exact .of_quiet .pure
  · exact storeElements_tells ctx slot v.kind length 0 v.initializers s₂

theorem variableDeclaration_tells (ctx : Context) (v : Variable) (s : State) :
    Tells v.sites (variableDeclaration ctx v) s := by
  have hlength : ∀ {extent : Extent}, v.extent = some extent →
      Tells [v.spans] (arrayLength ctx v extent.length) s :=
    fun h => .of_stops (arrayLength_stops ctx v h)
  refine .get_bind ?_
  split
  · exact .of_stops (.report List.mem_cons_self)
  · split
    · exact .of_stops (.report List.mem_cons_self)
    · split
      · exact (globalScalar_tells ctx v s).mono (List.sublist_cons_self _ _)
      · exact (localScalar_tells ctx v s).mono (List.sublist_cons_self _ _)
      · next hextent _ =>
        exact (hlength hextent).bind fun n s' => globalArray_tells ctx v n s'
      · next hextent _ =>
        exact (hlength hextent).bind fun n s' => localArray_tells ctx v n s'

end Variables

section Statements

variable {s : State} {sites sites' : List (List Span)}

theorem assignment_tells (ctx : Context) (target : Place) (value : Expr) (s : State) :
    Tells [target.spans ++ value.spans] (assignment ctx target value) s := by
  refine .of_stops (StopsAt.bind ?_ fun operand s₁ => StopsAt.bind ?_ fun ptr s₂ => ?_)
  · exact (rvalue_stops ctx value s).mono (List.subset_append_right _ _)
  · exact (address_stops ctx target s₁).mono (List.subset_append_left _ _)
  · exact (coerce_stops _ _ _).bind fun _ _ => onBlock_stops _

theorem call_tells (name : String) (span : Span) (s : State) :
    Tells [[span]] (call name span) s := by
  refine .of_stops (.get_bind ?_)
  split
  · exact .report List.mem_cons_self
  · exact onBlock_stops _

theorem part_tells {body : Lower Unit} (target next : Nat) (h : Tells sites body s) :
    Tells sites (part body target next) s :=
  h.recording.before fun _ _ => (onBlock_stops _).bind fun _ _ => onBuilder_stops _

theorem branch_tells {test : Lower IR.Operand} {body : Lower Unit} (ht : Tells sites test s)
    (hb : ∀ s, Tells sites' body s) : Tells (sites ++ sites') (branch test body) s := by
  rw [branch_eq]
  refine (ht.before fun c _ => ?_).bind fun next s' => part_tells next next (hb s')
  refine (onBuilder_stops _).bind fun thenBlock _ => (onBuilder_stops _).bind fun next _ => ?_
  exact (onBlock_stops _).bind fun _ _ => (onBuilder_stops _).bind fun _ _ => .pure

theorem branchElse_tells {sites'' : List (List Span)} {test : Lower IR.Operand}
    {body other : Lower Unit} (ht : Tells sites test s) (hb : ∀ s, Tells sites' body s)
    (ho : ∀ s, Tells sites'' other s) :
    Tells (sites ++ (sites' ++ sites'')) (branchElse test body other) s := by
  rw [branchElse_eq]
  refine (ht.before fun c _ => ?_).bind fun blocks s₁ =>
    (part_tells _ _ (hb s₁)).bind fun _ s₂ => part_tells _ _ (ho s₂)
  refine (onBuilder_stops _).bind fun _ _ => (onBuilder_stops _).bind fun _ _ => ?_
  refine (onBuilder_stops _).bind fun _ _ => (onBlock_stops _).bind fun _ _ => ?_
  exact (onBuilder_stops _).bind fun _ _ => .pure

theorem loop_tells {test : Lower IR.Operand} {body : Lower Unit}
    (ht : ∀ s, Tells sites test s) (hb : ∀ s, Tells sites' body s) :
    Tells (sites ++ sites') (loop test body) s := by
  rw [loop_eq]
  refine Tells.bind ?_ fun blocks s' => part_tells _ _ (hb s')
  refine .after (onBuilder_stops _) fun _ _ => .after (onBuilder_stops _) fun _ _ => ?_
  refine .after (onBuilder_stops _) fun _ _ => .after (onBlock_stops _) fun _ _ => ?_
  refine .after (onBuilder_stops _) fun _ s' => (ht s').before fun c _ => ?_
  exact (onBlock_stops _).bind fun _ _ => (onBuilder_stops _).bind fun _ _ => .pure

mutual

theorem stmt_tells (ctx : Context) : (st : Stmt) → ∀ s, Tells st.sites (stmt ctx st) s
  | .declare v => by
    intro s
    unfold stmt Stmt.sites
    exact variableDeclaration_tells ctx v s
  | .assign target value _ => by
    intro s
    unfold stmt Stmt.sites
    exact assignment_tells ctx target value s
  | .call name span => by
    intro s
    unfold stmt Stmt.sites
    exact call_tells name span s
  | .block body _ => by
    intro s
    unfold stmt Stmt.sites
    refine .after (.modify rfl) fun _ s' => ?_
    exact (stmts_tells ctx body s').before fun _ _ => .modify rfl
  | .branch c body _ => by
    intro s
    unfold stmt Stmt.sites
    exact branch_tells (test_tells ctx c s) (stmt_tells ctx body)
  | .branchElse c body other _ => by
    intro s
    unfold stmt Stmt.sites
    exact branchElse_tells (test_tells ctx c s) (stmt_tells ctx body) (stmt_tells ctx other)
  | .loop c body _ => by
    intro s
    unfold stmt Stmt.sites
    exact loop_tells (test_tells ctx c) (stmt_tells ctx body)
  | .empty _ => by
    intro s
    unfold stmt
    exact .of_quiet .pure

theorem stmts_tells (ctx : Context) : (body : List Stmt) → ∀ s,
    Tells (Stmt.allSites body) (stmts ctx body) s
  | [] => by
    intro s
    unfold stmts
    exact .of_quiet .pure
  | st :: rest => by
    intro s
    unfold stmts Stmt.allSites
    exact (stmt_tells ctx st s).recording.bind fun _ s' => stmts_tells ctx rest s'

end

end Statements

section Declarations

variable {s : State}

theorem finishFunction_stops : StopsAt [] finishFunction s := by
  refine .get_bind ?_
  split
  · exact .fault
  · split
    · exact .fault
    · next terminated _ =>
      cases terminated with
      | false =>
        refine (onBlock_stops _).bind fun _ s' => .get_bind (StopsAt.bind (.set rfl) fun _ _ => ?_)
        split
        · exact .fault
        · exact .pure
      | true =>
        refine .get_bind (StopsAt.bind (.set rfl) fun _ _ => ?_)
        split
        · exact .fault
        · exact .pure

theorem function_tells (f : FunctionDef) (s : State) :
    Tells ([f.nameSpan] :: Stmt.allSites f.body) (function f) s := by
  refine .get_bind ?_
  split
  · exact .of_stops (.report List.mem_cons_self)
  · exact .of_stops (.report List.mem_cons_self)
  · refine Tells.mono ?_ (List.sublist_cons_self [f.nameSpan] _)
    have hdeclare : ∀ s, StopsAt [] (declareFunction f) s := fun _ => rfl
    have hdefine : ∀ id g s, StopsAt [] (defineFunction id g) s := by
      intro id g s
      refine .get_bind ?_
      split
      · exact .set rfl
      · exact .fault
    refine .after (hdeclare s) fun id _ => .after (.modify rfl) fun _ _ => ?_
    refine .after (.modify rfl) fun _ s' => (stmts_tells .inFunction f.body s').before ?_
    refine fun _ _ => (StopsAt.modify rfl).bind fun _ _ => ?_
    exact finishFunction_stops.bind fun g _ => hdefine id g _

theorem declarations_tells (p : Program) (s : State) : Tells p.sites (declarations p) s := by
  induction p generalizing s with
  | nil => exact .of_quiet .pure
  | cons d p ih =>
    have hd : Tells d.sites (declaration d) s := by
      cases d with
      | function f => exact function_tells f s
      | global v => exact variableDeclaration_tells .atModule v s
    exact hd.recording.bind fun _ s' => ih s'

end Declarations

end Lower

theorem lower_picks {name : String} {p : Program} {l : Lowered} (h : lower name p = .ok l) :
    Picks (l.diagnostics.map (·.span)) p.sites := by
  have htells := Lower.declarations_tells p { module := { name } }
  unfold Lower.Tells at htells
  unfold lower at h
  split at h
  · next hrun =>
    cases h
    rw [hrun] at htells
    obtain ⟨ds, heq, hp⟩ := htells
    simpa [heq] using hp
  · cases h
  · next hrun =>
    cases h
    rw [hrun] at htells
    obtain ⟨ds, heq, hp⟩ := htells
    simpa [heq] using hp

end C1Lang
