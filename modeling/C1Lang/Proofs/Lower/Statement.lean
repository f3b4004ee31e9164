import C1Lang.Proofs.Lower.Progress

/-!
# Lowering of statements

Whatever a statement holds, lowering it proceeds to an open block, creates the blocks that its
branches and loops need, and errors are recorded exactly when the statement is not correct. Where
none are, what was built is the code of the statement (`stmt_advances`).
-/

namespace C1Lang

mutual

def Stmt.blocks : Stmt → Nat
  | .branch _ body _ => 2 + body.blocks
  | .branchElse _ body other _ => 3 + body.blocks + other.blocks
  | .loop _ body _ => 3 + body.blocks
  | .block body _ => Stmt.allBlocks body
  | .declare _ | .assign _ _ _ | .call _ _ | .empty _ => 0

def Stmt.allBlocks : List Stmt → Nat
  | [] => 0
  | st :: rest => st.blocks + Stmt.allBlocks rest

end

namespace Lower

open IR IR.Builder

def State.known (s : State) : List String := s.functions.map Prod.fst

def Judged (s s' : State) (code correct : Prop) : Prop :=
  s'.errors = s.errors ∧ code ∨ s.errors < s'.errors ∧ ¬ correct

def Carries (st : Stmt) (s : State) (b : Builder) (s' : State) : Prop :=
  ∃ b', Proceeds s b [] s' b' ∧ b'.blocks.size = b.blocks.size + st.blocks ∧
    Judged s s' (Generates s.functions s.scopes b st s'.scopes b')
      (st.Correct s.known s.scopes.static)

def Refuses (reason : Prop) (s : State) (b : Builder) (s' : State) : Prop :=
  Proceeded s b s' ∧ reason

/-- A step that lowers a statement, wherever it is run. Only one without blocks can stop. -/
def Advances (step : Lower Unit) (st : Stmt) : Prop :=
  ∀ s b, Ready s b → s.scopes.inner ≠ [] →
    Ends step s (fun _ => Carries st s b)
      (Refuses (st.blocks = 0 ∧ ¬ st.Correct s.known s.scopes.static) s b)

theorem Rejects.refuses {s s' : State} {b : Builder} {reason reason' : Prop}
    (h : Rejects s b reason s') (hr : Ready s b) (hi : s.scopes.inner ≠ [])
    (hn : reason → reason') : Refuses reason' s b s' :=
  ⟨h.1.proceeded hr hi, hn h.2⟩

theorem Refuses.of {s s' s'' : State} {b b' : Builder} {reason reason' : Prop} (hb : b.Open)
    (h : Proceeds s b [] s' b') (hsize : b'.blocks.size = b.blocks.size)
    (k : Refuses reason s' b' s'') (hn : reason → reason') : Refuses reason' s b s'' :=
  ⟨k.1.of hb h hsize, hn k.2⟩

theorem Advances.recording {step : Lower Unit} {st : Stmt} (h : Advances step st) {s : State}
    {b : Builder} (hr : Ready s b) (hi : s.scopes.inner ≠ []) (stopped : State → Prop) :
    Ends (recording step ()) s (fun _ => Carries st s b) stopped := by
  refine (h s b hr hi).recording ?_
  intro s' d hd hdone
  obtain ⟨⟨b', hp, hsize⟩, hzero, hn⟩ := hdone
  refine ⟨b', hp.record d, by rw [hsize, hzero]; rfl, .inr ⟨?_, hn⟩⟩
  rw [State.errors_record s' hd]
  exact Nat.lt_succ_of_le hp.errors

theorem emit_ends {s : State} {b : Builder} {i : Instr} {stopped : State → Prop}
    (hr : Ready s b) (hd : i.dest? = none) (ht : i.Typed s.module b.finish)
    (hw : ∀ t, .temp t ∈ i.operands → t ∈ writes b.code) :
    Ends (emit i) s (fun _ s' => Emits s b s' (b.push i)) stopped :=
  .of_eq (emit_eq hr.builder hr.opened i) ⟨rfl, .perform .start hd ht hw, .push b i⟩

theorem store_ends {s : State} {b : Builder} {ptr value : Operand} {ty : Ty}
    {stopped : State → Prop} (hr : Ready s b) (hp : Holds s.module b ptr (.pointer ty))
    (hv : Holds s.module b value ty) :
    Ends (emit (.store ptr value)) s (fun _ s' => Emits s b s' (b.push (.store ptr value)))
      stopped := by
  refine emit_ends hr rfl (.store hp.type hv.type) ?_
  intro t ht
  rcases List.mem_cons.mp ht with h | h
  · exact hp.written t h.symm
  · exact hv.written t (List.mem_singleton.mp h).symm

theorem Emits.carries {st : Stmt} {s s' : State} {b b' : Builder} (h : Emits s b s' b')
    (hr : Ready s b) (hi : s.scopes.inner ≠ []) (hst : st.blocks = 0)
    (hg : Generates s.functions s.scopes b st s.scopes b') : Carries st s b s' := by
  have hp := h.proceeds hr hi
  have hsize := h.appends.size
  obtain ⟨rfl, -, -⟩ := h
  exact ⟨b', hp, by rw [hst]; exact hsize, .inl ⟨rfl, hg⟩⟩

theorem assignment_advances (ctx : Context) (target : Place) (value : Expr) (span : Span) :
    Advances (assignment ctx target value) (.assign target value span) := by
  intro s b hr hi
  rw [Stmt.Correct]
  have hst : (Stmt.assign target value span).blocks = 0 := by rw [Stmt.blocks]
  refine (rvalue_ends ctx value hr).bind ?_ fun _ h =>
    h.refuses hr hi fun hn => ⟨hst, fun hc => hn hc.1⟩
  intro result s₁ hdone
  obtain ⟨o, j⟩ := result
  obtain ⟨b₁, he₁, ho, hl⟩ := hdone
  have hr₁ := he₁.ready hr
  obtain ⟨rfl, -, -⟩ := id he₁
  refine (address_ends ctx target hr₁).bind ?_ fun _ h =>
    (h.of hr.opened he₁ id).refuses hr hi fun hn => ⟨hst, fun hc => hn hc.2⟩
  intro result s₂ hdone
  obtain ⟨ptr, k⟩ := result
  obtain ⟨b₂, he₂, hp, hloc⟩ := hdone
  have hr₂ := he₂.ready hr₁
  obtain ⟨rfl, -, ha₂⟩ := id he₂
  refine (coerce_ends k hr₂ (ho.mono hr₁.opened ha₂)).bind ?_
    (fun s' (h : Refuses _ s b s') => h)
  intro o' s₃ hdone
  obtain ⟨b₃, he₃, ho', hco⟩ := hdone
  have hr₃ := he₃.ready hr₂
  obtain ⟨rfl, -, ha₃⟩ := id he₃
  refine (store_ends hr₃ (hp.mono hr₂.opened ha₃) ho').mono ?_
    (fun s' (h : Refuses _ s b s') => h)
  intro _ s₄ he₄
  have he := (he₁.trans hr.opened he₂).trans hr.opened (he₃.trans hr₂.opened he₄)
  exact he.carries hr hi hst (.assign hl hloc hco)

theorem call_advances (name : String) (span : Span) :
    Advances (call name span) (.call name span) := by
  intro s b hr hi
  rw [Stmt.Correct]
  have hst : (Stmt.call name span).blocks = 0 := by rw [Stmt.blocks]
  apply Ends.get_bind
  cases hf : s.functions.lookup name with
  | none =>
    exact .report rfl
      ⟨⟨b, (Emits.refl hr).proceeds hr hi, rfl⟩, hst, lookup_eq_none.mp hf⟩
  | some f =>
    refine (emit_ends hr rfl (.call (hr.callees _ (mem_of_lookup hf))) ?_).mono ?_
      (fun s' (h : Refuses _ s b s') => h)
    · intro t ht
      cases ht
    · exact fun _ s' he => he.carries hr hi hst (.call hf)

theorem storeElement_ends {slot n : Nat} {kind : Kind} (index : Nat) {o : Operand} {s : State}
    {b : Builder} {stopped : State → Prop} (hr : Ready s b)
    (hslot : Holds s.module b (.slot slot) (.pointer (.array kind.scalar n)))
    (ho : Holds s.module b o kind.ty) :
    Ends (storeElement slot kind index o) s
      (fun _ s' => Emits s b s'
        ((elementAt b slot kind index).push (.store (.temp b.temps.size) o))) stopped := by
  unfold storeElement
  refine (compute_ends _ (.elementPtr · (.slot slot) _) hr rfl
    (.elementPtr (hslot.temp hr.opened _) rfl (addTemp_getElem? b _)) ?_).bind ?_ (fun _ h => h)
  · intro t ht
    simp [Instr.operands] at ht
  · intro _ s₁ hdone
    obtain ⟨rfl, he₁, hp⟩ := hdone
    have hr₁ := he₁.ready hr
    obtain ⟨rfl, -, ha₁⟩ := id he₁
    refine (store_ends hr₁ hp (ho.mono hr.opened ha₁)).mono ?_ (fun _ h => h)
    exact fun _ s₂ he₂ => he₁.trans hr.opened he₂

theorem storeElements_ends {slot n : Nat} {kind : Kind} (ctx : Context) (count : Nat) :
    ∀ (index : Nat) (values : List Expr) {s : State} {b : Builder}, Ready s b →
      Holds s.module b (.slot slot) (.pointer (.array kind.scalar n)) →
      Ends (storeElements ctx slot kind count index values) s
        (fun _ s' => ∃ b', Emits s b s' b' ∧ Stores s.scopes slot kind count index values b b')
        (Rejects s b (¬ ∀ e ∈ values, e.Kinded s.scopes.static)) := by
  induction count with
  | zero => exact fun _ _ s b hr _ => .pure ⟨b, .refl hr, .done⟩
  | succ count ih =>
    intro index values s b hr hslot
    have hrest : ∀ (values : List Expr) {s₁ : State} {b₁ : Builder}, Emits s b s₁ b₁ →
        Ends (storeElements ctx slot kind count (index + 1) values) s₁
          (fun _ s' => ∃ b', Emits s b s' b' ∧
            Stores s.scopes slot kind count (index + 1) values b₁ b')
          (Rejects s b (¬ ∀ e ∈ values, e.Kinded s.scopes.static)) := by
      intro values s₁ b₁ he₁
      have hr₁ := he₁.ready hr
      obtain ⟨rfl, -, ha₁⟩ := id he₁
      refine (ih (index + 1) values hr₁ (hslot.mono hr.opened ha₁)).mono ?_
        (fun _ h => h.of hr.opened he₁ id)
      intro _ s₂ hdone
      obtain ⟨b₂, he₂, hs⟩ := hdone
      exact ⟨b₂, he₁.trans hr.opened he₂, hs⟩
    cases values with
    | nil =>
      refine (storeElement_ends index hr hslot ?_).bind ?_ (fun s' (h : Rejects s b _ s') => h)
      · cases kind <;> exact ⟨rfl, fun t ht => by cases ht⟩
      · intro _ s₁ he₁
        refine (hrest [] he₁).mono ?_ (fun _ h => h)
        intro _ s₂ hdone
        obtain ⟨b₂, he₂, hs⟩ := hdone
        exact ⟨b₂, he₂, .zero hs⟩
    | cons e rest =>
      refine (rvalue_ends ctx e hr).bind ?_ fun _ h =>
        ⟨h.1, fun hall => h.2 (List.forall_mem_cons.mp hall).1⟩
      intro result s₁ hdone
      obtain ⟨o, k⟩ := result
      obtain ⟨b₁, he₁, ho, hl⟩ := hdone
      have hr₁ := he₁.ready hr
      obtain ⟨rfl, -, -⟩ := id he₁
      refine (coerce_ends kind hr₁ ho).bind ?_ (fun s' (h : Rejects s b _ s') => h)
      intro o' s₂ hdone
      obtain ⟨b₂, he₂, ho', hco⟩ := hdone
      have hr₂ := he₂.ready hr₁
      obtain ⟨rfl, -, -⟩ := id he₂
      have he := he₁.trans hr.opened he₂
      refine (storeElement_ends index hr₂ (hslot.mono hr.opened he.appends) ho').bind ?_
        (fun s' (h : Rejects s b _ s') => h)
      intro _ s₃ he₃
      refine (hrest rest (he.trans hr.opened he₃)).mono ?_ fun _ h =>
        ⟨h.1, fun hall => h.2 (List.forall_mem_cons.mp hall).2⟩
      intro _ s₄ hdone
      obtain ⟨b₄, he₄, hs⟩ := hdone
      exact ⟨b₄, he₄, .value hl hco hs⟩

def State.withLocal (s : State) (b : Builder) (v : Variable) (ty : Ty) : State :=
  { s.building (b.addLocal v.name ty).2 with
    scopes := s.scopes.declare v.name (v.binding (.slot b.locals.size)) }

theorem withLocal_static (s : State) (b : Builder) (v : Variable) (ty : Ty) :
    (s.withLocal b v ty).scopes.static = s.scopes.static.declare v.name v.usage :=
  s.scopes.static_declare v.name _

theorem slot_type (m : Module) (b : Builder) (name : String) (ty : Ty) :
    m.operandType? (b.addLocal name ty).2.finish (.slot b.locals.size) = some (.pointer ty) := by
  simp [Module.operandType?, Builder.addLocal, Builder.finish]

theorem withLocal_proceeds {s : State} {b : Builder} {v : Variable} {ty : Ty} (hr : Ready s b)
    (hi : s.scopes.inner ≠ []) (hv : v.isArray = false → ty = v.kind.ty)
    (ha : v.isArray = true → ∃ n, ty = .array v.kind.scalar n) :
    Proceeds s b [] (s.withLocal b v ty) (b.addLocal v.name ty).2 := by
  have happ := Appends.slot b v.name ty
  have ht := slot_type s.module b v.name ty
  have hfits : (v.binding (.slot b.locals.size)).Fits s.module (b.addLocal v.name ty).2.finish :=
    ⟨fun h => hv h ▸ ht, fun h => by
      obtain ⟨n, hn⟩ := ha h
      exact ⟨n, hn ▸ ht⟩⟩
  refine ⟨rfl, rfl, .slot _ _ .start, ⟨rfl, happ.opened hr.opened, ?_, hr.callees⟩,
    Scopes.declare_inner_ne_nil hi _ _, Scopes.exit_declare hi _ _, Nat.le_refl _⟩
  exact (hr.fits.mono (.refl _) (happ.within hr.opened)).declare _ hfits

theorem declareLocal_ends {s : State} {b : Builder} {v : Variable} {ty : Ty}
    {next : Nat → Lower Unit} {done : Unit → State → Prop} {stopped : State → Prop}
    (hr : Ready s b) (hn : s.scopes.lookupCurrent v.name = none)
    (h : Ends (next b.locals.size) (s.withLocal b v ty) done stopped) :
    Ends (newSlot v.name ty >>= fun slot => Lower.bind v (.slot slot) >>= fun _ => next slot) s
      done stopped := by
  refine .bind_eq (newSlot_eq hr.builder _ _) ?_
  have hn' : (s.building (b.addLocal v.name ty).2).scopes.lookupCurrent v.name = none := hn
  exact .bind_eq (bind_eq hn' _) h

theorem Emits.initializes {s s' : State} {b b' : Builder} {v : Variable} {ty : Ty}
    (h : Emits (s.withLocal b v ty) (b.addLocal v.name ty).2 s' b') (hr : Ready s b)
    (hp : Proceeds s b [] (s.withLocal b v ty) (b.addLocal v.name ty).2)
    (hn : s.scopes.lookupCurrent v.name = none)
    (hi : Initializes (s.withLocal b v ty).scopes b.locals.size v ty (b.addLocal v.name ty).2 b') :
    Carries (.declare v) s b s' := by
  have hp' := hp.trans hr.opened (h.proceeds hp.ready hp.inner)
  have hsize : b'.blocks.size = b.blocks.size := h.appends.size
  obtain ⟨rfl, -, -⟩ := h
  exact ⟨b', hp', by rw [Stmt.blocks]; exact hsize, .inl ⟨rfl, .declare hn hi⟩⟩

theorem localScalar_ends {s : State} {b : Builder} {v : Variable} (ctx : Context)
    (hr : Ready s b) (hi : s.scopes.inner ≠ []) (hn : s.scopes.lookupCurrent v.name = none)
    (hv : v.extent = none) :
    Ends (localScalar ctx v) s (fun _ => Carries (.declare v) s b)
      (Refuses (¬ v.Correct s.scopes.static) s b) := by
  have harray : v.isArray = false := by simp [Variable.isArray, hv]
  have hp : Proceeds s b [] (s.withLocal b v v.kind.ty) _ :=
    withLocal_proceeds hr hi (fun _ => rfl) (fun h => by simp [harray] at h)
  have hr₀ := hp.ready
  refine declareLocal_ends hr hn ?_
  cases hvals : v.initializers with
  | nil => exact .pure ((Emits.refl hr₀).initializes hr hp hn (.scalar hv hvals))
  | cons e rest =>
    refine (rvalue_ends ctx e hr₀).bind ?_ fun _ h =>
      (h.refuses hr₀ hp.inner id).of hr.opened hp rfl fun hk hc => hk ?_
    · intro result s₁ hdone
      obtain ⟨o, k⟩ := result
      obtain ⟨b₁, he₁, ho, hl⟩ := hdone
      have hr₁ := he₁.ready hr₀
      obtain ⟨rfl, -, -⟩ := id he₁
      refine (coerce_ends v.kind hr₁ ho).bind ?_ (fun s' (h : Refuses _ s b s') => h)
      intro o' s₂ hdone
      obtain ⟨b₂, he₂, ho', hco⟩ := hdone
      have hr₂ := he₂.ready hr₁
      obtain ⟨rfl, -, -⟩ := id he₂
      have he := he₁.trans hr₀.opened he₂
      have hslot : Holds s.module (b.addLocal v.name v.kind.ty).2
          (Storage.slot b.locals.size).operand (.pointer v.kind.ty) :=
        .of_fits (slot_type s.module b v.name v.kind.ty)
      refine (store_ends hr₂ (hslot.mono hr₀.opened he.appends) ho').mono ?_
        (fun s' (h : Refuses _ s b s') => h)
      exact fun _ s₃ he₃ => (he.trans hr₀.opened he₃).initializes hr hp hn
        (.value hv hvals hl hco)
    · rw [withLocal_static]
      exact hc.values e (by simp [Variable.values, hv, hvals])

theorem localArray_initializes {s : State} {b : Builder} {v : Variable} {extent : Extent}
    {length : Nat} (ctx : Context) (hr : Ready s b) (hi : s.scopes.inner ≠ [])
    (hn : s.scopes.lookupCurrent v.name = none) (hv : v.extent = some extent)
    (hs : Spans v extent.length length) :
    Ends (localArray ctx v length) s
      (fun _ s' => ∃ b', Emits (s.withLocal b v (.array v.kind.scalar length))
          (b.addLocal v.name (.array v.kind.scalar length)).2 s' b' ∧
        Initializes (s.withLocal b v (.array v.kind.scalar length)).scopes b.locals.size v
          (.array v.kind.scalar length) (b.addLocal v.name (.array v.kind.scalar length)).2 b')
      (Refuses (¬ v.Correct s.scopes.static) s b) := by
  have harray : v.isArray = true := by simp [Variable.isArray, hv]
  have hp : Proceeds s b [] (s.withLocal b v (.array v.kind.scalar length)) _ :=
    withLocal_proceeds hr hi (fun h => by simp [harray] at h) (fun _ => ⟨length, rfl⟩)
  have hr₀ := hp.ready
  refine declareLocal_ends hr hn ?_
  split
  · next he =>
    have hnil : v.initializers = [] := by simpa using he
    exact .pure ⟨_, .refl hr₀, .array hv hs hnil⟩
  · next he =>
    have hne : v.initializers ≠ [] := by simpa using he
    have hslot : Holds s.module (b.addLocal v.name (.array v.kind.scalar length)).2
        (Storage.slot b.locals.size).operand (.pointer (.array v.kind.scalar length)) :=
      .of_fits (slot_type s.module b v.name _)
    refine (storeElements_ends ctx length 0 v.initializers hr₀ hslot).mono ?_ fun _ h =>
      (h.refuses hr₀ hp.inner id).of hr.opened hp rfl fun hk hc => hk ?_
    · intro _ s₁ hdone
      obtain ⟨b₁, he₁, hst⟩ := hdone
      exact ⟨b₁, he₁, .elements hv hs hne hst⟩
    · rw [withLocal_static]
      exact fun e he => hc.values e (by simpa [Variable.values, hv] using he)

theorem localArray_ends {s : State} {b : Builder} {v : Variable} {extent : Extent} {length : Nat}
    (ctx : Context) (hr : Ready s b) (hi : s.scopes.inner ≠ [])
    (hn : s.scopes.lookupCurrent v.name = none) (hv : v.extent = some extent)
    (hs : Spans v extent.length length) :
    Ends (localArray ctx v length) s (fun _ => Carries (.declare v) s b)
      (Refuses (¬ v.Correct s.scopes.static) s b) := by
  have harray : v.isArray = true := by simp [Variable.isArray, hv]
  have hp : Proceeds s b [] (s.withLocal b v (.array v.kind.scalar length)) _ :=
    withLocal_proceeds hr hi (fun h => by simp [harray] at h) (fun _ => ⟨length, rfl⟩)
  refine (localArray_initializes ctx hr hi hn hv hs).mono ?_ fun _ h => h
  intro _ s' hdone
  obtain ⟨b', he, hinit⟩ := hdone
  exact he.initializes hr hp hn hinit

theorem arrayLength_ends (ctx : Context) (v : Variable) (length : Expr) (s : State) :
    Ends (arrayLength ctx v length) s (fun n s' => Spans v length n ∧ s' = s)
      (fun s' => (∀ n, ¬ Spans v length n) ∧ s' = s) := by
  refine (fold_ends ctx length s).bind ?_ ?_
  · intro w s' hdone
    obtain ⟨hw, rfl⟩ := hdone
    cases w with
    | float x =>
      refine .report rfl ⟨?_, rfl⟩
      intro n hex
      obtain ⟨⟨k, hk, -⟩, -⟩ := hex
      cases hw.unique hk
    | int k =>
      dsimp only
      split
      · next hle =>
        refine .report rfl ⟨?_, rfl⟩
        intro n hex
        obtain ⟨⟨k', hk, hpos, -⟩, -⟩ := hex
        cases hw.unique hk
        exact absurd hle (by simpa using hpos)
      · next hpos =>
        split
        · next hlt =>
          refine .report rfl ⟨?_, rfl⟩
          intro n hex
          obtain ⟨⟨k', hk, -, rfl⟩, hc⟩ := hex
          cases hw.unique hk
          omega
        · next hge =>
          exact .pure ⟨⟨⟨k, hw, by simpa using hpos, rfl⟩, by omega⟩, rfl⟩
  · intro s' hdone
    obtain ⟨hn, rfl⟩ := hdone
    refine ⟨?_, rfl⟩
    intro n hex
    obtain ⟨⟨k, hk, -⟩, -⟩ := hex
    exact hn _ hk

theorem declaration_advances (ctx : Context) (hc : ctx.inGlobalScope = false) (v : Variable) :
    Advances (variableDeclaration ctx v) (.declare v) := by
  intro s b hr hi
  rw [Stmt.Correct, Stmt.blocks]
  have hstay : Proceeded s b s := ⟨b, (Emits.refl hr).proceeds hr hi, rfl⟩
  have hrefuse : ∀ s', Refuses (¬ v.Correct s.scopes.static) s b s' →
      Refuses (0 = 0 ∧ ¬ v.Correct s.scopes.static) s b s' := fun _ h => ⟨h.1, rfl, h.2⟩
  apply Ends.get_bind
  cases hn : s.scopes.lookupCurrent v.name with
  | some x =>
    refine .report rfl ⟨hstay, rfl, fun hcor => ?_⟩
    rw [(Scopes.fresh_static _ _).mp hcor.fresh] at hn
    cases hn
  | none =>
    rw [hc]
    cases hv : v.extent with
    | none => exact (localScalar_ends ctx hr hi hn hv).mono (fun _ _ h => h) hrefuse
    | some extent =>
      refine (arrayLength_ends ctx v extent.length s).bind ?_ ?_
      · intro n s' hdone
        obtain ⟨hs, rfl⟩ := hdone
        exact (localArray_ends ctx hr hi hn hv hs).mono (fun _ _ h => h) hrefuse
      · intro s' hdone
        obtain ⟨hs, rfl⟩ := hdone
        refine ⟨hstay, rfl, fun hcor => ?_⟩
        obtain ⟨n, hn⟩ := hcor.sized extent hv
        exact hs n hn

/-- What a test gives: an operand on which to branch, which is that of the condition where nothing
is reported. -/
def Tests (test : Lower Operand) (c : Condition) : Prop :=
  ∀ s b, Ready s b → s.scopes.inner ≠ [] → ∀ stopped, Ends test s
    (fun o s' => ∃ b', Proceeds s b [] s' b' ∧ b'.blocks.size = b.blocks.size ∧
      s'.scopes = s.scopes ∧ Holds s.module b' o (.scalar .i1) ∧
      Judged s s' (Compares s.scopes b c b' o) (c.Correct s.scopes.static)) stopped

theorem test_tests (ctx : Context) (c : Condition) : Tests (test ctx c) c := by
  intro s b hr hi stopped
  refine ((condition_ends ctx c hr).mono ?_ (fun _ h => h)).recording ?_
  · intro o s' hdone
    obtain ⟨b', he, ho, hc⟩ := hdone
    have hp := he.proceeds hr hi
    have hsize := he.appends.size
    obtain ⟨rfl, -, -⟩ := he
    exact ⟨b', hp, hsize, rfl, ho, .inl ⟨rfl, hc⟩⟩
  · intro s' d hd hdone
    obtain ⟨⟨b', he⟩, hn⟩ := hdone
    have hp := (he.proceeds hr hi).record d
    have hsize := he.appends.size
    obtain ⟨rfl, -, -⟩ := he
    refine ⟨b', hp, hsize, rfl, ⟨rfl, fun t ht => by cases ht⟩, .inr ⟨?_, hn⟩⟩
    rw [State.errors_record _ hd]
    exact Nat.lt_succ_self _

theorem Judged.both {s s₁ s₂ : State} {code code' code'' correct correct' correct'' : Prop}
    (h : Judged s s₁ code correct) (hle : s.errors ≤ s₁.errors) (hle' : s₁.errors ≤ s₂.errors)
    (k : code → Judged s₁ s₂ code' correct') (hcode : code → code' → code'')
    (hcorrect : correct'' → correct) (hcorrect' : code → correct'' → correct') :
    Judged s s₂ code'' correct'' := by
  rcases h with ⟨he, hc⟩ | ⟨hlt, hn⟩
  · rcases k hc with ⟨he', hc'⟩ | ⟨hlt', hn'⟩
    · exact .inl ⟨he'.trans he, hcode hc hc'⟩
    · exact .inr ⟨Nat.lt_of_le_of_lt hle hlt', fun h => hn' (hcorrect' hc h)⟩
  · exact .inr ⟨Nat.lt_of_lt_of_le hlt hle', fun h => hn (hcorrect h)⟩

theorem branch_advances {test : Lower Operand} {body : Lower Unit} {c : Condition} {st : Stmt}
    (span : Span) (hc : Tests test c) (hbody : Advances body st) :
    Advances (branch test body) (.branch c st span) := by
  intro s b hr hi
  refine branch_ends ((hc s b hr hi _).mono ?_ (fun s' (h : Refuses _ s b s') => h))
  intro x s₁ hdone
  obtain ⟨b₁, hp₁, hsize₁, hs₁, ho, hj₁⟩ := hdone
  have hp₂ := hp₁.fork hr.opened ho
  refine ⟨b₁, hp₁.ready, (hbody.recording hp₂.ready hp₂.inner _).mono ?_ (fun _ h => h)⟩
  intro _ s₂ hdone
  obtain ⟨b₃, hp₃, hsize₃, hj₃⟩ := hdone
  have hp₄ := hp₂.trans hr.opened hp₃
  refine ⟨b₃, hp₃.ready, _, hp₄.goto hr.opened _ (List.erase_cons_head _ _) (by simp)
    (hp₄.lt hr.opened (by simp)) ⟨_, by simp, .refl⟩ (.inl rfl), ?_, ?_⟩
  · simp only [leave_size, hsize₃, fork_size, hsize₁, Stmt.blocks]
    omega
  simp only [State.building_functions, State.building_scopes, State.known, hs₁, hp₁.functions]
    at hj₃
  rw [Stmt.Correct]
  exact hj₁.both hp₁.errors hp₃.errors (fun _ => hj₃) .branch And.left fun _ => And.right

theorem branchElse_advances {test : Lower Operand} {body other : Lower Unit} {c : Condition}
    {st st' : Stmt} (span : Span) (hc : Tests test c) (hbody : Advances body st)
    (hother : Advances other st') :
    Advances (branchElse test body other) (.branchElse c st st' span) := by
  intro s b hr hi
  refine branchElse_ends ((hc s b hr hi _).mono ?_ (fun s' (h : Refuses _ s b s') => h))
  intro x s₁ hdone
  obtain ⟨b₁, hp₁, hsize₁, hs₁, ho, hj₁⟩ := hdone
  have hp₂ := hp₁.forkElse hr.opened ho
  refine ⟨b₁, hp₁.ready, (hbody.recording hp₂.ready hp₂.inner _).mono ?_ (fun _ h => h)⟩
  intro _ s₂ hdone
  obtain ⟨b₃, hp₃, hsize₃, hj₃⟩ := hdone
  have hp₄ := hp₂.trans hr.opened hp₃
  -- the alternative was linked by the test, not by the block that is left now
  have hl : Linked b₃.blocks b.current (b₁.blocks.size + 1) :=
    Linked.mono (hp₃.built.within hp₂.ready.opened)
      ((hp₁.three hr.opened).linked hr.opened
        (.branch x b₁.blocks.size (b₁.blocks.size + 1)) b₁.blocks.size
        (List.mem_cons_of_mem _ List.mem_cons_self))
  have hp₅ := hp₄.goto hr.opened _ (erase_second _) (by simp)
    (hp₄.lt hr.opened List.mem_cons_self) ⟨_, List.mem_cons_self, .refl⟩ (.inr hl)
  refine ⟨b₃, hp₃.ready, (hother.recording hp₅.ready hp₅.inner _).mono ?_ (fun _ h => h)⟩
  intro _ s₃ hdone
  obtain ⟨b₆, hp₆, hsize₆, hj₆⟩ := hdone
  have hp₇ := hp₅.trans hr.opened hp₆
  refine ⟨b₆, hp₆.ready, _, hp₇.goto hr.opened _ (List.erase_cons_head _ _) (by simp)
    (hp₇.lt hr.opened (by simp)) ⟨_, by simp, .refl⟩ (.inl rfl), ?_, ?_⟩
  · simp only [leave_size, hsize₆, hsize₃, forkElse_size, hsize₁, Stmt.blocks]
    omega
  have hf₃ : s₂.functions = s.functions := hp₃.functions.trans hp₁.functions
  simp only [State.building_functions, State.building_scopes, State.known, hs₁, hp₁.functions,
    hf₃] at hj₃ hj₆
  rw [Stmt.Correct]
  have hboth : Judged s₁ s₃ _ (st.Correct s.known s.scopes.static ∧
      st'.Correct s.known (st.scope s.scopes.static)) :=
    hj₃.both hp₃.errors hp₆.errors (fun _ => hj₆) And.intro And.left
      fun hg h => hg.correct.2 ▸ h.2
  exact hj₁.both hp₁.errors (Nat.le_trans hp₃.errors hp₆.errors) (fun _ => hboth)
    (fun hcmp hg => .branchElse hcmp hg.1 hg.2) And.left fun _ => And.right

theorem loop_advances {test : Lower Operand} {body : Lower Unit} {c : Condition} {st : Stmt}
    (span : Span) (hc : Tests test c) (hbody : Advances body st) :
    Advances (loop test body) (.loop c st span) := by
  intro s b hr hi
  have hp₁ := ((Emits.refl hr).proceeds hr hi).enterLoop hr.opened
  refine loop_ends hr ((hc _ _ hp₁.ready hp₁.inner _).mono ?_
    (fun s' (h : Refuses _ s b s') => h))
  intro x s₁ hdone
  obtain ⟨b₂, hp₂, hsize₂, hs₂, ho, hj₂⟩ := hdone
  have hp₃ := hp₁.trans hr.opened hp₂
  have hp₄ := hp₃.branch hr.opened ho (erase_second _) (by simp) List.mem_cons_self
  refine ⟨b₂, hp₂.ready, (hbody.recording hp₄.ready hp₄.inner _).mono ?_ (fun _ h => h)⟩
  intro _ s₂ hdone
  obtain ⟨b₅, hp₅, hsize₅, hj₅⟩ := hdone
  have hp₆ := hp₄.trans hr.opened hp₅
  -- the block after the loop was linked by the test, which every round comes back to
  have hl : Linked b₅.blocks b.current (b.blocks.size + 2) :=
    Linked.mono (hp₅.built.within hp₄.ready.opened)
      (hp₃.linked hr.opened (.branch x (b.blocks.size + 1) (b.blocks.size + 2))
        (b.blocks.size + 1) (List.mem_cons_of_mem _ List.mem_cons_self))
  have hd : Linked b₅.blocks b.blocks.size (b.blocks.size + 2) :=
    Linked.mono (hp₅.built.within hp₄.ready.opened)
      (hp₂.linked hp₁.ready.opened (.branch x (b.blocks.size + 1) (b.blocks.size + 2))
        (b.blocks.size + 1) (List.mem_cons_of_mem _ List.mem_cons_self))
  have hlt := hp₆.lt hr.opened (List.mem_singleton.mpr rfl)
  refine ⟨b₅, hp₅.ready, _, hp₆.goto hr.opened b.blocks.size (List.erase_cons_head _ _)
    (by simp) (by omega) ⟨_, List.mem_singleton_self _, hd⟩ (.inr hl), ?_, ?_⟩
  · simp only [leave_size, hsize₅, hsize₂, enterLoop_size, Stmt.blocks]
    omega
  simp only [State.building_functions, State.building_scopes, State.known, hs₂, hp₂.functions]
    at hj₅
  rw [Stmt.Correct]
  exact hj₂.both hp₂.errors hp₅.errors (fun _ => hj₅) .loop And.left fun _ => And.right

mutual

theorem stmt_advances (ctx : Context) (hc : ctx.inGlobalScope = false) :
    (st : Stmt) → Advances (stmt ctx st) st
  | .declare v => by
    unfold stmt
    exact declaration_advances ctx hc v
  | .assign target value span => by
    unfold stmt
    exact assignment_advances ctx target value span
  | .call name span => by
    unfold stmt
    exact call_advances name span
  | .block body _ => by
    intro s b hr hi
    unfold stmt
    rw [Stmt.Correct]
    have hr' : Ready { s with scopes := s.scopes.enter .block } b :=
      ⟨hr.builder, hr.opened, hr.fits.enter _, hr.callees⟩
    refine .bind_eq rfl ((stmts_ends ctx hc body _ b hr' (List.cons_ne_nil _ _) _).bind ?_
      (fun s' (h : Refuses _ s b s') => h))
    intro _ s' hdone
    obtain ⟨b', hp, hsize, hj⟩ := hdone
    have hout : s'.scopes.exit = s.scopes := hp.outer
    have hin : s'.scopes.exit.inner ≠ [] := hout ▸ hi
    refine .of_eq rfl ⟨b', ⟨hp.module, hp.functions, hp.built,
      ⟨hp.ready.builder, hp.ready.opened, hp.ready.fits.exit, hp.ready.callees⟩,
      hin, congrArg Scopes.exit hout, hp.errors⟩, by rw [hsize, Stmt.blocks], ?_⟩
    rw [Stmt.Correct]
    refine hj.imp_left ?_
    intro hex
    obtain ⟨he, hg⟩ := hex
    refine ⟨he, ?_⟩
    show Generates s.functions s.scopes b _ s'.scopes.exit b'
    rw [hout]
    exact .block hg
  | .branch c body span => by
    unfold stmt
    exact branch_advances span (test_tests ctx c) (stmt_advances ctx hc body)
  | .branchElse c body other span => by
    unfold stmt
    exact branchElse_advances span (test_tests ctx c) (stmt_advances ctx hc body)
      (stmt_advances ctx hc other)
  | .loop c body span => by
    unfold stmt
    exact loop_advances span (test_tests ctx c) (stmt_advances ctx hc body)
  | .empty span => by
    intro s b hr hi
    unfold stmt
    exact .pure ((Emits.refl hr).carries hr hi (by rw [Stmt.blocks]) .empty)

theorem stmts_ends (ctx : Context) (hc : ctx.inGlobalScope = false) :
    (body : List Stmt) → ∀ (s : State) (b : Builder), Ready s b → s.scopes.inner ≠ [] →
      ∀ stopped, Ends (stmts ctx body) s (fun _ s' => ∃ b', Proceeds s b [] s' b' ∧
        b'.blocks.size = b.blocks.size + Stmt.allBlocks body ∧
        Judged s s' (GeneratesAll s.functions s.scopes b body s'.scopes b')
          (Stmt.AllCorrect s.known s.scopes.static body)) stopped
  | [] => by
    intro s b hr hi stopped
    unfold stmts
    exact .pure ⟨b, (Emits.refl hr).proceeds hr hi, by rw [Stmt.allBlocks]; rfl,
      .inl ⟨rfl, .nil⟩⟩
  | st :: rest => by
    intro s b hr hi stopped
    unfold stmts
    refine ((stmt_advances ctx hc st).recording hr hi stopped).bind ?_ (fun _ h => h)
    intro _ s₁ hdone
    obtain ⟨b₁, hp₁, hsize₁, hj₁⟩ := hdone
    refine (stmts_ends ctx hc rest s₁ b₁ hp₁.ready hp₁.inner stopped).mono ?_ (fun _ h => h)
    intro _ s₂ hdone
    obtain ⟨b₂, hp₂, hsize₂, hj₂⟩ := hdone
    have hsize : b₂.blocks.size = b.blocks.size + Stmt.allBlocks (st :: rest) := by
      rw [hsize₂, hsize₁, Stmt.allBlocks, Nat.add_assoc]
    rw [Stmt.AllCorrect]
    simp only [State.known, hp₁.functions] at hj₂
    exact ⟨b₂, hp₁.trans hr.opened hp₂, hsize, hj₁.both hp₁.errors hp₂.errors (fun _ => hj₂) .cons
      And.left fun hg h => hg.correct.2 ▸ h.2⟩

end

end Lower

end C1Lang
