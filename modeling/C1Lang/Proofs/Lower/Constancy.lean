import C1Lang.Proofs.Lower.Functions
import C1Lang.Proofs.Lower.Walk

/-!
# Constants are not overwritten

A variable is sealed when all variables in scope that are kept where it is are constant and no
store has gone there (`Sealed`). The constants of the module are sealed from the start, and a
constant of a function from its declaration on, but for the stores of that declaration. So no store
goes into a constant of the module, and the stores into the slot of a constant are those of the
declaration that allocated it (`lower_keeps_constants`). Nothing is asked of the program: errors in
it change nothing.
-/

namespace C1Lang

namespace Lower

open IR

def Maintains (I : State → Prop) (s s' : State) : Prop := I s → I s'

instance (I : State → Prop) : IsPreorder State (Maintains I) where
  refl _ h := h
  trans _ _ _ h k hs := k (h hs)

/-- The variables in scope that are kept at `x` are constant, and only the stores at positions of
`A` may have gone there. -/
structure Sealed (x : Storage) (A : Nat → Nat → Prop) (s : State) : Prop where
  constant : ∀ b, s.scopes.Binds b → b.storage = x → b.constant = true
  stores : ∀ id position ptr value, s.At id position (.store ptr value) →
    A id position ∨ ∃ y, y ≠ x ∧ s.Points y ptr

def Added (s s' : State) (id position : Nat) : Prop :=
  (∃ i, s'.At id position i) ∧ ¬ ∃ i, s.At id position i

section Sealing

variable {x : Storage} {A : Nat → Nat → Prop} {s s' : State}

theorem Sealed.kept (h : Sealed x A s)
    (hk : ∀ id position i, s.At id position i → s'.At id position i) {id position : Nat}
    {ptr value : Operand} (hi : s.At id position (.store ptr value)) :
    A id position ∨ ∃ y, y ≠ x ∧ s'.Points y ptr := by
  rcases h.stores id position ptr value hi with hA | ⟨y, hy, hp⟩
  · exact .inl hA
  · exact .inr ⟨y, hy, hp.mono hk⟩

theorem Sealed.writes (h : Sealed x A s) (hw : Writes s.Assignable s s') : Sealed x A s' := by
  refine ⟨fun b hb => h.constant b (hw.scopes ▸ hb), fun id position ptr value hi => ?_⟩
  rcases hw.stores _ _ _ _ hi with hi | ⟨y, ⟨b, hb, hc, hy⟩, hp⟩
  · exact h.kept hw.kept hi
  · refine .inr ⟨y, ?_, hp⟩
    rintro rfl
    have hconst := h.constant b hb hy
    rw [hc] at hconst
    cases hconst

theorem Sealed.scopes (h : Sealed x A s) {scopes : Scopes}
    (hs : ∀ y, scopes.Binds y → s.scopes.Binds y) : Sealed x A { s with scopes } := by
  have hsame : ∀ id position i, s.At id position i →
      State.At { s with scopes } id position i := fun _ _ _ h => h
  exact ⟨fun b hb => h.constant b (hs b hb), fun _ _ _ _ hi => h.kept hsame hi⟩

theorem Sealed.allocates {v : Variable} (h : Sealed x A s) (ha : Allocates v s s')
    (hx : x ≠ .slot s.slots) : Sealed x A s' := by
  constructor
  · intro b hb hbx
    rcases ha.scopes b hb with hb | ⟨hslot, -⟩
    · exact h.constant b hb hbx
    · exact absurd (hbx.symm.trans hslot) hx
  · intro id position ptr value hi
    rcases ha.stores _ _ _ _ hi with hi | hp
    · exact h.kept ha.kept hi
    · exact .inr ⟨_, hx.symm, hp⟩

theorem Sealed.declares {v : Variable} (h : Sealed (.slot s.slots) (fun _ _ => False) s)
    (ha : Allocates v s s') (hv : v.constant = true) :
    Sealed (.slot s.slots) (Added s s') s' := by
  constructor
  · intro b hb hslot
    rcases ha.scopes b hb with hb | ⟨-, hc⟩
    · exact h.constant b hb hslot
    · exact hc.trans hv
  · intro id position ptr value hi
    -- a store that was there before has not gone to the new slot
    by_cases hold : ∃ i, s.At id position i
    · obtain ⟨i, hold⟩ := hold
      obtain rfl := (ha.kept _ _ _ hold).unique hi
      exact (h.kept ha.kept hold).imp_left False.elim
    · exact .inl ⟨⟨_, hi⟩, hold⟩

theorem sealed_stable (x : Storage) (A : Nat → Nat → Prop) : Stable (Maintains (Sealed x A)) :=
  ⟨fun _ _ hw h => h.writes hw, fun _ _ hs h => h.scopes hs⟩

end Sealing

/-- Either slot `k` does not exist yet, or a declaration that lowering has come to has allocated
it; if it declares a constant, nothing but it has stored there. -/
def Allotted (ctx : Context) (body : List Stmt) (s₀ : State) (k : Nat) (s : State) : Prop :=
  s.slots ≤ k ∧ Sealed (.slot k) (fun _ _ => False) s ∨
    ∃ v s₁ s₂, ComesTo ctx v s₁ s₂ body s₀ ∧ s₁.slots = k ∧ s₂.slots = k + 1 ∧ k < s.slots ∧
      (v.constant = true → Sealed (.slot k) (Added s₁ s₂) s)

theorem Writes.allotted {ctx : Context} {body : List Stmt} {s₀ s s' : State} {k : Nat}
    (hw : Writes s.Assignable s s') (h : Allotted ctx body s₀ k s) :
    Allotted ctx body s₀ k s' := by
  obtain ⟨hle, hseal⟩ | ⟨v, s₁, s₂, hcome, h₁, h₂, hlt, hseal⟩ := h
  · exact .inl ⟨hw.slots ▸ hle, hseal.writes hw⟩
  · exact .inr ⟨v, s₁, s₂, hcome, h₁, h₂, hw.slots ▸ hlt, fun hv => (hseal hv).writes hw⟩

theorem allotted_stable (ctx : Context) (body : List Stmt) (s₀ : State) (k : Nat) :
    Stable (Maintains (Allotted ctx body s₀ k)) := by
  refine ⟨fun _ _ hw => hw.allotted, fun s scopes hs h => ?_⟩
  obtain ⟨hle, hseal⟩ | ⟨v, s₁, s₂, hcome, h₁, h₂, hlt, hseal⟩ := h
  · exact .inl ⟨hle, hseal.scopes hs⟩
  · exact .inr ⟨v, s₁, s₂, hcome, h₁, h₂, hlt, fun hv => (hseal hv).scopes hs⟩

theorem ComesTo.allotted {ctx : Context} (hc : ctx.inGlobalScope = false) {v : Variable}
    {s₁ s₂ s₀ : State} {body : List Stmt} {k : Nat} (hcome : ComesTo ctx v s₁ s₂ body s₀) :
    Maintains (Allotted ctx body s₀ k) s₁ s₂ := by
  intro h
  rcases localVariable_recorded hc hcome.run with hw | ha
  · exact hw.allotted h
  · have hslots := ha.slots
    obtain ⟨hle, hseal⟩ | ⟨v', s₁', s₂', hcome', h₁, h₂, hlt, hseal⟩ := h
    · by_cases heq : s₁.slots = k
      · -- this is the declaration that allocates the slot
        subst heq
        exact .inr ⟨v, s₁, s₂, hcome, rfl, hslots, by omega, hseal.declares ha⟩
      · have hne : Storage.slot k ≠ .slot s₁.slots := by
          simp only [ne_eq, Storage.slot.injEq]
          omega
        exact .inl ⟨by omega, hseal.allocates ha hne⟩
    · have hne : Storage.slot k ≠ .slot s₁.slots := by
        simp only [ne_eq, Storage.slot.injEq]
        omega
      exact .inr ⟨v', s₁', s₂', hcome', h₁, h₂, by omega, fun hv => (hseal hv).allocates ha hne⟩

theorem ComesTo.sealed_global {ctx : Context} (hc : ctx.inGlobalScope = false) {v : Variable}
    {s₁ s₂ s₀ : State} {body : List Stmt} {id : Nat} {A : Nat → Nat → Prop}
    (hcome : ComesTo ctx v s₁ s₂ body s₀) : Maintains (Sealed (.global id) A) s₁ s₂ := by
  intro h
  rcases localVariable_recorded hc hcome.run with hw | ha
  · exact h.writes hw
  · apply h.allocates ha
    simp

section Finished

variable {f : Function} {s : State} {x y : Storage} {ptr : Operand}

theorem eq_of_addresses_operand (h : f.Addresses x.operand y.operand) : y = x := by
  generalize hy : y.operand = o at h
  cases h with
  | whole => cases x <;> cases y <;> cases hy <;> rfl
  | element => cases y <;> cases hy

theorem State.Points.eq_of_addresses (hp : s.Points y ptr) (hs : f.SingleAssignment)
    (hat : ∀ id position i, s.At id position i → f.At id position i)
    (h : f.Addresses x.operand ptr) : y = x := by
  cases hp with
  | whole => exact eq_of_addresses_operand h
  | @element id position dest index hi =>
    generalize ho : Operand.temp dest = o at h
    cases h with
    | whole => cases x <;> cases ho
    | @element id' position' dest' base index' ha hi' =>
      cases ho
      -- the temporary has one write, so both instructions are the same
      obtain ⟨rfl, rfl⟩ := hs dest id position id' position' ⟨_, hat _ _ _ hi, rfl⟩ ⟨_, hi', rfl⟩
      cases (hat _ _ _ hi).unique hi'
      exact eq_of_addresses_operand ha

theorem State.at_iff {b : Builder} {id position : Nat} {i : Instr} (hs : s.builder = some b) :
    s.At id position i ↔ b.finish.At id position i := by
  constructor
  · intro h
    obtain ⟨c, hc, h⟩ := h
    rw [hs] at hc
    cases hc
    exact h
  · exact fun h => ⟨b, hs, h⟩

theorem Sealed.of_storesInto {A : Nat → Nat → Prop} {id position : Nat} (h : Sealed x A s)
    (hs : f.SingleAssignment) (hat : ∀ id position i, s.At id position i ↔ f.At id position i)
    (hf : f.StoresInto x.operand id position) : A id position := by
  obtain ⟨ptr, value, hi, ha⟩ := hf
  rcases h.stores id position ptr value ((hat _ _ _).mpr hi) with hA | ⟨y, hy, hp⟩
  · exact hA
  · exact absurd (hp.eq_of_addresses hs (fun _ _ _ => (hat _ _ _).mp) ha) hy

end Finished

def Flagged (s : State) : Prop :=
  ∀ x, s.scopes.Binds x → ∃ id g, x.storage = .global id ∧ s.module.globals[id]? = some g ∧
    g.constant = x.constant

structure Grows (s s' : State) : Prop where
  globals : ∀ (id : Nat) (g : Global), s.module.globals[id]? = some g →
    s'.module.globals[id]? = some g
  flagged : Flagged s → Flagged s'

instance : IsPreorder State Grows where
  refl _ := ⟨fun _ _ h => h, fun h => h⟩
  trans _ _ _ h k := ⟨fun id g hg => k.globals id g (h.globals id g hg),
    fun hf => k.flagged (h.flagged hf)⟩

section Globals

variable {s : State}

theorem Warned.grows {s' : State} (h : Warned s s') : Grows s s' := by
  obtain ⟨ds, rfl, -⟩ := h
  exact ⟨fun _ _ h => h, fun h => h⟩

theorem addGlobal_keeping (v : Variable) (ty : Ty) (init : Option Init) :
    Keeping Grows (addGlobal v ty init) := by
  intro s
  have hpush : ∀ (id : Nat) (g : Global), s.module.globals[id]? = some g →
      (s.module.globals.push ⟨v.name, ty, v.constant, init⟩)[id]? = some g := by
    intro id g hg
    have hlt := (Array.getElem?_eq_some_iff.mp hg).1
    rw [Array.getElem?_push_lt hlt]
    rwa [Array.getElem?_eq_getElem hlt] at hg
  apply Keeps.get_bind
  refine .bind_eq rfl (R := fun _ => Grows s) ?_ fun _ h => h
  cases hd : s.scopes.declare? v.name ⟨.global s.module.globals.size, v.constant, v.isArray,
    v.kind, v.nameSpan⟩ with
  | none =>
    exact .of_fault (bind_redeclared (s := { s with module := _ }) hd)
  | some scopes =>
    refine .of_eq (bind_declared hd) ⟨hpush, fun hf x hx => ?_⟩ trivial
    rcases Scopes.binds_declare? hd hx with hx | rfl
    · obtain ⟨id, g, hs, hg, hc⟩ := hf x hx
      exact ⟨id, g, hs, hpush id g hg, hc⟩
    · exact ⟨_, _, rfl, Array.getElem?_push_size, rfl⟩

theorem globalScalar_keeping (ctx : Context) (v : Variable) :
    Keeping Grows (globalScalar ctx v) := by
  intro s
  unfold globalScalar
  split
  · exact addGlobal_keeping v _ _ s
  · refine Keeps.bind (.of_ends (constantInitializer_ends ctx _ _ s) ?_ ?_) ?_
    · exact fun _ _ hdone => hdone.2.2.grows
    · exact fun _ hdone => hdone.2.grows
    · exact fun _ s₁ _ _ _ => addGlobal_keeping v _ _ s₁

theorem globalArray_keeping (ctx : Context) (v : Variable) (length : Nat) :
    Keeping Grows (globalArray ctx v length) := by
  intro s
  refine Keeps.bind (.of_ends (constantInitializers_ends ctx _ _ s) ?_ ?_) ?_
  · exact fun _ _ hdone => hdone.2.2.2.grows
  · exact fun _ hdone => hdone.2.grows
  · exact fun _ s₁ _ _ _ => addGlobal_keeping v _ _ s₁

theorem globalVariable_keeping (v : Variable) : Keeping Grows (declaration (.global v)) := by
  intro s
  apply Keeps.get_bind
  split
  · exact .report
  · split
    · exact .report
    · split
      · exact globalScalar_keeping _ v s
      · next hg => cases hg
      · refine Keeps.bind (.of_ends (arrayLength_ends _ _ _ _) ?_ ?_) ?_
        · exact fun _ _ hdone => hdone.2 ▸ refl_of Grows s
        · exact fun _ hdone => hdone.2 ▸ refl_of Grows s
        · exact fun n s₁ _ _ _ => globalArray_keeping _ v n s₁
      · next hg => cases hg

theorem function_keeps (d : FunctionDef) (h : Settled s) :
    Keeps Grows (declaration (.function d)) s fun _ _ => True := by
  cases hf : s.functions.lookup d.name with
  | some previous =>
    apply Keeps.get_bind
    rw [hf]
    exact .report
  | none =>
    cases hg : s.scopes.lookupGlobal d.name with
    | some global =>
      apply Keeps.get_bind
      rw [hf, hg]
      exact .report
    | none =>
      obtain ⟨s', b, heq, hp, -⟩ := body_ends d h
      have hmodule : s'.module = (s.module.declare d.name).2 := hp.module
      have hscopes : s'.scopes.exit = s.scopes := hp.outer
      have hends : Ends (declaration (.function d)) s (fun _ s'' => s'' =
          s'.closing s.module.functions.size b) fun _ => False :=
        function_ends hf hg (.of_eq heq ⟨b, hp, rfl⟩)
      refine .of_ends hends (fun _ s'' hdone => ?_) fun _ hdone => hdone.elim
      subst hdone
      have hglobals : (s'.closing s.module.functions.size b).module.globals = s.module.globals := by
        show s'.module.globals = _
        rw [hmodule]
        rfl
      constructor
      · intro id g hg
        rwa [hglobals]
      · intro hflagged x hx
        rw [hglobals]
        have hx' : s'.scopes.exit.Binds x := hx
        rw [hscopes] at hx'
        exact hflagged x hx'

theorem declarations_grow (p : Program) {s s' : State} (h : Settled s)
    (hrun : declarations p s = .ok () s') : Grows s s' ∧ Settled s' := by
  induction p generalizing s with
  | nil =>
    cases hrun
    exact ⟨refl_of Grows _, h⟩
  | cons d rest ih =>
    have hd : Keeps Grows (declaration d) s fun _ _ => True := by
      cases d with
      | function f => exact function_keeps f h
      | global v => exact globalVariable_keeping v s
    have hrecorded : Keeps Grows (recording (declaration d) ()) s fun _ _ => True :=
      hd.recording fun _ _ hs => ⟨hs.globals, hs.flagged⟩
    obtain ⟨_, s₁, heq, hrest⟩ := bind_eq_ok hrun
    obtain ⟨s₂, heq', hs, -⟩ := declaration_contributes d h
    rw [heq] at heq'
    cases heq'
    obtain ⟨hgrow, hsettled⟩ := ih hs hrest
    exact ⟨trans_of Grows (hrecorded.of_ok heq) hgrow, hsettled⟩

theorem declarations_append {before rest : Program} {s' : State}
    (h : declarations (before ++ rest) s = .ok () s') :
    ∃ s₁, declarations before s = .ok () s₁ ∧ declarations rest s₁ = .ok () s' := by
  induction before generalizing s with
  | nil => exact ⟨s, rfl, h⟩
  | cons d before ih =>
    obtain ⟨_, s₁, heq, hrest⟩ := bind_eq_ok h
    obtain ⟨s₂, hbefore, hrest⟩ := ih hrest
    exact ⟨s₂, (bind_ok heq).trans hbefore, hrest⟩

end Globals

def Arrives (name : String) (p : Program) (d : FunctionDef) (s : State) : Prop :=
  ∃ before after, p = before ++ .function d :: after ∧
    declarations before { module := { name } } = .ok () s

section Bodies

variable {s s' : State} {d : FunctionDef}

theorem opening_not_at {id position : Nat} {i : Instr} : ¬ (s.opening d).At id position i := by
  intro h
  obtain ⟨b, hb, c, hc, hi⟩ := h
  cases hb
  cases id with
  | zero =>
    cases hc
    cases hi
  | succ id => simp [Builder.start, Builder.finish] at hc

theorem opening_sealed {x : Storage}
    (h : ∀ b, s.scopes.Binds b → b.storage = x → b.constant = true) :
    Sealed x (fun _ _ => False) (s.opening d) :=
  ⟨fun b hb => h b (Scopes.binds_enter hb), fun _ _ _ _ hi => absurd hi opening_not_at⟩

theorem Flagged.allotted (h : Flagged s) (k : Nat) :
    Allotted .inFunction d.body (s.opening d) k (s.opening d) := by
  refine .inl ⟨Nat.zero_le k, opening_sealed fun b hb hk => ?_⟩
  -- between two declarations of the program no slot is in scope
  obtain ⟨id, g, hid, -⟩ := h b hb
  rw [hid] at hk
  cases hk

theorem body_allotted (h : Flagged s) (hrun : stmts .inFunction d.body (s.opening d) = .ok () s')
    (k : Nat) : Allotted .inFunction d.body (s.opening d) k s' := by
  have hstable := allotted_stable .inFunction d.body (s.opening d) k
  exact (stmts_keeps hstable d.body _ fun _ _ _ hcome => hcome.allotted rfl).of_ok hrun
    (h.allotted k)

theorem body_sealed {id : Nat} (h : Flagged s)
    (hg : ∀ g, s.module.globals[id]? = some g → g.constant = true)
    (hrun : stmts .inFunction d.body (s.opening d) = .ok () s') :
    Sealed (.global id) (fun _ _ => False) s' := by
  have hstart : Sealed (.global id) (fun _ _ => False) (s.opening d) := by
    refine opening_sealed fun b hb hid => ?_
    obtain ⟨id', g, hstorage, hget, hc⟩ := h b hb
    rw [hstorage] at hid
    cases hid
    exact hc ▸ hg g hget
  have hstable := sealed_stable (.global id) fun _ _ => False
  exact (stmts_keeps hstable d.body _ fun _ _ _ hcome => hcome.sealed_global rfl).of_ok hrun
    hstart

structure Allocated (s : State) (d : FunctionDef) (slot : Nat) (v : Variable) (s₁ s₂ : State) :
    Prop where
  comes : ComesTo .inFunction v s₁ s₂ d.body (s.opening d)
  before : s₁.slots = slot
  after : s₂.slots = slot + 1

theorem Allocated.unique {slot : Nat} {v v' : Variable} {s₁ s₂ s₁' s₂' : State}
    (h : Allocated s d slot v s₁ s₂) (h' : Allocated s d slot v' s₁' s₂') :
    v' = v ∧ s₁' = s₁ ∧ s₂' = s₂ := by
  have h₁ := h.before
  have h₂ := h.after
  have h₁' := h'.before
  have h₂' := h'.after
  exact h.comes.unique rfl h'.comes (by omega) (by omega) (by omega)

theorem body_slots (h : Flagged s) (hrun : stmts .inFunction d.body (s.opening d) = .ok () s')
    {slot : Nat} (hslot : slot < s'.slots) : ∃ v s₁ s₂, Allocated s d slot v s₁ s₂ ∧
      (v.constant = true → Sealed (.slot slot) (Added s₁ s₂) s') := by
  obtain ⟨hle, -⟩ | ⟨v, s₁, s₂, hcome, h₁, h₂, -, hseal⟩ := body_allotted h hrun slot
  · omega
  · exact ⟨v, s₁, s₂, ⟨hcome, h₁, h₂⟩, hseal⟩

theorem Allocated.sealed {slot : Nat} {v : Variable} {s₁ s₂ : State} (h : Flagged s)
    (hrun : stmts .inFunction d.body (s.opening d) = .ok () s')
    (ha : Allocated s d slot v s₁ s₂) (hv : v.constant = true) :
    Sealed (.slot slot) (Added s₁ s₂) s' := by
  have hkept : s₂.slots ≤ s'.slots := ((ha.comes.kept_after rfl).of_ok hrun).slots
  rw [ha.after] at hkept
  obtain ⟨v', s₁', s₂', ha', hseal⟩ := body_slots h hrun (Nat.lt_of_succ_le hkept)
  obtain ⟨rfl, rfl, rfl⟩ := ha.unique ha'
  exact hseal hv

end Bodies

theorem declarations_flagged {name : String} {before rest : Program} {s s' : State}
    (hs : declarations before { module := { name } } = .ok () s)
    (hrun : declarations (before ++ rest) { module := { name } } = .ok () s') :
    Flagged s ∧ Settled s ∧ Grows s s' := by
  obtain ⟨s₀, hs₀, hrest⟩ := declarations_append hrun
  rw [hs] at hs₀
  cases hs₀
  obtain ⟨hstart, hsettled⟩ := declarations_grow before (settled_start name) hs
  refine ⟨hstart.flagged fun x hx => ?_, hsettled, (declarations_grow rest hsettled hrest).1⟩
  obtain ⟨scope, hscope, _, hmem⟩ := hx
  obtain rfl := List.mem_singleton.mp hscope
  cases hmem

end Lower

/-- Constants are not overwritten, whatever the program holds. No store of a function goes into a
constant of the module, directly or through the address of an element. Every slot of a function was
allocated by one of the declarations that lowering its body has come to, and every store into the
slot of a constant was emitted by the declaration of that constant. -/
theorem lower_keeps_constants (name : String) (p : Program) :
    ∃ l, lower name p = .ok l ∧ ∀ f ∈ l.module.functions,
      (∀ id g, l.module.globals[id]? = some g → g.constant = true →
        ∀ block position, ¬ f.StoresInto (.global id) block position) ∧
      ∃ d s b, Lower.Arrives name p d s ∧ Lower.Fills s d b ∧
        f = (b.leave .ret b.current).finish ∧
        (∀ slot < f.locals.size, ∃ v s₁ s₂, Lower.Allocated s d slot v s₁ s₂) ∧
        ∀ slot v s₁ s₂, Lower.Allocated s d slot v s₁ s₂ → v.constant = true →
          ∀ block position, f.StoresInto (.slot slot) block position →
            Lower.Added s₁ s₂ block position := by
  obtain ⟨s', hrun, -, haccounted⟩ := Lower.declarations_settled name p
  refine ⟨⟨s'.module, s'.diagnostics⟩, by rw [lower, hrun], fun f hf => ?_⟩
  obtain ⟨d, b, ⟨before, after, s, rfl, hs, hfills⟩, rfl⟩ := haccounted f hf
  obtain ⟨hflagged, hsettled, hgrows⟩ := Lower.declarations_flagged hs hrun
  obtain ⟨t, hbody, ht⟩ := hfills.body
  have hsingle := (hfills.built hsettled).1.finish_assigned.single
  have hat : ∀ id position i,
      t.At id position i ↔ (b.leave .ret b.current).finish.At id position i :=
    fun id position i => (Lower.State.at_iff ht).trans (IR.at_leave b .ret b.current i).symm
  refine ⟨?_, d, s, b, ⟨before, after, rfl, hs⟩, hfills, rfl, ?_, ?_⟩
  · intro id g hg hc block position hstore
    -- the flag was the same when the function was lowered
    have hflag : ∀ g', s.module.globals[id]? = some g' → g'.constant = true := by
      intro g' hg'
      rw [hgrows.globals id g' hg'] at hg
      cases hg
      exact hc
    exact (Lower.body_sealed hflagged hflag hbody).of_storesInto hsingle hat hstore
  · intro slot hslot
    have hslots : t.slots = b.locals.size := by simp [Lower.State.slots, ht]
    obtain ⟨v, s₁, s₂, ha, -⟩ := Lower.body_slots hflagged hbody (hslots ▸ hslot)
    exact ⟨v, s₁, s₂, ha⟩
  · intro slot v s₁ s₂ ha hv block position hstore
    exact (ha.sealed hflagged hbody hv).of_storesInto hsingle hat hstore

def constantPair : Variable :=
  let zero : Span := ⟨0, 0⟩
  let int (n : Int32) : Expr := .literal (.int n) zero
  ⟨"a", zero, .int, true, some (.stated (int 2)), [int 1, int 2], zero⟩

/-- `void main() { const int a[2] = {1, 2}; { int g; g = 3; } g = 4; a[0] = 5; }` -/
def overwriting : FunctionDef :=
  let zero : Span := ⟨0, 0⟩
  let int (n : Int32) : Expr := .literal (.int n) zero
  let assign (target : Place) (n : Int32) : Stmt := .assign target (int n) zero
  { name := "main", nameSpan := zero, bodySpan := zero, span := zero
    body := [.declare constantPair,
      .block [.declare ⟨"g", zero, .int, false, none, [], zero⟩, assign (.name "g" zero) 3] zero,
      assign (.name "g" zero) 4, assign (.element "a" (int 0) zero) 5] }

def stubborn : Program :=
  let zero : Span := ⟨0, 0⟩
  [.global ⟨"g", zero, .int, true, none, [.literal (.int 1) zero], zero⟩, .function overwriting]

theorem stubborn_lowered {l : Lowered} (hl : lower "stubborn" stubborn = .ok l) :
    l.valid = false ∧ (∃ g, l.module.globals[0]? = some g ∧ g.constant = true) ∧
      ∃ f ∈ l.module.functions, f.StoresInto (.slot 0) 0 1 := by
  have h : (lower "stubborn" stubborn).toOption.any (fun l =>
      !l.valid && l.module.globals[0]?.any (·.constant) &&
      l.module.functions[0]?.any fun f => f.blocks[0]?.any fun b =>
        b.instructions[0]? == some (.elementPtr 0 (.slot 0) (.const (.int 0))) &&
        b.instructions[1]? == some (.store (.temp 0) (.const (.int 1)))) = true := by decide +kernel
  simp only [hl, Except.toOption, Option.any_some, Bool.and_eq_true, Bool.not_eq_true',
    Option.any_eq_true, beq_iff_eq] at h
  obtain ⟨⟨hv, hg⟩, f, hf, b, hb, hptr, hstore⟩ := h
  refine ⟨hv, hg, f, Array.mem_of_getElem? hf, .temp 0, _, ⟨b, hb, hstore⟩, ?_⟩
  exact .element .whole ⟨b, hb, hptr⟩

theorem stubborn_allocated {d : FunctionDef} {s : Lower.State}
    (h : Lower.Arrives "stubborn" stubborn d s) :
    ∃ s₁ s₂, Lower.Allocated s d 0 constantPair s₁ s₂ := by
  obtain ⟨before, after, hp, hs⟩ := h
  have hd : d = overwriting ∧ before = stubborn.take 1 := by
    match before, hp with
    | [], hp => cases hp
    | [_], hp =>
      cases hp
      exact ⟨rfl, rfl⟩
    | _ :: _ :: _, hp => simp [stubborn] at hp
  obtain ⟨rfl, rfl⟩ := hd
  have hslots :
      (match Lower.declarations (stubborn.take 1) { module := { name := "stubborn" } } with
      | .ok () s =>
        match Lower.recording (Lower.variableDeclaration .inFunction constantPair) ()
          (s.opening overwriting) with
        | .ok () s₂ => s₂.slots
        | .error _ _ => 0
      | .error _ _ => 0) = 1 := by decide +kernel
  simp only [hs] at hslots
  split at hslots
  · next s₂ hrun => exact ⟨s.opening overwriting, s₂, .declare hrun, rfl, hslots⟩
  · cases hslots

theorem stubborn_keeps_constants : ∃ l, lower "stubborn" stubborn = .ok l ∧ l.valid = false ∧
    ∃ f ∈ l.module.functions, (∀ block position, ¬ f.StoresInto (.global 0) block position) ∧
      ∃ s d s₁ s₂, Lower.Allocated s d 0 constantPair s₁ s₂ ∧ f.StoresInto (.slot 0) 0 1 ∧
        Lower.Added s₁ s₂ 0 1 := by
  obtain ⟨l, hl, hall⟩ := lower_keeps_constants "stubborn" stubborn
  obtain ⟨hv, ⟨g, hg, hc⟩, f, hf, hstore⟩ := stubborn_lowered hl
  obtain ⟨hglobal, d, s, b, hd, -, -, -, hconst⟩ := hall f hf
  obtain ⟨s₁, s₂, ha⟩ := stubborn_allocated hd
  exact ⟨l, hl, hv, f, hf, hglobal 0 g hg hc, s, d, s₁, s₂, ha, hstore,
    hconst 0 constantPair s₁ s₂ ha rfl 0 1 hstore⟩

end C1Lang
