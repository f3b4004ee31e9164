import C1Lang.Proofs.IR.Assignment
import C1Lang.Proofs.Lower.Statement
import Mathlib.Order.Defs.Unbundled

/-!
# Where stores go

The pointer of a store is the operand of a variable or a temporary that holds the address of an
element of one (`Function.Addresses`). Whatever an expression lowers to stores nothing, and an
assignment stores into a variable in scope that is not constant (`assignment_writes`). This holds
whether the step succeeds or stops, and whatever the state, so nothing is asked of the tables.
-/

namespace C1Lang

namespace IR

inductive Function.Addresses (f : Function) (place : Operand) : Operand → Prop
  | whole : Addresses f place place
  | element {id position dest : Nat} {base index : Operand} : Addresses f place base →
      f.At id position (.elementPtr dest base index) → Addresses f place (.temp dest)

def Function.StoresInto (f : Function) (place : Operand) (id position : Nat) : Prop :=
  ∃ ptr value, f.At id position (.store ptr value) ∧ f.Addresses place ptr

theorem Function.At.unique {f : Function} {id position : Nat} {i j : Instr}
    (h : f.At id position i) (k : f.At id position j) : i = j := by
  obtain ⟨b, hb, hi⟩ := h
  obtain ⟨c, hc, hj⟩ := k
  rw [hb] at hc
  cases hc
  rw [hi] at hj
  exact Option.some.inj hj

end IR

def Scopes.Binds (σ : Scopes) (x : Binding) : Prop :=
  ∃ scope ∈ σ.all, ∃ name, (name, x) ∈ scope.bindings

theorem Scopes.lookup_binds {σ : Scopes} {name : String} {x : Binding}
    (h : σ.lookup name = some x) : σ.Binds x := by
  obtain ⟨scope, hs, hx⟩ := List.exists_of_findSome?_eq_some h
  exact ⟨scope, hs, name, Lower.mem_of_lookup hx⟩

theorem Scopes.binds_enter {σ : Scopes} {kind : ScopeKind} {x : Binding}
    (h : (σ.enter kind).Binds x) : σ.Binds x := by
  obtain ⟨scope, hs, name, hx⟩ := h
  rcases List.mem_cons.mp hs with rfl | hs
  · cases hx
  · exact ⟨scope, hs, name, hx⟩

theorem Scopes.binds_exit {σ : Scopes} {x : Binding} (h : σ.exit.Binds x) : σ.Binds x := by
  obtain ⟨scope, hs, name, hx⟩ := h
  refine ⟨scope, ?_, name, hx⟩
  rcases List.mem_append.mp hs with hs | hs
  · exact List.mem_append_left _ (List.mem_of_mem_drop hs)
  · exact List.mem_append_right _ hs

theorem Scopes.binds_declare? {σ τ : Scopes} {name : String} {y x : Binding}
    (hd : σ.declare? name y = some τ) (h : τ.Binds x) : σ.Binds x ∨ x = y := by
  obtain ⟨scope, hs, name', hx⟩ := h
  unfold declare? at hd
  split at hd
  · cases hd
  · next hi =>
    cases hd
    rcases List.mem_append.mp hs with hs | hs
    · simp [hi] at hs
    · obtain rfl := List.mem_singleton.mp hs
      rcases List.mem_cons.mp hx with heq | hx
      · cases heq
        exact .inr rfl
      · exact .inl ⟨_, List.mem_append_right _ (List.mem_singleton_self _), name', hx⟩
  · next top rest _ hi =>
    cases hd
    rcases List.mem_cons.mp hs with rfl | hs
    · rcases List.mem_cons.mp hx with heq | hx
      · cases heq
        exact .inr rfl
      · exact .inl ⟨top, by simp [all, hi], name', hx⟩
    · refine .inl ⟨scope, ?_, name', hx⟩
      have hs' : scope ∈ rest ∨ scope = σ.global := by simpa using hs
      simpa [all, hi] using Or.inr hs'

namespace Lower

open IR

def State.At (s : State) (id position : Nat) (i : Instr) : Prop :=
  ∃ b, s.builder = some b ∧ b.finish.At id position i

def State.slots (s : State) : Nat := s.builder.elim 0 (·.locals.size)

/-- The pointer is a variable, or the address of an element that was taken from it. -/
inductive State.Points (s : State) (x : Storage) : Operand → Prop
  | whole : Points s x x.operand
  | element {id position dest : Nat} {index : Operand} :
      s.At id position (.elementPtr dest x.operand index) → Points s x (.temp dest)

def State.Assignable (s : State) (x : Storage) : Prop :=
  ∃ b, s.scopes.Binds b ∧ b.constant = false ∧ b.storage = x

/-- From `s` to `s'` code was added that stores into variables of `W` only. -/
structure Writes (W : Storage → Prop) (s s' : State) : Prop where
  module : s'.module = s.module
  scopes : s'.scopes = s.scopes
  slots : s'.slots = s.slots
  kept : ∀ id position i, s.At id position i → s'.At id position i
  stores : ∀ id position ptr value, s'.At id position (.store ptr value) →
    s.At id position (.store ptr value) ∨ ∃ x, W x ∧ s'.Points x ptr

theorem State.Points.mono {s s' : State} {x : Storage} {ptr : Operand} (h : s.Points x ptr)
    (hk : ∀ id position i, s.At id position i → s'.At id position i) : s'.Points x ptr := by
  cases h with
  | whole => exact .whole
  | element hi => exact .element (hk _ _ _ hi)

theorem State.At.unique {s : State} {id position : Nat} {i j : Instr} (h : s.At id position i)
    (k : s.At id position j) : i = j := by
  obtain ⟨b, hb, hi⟩ := h
  obtain ⟨c, hc, hj⟩ := k
  rw [hb] at hc
  cases hc
  exact hi.unique hj

namespace Writes

variable {W : Storage → Prop} {s s' s'' : State}

theorem refl (s : State) : Writes W s s :=
  ⟨rfl, rfl, rfl, fun _ _ _ h => h, fun _ _ _ _ h => .inl h⟩

theorem trans (h : Writes W s s') (k : Writes W s' s'') : Writes W s s'' := by
  refine ⟨k.module.trans h.module, k.scopes.trans h.scopes, k.slots.trans h.slots,
    fun id position i hi => k.kept _ _ _ (h.kept _ _ _ hi), ?_⟩
  intro id position ptr value hi
  rcases k.stores _ _ _ _ hi with hi | hnew
  · rcases h.stores _ _ _ _ hi with hi | ⟨x, hx, hp⟩
    · exact .inl hi
    · exact .inr ⟨x, hx, hp.mono k.kept⟩
  · exact .inr hnew

instance : IsPreorder State (Writes W) where
  refl := refl
  trans _ _ _ := trans

theorem record (s : State) (d : Diagnostic) : Writes W s (s.record d) :=
  ⟨rfl, rfl, rfl, fun _ _ _ h => h, fun _ _ _ _ h => .inl h⟩

theorem building {b b' : Builder} (hs : s.builder = some b)
    (hslots : b'.locals.size = b.locals.size)
    (hkept : ∀ id position i, b.finish.At id position i → b'.finish.At id position i)
    (hstores : ∀ id position ptr value, b'.finish.At id position (.store ptr value) →
      b.finish.At id position (.store ptr value) ∨ ∃ x, W x ∧ (s.building b').Points x ptr) :
    Writes W s (s.building b') := by
  refine ⟨rfl, rfl, by simpa [State.slots, hs] using hslots, ?_, ?_⟩
  · intro id position i hi
    obtain ⟨c, hc, hi⟩ := hi
    rw [hs] at hc
    cases hc
    exact ⟨b', rfl, hkept _ _ _ hi⟩
  · intro id position ptr value hi
    obtain ⟨c, hc, hi⟩ := hi
    cases hc
    exact (hstores _ _ _ _ hi).imp_left fun hi => ⟨b, hs, hi⟩

theorem same {b b' : Builder} (hs : s.builder = some b)
    (hslots : b'.locals.size = b.locals.size)
    (hsame : ∀ id position i, b'.finish.At id position i ↔ b.finish.At id position i) :
    Writes W s (s.building b') :=
  .building hs hslots (fun _ _ _ h => (hsame _ _ _).mpr h) fun _ _ _ _ h =>
    .inl ((hsame _ _ _).mp h)

theorem push {b : Builder} (hs : s.builder = some b) (hlt : b.current < b.blocks.size) {i : Instr}
    (hi : ∀ ptr value, i = .store ptr value → ∃ x, W x ∧ s.Points x ptr) :
    Writes W s (s.building (b.push i)) := by
  have hkept : ∀ id position j, b.finish.At id position j → (b.push i).finish.At id position j :=
    fun id position j h => (at_push_of_lt hlt i j).mpr (.inl h)
  refine .building hs rfl hkept fun id position ptr value h => ?_
  rcases (at_push_of_lt hlt i _).mp h with h | ⟨-, -, heq⟩
  · exact .inl h
  · obtain ⟨x, hx, hp⟩ := hi ptr value heq.symm
    refine .inr ⟨x, hx, hp.mono fun id position j h => ?_⟩
    obtain ⟨c, hc, h⟩ := h
    rw [hs] at hc
    cases hc
    exact ⟨_, rfl, hkept _ _ _ h⟩

end Writes

/-- From `s` the step ends in a state that `R` relates to it, and gives what `done` describes,
unless it stops. Nothing is said about faults. -/
def Keeps {α : Type} (R : State → State → Prop) (step : Lower α) (s : State)
    (done : α → State → Prop) : Prop :=
  match step s with
  | .ok a s' => R s s' ∧ done a s'
  | .error (.problem _) s' => R s s'
  | .error (.fault _) _ => True

def Keeping {α : Type} (R : State → State → Prop) (step : Lower α) : Prop :=
  ∀ s, Keeps R step s fun _ _ => True

namespace Keeps

variable {α β : Type} {R R' : State → State → Prop} {step : Lower α} {f : α → Lower β} {s : State}
  {done done' : α → State → Prop} {next : β → State → Prop}

theorem of_eq {a : α} {s' : State} (hs : step s = .ok a s') (hR : R s s') (h : done a s') :
    Keeps R step s done := by
  unfold Keeps
  rw [hs]
  exact ⟨hR, h⟩

theorem of_ends {stopped : State → Prop} (h : Ends step s done stopped)
    (hd : ∀ a s', done a s' → R s s') (hs : ∀ s', stopped s' → R s s') :
    Keeps R step s fun _ _ => True := by
  unfold Ends at h
  unfold Keeps
  cases hrun : step s with
  | ok a s' =>
    rw [hrun] at h
    exact ⟨hd a s' h, trivial⟩
  | error stop s' =>
    rw [hrun] at h
    cases stop with
    | problem d => exact hs s' h.2
    | fault x => trivial

theorem of_ok {a : α} {s' : State} (h : Keeps R step s done) (hs : step s = .ok a s') : R s s' := by
  unfold Keeps at h
  rw [hs] at h
  exact h.1

theorem mono (h : Keeps R step s done) (hR : ∀ s', R s s' → R' s s')
    (hd : ∀ a s', R s s' → done a s' → done' a s') : Keeps R' step s done' := by
  unfold Keeps at h ⊢
  split at h
  · next heq => exact ⟨hR _ h.1, hd _ _ h.1 h.2⟩
  · next heq => exact hR _ h
  · trivial

theorem weaken (h : Keeps R step s done) : Keeps R step s fun _ _ => True :=
  h.mono (fun _ h => h) fun _ _ _ _ => trivial

theorem get_bind {f : State → Lower β} (h : Keeps R (f s) s next) : Keeps R (get >>= f) s next := h

theorem of_fault {x : Fault} {s' : State} (hs : step s = .error (.fault x) s') :
    Keeps R step s done := by
  unfold Keeps
  rw [hs]
  trivial

theorem fault {x : Fault} : Keeps R (Lower.fault x : Lower α) s done := trivial

theorem of_problem {d : Diagnostic} {s' : State} (hs : step s = .error (.problem d) s')
    (hR : R s s') : Keeps R step s done := by
  unfold Keeps
  rw [hs]
  exact hR

theorem bind_eq {a : α} {s₁ : State} (hs : step s = .ok a s₁) (h : Keeps R (f a) s₁ next)
    (hR : ∀ s', R s₁ s' → R' s s') : Keeps R' (step >>= f) s next := by
  unfold Keeps at h ⊢
  rw [bind_ok hs]
  split at h
  · exact ⟨hR _ h.1, h.2⟩
  · exact hR _ h
  · trivial

theorem bind_trans (h : Keeps R step s done)
    (hf : ∀ a s', step s = .ok a s' → R s s' → done a s' → Keeps R' (f a) s' next)
    (hR : ∀ s' s'', R s s' → R' s' s'' → R s s'') : Keeps R (step >>= f) s next := by
  unfold Keeps at h
  split at h
  · next heq => exact .bind_eq heq (hf _ _ heq h.1 h.2) fun s'' => hR _ s'' h.1
  · next heq =>
    unfold Keeps
    rw [bind_error heq]
    exact h
  · next heq => exact .of_fault (bind_error heq)

theorem recording {a : α} (h : Keeps R step s fun _ _ => True)
    (hR : ∀ s' d, R s s' → R s (s'.record d)) :
    Keeps R (Lower.recording step a) s fun _ _ => True := by
  unfold Keeps at h
  unfold Keeps Lower.recording
  split at h
  · next heq =>
    rw [heq]
    exact h
  · next heq =>
    rw [heq]
    exact ⟨hR _ _ h, trivial⟩
  · next heq =>
    rw [heq]
    trivial

variable [IsPreorder State R]

theorem pure {a : α} (h : done a s) : Keeps R (Pure.pure a) s done :=
  ⟨refl_of R s, h⟩

theorem report {problem : Problem} {span : Span} :
    Keeps R (Lower.report problem span : Lower α) s done :=
  refl_of R s

theorem bind (h : Keeps R step s done)
    (hf : ∀ a s', step s = .ok a s' → R s s' → done a s' → Keeps R (f a) s' next) :
    Keeps R (step >>= f) s next :=
  h.bind_trans hf fun _ _ => trans_of R

end Keeps

namespace Keeping

variable {α β : Type} {R : State → State → Prop} {step : Lower α} {f : α → Lower β}

theorem pure [IsPreorder State R] (a : α) : Keeping R (Pure.pure a : Lower α) :=
  fun _ => .pure trivial

theorem report [IsPreorder State R] (problem : Problem) (span : Span) :
    Keeping R (Lower.report problem span : Lower α) := fun _ => .report

theorem fault (x : Fault) : Keeping R (Lower.fault x : Lower α) := fun _ => .fault

theorem bind [IsPreorder State R] (h : Keeping R step) (hf : ∀ a, Keeping R (f a)) :
    Keeping R (step >>= f) :=
  fun s => (h s).bind fun a s' _ _ _ => hf a s'

theorem ite {c : Prop} [Decidable c] {step' : Lower α} (h : Keeping R step)
    (h' : Keeping R step') : Keeping R (if c then step else step') := by
  split
  · exact h
  · exact h'

end Keeping

section Primitives

variable {W : Storage → Prop} {s : State}

theorem onBuilder_keeps {α : Type} {R : State → State → Prop} {done : α → State → Prop}
    {change : Builder → α × Builder}
    (h : ∀ b, s.builder = some b → R s (s.building (change b).2) ∧
      done (change b).1 (s.building (change b).2)) : Keeps R (onBuilder change) s done := by
  unfold Keeps onBuilder
  cases hs : s.builder with
  | none => trivial
  | some b => exact h b hs

theorem onBlock_keeps {R : State → State → Prop} {done : Unit → State → Prop}
    {change : Builder → Option Builder} {next : Builder → Builder}
    (hnone : ∀ b : Builder, ¬ b.current < b.blocks.size → change b = none)
    (hsome : ∀ b : Builder, b.current < b.blocks.size → change b = some (next b))
    (h : ∀ b, s.builder = some b → b.current < b.blocks.size →
      R s (s.building (next b)) ∧ done () (s.building (next b))) :
    Keeps R (onBlock change) s done := by
  unfold Keeps onBlock
  cases hs : s.builder with
  | none => trivial
  | some b =>
    by_cases hlt : b.current < b.blocks.size
    · simp only [hsome b hlt]
      exact h b hs hlt
    · simp only [hnone b hlt]

theorem modifyCurrent?_eq_none {b : Builder} (h : ¬ b.current < b.blocks.size)
    (change : Block → Block) : b.modifyCurrent? change = none := by
  have hnone : b.blocks[b.current]? = none := Array.getElem?_eq_none (Nat.le_of_not_lt h)
  simp [Builder.modifyCurrent?, Builder.terminated?, hnone]

theorem emit_keeps {i : Instr}
    (hi : ∀ ptr value, i = .store ptr value → ∃ x, W x ∧ s.Points x ptr) :
    Keeps (Writes W) (emit i) s fun _ s' => ∃ id position, s'.At id position i := by
  refine onBlock_keeps (fun b hlt => modifyCurrent?_eq_none hlt _)
    (fun b hlt => Builder.emit?_of_lt hlt i) fun b hs hlt => ⟨.push hs hlt hi, ?_⟩
  exact ⟨_, _, _, rfl, (at_push_of_lt hlt i i).mpr (.inr ⟨rfl, rfl, rfl⟩)⟩

theorem terminate_keeping (t : Terminator) : Keeping (Writes W) (terminate t) := by
  intro s
  refine onBlock_keeps (fun b hlt => modifyCurrent?_eq_none hlt _)
    (fun b hlt => Builder.terminate?_of_lt hlt t) fun b hs _ => ⟨?_, trivial⟩
  exact .same hs rfl fun _ _ _ => at_leave b t _ _

theorem newBlock_keeping : Keeping (Writes W) newBlock := fun _ =>
  onBuilder_keeps fun b hs => ⟨.same hs rfl fun _ _ _ => at_create b _, trivial⟩

theorem switchTo_keeping (block : Nat) : Keeping (Writes W) (switchTo block) := fun _ =>
  onBuilder_keeps fun _ hs => ⟨.same hs rfl fun _ _ _ => Iff.rfl, trivial⟩

theorem newTemp_keeping (ty : Ty) : Keeping (Writes W) (newTemp ty) := fun _ =>
  onBuilder_keeps fun _ hs => ⟨.same hs rfl fun _ _ _ => Iff.rfl, trivial⟩

theorem compute_keeps (ty : Ty) {instr : Nat → Instr}
    (hi : ∀ dest ptr value, instr dest ≠ .store ptr value) :
    Keeps (Writes W) (compute ty instr) s fun o s' => ∃ dest id position,
      o = .temp dest ∧ s'.At id position (instr dest) := by
  refine (newTemp_keeping ty s).bind fun dest s₁ _ _ _ => ?_
  refine (emit_keeps fun ptr value heq => absurd heq (hi dest ptr value)).bind ?_
  intro _ s₂ _ _ hdone
  obtain ⟨id, position, hat⟩ := hdone
  exact .pure ⟨dest, id, position, rfl, hat⟩

theorem compute_keeping (ty : Ty) {instr : Nat → Instr}
    (hi : ∀ dest ptr value, instr dest ≠ .store ptr value) :
    Keeping (Writes W) (compute ty instr) := fun _ => (compute_keeps ty hi).weaken

end Primitives

section Expressions

variable {W : Storage → Prop} {s : State}

theorem coerce_keeping (o : Operand) (source target : Kind) :
    Keeping (Writes W) (coerce o source target) := by
  unfold coerce
  apply Keeping.ite (.pure o)
  split
  · exact .pure _
  · exact .pure _
  · cases target with
    | float => exact compute_keeping _ (by simp)
    | int => exact compute_keeping _ (by simp)

theorem meet_keeping (l r : Operand × Kind) : Keeping (Writes W) (meet l r) :=
  (coerce_keeping _ _ _).bind fun _ => (coerce_keeping _ _ _).bind fun _ => .pure _

theorem binary_keeping (op : BinaryOp) (span : Span) (l r : Operand × Kind) :
    Keeping (Writes W) (binary op span l r) := by
  unfold binary
  apply Keeping.ite (.report _ _)
  refine (meet_keeping l r).bind fun result => ?_
  obtain ⟨x, y, k⟩ := result
  dsimp only
  split
  · exact .fault _
  · exact (compute_keeping _ (by simp)).bind fun _ => .pure _

theorem unary_keeping (op : UnaryOp) (o : Operand × Kind) :
    Keeping (Writes W) (unary op o) := by
  cases op with
  | plus => exact .pure _
  | neg => exact (compute_keeping _ (by simp)).bind fun _ => .pure _

theorem asOperand_keeping {step : Lower Evaluated} (h : Keeping (Writes W) step) :
    Keeping (Writes W) (asOperand step) := by
  apply h.bind
  intro r
  cases r with
  | runtime o k => exact .pure _
  | folded v => exact .pure _

theorem asValue_keeping {step : Lower Evaluated} (h : Keeping (Writes W) step) :
    Keeping (Writes W) (asValue step) := by
  apply h.bind
  intro r
  cases r with
  | runtime o k => exact .fault _
  | folded v => exact .pure _

theorem placeAddress_keeps (name : String) (span : Span) (b : Binding)
    {index : Option (Span × Lower (Operand × Kind))}
    (hi : ∀ i ∈ index, Keeping (Writes W) i.2) :
    Keeps (Writes W) (placeAddress name span b index) s fun o s' => s'.Points b.storage o := by
  unfold placeAddress
  split
  · exact .pure .whole
  · exact .report
  · exact .report
  · next indexSpan index _ =>
    refine (hi _ rfl s).bind fun result s₁ _ _ _ => ?_
    obtain ⟨i, k⟩ := result
    dsimp only
    split
    · refine (compute_keeps _ (by simp)).mono (fun _ h => h) ?_
      intro o s₂ _ hdone
      obtain ⟨dest, id, position, rfl, hat⟩ := hdone
      exact .element hat
    · exact .report

theorem place_keeps (ctx : Context) (name : String) (span : Span)
    {index : Option (Span × Lower (Operand × Kind))}
    (hi : ∀ i ∈ index, Keeping (Writes W) i.2) :
    Keeps (Writes W) (place ctx name span index) s fun r s' => ctx.access = .address →
      ∀ o k, r = .runtime o k → ∃ x, s'.Assignable x ∧ s'.Points x o := by
  unfold place
  split
  · exact .report
  · apply Keeps.get_bind
    split
    · exact .report
    · next b hb =>
      split
      · exact .report
      · next hacc =>
        refine (placeAddress_keeps name span b hi).bind fun o s₁ _ hw hp => ?_
        split
        · next ha =>
          -- the address of a constant was refused above
          have hc : b.constant = false := by simpa [ha] using hacc
          refine .pure fun _ o' k heq => ?_
          cases heq
          exact ⟨b.storage, ⟨b, hw.scopes ▸ Scopes.lookup_binds hb, hc, rfl⟩, hp⟩
        · next ha =>
          refine (compute_keeping _ (by simp) s₁).bind fun _ s₂ _ _ _ => .pure ?_
          intro hne
          rw [ha] at hne
          cases hne

theorem place_keeping (ctx : Context) (name : String) (span : Span)
    {index : Option (Span × Lower (Operand × Kind))}
    (hi : ∀ i ∈ index, Keeping (Writes W) i.2) :
    Keeping (Writes W) (place ctx name span index) := fun _ => (place_keeps ctx name span hi).weaken

theorem expr_keeping (ctx : Context) (e : Expr) : Keeping (Writes W) (expr ctx e) := by
  induction e generalizing ctx with
  | literal v span => exact .pure _
  | binary op l r span ihl ihr =>
    unfold expr
    apply Keeping.ite
    · refine (asValue_keeping (ihl _)).bind fun v => (asValue_keeping (ihr _)).bind fun w => ?_
      split
      · exact .pure _
      · exact .report _ _
    · exact (asOperand_keeping (ihl _)).bind fun x => (asOperand_keeping (ihr _)).bind fun y =>
        binary_keeping op span x y
  | unary op e span ih =>
    unfold expr
    apply Keeping.ite
    · exact (asValue_keeping (ih _)).bind fun v => .pure _
    · exact (asOperand_keeping (ih _)).bind fun x => unary_keeping op x
  | name name span => exact place_keeping ctx name span fun i hi => by cases hi
  | element name index span ih =>
    refine place_keeping ctx name span fun i hi => ?_
    cases hi
    exact asOperand_keeping (ih _)

theorem rvalue_keeping (ctx : Context) (e : Expr) : Keeping (Writes W) (rvalue ctx e) :=
  asOperand_keeping (expr_keeping _ e)

theorem address_keeps (ctx : Context) (target : Place) :
    Keeps (Writes W) (address ctx target) s fun r s' => ∃ x, s'.Assignable x ∧ s'.Points x r.1 := by
  have hplace : Keeps (Writes W) (expr ctx.address target.toExpr) s fun r s' =>
      ∀ o k, r = .runtime o k → ∃ x, s'.Assignable x ∧ s'.Points x o := by
    cases target with
    | name name span =>
      refine (place_keeps ctx.address name span fun i hi => ?_).mono (fun _ h => h)
        fun _ _ _ hdone => hdone rfl
      cases hi
    | element name index span =>
      refine (place_keeps ctx.address name span fun i hi => ?_).mono (fun _ h => h)
        fun _ _ _ hdone => hdone rfl
      cases hi
      exact rvalue_keeping ctx.address index
  refine hplace.bind fun r s₁ _ _ hdone => ?_
  cases r with
  | runtime o k => exact .pure (hdone o k rfl)
  | folded v => exact .fault

theorem test_keeping (ctx : Context) (c : Condition) : Keeping (Writes W) (test ctx c) := by
  have hcondition : Keeping (Writes W) (condition ctx c) := by
    refine (rvalue_keeping ctx c.left).bind fun l => (rvalue_keeping ctx c.right).bind fun r => ?_
    refine (meet_keeping l r).bind fun result => ?_
    obtain ⟨x, y, k⟩ := result
    exact compute_keeping _ (by simp)
  exact fun s => (hcondition s).recording fun s' d hw => hw.trans (.record s' d)

end Expressions

section Statements

variable {W : Storage → Prop} {s : State}

theorem store_keeps {x : Storage} {ptr : Operand} (hx : W x) (hp : s.Points x ptr)
    (value : Operand) :
    Keeps (Writes W) (emit (.store ptr value)) s fun _ _ => True :=
  (emit_keeps fun _ _ heq => ⟨x, hx, by cases heq; exact hp⟩).weaken

theorem assignment_writes (ctx : Context) (target : Place) (value : Expr) :
    Keeps (Writes s.Assignable) (assignment ctx target value) s fun _ _ => True := by
  refine (rvalue_keeping ctx value s).bind fun result s₁ _ hw₁ _ => ?_
  obtain ⟨o, k⟩ := result
  refine (address_keeps ctx target).bind fun result s₂ _ hw₂ hdone => ?_
  obtain ⟨ptr, k'⟩ := result
  obtain ⟨x, hx, hp⟩ := hdone
  -- the scopes in which the target was looked up are those of the start
  have hx' : s.Assignable x := by
    unfold State.Assignable at hx
    rwa [hw₂.scopes, hw₁.scopes] at hx
  refine (coerce_keeping o k k' s₂).bind fun o' s₃ _ hw₃ _ => ?_
  exact store_keeps hx' (hp.mono hw₃.kept) o'

theorem call_keeping (name : String) (span : Span) : Keeping (Writes W) (call name span) := by
  intro s
  apply Keeps.get_bind
  split
  · exact .report
  · exact (emit_keeps (by simp)).weaken

theorem storeElement_keeping {slot : Nat} (hslot : W (.slot slot)) (kind : Kind) (index : Nat)
    (o : Operand) : Keeping (Writes W) (storeElement slot kind index o) := by
  intro s
  refine (compute_keeps _ (by simp)).bind fun ptr s₁ _ _ hdone => ?_
  obtain ⟨dest, id, position, rfl, hat⟩ := hdone
  exact store_keeps hslot (.element hat) o

theorem storeElements_keeping {slot : Nat} (hslot : W (.slot slot)) (ctx : Context) (kind : Kind)
    (count : Nat) : ∀ (index : Nat) (values : List Expr),
      Keeping (Writes W) (storeElements ctx slot kind count index values) := by
  induction count with
  | zero => exact fun _ _ => .pure _
  | succ count ih =>
    intro index values
    cases values with
    | nil => exact (storeElement_keeping hslot kind index _).bind fun _ => ih _ _
    | cons e rest =>
      refine (rvalue_keeping ctx e).bind fun result => ?_
      obtain ⟨o, k⟩ := result
      refine (coerce_keeping o k kind).bind fun o' => ?_
      exact (storeElement_keeping hslot kind index o').bind fun _ => ih _ _

/-- From `s` to `s'` the variable got the next slot and its name, and stores went into that slot
only. -/
structure Allocates (v : Variable) (s s' : State) : Prop where
  module : s'.module = s.module
  scopes : ∀ x, s'.scopes.Binds x →
    s.scopes.Binds x ∨ x.storage = .slot s.slots ∧ x.constant = v.constant
  slots : s'.slots = s.slots + 1
  kept : ∀ id position i, s.At id position i → s'.At id position i
  stores : ∀ id position ptr value, s'.At id position (.store ptr value) →
    s.At id position (.store ptr value) ∨ s'.Points (.slot s.slots) ptr

theorem Allocates.writes {v : Variable} {s₁ s₂ : State} (h : Allocates v s s₁)
    (k : Writes (· = .slot s.slots) s₁ s₂) : Allocates v s s₂ := by
  refine ⟨k.module.trans h.module, fun x hx => h.scopes x (k.scopes ▸ hx), k.slots.trans h.slots,
    fun id position i hi => k.kept _ _ _ (h.kept _ _ _ hi), ?_⟩
  intro id position ptr value hi
  rcases k.stores _ _ _ _ hi with hi | ⟨x, rfl, hp⟩
  · exact (h.stores _ _ _ _ hi).imp_right fun hp => hp.mono k.kept
  · exact .inr hp

theorem bind_declared {v : Variable} {storage : Storage} {scopes : Scopes}
    (hd : s.scopes.declare? v.name ⟨storage, v.constant, v.isArray, v.kind, v.nameSpan⟩ =
      some scopes) : bind v storage s = .ok () { s with scopes } := by
  unfold bind
  rw [C1Lang.get_bind, hd]
  rfl

theorem bind_redeclared {v : Variable} {storage : Storage}
    (hd : s.scopes.declare? v.name ⟨storage, v.constant, v.isArray, v.kind, v.nameSpan⟩ = none) :
    bind v storage s = .error (.fault .redeclared) s := by
  unfold bind
  rw [C1Lang.get_bind, hd]
  rfl

theorem Allocates.slot {v : Variable} {ty : Ty} {b : Builder} {scopes : Scopes}
    (hs : s.builder = some b)
    (hd : s.scopes.declare? v.name ⟨.slot s.slots, v.constant, v.isArray, v.kind, v.nameSpan⟩ =
      some scopes) :
    Allocates v s { s.building (b.addLocal v.name ty).2 with scopes } := by
  refine ⟨rfl, fun x hx => ?_, ?_, ?_, ?_⟩
  · exact (Scopes.binds_declare? hd hx).imp_right fun heq => by simp [heq]
  · simp [State.slots, hs, State.building, Builder.addLocal]
  · intro id position i hi
    obtain ⟨c, hc, hi⟩ := hi
    rw [hs] at hc
    cases hc
    exact ⟨_, rfl, hi⟩
  · intro id position ptr value hi
    obtain ⟨c, hc, hi⟩ := hi
    cases hc
    exact .inl ⟨b, hs, hi⟩

theorem allocate_keeps {v : Variable} {ty : Ty} {next : Nat → Lower Unit}
    (h : ∀ slot, Keeping (Writes (· = .slot slot)) (next slot)) :
    Keeps (fun s s' => Writes s.Assignable s s' ∨ Allocates v s s')
      (newSlot v.name ty >>= fun slot => bind v (.slot slot) >>= fun _ => next slot) s
      fun _ _ => True := by
  cases hs : s.builder with
  | none =>
    have hnew : newSlot v.name ty s = .error (.fault .noOpenFunction) s := by
      simp [newSlot, onBuilder, hs]
    exact .of_fault (bind_error hnew)
  | some b =>
    have hslots : s.slots = b.locals.size := by simp [State.slots, hs]
    have hnew := newSlot_eq hs v.name ty
    rw [← hslots] at hnew
    refine .bind_eq hnew (R := fun _ => Allocates v s) ?_ fun _ h => .inr h
    cases hd : s.scopes.declare? v.name ⟨.slot s.slots, v.constant, v.isArray, v.kind,
      v.nameSpan⟩ with
    | none =>
      exact .of_fault (bind_error (bind_redeclared (s := s.building _) hd))
    | some scopes =>
      have hslot : Allocates v s { s.building (b.addLocal v.name ty).2 with scopes } :=
        .slot hs hd
      exact .bind_eq (bind_declared hd) (h s.slots _) fun s' hw => hslot.writes hw

theorem initialize_keeping (ctx : Context) (slot : Nat) (kind : Kind) (e : Expr) :
    Keeping (Writes (· = .slot slot)) (do
      let (value, valueKind) ← rvalue ctx e
      emit (.store (.slot slot) (← coerce value valueKind kind))) := by
  refine (rvalue_keeping ctx e).bind fun result => ?_
  obtain ⟨o, k⟩ := result
  refine (coerce_keeping o k kind).bind fun o' s => ?_
  exact store_keeps (W := (· = .slot slot)) rfl .whole o'

theorem arrayLength_cases (ctx : Context) (v : Variable) (length : Expr) (s : State) :
    (∃ n, arrayLength ctx v length s = .ok n s ∧ Spans v length n) ∨
      ∃ d, arrayLength ctx v length s = .error (.problem d) s ∧ ∀ n, ¬ Spans v length n := by
  have h := arrayLength_ends ctx v length s
  unfold Ends at h
  split at h
  · next n s' heq =>
    obtain ⟨hs, rfl⟩ := h
    exact .inl ⟨n, heq, hs⟩
  · next d s' heq =>
    obtain ⟨-, hs, rfl⟩ := h
    exact .inr ⟨d, heq, hs⟩
  · exact h.elim

theorem localVariable_keeps (ctx : Context) (hc : ctx.inGlobalScope = false) (v : Variable) :
    Keeps (fun s s' => Writes s.Assignable s s' ∨ Allocates v s s') (variableDeclaration ctx v) s
      fun _ _ => True := by
  have hstay : Writes s.Assignable s s ∨ Allocates v s s := .inl (.refl s)
  apply Keeps.get_bind
  split
  · exact hstay
  · split
    · next hg _ => simp [hc] at hg
    · split
      · next hg => simp [hc] at hg
      · next hv _ =>
        apply allocate_keeps
        intro slot
        split
        · exact .pure _
        · exact initialize_keeping ctx slot v.kind _
      · next hg => simp [hc] at hg
      · next extent _ _ =>
        rcases arrayLength_cases ctx v extent.length s with ⟨n, heq, -⟩ | ⟨d, heq, -⟩
        · refine .bind_eq heq (allocate_keeps fun slot => ?_) fun _ h => h
          apply Keeping.ite (.pure _)
          exact storeElements_keeping (W := (· = .slot slot)) rfl ctx v.kind n 0 _
        · exact .of_problem (bind_error heq) hstay

end Statements

end Lower

end C1Lang
