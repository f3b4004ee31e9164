import C1Lang.Lower.Program
import C1Lang.Proofs.IR.Construction
import C1Lang.Proofs.Sequencing

/-!
# Outcomes of lowering steps

`Ends step s done stopped` describes every outcome of a step at once: it gives a result, or it
stops with an error; it meets no fault. A sequence of steps is described by describing each of
them. The primitive steps on the function that is being built are equations.
-/

namespace C1Lang.Lower

/-- The step ends with a result that `done` describes, or stops with an error in a state that
`stopped` describes. -/
def Ends {α : Type} (step : Lower α) (s : State) (done : α → State → Prop)
    (stopped : State → Prop) : Prop :=
  match step s with
  | .ok a s' => done a s'
  | .error (.problem d) s' => d.isError = true ∧ stopped s'
  | .error (.fault _) _ => False

namespace Ends

variable {α β : Type} {step : Lower α} {s : State} {done done' : α → State → Prop}
  {stopped stopped' : State → Prop}

theorem of_eq {a : α} {s' : State} (hs : step s = .ok a s') (h : done a s') :
    Ends step s done stopped := by
  simpa only [Ends, hs] using h

theorem mono (h : Ends step s done stopped) (hd : ∀ a s', done a s' → done' a s')
    (hs : ∀ s', stopped s' → stopped' s') : Ends step s done' stopped' := by
  unfold Ends at h ⊢
  split at h
  · exact hd _ _ h
  · exact ⟨h.1, hs _ h.2⟩
  · exact h

theorem pure {a : α} (h : done a s) : Ends (Pure.pure a) s done stopped := h

theorem bind {f : α → Lower β} {done' : β → State → Prop} (h : Ends step s done stopped)
    (hf : ∀ a s', done a s' → Ends (f a) s' done' stopped')
    (hs : ∀ s', stopped s' → stopped' s') : Ends (step >>= f) s done' stopped' := by
  unfold Ends at h
  split at h
  · next heq =>
    have := hf _ _ h
    unfold Ends at this ⊢
    rwa [bind_ok heq]
  · next heq =>
    unfold Ends
    rw [bind_error heq]
    exact ⟨h.1, hs _ h.2⟩
  · exact h.elim

theorem get_bind {f : State → Lower β} {done' : β → State → Prop}
    (h : Ends (f s) s done' stopped') : Ends (get >>= f) s done' stopped' := h

theorem bind_eq {f : α → Lower β} {done' : β → State → Prop} {a : α} {s' : State}
    (hs : step s = .ok a s') (hf : Ends (f a) s' done' stopped') :
    Ends (step >>= f) s done' stopped' := by
  unfold Ends at hf ⊢
  rwa [bind_ok hs]

theorem report {problem : Problem} {span : Span} (hp : problem.severity = .error)
    (h : stopped s) : Ends (Lower.report problem span : Lower α) s done stopped := by
  refine ⟨?_, h⟩
  simp [Diagnostic.isError, hp]

theorem recording {a : α} (h : Ends step s done stopped)
    (hs : ∀ s' d, d.isError = true → stopped s' → done a (s'.record d)) :
    Ends (Lower.recording step a) s done stopped' := by
  unfold Ends at h
  unfold Ends Lower.recording
  split at h
  · next heq => rw [heq]; exact h
  · next heq => rw [heq]; exact hs _ _ h.1 h.2
  · exact h.elim

theorem and (h : Ends step s done stopped) (k : Ends step s done' stopped') :
    Ends step s (fun a s' => done a s' ∧ done' a s') (fun s' => stopped s' ∧ stopped' s') := by
  unfold Ends at h k ⊢
  split at h
  · next heq =>
    rw [heq] at k
    exact ⟨h, k⟩
  · next heq =>
    rw [heq] at k
    exact ⟨h.1, h.2, k.2⟩
  · exact h

theorem exists_ok (h : Ends step s done fun _ => False) :
    ∃ a s', step s = .ok a s' ∧ done a s' := by
  unfold Ends at h
  split at h
  · next a s' heq => exact ⟨a, s', heq, h⟩
  · exact h.2.elim
  · exact h.elim

end Ends

def State.building (s : State) (b : IR.Builder) : State := { s with builder := some b }

@[simp] theorem State.building_scopes (s : State) (b : IR.Builder) :
    (s.building b).scopes = s.scopes := rfl

@[simp] theorem State.building_functions (s : State) (b : IR.Builder) :
    (s.building b).functions = s.functions := rfl

@[simp] theorem State.building_builder (s : State) (b : IR.Builder) :
    (s.building b).builder = some b := rfl

section Primitives

variable {s : State} {b : IR.Builder}

theorem emit_eq_of_lt (hs : s.builder = some b) (hb : b.current < b.blocks.size)
    (i : IR.Instr) : emit i s = .ok () (s.building (b.push i)) := by
  simp [emit, onBlock, hs, IR.Builder.emit?_of_lt hb, State.building]

theorem emit_eq (hs : s.builder = some b) (hb : b.Open) (i : IR.Instr) :
    emit i s = .ok () (s.building (b.push i)) :=
  emit_eq_of_lt hs hb.lt i

theorem terminate_eq (hs : s.builder = some b) (hb : b.Open) (t : IR.Terminator) :
    terminate t s = .ok () (s.building (b.leave t b.current)) := by
  simp [terminate, onBlock, hs, IR.Builder.terminate?_of_lt hb.lt, State.building]

theorem switchTo_eq (hs : s.builder = some b) (block : Nat) :
    switchTo block s = .ok () (s.building (b.switchTo block)) := by
  simp [switchTo, onBuilder, hs, State.building]

theorem newBlock_eq (hs : s.builder = some b) :
    newBlock s = .ok b.blocks.size (s.building b.createBlock.2) := by
  simp [newBlock, onBuilder, hs, State.building, IR.Builder.createBlock]

theorem newSlot_eq (hs : s.builder = some b) (name : String) (ty : IR.Ty) :
    newSlot name ty s = .ok b.locals.size (s.building (b.addLocal name ty).2) := by
  simp [newSlot, onBuilder, hs, State.building, IR.Builder.addLocal]

theorem newTemp_eq (hs : s.builder = some b) (ty : IR.Ty) :
    newTemp ty s = .ok b.temps.size (s.building (b.addTemp ty).2) := by
  simp [newTemp, onBuilder, hs, State.building, IR.Builder.addTemp]

theorem compute_eq_of_lt (hs : s.builder = some b) (hb : b.current < b.blocks.size)
    (ty : IR.Ty) (instr : Nat → IR.Instr) :
    compute ty instr s =
      .ok (.temp b.temps.size) (s.building (b.compute ty (instr b.temps.size))) := by
  have hlt : (b.addTemp ty).2.current < (b.addTemp ty).2.blocks.size := hb
  unfold compute
  rw [bind_ok (newTemp_eq hs ty), bind_ok (emit_eq_of_lt rfl hlt _)]
  rfl

theorem compute_eq (hs : s.builder = some b) (hb : b.Open) (ty : IR.Ty)
    (instr : Nat → IR.Instr) :
    compute ty instr s =
      .ok (.temp b.temps.size) (s.building (b.compute ty (instr b.temps.size))) :=
  compute_eq_of_lt hs hb.lt ty instr

end Primitives

end C1Lang.Lower
