import C1Lang.Proofs.IR.Construction

/-!
# Extending a function

Building goes on in the current block and in blocks that are created on the way. The blocks that
were there before are left alone (`Extends`), and those that were created for later wait with
nothing in them (`Waits`).
-/

namespace C1Lang.IR

namespace Builder

structure Extends (b b' : Builder) : Prop where
  opened : b'.Open
  within : b.finish.Within b'.finish
  kept : ∀ id < b.blocks.size, id ≠ b.current → b'.blocks[id]? = b.blocks[id]?
  current : b'.current = b.current ∨ b.blocks.size ≤ b'.current
  name : b'.name = b.name

/-- The block was created and not entered yet. -/
structure Waits (b : Builder) (id : Nat) : Prop where
  ne : id ≠ b.current
  empty : ∃ c, b.blocks[id]? = some c ∧ c.instructions = #[] ∧ c.terminator = .unreachable

theorem Waits.lt {b : Builder} {id : Nat} (h : b.Waits id) : id < b.blocks.size := by
  obtain ⟨c, hc, -⟩ := h.empty
  exact (Array.getElem?_eq_some_iff.mp hc).1

theorem Extends.refl {b : Builder} (hb : b.Open) : b.Extends b :=
  ⟨hb, .refl _, fun _ _ _ => rfl, .inl rfl, rfl⟩

theorem Extends.size_le {b b' : Builder} (h : b.Extends b') : b.blocks.size ≤ b'.blocks.size :=
  h.within.size_le

theorem Extends.trans {b b' b'' : Builder} (h : b.Extends b') (k : b'.Extends b'') :
    b.Extends b'' := by
  have hsize := h.size_le
  have hcur := h.current
  refine ⟨k.opened, h.within.trans k.within, ?_, ?_, k.name.trans h.name⟩
  · intro id hid hne
    rw [k.kept id (by omega) (by omega), h.kept id hid hne]
  · have := k.current
    omega

theorem Waits.of_extends {b b' : Builder} {id : Nat} (h : b.Waits id) (k : b.Extends b') :
    b'.Waits id := by
  have hlt := h.lt
  have hne := h.ne
  have hcur := k.current
  refine ⟨by omega, ?_⟩
  rw [k.kept id hlt hne]
  exact h.empty

theorem Extends.create {b b' : Builder} (h : b.Extends b') : b.Extends b'.createBlock.2 := by
  have hsize := h.size_le
  refine ⟨h.opened.create, h.within.trans (within_createBlock b'), ?_, h.current, h.name⟩
  intro id hid hne
  rw [createBlock_getElem?, if_neg (by omega), h.kept id hid hne]

theorem Waits.create {b : Builder} {id : Nat} (h : b.Waits id) : b.createBlock.2.Waits id := by
  obtain ⟨c, hc, hempty⟩ := h.empty
  exact ⟨h.ne, c, createBlock_getElem?_of_some hc, hempty⟩

theorem Waits.created {b : Builder} (hb : b.Open) : b.createBlock.2.Waits b.blocks.size := by
  refine ⟨(Nat.ne_of_lt hb.lt).symm, { label := label b.blocks.size }, ?_, rfl, rfl⟩
  rw [createBlock_getElem?, if_pos rfl]

theorem Waits.leave_getElem? {b : Builder} {id : Nat} (h : b.Waits id) (t : Terminator)
    (next : Nat) : (b.leave t next).blocks[id]? = b.blocks[id]? := by
  rw [Builder.leave_getElem?, if_neg h.ne]

theorem Waits.leave {b : Builder} {id next : Nat} (h : b.Waits id) (hne : id ≠ next)
    (t : Terminator) : (b.leave t next).Waits id := by
  refine ⟨hne, ?_⟩
  rw [h.leave_getElem?]
  exact h.empty

theorem Waits.opened {b : Builder} {next : Nat} (h : b.Waits next) (t : Terminator) :
    (b.leave t next).Open := by
  obtain ⟨c, hc, -, ht⟩ := h.empty
  exact ⟨c, (h.leave_getElem? t next).trans hc, ht⟩

theorem Waits.code {b : Builder} {next : Nat} (h : b.Waits next) (t : Terminator) :
    (b.leave t next).code = [] := by
  obtain ⟨c, hc, hi, -⟩ := h.empty
  have hc' : (b.leave t next).blocks[(b.leave t next).current]? = some c :=
    (h.leave_getElem? t next).trans hc
  rw [code_of_getElem? hc', hi]

theorem Extends.leave {b b' : Builder} {next : Nat} (h : b.Extends b') (hw : b'.Waits next)
    (hle : b.blocks.size ≤ next) (t : Terminator) : b.Extends (b'.leave t next) := by
  have hcur := h.current
  refine ⟨hw.opened t, h.within.trans (within_leave h.opened t next), ?_, .inr hle, h.name⟩
  intro id hid hne
  rw [Builder.leave_getElem?, if_neg (by omega), h.kept id hid hne]

end Builder

theorem Appends.extension {b b' : Builder} (h : Appends b b') (hb : b.Open)
    (hname : b'.name = b.name) : b.Extends b' :=
  ⟨h.opened hb, h.within hb, fun id _ hne => h.others id hne, .inl h.current, hname⟩

end C1Lang.IR
