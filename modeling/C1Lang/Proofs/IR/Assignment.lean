import C1Lang.Proofs.IR.Path

/-!
# Single assignment

While a function is built, its temporaries are exactly what its instructions write, and each is
written once (`Assigned`): a temporary is allocated where the instruction that writes it is
emitted. What is read was written before in the same block (`LocalUses`). So on every path a use
comes after the write (`LocalUses.readsWritten`), which the verifier does not ask for.
-/

namespace C1Lang.IR

open Builder

namespace Function

structure Assigned (f : Function) : Prop where
  written : ∀ t, (∃ id position, f.WritesAt t id position) ↔ t < f.temps.size
  single : f.SingleAssignment

structure LocalUses (f : Function) : Prop where
  operand : ∀ id position i t, f.At id position i → .temp t ∈ i.operands →
    ∃ earlier < position, f.WritesAt t id earlier
  condition : ∀ (id : Nat) (b : Block) (t i j : Nat), f.blocks[id]? = some b →
    b.terminator = .branch (.temp t) i j →
    ∃ position < b.instructions.size, f.WritesAt t id position

theorem exists_writesAt_lt {f : Function} {id t n : Nat} {b : Block}
    (hb : f.blocks[id]? = some b) :
    (∃ position < n, f.WritesAt t id position) ↔ t ∈ writes (b.instructions.toList.take n) := by
  rw [mem_writes_take]
  simp only [WritesAt, At, hb, Option.some.injEq, exists_eq_left', Array.getElem?_toList]

theorem LocalUses.readsWritten {f : Function} (h : f.LocalUses) : f.ReadsWritten := by
  constructor
  · intro passed id position i t _ hi ht
    have hlocal := h.operand id position i t hi ht
    obtain ⟨b, hb, -⟩ := hi
    have hwrites := (exists_writesAt_lt hb).mp hlocal
    rw [writes, List.filterMap_append, codeAt_eq hb]
    exact List.mem_append_right _ hwrites
  · intro passed id b t i j _ hb ht
    have hwrites := (exists_writesAt_lt hb).mp (h.condition id b t i j hb ht)
    rw [← Array.length_toList, List.take_length] at hwrites
    rw [writes, List.filterMap_append, codeAt_eq hb]
    exact List.mem_append_right _ hwrites

end Function

theorem Code.reads {m : Module} {f : Function} {code : List Instr} (h : Code m f code)
    {position t : Nat} {i : Instr} (hi : code[position]? = some i) (ht : .temp t ∈ i.operands) :
    t ∈ writes (code.take position) := by
  induction h with
  | nil => simp at hi
  | @snoc code last _ _ hr ih =>
    by_cases hlt : position < code.length
    · rw [List.getElem?_append_left hlt] at hi
      rw [List.take_append_of_le_length (Nat.le_of_lt hlt)]
      exact ih hi
    · have hlen := (List.getElem?_eq_some_iff.mp hi).1
      obtain rfl : position = code.length := by
        simp at hlen
        omega
      rw [List.getElem?_concat_length] at hi
      cases hi
      rw [List.take_left']
      · exact hr t ht
      · rfl

theorem Function.Sound.localUses {m : Module} {f : Function} (h : f.Sound m) : f.LocalUses := by
  constructor
  · intro id position i t hi ht
    obtain ⟨b, hb, hi⟩ := hi
    have hsound := h.blocks b (Array.mem_of_getElem? hb)
    refine (Function.exists_writesAt_lt hb).mpr (hsound.code.reads ?_ ht)
    rwa [Array.getElem?_toList]
  · intro id b t i j hb ht
    have hsound := (h.blocks b (Array.mem_of_getElem? hb)).terminator
    rw [ht] at hsound
    rw [Function.exists_writesAt_lt hb, ← Array.length_toList, List.take_length]
    cases hsound with
    | branch _ hw _ _ => exact hw t rfl

section Steps

variable {b : Builder} {t id position : Nat}

theorem at_push_of_lt (hlt : b.current < b.blocks.size) (i j : Instr) :
    (b.push i).finish.At id position j ↔
      b.finish.At id position j ∨ id = b.current ∧ position = b.code.length ∧ j = i := by
  have hc := Array.getElem?_eq_getElem hlt
  generalize b.blocks[b.current] = c at hc
  have hget : (b.push i).finish.blocks[id]? = _ := b.push_getElem? i id
  have hcode : b.code.length = c.instructions.size := by rw [code_of_getElem? hc]; simp
  unfold Function.At
  rw [hget, hcode]
  by_cases hid : id = b.current
  · subst hid
    have hget' : b.finish.blocks[b.current]? = some c := hc
    rw [if_pos rfl, hc, hget']
    simp only [Option.map_some, Option.some.injEq, exists_eq_left', Array.getElem?_push, true_and]
    by_cases hp : position = c.instructions.size
    · subst hp
      simp [eq_comm]
    · simp [hp]
  · rw [if_neg hid]
    simp [hid, Builder.finish]

theorem at_leave (b : Builder) (way : Terminator) (next : Nat) (i : Instr) :
    (b.leave way next).finish.At id position i ↔ b.finish.At id position i := by
  have hget : (b.leave way next).finish.blocks[id]? = _ := b.leave_getElem? way next id
  unfold Function.At
  rw [hget]
  split
  · have hsame : b.finish.blocks[id]? = b.blocks[id]? := rfl
    rw [hsame]
    cases b.blocks[id]? <;> simp
  · rfl

theorem at_create (b : Builder) (i : Instr) :
    b.createBlock.2.finish.At id position i ↔ b.finish.At id position i := by
  have hget : b.createBlock.2.finish.blocks[id]? = _ := b.createBlock_getElem? id
  have hsame : b.finish.blocks[id]? = b.blocks[id]? := rfl
  unfold Function.At
  rw [hget, hsame]
  split
  · next hid =>
    subst hid
    simp
  · rfl

theorem writesAt_push (hb : b.Open) (i : Instr) :
    (b.push i).finish.WritesAt t id position ↔ b.finish.WritesAt t id position ∨
      id = b.current ∧ position = b.code.length ∧ i.dest? = some t := by
  unfold Function.WritesAt
  simp only [at_push_of_lt hb.lt]
  grind

theorem writesAt_leave (b : Builder) (way : Terminator) (next : Nat) :
    (b.leave way next).finish.WritesAt t id position ↔ b.finish.WritesAt t id position := by
  simp only [Function.WritesAt, at_leave]

theorem writesAt_create (b : Builder) :
    b.createBlock.2.finish.WritesAt t id position ↔ b.finish.WritesAt t id position := by
  simp only [Function.WritesAt, at_create]

end Steps

namespace Function.Assigned

variable {b b' : Builder}

theorem start (name : String) : (Builder.start name).finish.Assigned := by
  have hnone : ∀ t id position, ¬ (Builder.start name).finish.WritesAt t id position := by
    intro t id position h
    obtain ⟨i, ⟨c, hc, hi⟩, -⟩ := h
    cases id with
    | zero =>
      cases hc
      cases hi
    | succ id => simp [Builder.start, Builder.finish] at hc
  constructor
  · intro t
    have hsize : (Builder.start name).finish.temps.size = 0 := rfl
    simp [hnone, hsize]
  · intro t id position _ _ h
    exact absurd h (hnone t id position)

theorem congr (h : b.finish.Assigned) (htemps : b'.temps = b.temps)
    (hsame : ∀ t id position,
      b'.finish.WritesAt t id position ↔ b.finish.WritesAt t id position) :
    b'.finish.Assigned := by
  constructor
  · intro t
    have hsize : b'.finish.temps.size = b.finish.temps.size := congrArg Array.size htemps
    simp only [hsame, h.written t, hsize]
  · intro t id position id' position' hw hw'
    exact h.single t id position id' position' ((hsame _ _ _).mp hw) ((hsame _ _ _).mp hw')

theorem compute (h : b.finish.Assigned) (hb : b.Open) (ty : Ty) {i : Instr}
    (hd : i.dest? = some b.temps.size) : (b.compute ty i).finish.Assigned := by
  have hwrites : ∀ t id position, (b.compute ty i).finish.WritesAt t id position ↔
      b.finish.WritesAt t id position ∨
        id = b.current ∧ position = b.code.length ∧ b.temps.size = t := by
    intro t id position
    have hopen : (b.addTemp ty).2.Open := hb
    have hpush : (b.compute ty i).finish.WritesAt t id position ↔ _ := writesAt_push hopen i
    rw [hd, Option.some.injEq] at hpush
    exact hpush
  -- the temporary that is allocated is new, so nothing has written it
  have hfresh : ∀ id position, ¬ b.finish.WritesAt b.temps.size id position := by
    intro id position hw
    exact Nat.lt_irrefl _ ((h.written _).mp ⟨id, position, hw⟩)
  have hsize : (b.compute ty i).finish.temps.size = b.temps.size + 1 := by
    simp [Builder.compute, Builder.addTemp, Builder.push, Builder.finish]
  constructor
  · intro t
    rw [hsize]
    constructor
    · intro hex
      obtain ⟨id, position, hw⟩ := hex
      rcases (hwrites t id position).mp hw with hw | ⟨-, -, ht⟩
      · exact Nat.lt_succ_of_lt ((h.written t).mp ⟨id, position, hw⟩)
      · omega
    · intro hlt
      by_cases ht : b.temps.size = t
      · exact ⟨_, _, (hwrites t _ _).mpr (.inr ⟨rfl, rfl, ht⟩)⟩
      · have hlt' : t < b.finish.temps.size := by
          simp only [Builder.finish]
          omega
        obtain ⟨id, position, hw⟩ := (h.written t).mpr hlt'
        exact ⟨id, position, (hwrites t id position).mpr (.inl hw)⟩
  · intro t id position id' position' hw hw'
    rcases (hwrites t id position).mp hw with hw | ⟨rfl, rfl, rfl⟩
    · rcases (hwrites t id' position').mp hw' with hw' | ⟨-, -, rfl⟩
      · exact h.single t id position id' position' hw hw'
      · exact absurd hw (hfresh id position)
    · rcases (hwrites _ id' position').mp hw' with hw' | ⟨rfl, rfl, -⟩
      · exact absurd hw' (hfresh id' position')
      · exact ⟨rfl, rfl⟩

end Function.Assigned

theorem Built.assigned {m : Module} {b b' : Builder} {waiting : List Nat} (hb : b.Open)
    (ha : b.finish.Assigned) (h : Built m b waiting b') : b'.finish.Assigned := by
  induction h with
  | start => exact ha
  | slot _ _ _ ih => exact ih.congr rfl fun _ _ _ => Iff.rfl
  | compute h hd _ _ ih => exact ih.compute (h.frame hb).opened _ hd
  | perform h hd _ _ ih =>
    refine ih.congr rfl fun t id position => ?_
    rw [writesAt_push (h.frame hb).opened, hd]
    simp
  | create _ ih => exact ih.congr rfl fun _ _ _ => writesAt_create _
  | leave _ _ _ _ _ ih => exact ih.congr rfl fun _ _ _ => writesAt_leave _ _ _

theorem Built.finish_assigned {m : Module} {name : String} {b : Builder}
    (h : Built m (Builder.start name) [] b) : (b.leave .ret b.current).finish.Assigned :=
  (h.assigned (Builder.start_open name) (.start name)).congr rfl fun _ _ _ => writesAt_leave _ _ _

end C1Lang.IR
