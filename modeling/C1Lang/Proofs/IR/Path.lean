import C1Lang.Proofs.IR.WellFormed

/-!
# Temporaries along a path

The verifier walks the blocks once, in the order of their numbers, and counts a temporary as
written after any block that it has walked. Control takes other ways. So a temporary that is read
on a path was written on that path before, unless the path has jumped over a block that writes it
(`written_or_jumped_over`). That does happen: `bypass` is accepted and reads a temporary that was
not written.
-/

namespace C1Lang.IR

inductive Function.Path (f : Function) : List Nat → Nat → Prop
  | entry : Path f [] f.entry
  | step {passed : List Nat} {i j : Nat} : Path f passed i → Edge f.blocks i j →
      Path f (passed ++ [i]) j

/-- The path goes straight from a block with a number below `j` to one with a number above. -/
def JumpsOver (path : List Nat) (j : Nat) : Prop := ∃ i k, [i, k] <:+: path ∧ i < j ∧ j < k

namespace Function

variable {f : Function}

def codeAt (f : Function) (id : Nat) : List Instr :=
  (f.blocks[id]?.map (·.instructions.toList)).getD []

def codeAlong (f : Function) (path : List Nat) : List Instr := path.flatMap f.codeAt

theorem codeAt_eq {id : Nat} {b : Block} (h : f.blocks[id]? = some b) :
    f.codeAt id = b.instructions.toList := by
  simp [codeAt, h]

theorem mem_writes_codeAlong {path : List Nat} {t : Nat} :
    t ∈ writes (f.codeAlong path) ↔ ∃ id ∈ path, t ∈ writes (f.codeAt id) := by
  simp [codeAlong, writes, List.filterMap_flatMap]

/-- On every path, what is read was written on the path before. -/
structure ReadsWritten (f : Function) : Prop where
  operand : ∀ passed id position i t, f.Path passed id → f.At id position i →
    .temp t ∈ i.operands → t ∈ writes (f.codeAlong passed ++ (f.codeAt id).take position)
  condition : ∀ (passed : List Nat) (id : Nat) (b : Block) (t i j : Nat), f.Path passed id →
    f.blocks[id]? = some b → b.terminator = .branch (.temp t) i j →
    t ∈ writes (f.codeAlong passed ++ f.codeAt id)

def WritesAt (f : Function) (t id position : Nat) : Prop :=
  ∃ i, f.At id position i ∧ i.dest? = some t

def SingleAssignment (f : Function) : Prop :=
  ∀ t id position id' position', f.WritesAt t id position → f.WritesAt t id' position' →
    id = id' ∧ position = position'

theorem Path.jumpsOver {passed : List Nat} {id j : Nat} (h : f.Path passed id)
    (hentry : f.entry ≤ j) (hlt : j < id) (hnot : j ∉ passed) :
    JumpsOver (passed ++ [id]) j := by
  induction h with
  | entry => omega
  | @step passed i k _ _ ih =>
    rw [List.mem_append, List.mem_singleton, not_or] at hnot
    by_cases hi : j < i
    · obtain ⟨x, y, hinfix, hx, hy⟩ := ih hi hnot.1
      exact ⟨x, y, hinfix.trans (List.prefix_append _ _).isInfix, hx, hy⟩
    · refine ⟨i, k, ⟨passed, [], by simp⟩, by omega, hlt⟩

end Function

inductive Act
  | slot (name : String) (ty : Ty)
  | temp (ty : Ty)
  | emit (i : Instr)
  | create
  | terminate (t : Terminator)
  | switch (block : Nat)
deriving DecidableEq, Repr

def Builder.perform? (b : Builder) : Act → Option Builder
  | .slot name ty => some (b.addLocal name ty).2
  | .temp ty => some (b.addTemp ty).2
  | .emit i => b.emit? i
  | .create => some b.createBlock.2
  | .terminate t => b.terminate? t
  | .switch block => some (b.switchTo block)

def Builder.replay? (b : Builder) : List Act → Option Builder
  | [] => some b
  | a :: rest => (b.perform? a).bind (replay? · rest)

inductive Module.Constructed : Module → Prop
  | empty (name : String) : Constructed { name }
  | addGlobal {m : Module} (g : Global) : Constructed m → Constructed (m.addGlobal g).2
  | declare {m : Module} (name : String) : Constructed m → Constructed (m.declare name).2
  | define {m n : Module} {id : Nat} {name : String} {acts : List Act} {b : Builder} :
      Constructed m → (Builder.start name).replay? acts = some b →
      m.define? id b.finish = some n → Constructed n

namespace Module

variable {m : Module} {f : Function}

/-- What is written before in the order of the verifier was written on the path, unless the path
has passed by the block. -/
theorem writtenBefore_cases (passed : List Nat) {t id position : Nat}
    (h : f.WrittenBefore t id position) :
    t ∈ writes (f.codeAlong passed ++ (f.codeAt id).take position) ∨
      ∃ j < id, j ∉ passed ∧ t ∈ writes (f.codeAt j) := by
  obtain ⟨j, q, i, ⟨b, hb, hi⟩, hd, hlt | ⟨rfl, hlt⟩⟩ := h
  · have hj : t ∈ writes (f.codeAt j) := by
      rw [Function.codeAt_eq hb, mem_writes]
      exact ⟨q, i, by simpa using hi, hd⟩
    by_cases hp : j ∈ passed
    · left
      rw [writes, List.filterMap_append]
      exact List.mem_append_left _ (Function.mem_writes_codeAlong.mpr ⟨j, hp, hj⟩)
    · exact .inr ⟨j, hlt, hp, hj⟩
  · left
    rw [writes, List.filterMap_append]
    apply List.mem_append_right
    rw [Function.codeAt_eq hb]
    exact mem_writes_take.mpr ⟨q, hlt, i, by simpa using hi, hd⟩

theorem Constructed.entry (h : m.Constructed) (hf : f ∈ m.functions) : f.entry = entryBlock := by
  induction h with
  | empty => simp at hf
  | addGlobal g _ ih => exact ih hf
  | declare name _ ih =>
    rcases Array.mem_push.mp hf with hf | rfl
    · exact ih hf
    · rfl
  | define _ _ hn ih =>
    unfold define? at hn
    split at hn
    · cases hn
      rcases Array.mem_or_eq_of_mem_setIfInBounds hf with hf | rfl
      · exact ih hf
      · rfl
    · cases hn

/-- In a module that was made through builders and that the verifier accepts, a temporary that is
read on a path, as an operand or as a condition, was written on that path before, or the path has
jumped over a block that writes it. Every temporary that is written exists. -/
theorem written_or_jumped_over (m : Module) (hc : m.Constructed) (hm : m.defects = [])
    (f : Function) (hf : f ∈ m.functions) (hd : f.defined = true) (passed : List Nat) (id : Nat)
    (hp : f.Path passed id) :
    (∀ position i t, f.At id position i → .temp t ∈ i.operands →
      t ∈ writes (f.codeAlong passed ++ (f.codeAt id).take position) ∨
        ∃ j, t ∈ writes (f.codeAt j) ∧ JumpsOver (passed ++ [id]) j) ∧
    (∀ (b : Block) (t i j : Nat), f.blocks[id]? = some b →
      b.terminator = .branch (.temp t) i j →
      t ∈ writes (f.codeAlong passed ++ f.codeAt id) ∨
        ∃ j, t ∈ writes (f.codeAt j) ∧ JumpsOver (passed ++ [id]) j) ∧
    ∀ position i t, f.At id position i → i.dest? = some t → t < f.temps.size := by
  obtain ⟨-, -, -, -, hbodies⟩ := defects_eq_nil_iff_parts.mp hm
  obtain ⟨hadmits, -, hordered, -⟩ := (functionDefects_eq_nil_iff hd).mp (hbodies f hf hd)
  -- a path starts at the lowest number, so it must have jumped over what it has not passed
  have hjump : ∀ t, (∃ j < id, j ∉ passed ∧ t ∈ writes (f.codeAt j)) →
      ∃ j, t ∈ writes (f.codeAt j) ∧ JumpsOver (passed ++ [id]) j := by
    intro t h
    obtain ⟨j, hlt, hnot, hw⟩ := h
    have hentry : f.entry ≤ j := by
      rw [hc.entry hf]
      exact Nat.zero_le j
    exact ⟨j, hw, hp.jumpsOver hentry hlt hnot⟩
  refine ⟨?_, ?_, ?_⟩
  · intro position i t hi ht
    exact (writtenBefore_cases passed (hordered.operand id position i t hi ht)).imp_right (hjump t)
  · intro b t i j hb ht
    have h := writtenBefore_cases passed (hordered.condition id b t i j hb ht)
    rw [Function.codeAt_eq hb, ← Array.length_toList, List.take_length,
      ← Function.codeAt_eq hb] at h
    exact h.imp_right (hjump t)
  · intro position i t hi ht
    exact (hadmits id position i hi).dest t ht

/-- The acts of a function that branches past the block that writes a temporary, twice, to the one
that reads it. -/
def bypassActs : List Act :=
  [.slot "x" (.scalar .i32), .temp (.scalar .i32), .create, .create,
    .terminate (.branch (.const (.bool false)) 1 2),
    .switch 1, .emit (.unary 0 .neg (.const (.int 1))), .emit (.unary 0 .neg (.const (.int 2))),
    .terminate (.goto 2),
    .switch 2, .emit (.store (.slot 0) (.temp 0)), .terminate .ret]

def bypassMain : Function where
  name := "main"
  locals := #[⟨"x", .scalar .i32⟩]
  temps := #[.scalar .i32]
  blocks := #[
    { label := "BB0", terminator := .branch (.const (.bool false)) 1 2 },
    { label := "BB1",
      instructions := #[.unary 0 .neg (.const (.int 1)), .unary 0 .neg (.const (.int 2))],
      terminator := .goto 2 },
    { label := "BB2", instructions := #[.store (.slot 0) (.temp 0)], terminator := .ret }]
  defined := true

def bypass : Module := { name := "bypass", functions := #[bypassMain] }

theorem bypass_constructed : bypass.Constructed := by
  have hacts : ((Builder.start "main").replay? bypassActs).map Builder.finish =
      some bypassMain := by
    decide +kernel
  obtain ⟨b, hb, hfinish⟩ := Option.map_eq_some_iff.mp hacts
  have hdefine : (declare { name := "bypass" } "main").2.define? 0 bypassMain = some bypass := rfl
  rw [← hfinish] at hdefine
  exact .define (.declare "main" (.empty "bypass")) hb hdefine

theorem bypass_reads_unwritten :
    bypass.Constructed ∧ bypass.defects = [] ∧
      ∃ f ∈ bypass.functions, f.defined = true ∧ ¬ f.ReadsWritten ∧ ¬ f.SingleAssignment := by
  refine ⟨bypass_constructed, by decide, bypassMain, by simp [bypass], rfl, fun h => ?_,
    fun h => ?_⟩
  · have hpath : bypassMain.Path ([] ++ [0]) 2 := .step .entry ⟨_, rfl, by decide⟩
    have hread := h.operand _ 2 0 _ 0 hpath ⟨_, rfl, rfl⟩ (by decide)
    revert hread
    decide
  · have hsame := h 0 1 0 1 1 ⟨_, ⟨_, rfl, rfl⟩, rfl⟩ ⟨_, ⟨_, rfl, rfl⟩, rfl⟩
    exact absurd hsame.2 (by decide)

theorem bypass_jumped_over :
    bypass.Constructed ∧ bypass.defects = [] ∧ bypassMain ∈ bypass.functions ∧
      bypassMain.defined = true ∧ bypassMain.Path [0] 2 ∧
      bypassMain.At 2 0 (.store (.slot 0) (.temp 0)) ∧
      ∃ j, 0 ∈ writes (bypassMain.codeAt j) ∧ JumpsOver [0, 2] j := by
  have hm : bypass.defects = [] := by decide
  have hf : bypassMain ∈ bypass.functions := by simp [bypass]
  have hpath : bypassMain.Path ([] ++ [0]) 2 := .step .entry ⟨_, rfl, by decide⟩
  have hread : bypassMain.At 2 0 (.store (.slot 0) (.temp 0)) := ⟨_, rfl, rfl⟩
  refine ⟨bypass_constructed, hm, hf, rfl, hpath, hread, ?_⟩
  have h := (written_or_jumped_over bypass bypass_constructed hm bypassMain hf rfl [0] 2 hpath).1
    0 _ 0 hread (by decide)
  exact h.resolve_left (by decide)

end Module

end C1Lang.IR
