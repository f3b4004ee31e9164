import C1Lang.Proofs.IR.Assembly

/-!
# Well-formed modules

What it means for a module to be well formed, said without the verifier: names are unique,
initializers match their types, and in every function that is defined each instruction keeps its
typing rule and reads only what is written before it, in the order of blocks and positions, and
each block is ended and lies on a path from the entry block. The verifier finds no defect exactly
in the modules that are well formed (`defects_eq_nil_iff`). One case is set apart: where a
temporary has no type, the verifier takes it for the content of what is not a pointer.
-/

namespace C1Lang.IR

inductive Init.Matches : Init → Ty → Prop
  | scalar {c : Const} : Matches (.scalar c) (.scalar c.scalar)
  | array {cs : List Const} {s : Scalar} : (∀ c ∈ cs, c.scalar = s) →
      Matches (.array cs) (.array s cs.length)

theorem Init.fits_iff {init : Init} {ty : Ty} : init.fits ty = true ↔ init.Matches ty := by
  constructor
  · intro h
    cases init with
    | scalar c =>
      cases ty <;> simp only [fits, beq_iff_eq, Bool.false_eq_true] at h
      subst h
      exact .scalar
    | array cs =>
      cases ty <;> simp only [fits, Bool.and_eq_true, beq_iff_eq, Bool.false_eq_true,
        List.all_eq_true] at h
      obtain ⟨rfl, hs⟩ := h
      exact .array hs
  · intro h
    cases h with
    | scalar => simp [fits]
    | array hs => simpa [fits] using hs

theorem Global.wellFormed_iff {g : Global} :
    g.wellFormed = true ↔ ∀ init, g.init = some init → init.Matches g.ty := by
  unfold Global.wellFormed
  cases hg : g.init with
  | none => simp
  | some init => simp [Init.fits_iff]

theorem repeated_eq_nil_iff {names seen : List String} :
    repeated seen names = [] ↔ names.Nodup ∧ ∀ n ∈ names, n ∉ seen := by
  constructor
  · induction names generalizing seen with
    | nil => simp
    | cons n rest ih =>
      intro h
      unfold repeated at h
      split at h
      · cases h
      · next hn =>
        obtain ⟨hnodup, hs⟩ := ih h
        simp only [List.contains_eq_mem, decide_eq_true_eq] at hn
        refine ⟨List.nodup_cons.mpr ⟨fun hmem => hs n hmem List.mem_cons_self, hnodup⟩, ?_⟩
        intro x hx
        rcases List.mem_cons.mp hx with rfl | hx
        · exact hn
        · exact fun hmem => hs x hx (List.mem_cons_of_mem _ hmem)
  · intro h
    exact repeated_eq_nil h.1 h.2

theorem globalNameDefects_eq_nil_iff {functions names seen : List String} :
    globalNameDefects functions seen names = [] ↔
      names.Nodup ∧ (∀ n ∈ names, n ∉ functions) ∧ ∀ n ∈ names, n ∉ seen := by
  constructor
  · induction names generalizing seen with
    | nil => simp
    | cons n rest ih =>
      intro h
      unfold globalNameDefects at h
      split at h
      · cases h
      · next hn =>
        split at h
        · cases h
        · next hf =>
          obtain ⟨hnodup, hfun, hs⟩ := ih h
          simp only [List.contains_eq_mem, decide_eq_true_eq] at hn hf
          refine ⟨List.nodup_cons.mpr ⟨fun hmem => hs n hmem List.mem_cons_self, hnodup⟩,
            List.forall_mem_cons.mpr ⟨hf, hfun⟩, List.forall_mem_cons.mpr ⟨hn, ?_⟩⟩
          exact fun x hx hmem => hs x hx (List.mem_cons_of_mem _ hmem)
  · intro h
    exact globalNameDefects_eq_nil h.1 h.2.1 h.2.2

@[simp] theorem require_eq_nil_iff {c : Bool} {d : BlockDefect} :
    require c d = [] ↔ c = true := by
  unfold require
  split <;> simp_all

@[simp] theorem requireTy_eq_nil_iff {name : String} {expected actual : Ty} :
    requireTy name expected actual = [] ↔ expected = actual := by
  simp [requireTy]

def Function.At (f : Function) (id position : Nat) (i : Instr) : Prop :=
  ∃ b, f.blocks[id]? = some b ∧ b.instructions[position]? = some i

/-- An instruction writes the temporary in a block of a smaller number, or earlier in the block. -/
def Function.WrittenBefore (f : Function) (t id position : Nat) : Prop :=
  ∃ id' position' i, f.At id' position' i ∧ i.dest? = some t ∧
    (id' < id ∨ id' = id ∧ position' < position)

inductive Terminator.Typed (m : Module) (f : Function) : Terminator → Prop
  | goto {target : Nat} : target < f.blocks.size → Typed m f (.goto target)
  | branch {c : Operand} {i j : Nat} : m.operandType? f c = some (.scalar .i1) →
      i < f.blocks.size → j < f.blocks.size → Typed m f (.branch c i j)
  | ret : Typed m f .ret

structure Function.Ordered (f : Function) : Prop where
  operand : ∀ id position i t, f.At id position i → .temp t ∈ i.operands →
    f.WrittenBefore t id position
  condition : ∀ (id : Nat) (b : Block) (t i j : Nat), f.blocks[id]? = some b →
    b.terminator = .branch (.temp t) i j → f.WrittenBefore t id b.instructions.size

structure Function.WellFormed (m : Module) (f : Function) : Prop where
  typed : ∀ id position i, f.At id position i → i.Typed m f
  ended : ∀ (id : Nat) (b : Block), f.blocks[id]? = some b → b.terminator.Typed m f
  ordered : f.Ordered
  linked : ∀ id < f.blocks.size, Linked f.blocks f.entry id

structure Module.WellFormed (m : Module) : Prop where
  functions : m.functionNames.Nodup
  globals : m.globalNames.Nodup
  disjoint : ∀ name ∈ m.globalNames, name ∉ m.functionNames
  initialized : ∀ g ∈ m.globals, ∀ init, g.init = some init → init.Matches g.ty
  bodies : ∀ f ∈ m.functions, f.defined = true → f.WellFormed m

theorem mem_take_iff {α : Type} {xs : List α} {n : Nat} {a : α} :
    a ∈ xs.take n ↔ ∃ k < n, xs[k]? = some a := by
  rw [List.mem_iff_getElem?]
  simp only [List.getElem?_take, Option.ite_none_right_eq_some]

theorem mem_writes {code : List Instr} {t : Nat} :
    t ∈ writes code ↔ ∃ (position : Nat) (i : Instr), code[position]? = some i ∧
      i.dest? = some t := by
  simp only [writes, List.mem_filterMap, List.mem_iff_getElem? (l := code)]
  grind

theorem mem_writes_take {code : List Instr} {t n : Nat} :
    t ∈ writes (code.take n) ↔ ∃ position < n, ∃ (i : Instr), code[position]? = some i ∧
      i.dest? = some t := by
  simp only [writes, List.mem_filterMap, mem_take_iff]
  grind

def codeBefore (blocks : List Block) (id : Nat) : List Instr :=
  (blocks.take id).flatMap (·.instructions.toList)

theorem mem_writes_codeBefore {blocks : List Block} {t id : Nat} :
    t ∈ writes (codeBefore blocks id) ↔ ∃ id' < id, ∃ (b : Block), blocks[id']? = some b ∧
      t ∈ writes b.instructions.toList := by
  simp only [codeBefore, writes, List.filterMap_flatMap, List.mem_flatMap, mem_take_iff]
  grind

theorem Function.writtenBefore_iff {f : Function} {t id position : Nat} {b : Block}
    (hb : f.blocks[id]? = some b) :
    f.WrittenBefore t id position ↔ t ∈ writes (codeBefore f.blocks.toList id) ∨
      t ∈ writes (b.instructions.toList.take position) := by
  rw [mem_writes_codeBefore, mem_writes_take]
  simp only [WrittenBefore, At, mem_writes, Array.getElem?_toList]
  constructor
  · intro h
    obtain ⟨id', q, i, ⟨c, hc, hi⟩, hd, hlt | ⟨rfl, hlt⟩⟩ := h
    · exact .inl ⟨id', hlt, c, hc, q, i, hi, hd⟩
    · rw [hb] at hc
      cases hc
      exact .inr ⟨q, hlt, i, hi, hd⟩
  · intro h
    rcases h with ⟨id', hlt, c, hc, q, i, hi, hd⟩ | ⟨q, hlt, i, hi, hd⟩
    · exact ⟨id', q, i, ⟨c, hc, hi⟩, hd, .inl hlt⟩
    · exact ⟨id, q, i, ⟨b, hb, hi⟩, hd, .inr ⟨rfl, hlt⟩⟩

namespace Module

variable {m : Module} {f : Function}

theorem operandDefects_eq_nil_iff {written : List Nat} {o : Operand} :
    m.operandDefects f written o = [] ↔
      (∃ ty, m.operandType? f o = some ty) ∧ ∀ t, o = .temp t → t ∈ written := by
  rw [← Option.isSome_iff_exists]
  cases o with
  | temp id => simp [operandDefects, tempDefects, operandType?]
  | slot id => simp [operandDefects, operandType?]
  | global id => simp [operandDefects, operandType?]
  | const c => simp [operandDefects, operandType?]

structure Admits (m : Module) (f : Function) (i : Instr) : Prop where
  operands : ∀ o ∈ i.operands, ∃ ty, m.operandType? f o = some ty
  dest : ∀ d, i.dest? = some d → d < f.temps.size
  types : m.typeDefects f i = []

theorem instrDefects_eq_nil_iff {written : List Nat} {i : Instr} :
    m.instrDefects f written i = [] ↔
      m.Admits f i ∧ ∀ t, .temp t ∈ i.operands → t ∈ written := by
  have hdest : (i.dest?.map (tempDefects f)).getD [] = [] ↔
      ∀ d, i.dest? = some d → d < f.temps.size := by
    cases i.dest? with
    | none => simp
    | some d => simp [tempDefects]
  simp only [instrDefects, List.append_eq_nil_iff, List.flatMap_eq_nil_iff, hdest,
    operandDefects_eq_nil_iff]
  constructor
  · intro h
    exact ⟨⟨fun o ho => (h.1.1 o ho).1, h.2, h.1.2⟩, fun t ht => (h.1.1 _ ht).2 t rfl⟩
  · intro h
    refine ⟨⟨fun o ho => ⟨h.1.operands o ho, ?_⟩, h.1.types⟩, h.1.dest⟩
    rintro t rfl
    exact h.2 t ho

theorem terminatorDefects_eq_nil_iff {written : List Nat} {t : Terminator} :
    m.terminatorDefects f written t = [] ↔
      t.Typed m f ∧ ∀ x i j, t = .branch (.temp x) i j → x ∈ written := by
  constructor
  · intro h
    cases t with
    | goto target =>
      simp only [terminatorDefects, targetDefects, require_eq_nil_iff, decide_eq_true_eq] at h
      exact ⟨.goto h, by simp⟩
    | branch c i j =>
      simp only [terminatorDefects, targetDefects, List.append_eq_nil_iff, require_eq_nil_iff,
        decide_eq_true_eq, operandDefects_eq_nil_iff] at h
      obtain ⟨⟨⟨⟨⟨ty, hty⟩, hw⟩, hi⟩, hj⟩, hbool⟩ := h
      simp only [hty, require_eq_nil_iff, beq_iff_eq] at hbool
      subst hbool
      refine ⟨.branch hty hi hj, ?_⟩
      rintro x _ _ ⟨rfl, rfl, rfl⟩
      exact hw x rfl
    | ret => exact ⟨.ret, by simp⟩
    | unreachable => simp [terminatorDefects] at h
  · intro h
    obtain ⟨hty, hw⟩ := h
    cases hty with
    | goto ht => simp [terminatorDefects, targetDefects, ht]
    | branch hc hi hj =>
      have ho := operandDefects_eq_nil hc fun x hx => hw x _ _ (by rw [hx])
      simp [terminatorDefects, targetDefects, ho, hi, hj, hc]
    | ret => rfl

theorem mem_writtenAfter {written : List Nat} {i : Instr} {t : Nat} :
    t ∈ writtenAfter written i ↔ i.dest? = some t ∨ t ∈ written := by
  unfold writtenAfter
  cases i.dest? <;> simp [eq_comm]

/-- A block that the verifier has nothing against where `written` was written before it. -/
structure Passes (m : Module) (f : Function) (written : Nat → Prop) (b : Block) : Prop where
  admits : ∀ (position : Nat) (i : Instr), b.instructions[position]? = some i → m.Admits f i
  operand : ∀ (position : Nat) (i : Instr) (t : Nat), b.instructions[position]? = some i →
    .temp t ∈ i.operands → written t ∨ t ∈ writes (b.instructions.toList.take position)
  ended : b.terminator.Typed m f
  condition : ∀ t i j, b.terminator = .branch (.temp t) i j →
    written t ∨ t ∈ writes (b.instructions.toList.take b.instructions.size)

theorem instrsDefects_eq_nil_iff {written : List Nat} {code : List Instr} :
    (m.instrsDefects f written code).1 = [] ↔
      ∀ (position : Nat) (i : Instr), code[position]? = some i → m.Admits f i ∧
        ∀ t, .temp t ∈ i.operands → t ∈ written ∨ t ∈ writes (code.take position) := by
  induction code generalizing written with
  | nil => simp [instrsDefects]
  | cons i rest ih =>
    simp only [instrsDefects, List.append_eq_nil_iff, instrDefects_eq_nil_iff, ih,
      mem_writtenAfter]
    have hafter : ∀ (t position : Nat),
        t ∈ writes ((i :: rest).take (position + 1)) ↔
          i.dest? = some t ∨ t ∈ writes (rest.take position) := by
      intro t position
      simp only [writes, List.take_succ_cons, List.mem_filterMap, List.mem_cons]
      grind
    constructor
    · intro h position j hj
      cases position with
      | zero =>
        cases hj
        exact ⟨h.1.1, fun t ht => .inl (h.1.2 t ht)⟩
      | succ position =>
        obtain ⟨hadm, hread⟩ := h.2 position j hj
        refine ⟨hadm, fun t ht => ?_⟩
        rw [hafter, ← or_assoc, or_comm (a := t ∈ written)]
        exact hread t ht
    · intro h
      refine ⟨⟨(h 0 i rfl).1, fun t ht => ?_⟩, fun position j hj => ?_⟩
      · exact ((h 0 i rfl).2 t ht).resolve_right (by simp [writes])
      · obtain ⟨hadm, hread⟩ := h (position + 1) j hj
        refine ⟨hadm, fun t ht => ?_⟩
        rw [or_comm (a := i.dest? = some t), or_assoc, ← hafter]
        exact hread t ht

theorem passes_iff {written : List Nat} {b : Block} :
    m.Passes f (· ∈ written) b ↔ (m.instrsDefects f written b.instructions.toList).1 = [] ∧
      m.terminatorDefects f (m.instrsDefects f written b.instructions.toList).2 b.terminator =
        [] := by
  have hwhole : b.instructions.toList.take b.instructions.size = b.instructions.toList := by
    rw [← Array.length_toList, List.take_length]
  simp only [instrsDefects_eq_nil_iff, terminatorDefects_eq_nil_iff, Array.getElem?_toList,
    mem_instrsDefects_snd]
  constructor
  · intro h
    refine ⟨fun p i hi => ⟨h.admits p i hi, fun t => h.operand p i t hi⟩, h.ended, ?_⟩
    intro t i j ht
    rw [or_comm, ← hwhole]
    exact h.condition t i j ht
  · intro h
    refine ⟨fun p i hi => (h.1 p i hi).1, fun p i t hi => (h.1 p i hi).2 t, h.2.1, ?_⟩
    intro t i j ht
    rw [hwhole, or_comm]
    exact h.2.2 t i j ht

theorem blocksDefects_eq_nil_iff {written : List Nat} {blocks : List Block} :
    m.blocksDefects f written blocks = [] ↔
      ∀ (id : Nat) (b : Block), blocks[id]? = some b →
        m.Passes f (fun t => t ∈ written ∨ t ∈ writes (codeBefore blocks id)) b := by
  induction blocks generalizing written with
  | nil => simp [blocksDefects]
  | cons b rest ih =>
    have hfirst : (fun t => t ∈ written ∨ t ∈ writes (codeBefore (b :: rest) 0)) =
        (· ∈ written) := by
      simp [codeBefore, writes]
    have hrest : ∀ (id t : Nat), t ∈ (m.instrsDefects f written b.instructions.toList).2 ∨
        t ∈ writes (codeBefore rest id) ↔
          t ∈ written ∨ t ∈ writes (codeBefore (b :: rest) (id + 1)) := by
      intro id t
      rw [mem_instrsDefects_snd]
      simp only [codeBefore, List.take_succ_cons, List.flatMap_cons, writes,
        List.filterMap_append, List.mem_append]
      rw [or_comm (b := t ∈ written), or_assoc]
    simp only [blocksDefects, List.append_eq_nil_iff, List.map_eq_nil_iff, ← passes_iff, ih, hrest]
    constructor
    · intro h id c hc
      cases id with
      | zero =>
        cases hc
        rw [hfirst]
        exact h.1
      | succ id => exact h.2 id c hc
    · intro h
      exact ⟨hfirst ▸ h 0 b rfl, fun id c hc => h (id + 1) c hc⟩

theorem reachDefects_eq_nil_iff :
    reachDefects f = [] ↔ ∀ id < f.blocks.size, Linked f.blocks f.entry id := by
  constructor
  · intro h id hid
    unfold reachDefects at h
    rw [List.filterMap_eq_nil_iff] at h
    have hmem : (f.blocks[id], id) ∈ f.blocks.toList.zipIdx := by
      simp [List.mem_zipIdx_iff_getElem?, hid]
    have hseen := h _ hmem
    simp only [List.contains_eq_mem, decide_eq_true_eq, ite_eq_left_iff, reduceCtorEq,
      imp_false, Decidable.not_not] at hseen
    exact (mem_reached_iff.mp hseen).2
  · exact reachDefects_eq_nil

theorem functionDefects_eq_nil_iff (hf : f.defined = true) :
    m.functionDefects f = [] ↔ (∀ id position i, f.At id position i → m.Admits f i) ∧
      (∀ (id : Nat) (b : Block), f.blocks[id]? = some b → b.terminator.Typed m f) ∧
      f.Ordered ∧ ∀ id < f.blocks.size, Linked f.blocks f.entry id := by
  simp only [functionDefects, hf, if_true, List.append_eq_nil_iff, blocksDefects_eq_nil_iff,
    reachDefects_eq_nil_iff, Array.getElem?_toList, List.not_mem_nil, false_or]
  constructor
  · intro h
    obtain ⟨hblocks, hlinked⟩ := h
    refine ⟨?_, fun id b hb => (hblocks id b hb).ended, ⟨?_, ?_⟩, hlinked⟩
    · intro id p i hi
      obtain ⟨b, hb, hi⟩ := hi
      exact (hblocks id b hb).admits p i hi
    · intro id p i t hi ht
      obtain ⟨b, hb, hi⟩ := hi
      exact (Function.writtenBefore_iff hb).mpr ((hblocks id b hb).operand p i t hi ht)
    · intro id b t i j hb ht
      exact (Function.writtenBefore_iff hb).mpr ((hblocks id b hb).condition t i j ht)
  · intro h
    obtain ⟨hadmits, hended, hordered, hlinked⟩ := h
    refine ⟨fun id b hb => ⟨fun p i hi => hadmits id p i ⟨b, hb, hi⟩, ?_, hended id b hb, ?_⟩,
      hlinked⟩
    · intro p i t hi ht
      exact (Function.writtenBefore_iff hb).mp (hordered.operand id p i t ⟨b, hb, hi⟩ ht)
    · intro t i j ht
      exact (Function.writtenBefore_iff hb).mp (hordered.condition id b t i j hb ht)

theorem operandType?_ne_void (hv : .void ∉ f.temps) (o : Operand) :
    m.operandType? f o ≠ some .void := by
  cases o with
  | temp id =>
    intro h
    exact hv (Array.mem_of_getElem? h)
  | slot id => simp [operandType?]
  | global id => simp [operandType?]
  | const c => simp [operandType?]

theorem admits_iff_typed (hv : .void ∉ f.temps) {i : Instr} : m.Admits f i ↔ i.Typed m f := by
  constructor
  · intro h
    obtain ⟨ho, hd, ht⟩ := h
    have hdest : ∀ d ty, i.dest? = some d → destTy f d = ty → f.temps[d]? = some ty := by
      intro d ty hid hty
      have hlt := hd d hid
      simpa [destTy, hlt] using hty
    have hvoid : ∀ d, i.dest? = some d → destTy f d ≠ .void := by
      intro d hid hty
      exact hv (Array.mem_of_getElem? (hdest d _ hid hty))
    cases i with
    | load d p =>
      obtain ⟨ty, hp⟩ := ho p (by simp [Instr.operands])
      simp only [typeDefects, hp, requireTy_eq_nil_iff] at ht
      cases ty with
      | pointer t => exact .load hp (hdest d t rfl ht.symm)
      | _ => exact absurd ht.symm (hvoid d rfl)
    | store p v =>
      obtain ⟨ty, hp⟩ := ho p (by simp [Instr.operands])
      obtain ⟨ty', hval⟩ := ho v (by simp [Instr.operands])
      simp only [typeDefects, hp, hval, requireTy_eq_nil_iff] at ht
      subst ht
      cases ty with
      | pointer t => exact .store hp hval
      | _ => exact absurd hval (operandType?_ne_void hv v)
    | elementPtr d b x =>
      obtain ⟨ty, hb⟩ := ho b (by simp [Instr.operands])
      obtain ⟨ty', hx⟩ := ho x (by simp [Instr.operands])
      simp only [typeDefects, operandTyDefects, hb, hx, List.append_eq_nil_iff,
        requireTy_eq_nil_iff] at ht
      obtain ⟨rfl, ht⟩ := ht
      split at ht
      · next hnone => cases hnone
      · next element n heq =>
        cases heq
        exact .elementPtr hb hx (hdest d _ rfl (requireTy_eq_nil_iff.mp ht).symm)
      · next ty hne heq =>
        cases heq
        exact absurd (requireTy_eq_nil_iff.mp ht).symm (hne .i32 0)
    | binary d op l r =>
      obtain ⟨ty, hl⟩ := ho l (by simp [Instr.operands])
      obtain ⟨ty', hr⟩ := ho r (by simp [Instr.operands])
      simp only [typeDefects, operandTyDefects, hl, hr, List.append_eq_nil_iff,
        requireTy_eq_nil_iff] at ht
      obtain ⟨⟨rfl, rfl⟩, hres⟩ := ht
      exact .binary hl hr (hdest d _ rfl hres.symm)
    | unary d op x =>
      obtain ⟨ty, hx⟩ := ho x (by simp [Instr.operands])
      simp only [typeDefects, operandTyDefects, hx, List.append_eq_nil_iff,
        requireTy_eq_nil_iff] at ht
      obtain ⟨rfl, hres⟩ := ht
      exact .unary hx (hdest d _ rfl hres.symm)
    | compare d p l r =>
      obtain ⟨ty, hl⟩ := ho l (by simp [Instr.operands])
      obtain ⟨ty', hr⟩ := ho r (by simp [Instr.operands])
      simp only [typeDefects, operandTyDefects, hl, hr, List.append_eq_nil_iff,
        requireTy_eq_nil_iff] at ht
      obtain ⟨⟨rfl, rfl⟩, hres⟩ := ht
      exact .compare hl hr (hdest d _ rfl hres.symm)
    | cast d op x =>
      obtain ⟨ty, hx⟩ := ho x (by simp [Instr.operands])
      simp only [typeDefects, operandTyDefects, hx, List.append_eq_nil_iff,
        requireTy_eq_nil_iff] at ht
      obtain ⟨rfl, hres⟩ := ht
      exact .cast hx (hdest d _ rfl hres.symm)
    | call callee =>
      simp only [typeDefects, require_eq_nil_iff, decide_eq_true_eq] at ht
      exact .call ht
  · intro h
    exact ⟨fun o ho => h.operand ho, fun d hd => h.dest hd, h.typeDefects_eq_nil⟩

theorem functionDefects_eq_nil_iff_wellFormed (hf : f.defined = true) (hv : .void ∉ f.temps) :
    m.functionDefects f = [] ↔ f.WellFormed m := by
  simp only [functionDefects_eq_nil_iff hf, admits_iff_typed hv]
  exact ⟨fun h => ⟨h.1, h.2.1, h.2.2.1, h.2.2.2⟩, fun h => ⟨h.typed, h.ended, h.ordered, h.linked⟩⟩

theorem defects_eq_nil_iff_parts :
    m.defects = [] ↔ m.functionNames.Nodup ∧ m.globalNames.Nodup ∧
      (∀ name ∈ m.globalNames, name ∉ m.functionNames) ∧
      (∀ g ∈ m.globals, ∀ init, g.init = some init → init.Matches g.ty) ∧
      ∀ f ∈ m.functions, f.defined = true → m.functionDefects f = [] := by
  have hbodies : (∀ f ∈ m.functions, f.defined = true → m.functionDefects f = []) ↔
      ∀ f ∈ m.functions, m.functionDefects f = [] := by
    refine forall₂_congr fun f _ => ⟨fun h => ?_, fun h _ => h⟩
    cases hd : f.defined with
    | false => simp [functionDefects, hd]
    | true => exact h hd
  simp only [defects, List.append_eq_nil_iff, List.map_eq_nil_iff, repeated_eq_nil_iff,
    globalNameDefects_eq_nil_iff, List.filter_eq_nil_iff, List.flatMap_eq_nil_iff, hbodies,
    ← Global.wellFormed_iff, functionNames, globalNames, Array.mem_toList_iff,
    Bool.not_eq_true, Bool.not_eq_false', List.not_mem_nil, not_false_eq_true, implies_true,
    and_true, and_assoc]

end Module

def Function.Reachable (f : Function) (id : Nat) : Prop :=
  id < f.blocks.size ∧ Linked f.blocks f.entry id

instance (f : Function) (id : Nat) : Decidable (f.Reachable id) :=
  decidable_of_iff (id ∈ Module.reached f) Module.mem_reached_iff

def Function.unreached (f : Function) : List String :=
  (f.blocks.toList.zipIdx.filter fun x => ¬ f.Reachable x.2).map (·.1.label)

def Module.unreached (m : Module) : List (String × String) :=
  m.functions.toList.flatMap fun f => if f.defined then f.unreached.map (f.name, ·) else []

def Defect.unreachable? : Defect → Option (String × String)
  | inBlock function block .unreachable => some (function, block)
  | _ => none

namespace Module

variable {m : Module} {f : Function}

@[simp] theorem mem_require {c : Bool} {d e : BlockDefect} :
    e ∈ require c d ↔ c = false ∧ e = d := by
  unfold require
  cases c <;> simp

theorem unreachable_not_mem_operandDefects (written : List Nat) (o : Operand) :
    .unreachable ∉ m.operandDefects f written o := by
  cases o <;> simp [operandDefects, tempDefects]

theorem unreachable_not_mem_operandTyDefects (name : String) (ty : Ty) (o : Operand) :
    .unreachable ∉ m.operandTyDefects f name ty o := by
  unfold operandTyDefects
  split <;> simp [requireTy]

theorem unreachable_not_mem_typeDefects (i : Instr) : .unreachable ∉ m.typeDefects f i := by
  have ho := @unreachable_not_mem_operandTyDefects m f
  cases i with
  | load d p =>
    simp only [typeDefects]
    split <;> simp [requireTy]
  | store p v =>
    simp only [typeDefects]
    split <;> simp [requireTy]
  | elementPtr d b x =>
    simp only [typeDefects, List.mem_append, ho, false_or]
    split <;> simp [requireTy]
  | _ => simp [typeDefects, ho, requireTy]

theorem unreachable_not_mem_instrsDefects (written : List Nat) (code : List Instr) :
    .unreachable ∉ (m.instrsDefects f written code).1 := by
  induction code generalizing written with
  | nil => simp [instrsDefects]
  | cons i rest ih =>
    have hdest : BlockDefect.unreachable ∉ (i.dest?.map (tempDefects f)).getD [] := by
      cases i.dest? <;> simp [tempDefects]
    simp [instrsDefects, instrDefects, ih, hdest, unreachable_not_mem_operandDefects,
      unreachable_not_mem_typeDefects]

theorem unreachable_not_mem_terminatorDefects (written : List Nat) (t : Terminator) :
    .unreachable ∉ m.terminatorDefects f written t := by
  cases t with
  | branch c i j =>
    simp only [terminatorDefects, targetDefects, List.mem_append,
      unreachable_not_mem_operandDefects, mem_require]
    split <;> simp
  | _ => simp [terminatorDefects, targetDefects]

theorem blocksDefects_unreachable? (written : List Nat) (blocks : List Block) :
    (m.blocksDefects f written blocks).filterMap Defect.unreachable? = [] := by
  induction blocks generalizing written with
  | nil => rfl
  | cons b rest ih =>
    dsimp only [blocksDefects]
    rw [List.filterMap_append, ih, List.append_nil, List.filterMap_map,
      List.filterMap_eq_nil_iff]
    intro d hd
    cases d with
    | unreachable =>
      rcases List.mem_append.mp hd with hd | hd
      · exact absurd hd (unreachable_not_mem_instrsDefects written _)
      · exact absurd hd (unreachable_not_mem_terminatorDefects _ _)
    | _ => rfl

theorem reachDefects_unreachable? :
    (reachDefects f).filterMap Defect.unreachable? = f.unreached.map (f.name, ·) := by
  simp only [reachDefects, Function.unreached, Function.Reachable, ← mem_reached_iff,
    List.filterMap_filterMap, List.map_map, List.contains_eq_mem, decide_eq_true_eq, decide_not]
  induction f.blocks.toList.zipIdx with
  | nil => rfl
  | cons x rest ih =>
    by_cases hx : x.2 ∈ reached f <;> simp [hx, ih, Defect.unreachable?]

theorem defects_unreachable? :
    m.defects.filterMap Defect.unreachable? = m.unreached := by
  have hrepeated : ∀ names : List String,
      (names.map Defect.functionTwice).filterMap Defect.unreachable? = [] := by
    intro names
    simp [List.filterMap_map, Function.comp_def, Defect.unreachable?]
  have hglobals : ∀ functions seen names,
      (globalNameDefects functions seen names).filterMap Defect.unreachable? = [] := by
    intro functions seen names
    induction names generalizing seen with
    | nil => rfl
    | cons n rest ih =>
      unfold globalNameDefects
      split
      · simp only [List.filterMap_cons, Defect.unreachable?, ih]
      · split <;> simp only [List.filterMap_cons, Defect.unreachable?, ih]
  have hinit : ∀ gs : List Global,
      (gs.map fun g => Defect.malformedInit g.name).filterMap Defect.unreachable? = [] := by
    intro gs
    simp [List.filterMap_map, Function.comp_def, Defect.unreachable?]
  have hbody : ∀ f : Function, (m.functionDefects f).filterMap Defect.unreachable? =
      if f.defined then f.unreached.map (f.name, ·) else [] := by
    intro f
    unfold functionDefects
    split
    · rw [List.filterMap_append, blocksDefects_unreachable?, reachDefects_unreachable?]
      rfl
    · rfl
  simp only [defects, unreached, List.filterMap_append, hrepeated, hglobals, hinit,
    List.filterMap_flatMap, hbody, List.nil_append]

/-- Where the temporaries of defined functions have types, the verifier accepts exactly the
modules that are well formed; and in every module it reports each unreached block once, and no
other block, as unreachable. -/
theorem defects_eq_nil_iff_wellFormed (m : Module) :
    ((∀ f ∈ m.functions, f.defined = true → .void ∉ f.temps) →
      (m.defects = [] ↔ m.WellFormed)) ∧
    m.defects.filterMap Defect.unreachable? = m.unreached := by
  refine ⟨fun hv => ?_, defects_unreachable?⟩
  rw [defects_eq_nil_iff_parts]
  constructor
  · intro h
    obtain ⟨hfun, hglob, hdisjoint, hinit, hbodies⟩ := h
    refine ⟨hfun, hglob, hdisjoint, hinit, fun f hf hd => ?_⟩
    exact (functionDefects_eq_nil_iff_wellFormed hd (hv f hf hd)).mp (hbodies f hf hd)
  · intro h
    refine ⟨h.functions, h.globals, h.disjoint, h.initialized, fun f hf hd => ?_⟩
    exact (functionDefects_eq_nil_iff_wellFormed hd (hv f hf hd)).mpr (h.bodies f hf hd)

/-- A loop that calls a function while a global counts down. The body reads what the block of the
test has loaded. -/
def countdown : Module where
  name := "countdown"
  globals := #[⟨"n", .scalar .i32, false, some (.scalar (.int 3))⟩]
  functions := #[{ name := "tick" }, {
    name := "main"
    temps := #[.scalar .i32, .scalar .i1, .scalar .i32]
    blocks := #[
      { label := "BB0", terminator := .goto 1 },
      { label := "BB1",
        instructions := #[.load 0 (.global 0), .compare 1 .sgt (.temp 0) (.const (.int 0))],
        terminator := .branch (.temp 1) 2 3 },
      { label := "BB2",
        instructions := #[.binary 2 .sub (.temp 0) (.const (.int 1)), .store (.global 0) (.temp 2),
          .call 0],
        terminator := .goto 1 },
      { label := "BB3", terminator := .ret }]
    defined := true }]

theorem countdown_wellFormed :
    (∀ f ∈ countdown.functions, f.defined = true → .void ∉ f.temps) ∧ countdown.WellFormed := by
  have hv : ∀ f ∈ countdown.functions, f.defined = true → .void ∉ f.temps := by
    simp [countdown]
  exact ⟨hv, ((defects_eq_nil_iff_wellFormed countdown).1 hv).mp (by decide)⟩

end Module

end C1Lang.IR
