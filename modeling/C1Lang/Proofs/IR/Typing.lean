import C1Lang.IR.Builder
import C1Lang.IR.Verify

/-!
# Typed code

The typing rules of instructions and of the ways out of a block, stated apart from the verifier.
They stay satisfied when a function or a module grows. Code whose temporaries are written in the
block in which they are read, before they are read, has no defects (`blocksDefects_eq_nil`).
-/

namespace C1Lang.IR

theorem getElem?_extend {α : Type} {xs ys : Array α} (h : xs.toList <+: ys.toList) {i : Nat}
    {a : α} (ha : xs[i]? = some a) : ys[i]? = some a := by
  obtain ⟨zs, hz⟩ := h
  rw [← Array.getElem?_toList] at ha ⊢
  rw [← hz, List.getElem?_append_left (List.getElem?_eq_some_iff.mp ha).1]
  exact ha

/-- `c` continues the block `b`. A block that was ended is not continued. -/
structure Block.Within (b c : Block) : Prop where
  instructions : b.instructions.toList <+: c.instructions.toList
  ended : b.terminator ≠ .unreachable → c = b

structure Function.Within (f g : Function) : Prop where
  locals : f.locals.toList <+: g.locals.toList
  temps : f.temps.toList <+: g.temps.toList
  blocks : ∀ (id : Nat) (b : Block), f.blocks[id]? = some b →
    ∃ c, g.blocks[id]? = some c ∧ b.Within c

structure Module.Within (m n : Module) : Prop where
  globals : m.globals.toList <+: n.globals.toList
  functions : m.functions.size ≤ n.functions.size

theorem Block.Within.refl (b : Block) : b.Within b := ⟨List.prefix_rfl, fun _ => rfl⟩

theorem Block.Within.trans {a b c : Block} (h : a.Within b) (k : b.Within c) : a.Within c := by
  refine ⟨h.instructions.trans k.instructions, fun ha => ?_⟩
  have hb := h.ended ha
  rw [k.ended (by rw [hb]; exact ha), hb]

theorem Function.Within.refl (f : Function) : f.Within f :=
  ⟨List.prefix_rfl, List.prefix_rfl, fun _ b hb => ⟨b, hb, .refl b⟩⟩

theorem Function.Within.trans {f g k : Function} (h : f.Within g) (h' : g.Within k) :
    f.Within k := by
  refine ⟨h.locals.trans h'.locals, h.temps.trans h'.temps, fun id b hb => ?_⟩
  obtain ⟨c, hc, hbc⟩ := h.blocks id b hb
  obtain ⟨d, hd, hcd⟩ := h'.blocks id c hc
  exact ⟨d, hd, hbc.trans hcd⟩

theorem Module.Within.refl (m : Module) : m.Within m := ⟨List.prefix_rfl, Nat.le_refl _⟩

theorem Module.Within.trans {m n k : Module} (h : m.Within n) (h' : n.Within k) : m.Within k :=
  ⟨h.globals.trans h'.globals, Nat.le_trans h.functions h'.functions⟩

theorem Function.Within.size_le {f g : Function} (h : f.Within g) :
    f.blocks.size ≤ g.blocks.size := by
  by_cases h0 : f.blocks.size = 0
  · omega
  · have hlast : f.blocks.size - 1 < f.blocks.size := by omega
    obtain ⟨c, hc, -⟩ := h.blocks _ _ (Array.getElem?_eq_getElem hlast)
    have := (Array.getElem?_eq_some_iff.mp hc).1
    omega

theorem operandType?_mono {m n : Module} {f g : Function} (hm : m.Within n) (hf : f.Within g)
    {o : Operand} {t : Ty} (h : m.operandType? f o = some t) : n.operandType? g o = some t := by
  cases o with
  | temp id => exact getElem?_extend hf.temps h
  | slot id =>
    obtain ⟨x, hx, rfl⟩ := Option.map_eq_some_iff.mp h
    simp only [Module.operandType?, getElem?_extend hf.locals hx, Option.map_some]
  | global id =>
    obtain ⟨x, hx, rfl⟩ := Option.map_eq_some_iff.mp h
    simp only [Module.operandType?, getElem?_extend hm.globals hx, Option.map_some]
  | const c => exact h

inductive Instr.Typed (m : Module) (f : Function) : Instr → Prop
  | load {dest : Nat} {ptr : Operand} {t : Ty} :
      m.operandType? f ptr = some (.pointer t) → f.temps[dest]? = some t →
      Typed m f (.load dest ptr)
  | store {ptr value : Operand} {t : Ty} :
      m.operandType? f ptr = some (.pointer t) → m.operandType? f value = some t →
      Typed m f (.store ptr value)
  | elementPtr {dest : Nat} {base index : Operand} {s : Scalar} {n : Nat} :
      m.operandType? f base = some (.pointer (.array s n)) →
      m.operandType? f index = some (.scalar .i32) →
      f.temps[dest]? = some (.pointer (.scalar s)) → Typed m f (.elementPtr dest base index)
  | binary {dest : Nat} {op : Arith} {left right : Operand} :
      m.operandType? f left = some (.scalar op.scalar) →
      m.operandType? f right = some (.scalar op.scalar) →
      f.temps[dest]? = some (.scalar op.scalar) → Typed m f (.binary dest op left right)
  | unary {dest : Nat} {op : Negation} {operand : Operand} :
      m.operandType? f operand = some (.scalar op.scalar) →
      f.temps[dest]? = some (.scalar op.scalar) → Typed m f (.unary dest op operand)
  | compare {dest : Nat} {p : Predicate} {left right : Operand} :
      m.operandType? f left = some (.scalar p.scalar) →
      m.operandType? f right = some (.scalar p.scalar) →
      f.temps[dest]? = some (.scalar .i1) → Typed m f (.compare dest p left right)
  | cast {dest : Nat} {op : Cast} {source : Operand} :
      m.operandType? f source = some (.scalar op.source) →
      f.temps[dest]? = some (.scalar op.target) → Typed m f (.cast dest op source)
  | call {callee : Nat} : callee < m.functions.size → Typed m f (.call callee)

theorem Instr.Typed.mono {m n : Module} {f g : Function} (hm : m.Within n) (hf : f.Within g)
    {i : Instr} (h : i.Typed m f) : i.Typed n g := by
  have ho := @operandType?_mono m n f g hm hf
  have ht := @getElem?_extend Ty f.temps g.temps hf.temps
  cases h with
  | load hp hd => exact .load (ho hp) (ht hd)
  | store hp hv => exact .store (ho hp) (ho hv)
  | elementPtr hb hi hd => exact .elementPtr (ho hb) (ho hi) (ht hd)
  | binary hl hr hd => exact .binary (ho hl) (ho hr) (ht hd)
  | unary hx hd => exact .unary (ho hx) (ht hd)
  | compare hl hr hd => exact .compare (ho hl) (ho hr) (ht hd)
  | cast hs hd => exact .cast (ho hs) (ht hd)
  | call hc => exact .call (Nat.lt_of_lt_of_le hc hm.functions)

theorem Instr.Typed.operand {m : Module} {f : Function} {i : Instr} (h : i.Typed m f)
    {o : Operand} (ho : o ∈ i.operands) : ∃ t, m.operandType? f o = some t := by
  cases h <;> simp only [operands, List.mem_cons, List.not_mem_nil, or_false] at ho <;>
    grind

theorem Instr.Typed.dest {m : Module} {f : Function} {i : Instr} (h : i.Typed m f)
    {d : Nat} (hd : i.dest? = some d) : d < f.temps.size := by
  have key : ∀ {t}, f.temps[d]? = some t → d < f.temps.size := fun ht =>
    (Array.getElem?_eq_some_iff.mp ht).1
  cases h <;> simp only [dest?, Option.some.injEq, reduceCtorEq] at hd <;> grind

theorem Instr.Typed.typeDefects_eq_nil {m : Module} {f : Function} {i : Instr}
    (h : i.Typed m f) : m.typeDefects f i = [] := by
  cases h <;>
    simp_all [Module.typeDefects, Module.operandTyDefects, Module.destTy, requireTy, require,
      Ty.pointee?]

def writes (code : List Instr) : List Nat := code.filterMap Instr.dest?

/-- Instructions in order: each keeps its typing rule and reads only what those before it
write. -/
inductive Code (m : Module) (f : Function) : List Instr → Prop
  | nil : Code m f []
  | snoc {code : List Instr} {i : Instr} : Code m f code → i.Typed m f →
      (∀ t, .temp t ∈ i.operands → t ∈ writes code) → Code m f (code ++ [i])

theorem Code.mono {m n : Module} {f g : Function} (hm : m.Within n) (hf : f.Within g)
    {code : List Instr} (h : Code m f code) : Code n g code := by
  induction h with
  | nil => exact .nil
  | snoc _ ht hr ih => exact .snoc ih (ht.mono hm hf) hr

inductive Terminator.Sound (m : Module) (f : Function) (code : List Instr) : Terminator → Prop
  | goto {target : Nat} : target < f.blocks.size → Sound m f code (.goto target)
  | branch {c : Operand} {thenBlock elseBlock : Nat} :
      m.operandType? f c = some (.scalar .i1) → (∀ t, c = .temp t → t ∈ writes code) →
      thenBlock < f.blocks.size → elseBlock < f.blocks.size →
      Sound m f code (.branch c thenBlock elseBlock)
  | ret : Sound m f code .ret

theorem Terminator.Sound.mono {m n : Module} {f g : Function} (hm : m.Within n)
    (hf : f.Within g) {code : List Instr} {t : Terminator} (h : t.Sound m f code) :
    t.Sound n g code := by
  have hs := hf.size_le
  cases h with
  | goto ht => exact .goto (by omega)
  | branch hc hw ht he => exact .branch (operandType?_mono hm hf hc) hw (by omega) (by omega)
  | ret => exact .ret

structure Block.Sound (m : Module) (f : Function) (b : Block) : Prop where
  code : Code m f b.instructions.toList
  terminator : b.terminator.Sound m f b.instructions.toList

theorem Block.Sound.mono {m n : Module} {f g : Function} (hm : m.Within n) (hf : f.Within g)
    {b : Block} (h : b.Sound m f) : b.Sound n g :=
  ⟨h.code.mono hm hf, h.terminator.mono hm hf⟩

namespace Module

variable {m : Module} {f : Function}

theorem operandDefects_eq_nil {written : List Nat} {o : Operand} {t : Ty}
    (h : m.operandType? f o = some t) (hw : ∀ t, o = .temp t → t ∈ written) :
    m.operandDefects f written o = [] := by
  have key : ∀ {α : Type} {xs : Array α} {i : Nat} {a : α}, xs[i]? = some a → i < xs.size :=
    fun h => (Array.getElem?_eq_some_iff.mp h).1
  cases o with
  | temp id =>
    have hid := hw id rfl
    simp [operandDefects, tempDefects, require, key h, hid]
  | slot id =>
    obtain ⟨x, hx, -⟩ := Option.map_eq_some_iff.mp h
    simp [operandDefects, require, key hx]
  | global id =>
    obtain ⟨x, hx, -⟩ := Option.map_eq_some_iff.mp h
    simp [operandDefects, require, key hx]
  | const c => rfl

theorem instrDefects_eq_nil {written : List Nat} {i : Instr} (h : i.Typed m f)
    (hr : ∀ t, .temp t ∈ i.operands → t ∈ written) : m.instrDefects f written i = [] := by
  have ho : i.operands.flatMap (m.operandDefects f written) = [] := by
    rw [List.flatMap_eq_nil_iff]
    intro o ho
    obtain ⟨t, ht⟩ := h.operand ho
    exact operandDefects_eq_nil ht fun t ht => hr t (ht ▸ ho)
  have hd : (i.dest?.map (tempDefects f)).getD [] = [] := by
    cases he : i.dest? with
    | none => rfl
    | some d => simp [tempDefects, require, h.dest he]
  simp [instrDefects, ho, hd, h.typeDefects_eq_nil]

theorem instrsDefects_append (written : List Nat) (xs ys : List Instr) :
    m.instrsDefects f written (xs ++ ys) =
      ((m.instrsDefects f written xs).1 ++
          (m.instrsDefects f (m.instrsDefects f written xs).2 ys).1,
        (m.instrsDefects f (m.instrsDefects f written xs).2 ys).2) := by
  induction xs generalizing written with
  | nil => rfl
  | cons x xs ih => simp [instrsDefects, ih]

theorem mem_instrsDefects_snd (m : Module) (f : Function) (written : List Nat)
    (code : List Instr) (t : Nat) :
    t ∈ (m.instrsDefects f written code).2 ↔ t ∈ writes code ∨ t ∈ written := by
  induction code generalizing written with
  | nil => simp [instrsDefects, writes]
  | cons i rest ih =>
    cases hd : i.dest? with
    | none => simp [instrsDefects, ih, writes, writtenAfter, hd]
    | some d =>
      simp only [instrsDefects, ih, writes, writtenAfter, hd, List.mem_cons]
      grind

theorem instrsDefects_eq_nil {code : List Instr} (h : Code m f code) (written : List Nat) :
    (m.instrsDefects f written code).1 = [] := by
  induction h with
  | nil => rfl
  | snoc _ ht hr ih =>
    rw [instrsDefects_append]
    have hi := instrDefects_eq_nil ht fun t hto =>
      (mem_instrsDefects_snd m f written _ t).mpr (.inl (hr t hto))
    simp [ih, instrsDefects, hi]

theorem terminatorDefects_eq_nil {written : List Nat} {code : List Instr} {t : Terminator}
    (h : t.Sound m f code) (hw : ∀ t ∈ writes code, t ∈ written) :
    m.terminatorDefects f written t = [] := by
  cases h with
  | goto ht => simp [terminatorDefects, targetDefects, require, ht]
  | branch hc hr ht he =>
    have ho := operandDefects_eq_nil hc fun t h => hw t (hr t h)
    simp [terminatorDefects, targetDefects, require, ht, he, ho, hc]
  | ret => rfl

theorem blocksDefects_eq_nil {blocks : List Block} (h : ∀ b ∈ blocks, b.Sound m f)
    (written : List Nat) : m.blocksDefects f written blocks = [] := by
  induction blocks generalizing written with
  | nil => rfl
  | cons b rest ih =>
    have hb := h b (by simp)
    have ht := terminatorDefects_eq_nil hb.terminator fun t ht =>
      (mem_instrsDefects_snd m f written _ t).mpr (.inl ht)
    simp [blocksDefects, instrsDefects_eq_nil hb.code, ht,
      ih (fun c hc => h c (List.mem_cons_of_mem _ hc))]

end Module

end C1Lang.IR
