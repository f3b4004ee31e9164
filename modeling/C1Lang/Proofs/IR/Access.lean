import C1Lang.Proofs.IR.Path

/-!
# Accesses to memory

A load and a store name an operand as an address, and move something of a type to or from it. In a
module that the verifier accepts, the address is a pointer to exactly that type, with one exception
(`accesses_typed`). The verifier takes `void` for what lies behind an operand that is no pointer,
and compares types only. So what has the type `void` itself may be loaded from a number, and stored
into one: `adrift` is accepted and does both.
-/

namespace C1Lang.IR

def Module.access? (m : Module) (f : Function) : Instr → Option (Operand × Option Ty)
  | .load dest ptr => some (ptr, f.temps[dest]?)
  | .store ptr value => some (ptr, m.operandType? f value)
  | _ => none

def Function.AccessesPointers (m : Module) (f : Function) : Prop :=
  ∀ id position i ptr content, f.At id position i → m.access? f i = some (ptr, content) →
    ∃ ty, content = some ty ∧ m.operandType? f ptr = some (.pointer ty)

namespace Module

variable {m : Module} {f : Function}

theorem pointee?_eq_some {ty target : Ty} : ty.pointee? = some target ↔ ty = .pointer target := by
  cases ty <;> simp [Ty.pointee?]

theorem Admits.access {i : Instr} {ptr : Operand} {content : Option Ty} (h : m.Admits f i)
    (hi : m.access? f i = some (ptr, content)) :
    ∃ p ty, m.operandType? f ptr = some p ∧ content = some ty ∧ p.pointee?.getD .void = ty := by
  cases i with
  | load dest =>
    cases hi
    obtain ⟨ty, hp⟩ := h.operands ptr List.mem_cons_self
    have hd := h.dest dest rfl
    have ht := h.types
    simp only [typeDefects, hp, requireTy_eq_nil_iff, destTy, Array.getElem?_eq_getElem hd,
      Option.getD_some] at ht
    exact ⟨ty, f.temps[dest], hp, Array.getElem?_eq_getElem hd, ht⟩
  | store _ v =>
    cases hi
    obtain ⟨ty, hp⟩ := h.operands ptr List.mem_cons_self
    obtain ⟨ty', hv⟩ := h.operands v (List.mem_cons_of_mem _ List.mem_cons_self)
    have ht := h.types
    simp only [typeDefects, hp, hv, requireTy_eq_nil_iff] at ht
    exact ⟨ty, ty', hp, hv, ht⟩
  | _ => cases hi

theorem access?_ne_void (hv : .void ∉ f.temps) {i : Instr} {ptr : Operand} {content : Option Ty}
    (hi : m.access? f i = some (ptr, content)) : content ≠ some .void := by
  cases i with
  | load =>
    cases hi
    exact fun h => hv (Array.mem_of_getElem? h)
  | store _ v =>
    cases hi
    exact operandType?_ne_void hv v
  | _ => cases hi

/-- In a module that the verifier accepts, every load and store of a function goes through a
pointer to exactly what it moves, or moves something of the type `void` through what is no pointer
at all. Where no temporary has that type, all accesses go through pointers. -/
theorem accesses_typed (m : Module) (hm : m.defects = []) (f : Function) (hf : f ∈ m.functions)
    (hd : f.defined = true) :
    (∀ id position i ptr content, f.At id position i → m.access? f i = some (ptr, content) →
      ∃ p ty, m.operandType? f ptr = some p ∧ content = some ty ∧
        (p = .pointer ty ∨ p.pointee? = none ∧ ty = .void)) ∧
    (.void ∉ f.temps → f.AccessesPointers m) := by
  obtain ⟨-, -, -, -, hbodies⟩ := defects_eq_nil_iff_parts.mp hm
  obtain ⟨hadmits, -, -, -⟩ := (functionDefects_eq_nil_iff hd).mp (hbodies f hf hd)
  have hall : ∀ id position i ptr content, f.At id position i →
      m.access? f i = some (ptr, content) →
      ∃ p ty, m.operandType? f ptr = some p ∧ content = some ty ∧
        (p = .pointer ty ∨ p.pointee? = none ∧ ty = .void) := by
    intro id position i ptr content hat hi
    obtain ⟨p, ty, hp, hcontent, hty⟩ := (hadmits id position i hat).access hi
    refine ⟨p, ty, hp, hcontent, ?_⟩
    cases htarget : p.pointee? with
    | none =>
      rw [htarget] at hty
      exact .inr ⟨rfl, hty.symm⟩
    | some target =>
      rw [htarget] at hty
      exact .inl (hty ▸ pointee?_eq_some.mp htarget)
  refine ⟨hall, fun hv id position i ptr content hat hi => ?_⟩
  obtain ⟨p, ty, hp, hcontent, rfl | ⟨-, rfl⟩⟩ := hall id position i ptr content hat hi
  · exact ⟨ty, hcontent, hp⟩
  · exact absurd hcontent (access?_ne_void hv hi)

theorem countdown_accesses : countdown.defects = [] ∧
    ∃ f ∈ countdown.functions, f.defined = true ∧ .void ∉ f.temps ∧
      f.At 1 0 (.load 0 (.global 0)) ∧ f.At 2 1 (.store (.global 0) (.temp 2)) ∧
      f.AccessesPointers countdown := by
  have hm : countdown.defects = [] := by decide
  have hf : countdown.functions[1] ∈ countdown.functions := Array.getElem_mem _
  have hv : .void ∉ countdown.functions[1].temps := by simp [countdown]
  refine ⟨hm, countdown.functions[1], hf, rfl, hv, ⟨_, rfl, rfl⟩, ⟨_, rfl, rfl⟩, ?_⟩
  exact (accesses_typed countdown hm _ hf rfl).2 hv

def adriftMain : Function where
  name := "main"
  temps := #[.void]
  blocks := #[{
    label := "BB0"
    instructions := #[.load 0 (.const (.int 1)), .store (.const (.int 2)) (.temp 0)]
    terminator := .ret }]
  defined := true

def adrift : Module := { name := "adrift", functions := #[adriftMain] }

theorem adrift_constructed : adrift.Constructed := by
  have hacts : ((Builder.start "main").replay? [.temp .void, .emit (.load 0 (.const (.int 1))),
      .emit (.store (.const (.int 2)) (.temp 0)), .terminate .ret]).map Builder.finish =
        some adriftMain := by
    decide +kernel
  obtain ⟨b, hb, hfinish⟩ := Option.map_eq_some_iff.mp hacts
  have hdefine : (declare { name := "adrift" } "main").2.define? 0 adriftMain = some adrift := rfl
  rw [← hfinish] at hdefine
  exact .define (.declare "main" (.empty "adrift")) hb hdefine

theorem adrift_accesses_numbers :
    adrift.Constructed ∧ adrift.defects = [] ∧ adriftMain ∈ adrift.functions ∧
      adriftMain.defined = true ∧ adriftMain.At 0 0 (.load 0 (.const (.int 1))) ∧
      adriftMain.At 0 1 (.store (.const (.int 2)) (.temp 0)) ∧
      ¬ adriftMain.AccessesPointers adrift := by
  refine ⟨adrift_constructed, by decide, by simp [adrift], rfl, ⟨_, rfl, rfl⟩, ⟨_, rfl, rfl⟩, ?_⟩
  intro h
  obtain ⟨ty, -, hp⟩ := h 0 0 _ _ _ ⟨_, rfl, rfl⟩ rfl
  cases hp

end Module

end C1Lang.IR
