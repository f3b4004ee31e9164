import C1Lang.Proofs.IR.Printing
import C1Lang.Proofs.IR.WellFormed

/-!
# Text without placeholders

The printer looks up every name and type that it writes, and goes on with a placeholder where there
is nothing. Here the placeholders are arguments of the printer (`textWith?`). With those that it
has, it is the printer (`textWith?_placeholders`); with none at all, it stops at the first name or
type that does not exist. The text of a module that the verifier accepts does not depend on them.
-/

namespace C1Lang.IR

/-- What is written for a name or a type that does not exist, where something is. -/
structure Placeholders where
  global : Nat → Option String
  callee : Option String
  label : Nat → Option String
  operand : Option Ty
  pointee : Option Ty
  result : Option Ty

namespace Placeholders

def written : Placeholders where
  global g := some ("@<invalid " ++ toString g ++ ">")
  callee := some "<invalid>"
  label id := some ("<invalid " ++ toString id ++ ">")
  operand := some .void
  pointee := some .void
  result := none

def none : Placeholders where
  global _ := .none
  callee := .none
  label _ := .none
  operand := .none
  pointee := .none
  result := .none

end Placeholders

namespace Module

section Text

variable (p : Placeholders) (m : Module) (f : Function)

def operandTextWith? : Operand → Option String
  | .temp t => some (tempText t)
  | .slot l => some ("%l" ++ toString l)
  | .global g => (m.globals[g]?.map fun x => "@" ++ x.name).or (p.global g)
  | .const c => some c.text

def operandTypeWith? (o : Operand) : Option Ty := (m.operandType? f o).or p.operand

def resultTypeWith? (dest : Nat) : Option Ty := f.temps[dest]?.or p.result

def calleeTextWith? (id : Nat) : Option String := (m.functions[id]?.map (·.name)).or p.callee

def labelTextWith? (id : Nat) : Option String := (f.blocks[id]?.map (·.label)).or (p.label id)

def pointeeTypeWith? (ty : Ty) : Option Ty := ty.pointee?.or p.pointee

def instrTextWith? : Instr → Option String
  | .load dest ptr => do
    let ty := (← resultTypeWith? p f dest).text
    some (tempText dest ++ " = load " ++ ty ++ ", " ++ ty ++ "* " ++ (← operandTextWith? p m ptr))
  | .store ptr value => do
    let ty := (← operandTypeWith? p m f value).text
    some ("store " ++ ty ++ " " ++ (← operandTextWith? p m value) ++ ", " ++ ty ++ "* " ++
      (← operandTextWith? p m ptr))
  | .elementPtr dest base index => do
    let baseTy ← operandTypeWith? p m f base
    let arrayTy ← pointeeTypeWith? p baseTy
    some (tempText dest ++ " = getelementptr " ++ arrayTy.text ++ ", " ++ baseTy.text ++ " " ++
      (← operandTextWith? p m base) ++ ", i32 0, i32 " ++ (← operandTextWith? p m index))
  | .binary dest op left right => do
    let ty := (← resultTypeWith? p f dest).text
    some (tempText dest ++ " = " ++ op.mnemonic ++ " " ++ ty ++ " " ++
      (← operandTextWith? p m left) ++ ", " ++ (← operandTextWith? p m right))
  | .unary dest op operand => do
    let ty := (← resultTypeWith? p f dest).text
    let operand ← operandTextWith? p m operand
    match op with
    | .neg => some (tempText dest ++ " = sub nsw " ++ ty ++ " 0, " ++ operand)
    | .fneg => some (tempText dest ++ " = fneg " ++ ty ++ " " ++ operand)
  | .compare dest predicate left right => do
    some (tempText dest ++ " = " ++ predicate.instruction ++ " " ++ predicate.mnemonic ++ " " ++
      (← operandTypeWith? p m f left).text ++ " " ++ (← operandTextWith? p m left) ++ ", " ++
      (← operandTextWith? p m right))
  | .cast dest op source => do
    let ty := (← resultTypeWith? p f dest).text
    some (tempText dest ++ " = " ++ op.mnemonic ++ " " ++
      (← operandTypeWith? p m f source).text ++ " " ++ (← operandTextWith? p m source) ++ " to " ++
      ty)
  | .call callee => do
    some ("call void @" ++ (← calleeTextWith? p m callee) ++ "()")

def terminatorTextWith? : Terminator → Option String
  | .goto target => do
    some ("br label %" ++ (← labelTextWith? p f target))
  | .branch condition thenBlock elseBlock => do
    some ("br i1 " ++ (← operandTextWith? p m condition) ++ ", label %" ++
      (← labelTextWith? p f thenBlock) ++ ", label %" ++ (← labelTextWith? p f elseBlock))
  | .ret => some "ret void"
  | .unreachable => some "unreachable"

def blockTextWith? (id : Nat) (b : Block) : Option String := do
  let lines ← b.instructions.toList.mapM (instrTextWith? p m f)
  let last ← terminatorTextWith? p m f b.terminator
  some (b.label ++ ":\n" ++ (if id = f.entry then localsText f else "") ++
    String.join (lines.map indented) ++ indented last)

def functionTextWith? : Option String :=
  if f.defined then do
    let blocks ← f.blocks.toList.zipIdx.mapM fun (b, id) => blockTextWith? p m f id b
    some ("define void @" ++ f.name ++ "() \x7b\n" ++ String.join blocks ++ "\x7d\n")
  else some ("declare void @" ++ f.name ++ "()\n")

/-- The text of a module with the given placeholders, unless something that is to be written does
not exist and has no placeholder. -/
def textWith? : Option String := do
  let functions ← m.functions.toList.mapM (functionTextWith? p m)
  some ("; ModuleID = '" ++ m.name ++ "'\n" ++ (if m.globals.isEmpty then "" else "\n") ++
    String.join (m.globals.toList.map fun g => g.text ++ "\n") ++
    String.join (functions.map ("\n" ++ ·)))

end Text

variable {p : Placeholders} {m : Module} {f : Function}

theorem mapM_congr {α β : Type} {g h : α → Option β} {l : List α} (hgh : ∀ a ∈ l, g a = h a) :
    l.mapM g = l.mapM h := by
  induction l with
  | nil => rfl
  | cons a rest ih =>
    simp only [List.mapM_cons, hgh a List.mem_cons_self,
      ih fun x hx => hgh x (List.mem_cons_of_mem a hx)]

theorem blockTextWith?_eq {id : Nat} {b : Block}
    (hcode : ∀ i ∈ b.instructions, m.instrTextWith? p f i = m.instrText? f i)
    (hlast : m.terminatorTextWith? p f b.terminator = some (m.terminatorText f b.terminator)) :
    m.blockTextWith? p f id b = m.blockText? f id b := by
  have hlines : b.instructions.toList.mapM (m.instrTextWith? p f) =
      b.instructions.toList.mapM (m.instrText? f) :=
    mapM_congr fun i hi => hcode i (Array.mem_toList_iff.mp hi)
  unfold blockTextWith? blockText?
  rw [hlines, hlast]
  rfl

theorem functionTextWith?_eq (hblocks : f.defined = true → ∀ (id : Nat) (b : Block),
    f.blocks[id]? = some b → m.blockTextWith? p f id b = m.blockText? f id b) :
    m.functionTextWith? p f = m.functionText? f := by
  unfold functionTextWith? functionText?
  split
  · next hd =>
    rw [mapM_congr]
    intro x hx
    exact hblocks hd x.2 x.1 (Array.getElem?_toList ▸ List.mem_zipIdx_iff_getElem?.mp hx)
  · rfl

theorem textWith?_eq (h : ∀ f ∈ m.functions, m.functionTextWith? p f = m.functionText? f) :
    m.textWith? p = m.text? := by
  unfold textWith? text?
  rw [mapM_congr fun f hf => h f (Array.mem_toList_iff.mp hf)]

section Written

@[simp] theorem operandTextWith?_written (o : Operand) :
    m.operandTextWith? .written o = some (m.operandText o) := by
  cases o with
  | global g => cases h : m.globals[g]? <;> simp [operandTextWith?, operandText, h,
      Placeholders.written]
  | _ => rfl

@[simp] theorem operandTypeWith?_written (o : Operand) :
    m.operandTypeWith? .written f o = some (m.writtenType f o) := by
  cases h : m.operandType? f o <;> simp [operandTypeWith?, writtenType, h, Placeholders.written]

@[simp] theorem resultTypeWith?_written (dest : Nat) :
    resultTypeWith? .written f dest = f.temps[dest]? := by
  simp [resultTypeWith?, Placeholders.written]

@[simp] theorem calleeTextWith?_written (id : Nat) :
    m.calleeTextWith? .written id = some (m.calleeText id) := by
  cases h : m.functions[id]? <;> simp [calleeTextWith?, calleeText, h, Placeholders.written]

@[simp] theorem labelTextWith?_written (id : Nat) :
    labelTextWith? .written f id = some (labelText f id) := by
  cases h : f.blocks[id]? <;> simp [labelTextWith?, labelText, h, Placeholders.written]

@[simp] theorem pointeeTypeWith?_written (ty : Ty) :
    pointeeTypeWith? .written ty = some (ty.pointee?.getD .void) := by
  cases h : ty.pointee? <;> simp [pointeeTypeWith?, h, Placeholders.written]

theorem instrTextWith?_written (i : Instr) :
    m.instrTextWith? .written f i = m.instrText? f i := by
  cases i with
  | unary d op => cases op <;> simp [instrTextWith?, instrText?]
  | _ => simp [instrTextWith?, instrText?]

theorem terminatorTextWith?_written (t : Terminator) :
    m.terminatorTextWith? .written f t = some (m.terminatorText f t) := by
  cases t <;> simp [terminatorTextWith?, terminatorText]

theorem textWith?_written (m : Module) : m.textWith? .written = m.text? :=
  textWith?_eq fun _ _ => functionTextWith?_eq fun _ _ _ _ =>
    blockTextWith?_eq (fun i _ => instrTextWith?_written i) (terminatorTextWith?_written _)

end Written

section Verified

theorem operandTextWith?_of_type {o : Operand} {ty : Ty} (h : m.operandType? f o = some ty) :
    m.operandTextWith? p o = some (m.operandText o) := by
  cases o with
  | global g =>
    obtain ⟨x, hx, -⟩ := Option.map_eq_some_iff.mp h
    simp [operandTextWith?, operandText, hx]
  | _ => rfl

theorem operandTypeWith?_of_type {o : Operand} {ty : Ty} (h : m.operandType? f o = some ty) :
    m.operandTypeWith? p f o = some (m.writtenType f o) := by
  simp [operandTypeWith?, writtenType, h]

theorem resultTypeWith?_of_lt {d : Nat} (h : d < f.temps.size) :
    resultTypeWith? p f d = f.temps[d]? := by
  simp [resultTypeWith?, Array.getElem?_eq_getElem h]

theorem labelTextWith?_of_lt {id : Nat} (h : id < f.blocks.size) :
    labelTextWith? p f id = some (labelText f id) := by
  simp [labelTextWith?, labelText, Array.getElem?_eq_getElem h]

theorem calleeTextWith?_of_lt {id : Nat} (h : id < m.functions.size) :
    m.calleeTextWith? p id = some (m.calleeText id) := by
  simp [calleeTextWith?, calleeText, Array.getElem?_eq_getElem h]

theorem Admits.base {d : Nat} {b x : Operand} (h : m.Admits f (.elementPtr d b x)) :
    ∃ element n, m.operandType? f b = some (.pointer (.array element n)) := by
  obtain ⟨ty, hb⟩ := h.operands b List.mem_cons_self
  have ht := h.types
  simp only [typeDefects, hb, List.append_eq_nil_iff] at ht
  obtain ⟨-, ht⟩ := ht
  split at ht
  · next hnone => cases hnone
  · next element n heq => exact ⟨element, n, hb.trans heq⟩
  · next ty' hne heq =>
    cases heq
    exact absurd (requireTy_eq_nil_iff.mp ht).symm (hne .i32 0)

theorem Admits.instrTextWith?_eq {i : Instr} (h : m.Admits f i) :
    m.instrTextWith? p f i = m.instrText? f i := by
  have htext : ∀ o ∈ i.operands, m.operandTextWith? p o = some (m.operandText o) := by
    intro o ho
    obtain ⟨ty, hty⟩ := h.operands o ho
    exact operandTextWith?_of_type hty
  have htype : ∀ o ∈ i.operands, m.operandTypeWith? p f o = some (m.writtenType f o) := by
    intro o ho
    obtain ⟨ty, hty⟩ := h.operands o ho
    exact operandTypeWith?_of_type hty
  have hresult : ∀ d, i.dest? = some d → resultTypeWith? p f d = f.temps[d]? :=
    fun d hd => resultTypeWith?_of_lt (h.dest d hd)
  cases i with
  | elementPtr d b x =>
    obtain ⟨element, n, hb⟩ := h.base
    have hw : m.writtenType f b = .pointer (.array element n) := by simp [writtenType, hb]
    simp_all [instrTextWith?, instrText?, Instr.operands, pointeeTypeWith?, Ty.pointee?]
  | call callee =>
    have hc : callee < m.functions.size := by simpa [typeDefects] using h.types
    simp [instrTextWith?, instrText?, calleeTextWith?_of_lt hc]
  | unary d op x => cases op <;> simp_all [instrTextWith?, instrText?, Instr.operands, Instr.dest?]
  | _ => simp_all [instrTextWith?, instrText?, Instr.operands, Instr.dest?]

theorem terminatorTextWith?_of_typed {t : Terminator} (h : t.Typed m f) :
    m.terminatorTextWith? p f t = some (m.terminatorText f t) := by
  cases h with
  | goto ht => simp [terminatorTextWith?, terminatorText, labelTextWith?_of_lt ht]
  | branch hc hi hj =>
    simp [terminatorTextWith?, terminatorText, operandTextWith?_of_type hc,
      labelTextWith?_of_lt hi, labelTextWith?_of_lt hj]
  | ret => rfl

/-- The printer as it is. A module that the verifier accepts has a text, and the text is the same
with any placeholders, and with none: everything that is written exists. -/
theorem verified_text_complete (m : Module) :
    m.textWith? .written = m.text? ∧
    (m.defects = [] → ∃ text, m.text? = some text ∧ ∀ p, m.textWith? p = some text) := by
  refine ⟨textWith?_written m, fun hm => ?_⟩
  obtain ⟨-, -, -, -, hbodies⟩ := defects_eq_nil_iff_parts.mp hm
  have hbody : ∀ f ∈ m.functions, f.defined = true →
      (∀ id position i, f.At id position i → m.Admits f i) ∧
      ∀ (id : Nat) (b : Block), f.blocks[id]? = some b → b.terminator.Typed m f := by
    intro f hf hd
    obtain ⟨hadmits, hended, -⟩ := (functionDefects_eq_nil_iff hd).mp (hbodies f hf hd)
    exact ⟨hadmits, hended⟩
  have hsome : m.text?.isSome = true := by
    refine text?_isSome fun f hf hd b hb i hi d hdest => ?_
    obtain ⟨id, hid⟩ := Array.mem_iff_getElem?.mp hb
    obtain ⟨position, hposition⟩ := Array.mem_iff_getElem?.mp hi
    exact ((hbody f hf hd).1 id position i ⟨b, hid, hposition⟩).dest d hdest
  obtain ⟨text, htext⟩ := Option.isSome_iff_exists.mp hsome
  refine ⟨text, htext, fun p => ?_⟩
  rw [← htext]
  refine textWith?_eq fun f hf => functionTextWith?_eq fun hd id b hb => ?_
  obtain ⟨hadmits, hended⟩ := hbody f hf hd
  refine blockTextWith?_eq (fun i hi => ?_) (terminatorTextWith?_of_typed (hended id b hb))
  obtain ⟨position, hposition⟩ := Array.mem_iff_getElem?.mp hi
  exact (hadmits id position i ⟨b, hb, hposition⟩).instrTextWith?_eq

theorem countdown_text_complete : countdown.defects = [] ∧
    ∃ text, countdown.text? = some text ∧ countdown.textWith? .none = some text := by
  have hm : countdown.defects = [] := by decide
  obtain ⟨text, htext, hall⟩ := (verified_text_complete countdown).2 hm
  exact ⟨hm, text, htext, hall .none⟩

example : ({ name := "m" } : Module).instrText? { name := "f" } (.call 0) =
      some "call void @<invalid>()" ∧
    ({ name := "m" } : Module).instrTextWith? .none { name := "f" } (.call 0) = none := by
  decide

end Verified

end Module

end C1Lang.IR
