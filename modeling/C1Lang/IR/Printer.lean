import C1Lang.IR.Module

/-!
# Assembly text

A module as text. What does not exist is written as a placeholder, except that an instruction
whose result does not exist has no text at all.
-/

namespace C1Lang.IR

namespace Init

def text : Init → String
  | scalar c => c.text
  | array cs => "[" ++ ", ".intercalate (cs.map fun c => c.scalar.text ++ " " ++ c.text) ++ "]"

end Init

def Global.text (g : Global) : String :=
  "@" ++ g.name ++ " = " ++ (if g.constant then "constant" else "global") ++ " " ++ g.ty.text ++
    " " ++ (match g.init with
      | none => "undef"
      | some init => init.text)

def tempText (t : Nat) : String := "%t" ++ toString t

namespace Module

def operandText (m : Module) : Operand → String
  | .temp t => tempText t
  | .slot l => "%l" ++ toString l
  | .global g =>
    match m.globals[g]? with
    | some x => "@" ++ x.name
    | none => "@<invalid " ++ toString g ++ ">"
  | .const c => c.text

def writtenType (m : Module) (f : Function) (o : Operand) : Ty := (m.operandType? f o).getD .void

def calleeText (m : Module) (id : Nat) : String :=
  match m.functions[id]? with
  | some f => f.name
  | none => "<invalid>"

def instrText? (m : Module) (f : Function) : Instr → Option String
  | .load dest ptr => do
    let ty := (← f.temps[dest]?).text
    some (tempText dest ++ " = load " ++ ty ++ ", " ++ ty ++ "* " ++ m.operandText ptr)
  | .store ptr value =>
    let ty := (m.writtenType f value).text
    some ("store " ++ ty ++ " " ++ m.operandText value ++ ", " ++ ty ++ "* " ++ m.operandText ptr)
  | .elementPtr dest base index =>
    let baseTy := m.writtenType f base
    let arrayTy := baseTy.pointee?.getD .void
    some (tempText dest ++ " = getelementptr " ++ arrayTy.text ++ ", " ++ baseTy.text ++ " " ++
      m.operandText base ++ ", i32 0, i32 " ++ m.operandText index)
  | .binary dest op left right => do
    let ty := (← f.temps[dest]?).text
    some (tempText dest ++ " = " ++ op.mnemonic ++ " " ++ ty ++ " " ++ m.operandText left ++ ", " ++
      m.operandText right)
  | .unary dest op operand => do
    let ty := (← f.temps[dest]?).text
    match op with
    | .neg => some (tempText dest ++ " = sub nsw " ++ ty ++ " 0, " ++ m.operandText operand)
    | .fneg => some (tempText dest ++ " = fneg " ++ ty ++ " " ++ m.operandText operand)
  | .compare dest predicate left right =>
    some (tempText dest ++ " = " ++ predicate.instruction ++ " " ++ predicate.mnemonic ++ " " ++
      (m.writtenType f left).text ++ " " ++ m.operandText left ++ ", " ++ m.operandText right)
  | .cast dest op source => do
    let ty := (← f.temps[dest]?).text
    some (tempText dest ++ " = " ++ op.mnemonic ++ " " ++ (m.writtenType f source).text ++ " " ++
      m.operandText source ++ " to " ++ ty)
  | .call callee => some ("call void @" ++ m.calleeText callee ++ "()")

def labelText (f : Function) (block : Nat) : String :=
  match f.blocks[block]? with
  | some b => b.label
  | none => "<invalid " ++ toString block ++ ">"

def terminatorText (m : Module) (f : Function) : Terminator → String
  | .goto target => "br label %" ++ labelText f target
  | .branch condition thenBlock elseBlock =>
    "br i1 " ++ m.operandText condition ++ ", label %" ++ labelText f thenBlock ++ ", label %" ++
      labelText f elseBlock
  | .ret => "ret void"
  | .unreachable => "unreachable"

def indented (line : String) : String := "  " ++ line ++ "\n"

def localsText (f : Function) : String :=
  String.join (f.locals.toList.zipIdx.map fun (l, i) =>
    indented ("%l" ++ toString i ++ " = alloca " ++ l.ty.text ++ " ; " ++ l.name))

def blockText? (m : Module) (f : Function) (id : Nat) (b : Block) : Option String := do
  let lines ← b.instructions.toList.mapM (m.instrText? f)
  some (b.label ++ ":\n" ++ (if id = f.entry then localsText f else "") ++
    String.join (lines.map indented) ++ indented (m.terminatorText f b.terminator))

def functionText? (m : Module) (f : Function) : Option String :=
  if f.defined then do
    let blocks ← f.blocks.toList.zipIdx.mapM fun (b, id) => m.blockText? f id b
    some ("define void @" ++ f.name ++ "() \x7b\n" ++ String.join blocks ++ "\x7d\n")
  else some ("declare void @" ++ f.name ++ "()\n")

/-- The text of a module, unless an instruction has none. -/
def text? (m : Module) : Option String := do
  let functions ← m.functions.toList.mapM m.functionText?
  some ("; ModuleID = '" ++ m.name ++ "'\n" ++ (if m.globals.isEmpty then "" else "\n") ++
    String.join (m.globals.toList.map fun g => g.text ++ "\n") ++
    String.join (functions.map ("\n" ++ ·)))

end Module

end C1Lang.IR
