import C1Lang.IR.Builder
import C1Lang.Lower.Context
import C1Lang.Lower.Scope

/-!
# Lowering state

Lowering works on the module, the scopes, the functions known so far, the function that is being
built, and the diagnostics. A step can stop with a diagnostic, which the statement around it
records before lowering goes on. It can also stop at a fault: the state contradicts itself, and
nothing is recorded any more.
-/

namespace C1Lang

namespace Lower

/-- A defined function: its number, and the span of its name in the definition. -/
structure FunctionRecord where
  id : Nat
  span : Span
deriving DecidableEq, Repr

structure State where
  module : IR.Module
  scopes : Scopes := {}
  functions : List (String × FunctionRecord) := []
  builder : Option IR.Builder := none
  diagnostics : List Diagnostic := []
deriving DecidableEq, Repr

inductive Fault
  | noOpenFunction
  | missingBlock
  | missingFunction
  | runtimeConstant
  | foldedPlace
  | floatRemainder
  | redeclared
deriving DecidableEq, Repr

inductive Stop
  | problem (diagnostic : Diagnostic)
  | fault (fault : Fault)
deriving DecidableEq, Repr

end Lower

abbrev Lower (α : Type) := EStateM Lower.Stop Lower.State α

namespace Lower

def report {α : Type} (problem : Problem) (span : Span) : Lower α :=
  throw (.problem ⟨problem, span⟩)

def fault {α : Type} (f : Fault) : Lower α := throw (.fault f)

def State.record (s : State) (d : Diagnostic) : State :=
  { s with diagnostics := s.diagnostics ++ [d] }

/-- Runs a step; a problem that stops it is recorded, and `default` is its result. -/
def recording {α : Type} (step : Lower α) (default : α) : Lower α := fun s =>
  match step s with
  | .error (.problem d) s' => .ok default (s'.record d)
  | r => r

/-- Changes the function that is being built. The state lets go of it meanwhile, so that its
arrays are not copied. -/
def onBuilder {α : Type} (change : IR.Builder → α × IR.Builder) : Lower α := fun s =>
  match s.builder with
  | none => .error (.fault .noOpenFunction) s
  | some b =>
    let s := { s with builder := none }
    let (a, b) := change b
    .ok a { s with builder := some b }

def onBlock (change : IR.Builder → Option IR.Builder) : Lower Unit := fun s =>
  match s.builder with
  | none => .error (.fault .noOpenFunction) s
  | some b =>
    let s := { s with builder := none }
    match change b with
    | none => .error (.fault .missingBlock) s
    | some b => .ok () { s with builder := some b }

def emit (i : IR.Instr) : Lower Unit := onBlock (·.emit? i)

def terminate (t : IR.Terminator) : Lower Unit := onBlock (·.terminate? t)

def newBlock : Lower Nat := onBuilder (·.createBlock)

def switchTo (block : Nat) : Lower Unit := onBuilder fun b => ((), b.switchTo block)

def newTemp (ty : IR.Ty) : Lower Nat := onBuilder (·.addTemp ty)

def newSlot (name : String) (ty : IR.Ty) : Lower Nat := onBuilder (·.addLocal name ty)

def compute (ty : IR.Ty) (instr : Nat → IR.Instr) : Lower IR.Operand := do
  let dest ← newTemp ty
  emit (instr dest)
  return .temp dest

end Lower

end C1Lang
