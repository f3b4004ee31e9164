import C1Lang.IR.Instr

/-!
# Modules

A module is its globals and functions, numbered from zero in the order in which they were added.
A function is declared first and has no blocks until it is defined.
-/

namespace C1Lang.IR

structure Block where
  label : String
  instructions : Array Instr := #[]
  terminator : Terminator := .unreachable
deriving DecidableEq, Repr, Inhabited

/-- A slot of a function; `ty` is the type of its content. -/
structure Local where
  name : String
  ty : Ty
deriving DecidableEq, Repr, Inhabited

def entryBlock : Nat := 0

structure Function where
  name : String
  locals : Array Local := #[]
  temps : Array Ty := #[]
  blocks : Array Block := #[]
  entry : Nat := entryBlock
  defined : Bool := false
deriving DecidableEq, Repr, Inhabited

inductive Init
  | scalar (value : Const)
  | array (values : List Const)
deriving DecidableEq, Repr, Inhabited

structure Global where
  name : String
  ty : Ty
  constant : Bool
  init : Option Init
deriving DecidableEq, Repr, Inhabited

structure Module where
  name : String
  globals : Array Global := #[]
  functions : Array Function := #[]
deriving DecidableEq, Repr, Inhabited

namespace Module

def addGlobal (m : Module) (g : Global) : Nat × Module :=
  (m.globals.size, { m with globals := m.globals.push g })

def declare (m : Module) (name : String) : Nat × Module :=
  (m.functions.size, { m with functions := m.functions.push { name } })

def define? (m : Module) (id : Nat) (f : Function) : Option Module :=
  if id < m.functions.size then some { m with functions := m.functions.setIfInBounds id f }
  else none

def functionByName? (m : Module) (name : String) : Option Nat :=
  m.functions.findIdx? (·.name == name)

def globalByName? (m : Module) (name : String) : Option Nat :=
  m.globals.findIdx? (·.name == name)

def operandType? (m : Module) (f : Function) : Operand → Option Ty
  | .temp t => f.temps[t]?
  | .slot l => f.locals[l]?.map fun x => .pointer x.ty
  | .global g => m.globals[g]?.map fun x => .pointer x.ty
  | .const c => some (.scalar c.scalar)

end Module

end C1Lang.IR
