import C1Lang.IR.Instr
import C1Lang.Lower.Value

/-!
# Contexts

In which way an expression is lowered: at module level or in a function, at compile time or at
run time, and for its value or for its address.
-/

namespace C1Lang

inductive Access
  | read
  | address
deriving DecidableEq, Repr

structure Context where
  inGlobalScope : Bool
  constant : Bool
  access : Access
deriving DecidableEq, Repr

namespace Context

def atModule : Context := ⟨true, false, .read⟩

def inFunction : Context := ⟨false, false, .read⟩

def withConstant (c : Context) : Context := { c with constant := true }

def read (c : Context) : Context := { c with constant := false, access := .read }

def address (c : Context) : Context := { c with constant := false, access := .address }

end Context

/-- The outcome of lowering an expression: an operand of the running program, or a constant. -/
inductive Evaluated
  | runtime (operand : IR.Operand) (kind : Kind)
  | folded (value : Value)
deriving DecidableEq, Repr

end C1Lang
