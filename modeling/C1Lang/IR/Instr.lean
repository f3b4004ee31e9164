import C1Lang.IR.Ty
import C1Lang.Number.Shortest

/-!
# Instructions

Constants, operands, instructions and the ways out of a block. Temporaries, slots, globals, blocks
and functions are named by their numbers. A slot or a global as an operand is its address.
-/

namespace C1Lang.IR

inductive Const
  | int (value : Int32)
  | float (value : Float)
  | bool (value : Bool)
deriving DecidableEq, Repr, Inhabited

namespace Const

def scalar : Const → Scalar
  | int _ => .i32
  | float _ => .f64
  | bool _ => .i1

def zero : Scalar → Const
  | .i1 => bool false
  | .i32 => int 0
  | .f64 => float (Float.ofBits 0)

end Const

/-- A number in decimal digits with a point. A number that is not finite is written in bits. -/
def doubleText (x : Float) : String :=
  if Number.isFinite x then
    let cs := (Number.compact.text x).toList
    if cs.contains '.' then String.ofList cs
    else String.ofList (cs.takeWhile (· != 'e') ++ ['.', '0'] ++ cs.dropWhile (· != 'e'))
  else "0x" ++ Number.upperHex 16 x.toBits.toNat

def Const.text : Const → String
  | int n => toString n.toInt
  | float x => doubleText x
  | bool b => toString b

inductive Operand
  | temp (id : Nat)
  | slot (id : Nat)
  | global (id : Nat)
  | const (value : Const)
deriving DecidableEq, Repr, Inhabited

inductive Arith
  | add | sub | mul | sdiv | srem
  | fadd | fsub | fmul | fdiv
deriving DecidableEq, Repr, Inhabited

namespace Arith

def scalar : Arith → Scalar
  | add | sub | mul | sdiv | srem => .i32
  | fadd | fsub | fmul | fdiv => .f64

def mnemonic : Arith → String
  | add => "add nsw"
  | sub => "sub nsw"
  | mul => "mul nsw"
  | sdiv => "sdiv"
  | srem => "srem"
  | fadd => "fadd"
  | fsub => "fsub"
  | fmul => "fmul"
  | fdiv => "fdiv"

end Arith

inductive Negation
  | neg | fneg
deriving DecidableEq, Repr, Inhabited

namespace Negation

def scalar : Negation → Scalar
  | neg => .i32
  | fneg => .f64

def mnemonic : Negation → String
  | neg => "neg"
  | fneg => "fneg"

end Negation

/-- Signed comparisons of integers, and comparisons of doubles that fail on a NaN. -/
inductive Predicate
  | eq | ne | sgt | sge | slt | sle
  | oeq | one | ogt | oge | olt | ole
deriving DecidableEq, Repr, Inhabited

namespace Predicate

def scalar : Predicate → Scalar
  | eq | ne | sgt | sge | slt | sle => .i32
  | oeq | one | ogt | oge | olt | ole => .f64

def mnemonic : Predicate → String
  | eq => "eq"
  | ne => "ne"
  | sgt => "sgt"
  | sge => "sge"
  | slt => "slt"
  | sle => "sle"
  | oeq => "oeq"
  | one => "one"
  | ogt => "ogt"
  | oge => "oge"
  | olt => "olt"
  | ole => "ole"

def instruction (p : Predicate) : String := if p.scalar = .f64 then "fcmp" else "icmp"

end Predicate

inductive Cast
  | sitofp | fptosi
deriving DecidableEq, Repr, Inhabited

namespace Cast

def source : Cast → Scalar
  | sitofp => .i32
  | fptosi => .f64

def target : Cast → Scalar
  | sitofp => .f64
  | fptosi => .i32

def mnemonic : Cast → String
  | sitofp => "sitofp"
  | fptosi => "fptosi"

end Cast

inductive Instr
  | load (dest : Nat) (ptr : Operand)
  | store (ptr value : Operand)
  | elementPtr (dest : Nat) (base index : Operand)
  | binary (dest : Nat) (op : Arith) (left right : Operand)
  | unary (dest : Nat) (op : Negation) (operand : Operand)
  | compare (dest : Nat) (predicate : Predicate) (left right : Operand)
  | cast (dest : Nat) (op : Cast) (source : Operand)
  | call (callee : Nat)
deriving DecidableEq, Repr, Inhabited

namespace Instr

def dest? : Instr → Option Nat
  | load d _ | elementPtr d _ _ | binary d _ _ _ | unary d _ _ | compare d _ _ _ | cast d _ _ =>
    some d
  | store .. | call _ => none

def operands : Instr → List Operand
  | load _ p => [p]
  | store p v => [p, v]
  | elementPtr _ b i => [b, i]
  | binary _ _ l r => [l, r]
  | unary _ _ o => [o]
  | compare _ _ l r => [l, r]
  | cast _ _ s => [s]
  | call _ => []

end Instr

/-- How control leaves a block; `unreachable` marks a block that was not ended yet. -/
inductive Terminator
  | goto (target : Nat)
  | branch (condition : Operand) (thenBlock elseBlock : Nat)
  | ret
  | unreachable
deriving DecidableEq, Repr, Inhabited

def Terminator.successors : Terminator → List Nat
  | goto target => [target]
  | branch _ t e => [t, e]
  | ret | unreachable => []

end C1Lang.IR
