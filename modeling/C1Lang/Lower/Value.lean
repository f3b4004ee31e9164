import C1Lang.Diagnostic.Basic
import C1Lang.IR.Instr
import C1Lang.Program.Tree

/-!
# Arithmetic on constants

Integers are 32-bit words: addition, subtraction, multiplication and negation wrap, division
truncates, and dividing by zero is a problem. An operation with a float operand works on doubles,
where remainder is a problem and nothing else is.
-/

namespace C1Lang

namespace Kind

def unify : Kind → Kind → Kind
  | int, int => int
  | _, _ => float

def scalar : Kind → IR.Scalar
  | int => .i32
  | float => .f64

def ty (k : Kind) : IR.Ty := .scalar k.scalar

end Kind

namespace Value

def toFloat : Value → Float
  | int n => n.toFloat
  | float x => x

def toConst : Value → IR.Const
  | int n => .int n
  | float x => .float x

/-- The value in another kind, and whether it lost something. A float loses its fraction, and
becomes the nearest word when it is out of range; a NaN becomes zero. -/
def convert : Value → Kind → Value × Bool
  | int n, .float => (float n.toFloat, false)
  | float x, .int => (int x.toInt32, x.toInt32.toFloat != x)
  | v, _ => (v, false)

def foldInt (op : BinaryOp) (l r : Int32) : Except Problem Int32 :=
  match op with
  | .add => .ok (l + r)
  | .sub => .ok (l - r)
  | .mul => .ok (l * r)
  | .div => if r = 0 then .error .divisionByZero else .ok (l / r)
  | .mod => if r = 0 then .error .divisionByZero else .ok (l % r)

def foldFloat (op : BinaryOp) (l r : Float) : Except Problem Float :=
  match op with
  | .add => .ok (l + r)
  | .sub => .ok (l - r)
  | .mul => .ok (l * r)
  | .div => .ok (l / r)
  | .mod => .error .moduloOnFloat

def foldBinary (op : BinaryOp) : Value → Value → Except Problem Value
  | int l, int r => (foldInt op l r).map int
  | l, r => (foldFloat op l.toFloat r.toFloat).map float

def foldUnary : UnaryOp → Value → Value
  | .plus, v => v
  | .neg, int n => int (-n)
  | .neg, float x => float (-x)

end Value

end C1Lang
