/-!
# Types of the intermediate representation
-/

namespace C1Lang.IR

inductive Scalar
  | i1
  | i32
  | f64
deriving DecidableEq, Repr, Inhabited

inductive Ty
  | void
  | scalar (s : Scalar)
  | array (element : Scalar) (length : Nat)
  | pointer (target : Ty)
deriving DecidableEq, Repr, Inhabited

def Scalar.text : Scalar → String
  | i1 => "i1"
  | i32 => "i32"
  | f64 => "double"

namespace Ty

def pointee? : Ty → Option Ty
  | pointer target => some target
  | _ => none

def scalar? : Ty → Option Scalar
  | scalar s => some s
  | _ => none

def text : Ty → String
  | void => "void"
  | scalar s => s.text
  | array element length => "[" ++ toString length ++ " x " ++ element.text ++ "]"
  | pointer target => target.text ++ "*"

end Ty

end C1Lang.IR
