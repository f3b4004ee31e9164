import C1Lang.Source.Span

/-!
# Program trees

The tree of a C1 program: expressions, statements and declarations, each with its span. A relation
is not an expression: it occurs only as the test of a branch or a loop. One variable node stands
for one declared name.
-/

namespace C1Lang

inductive Kind
  | int
  | float
deriving DecidableEq, Repr, Inhabited

inductive Value
  | int (value : Int32)
  | float (value : Float)
deriving DecidableEq, Repr, Inhabited

def Value.kind : Value → Kind
  | .int _ => .int
  | .float _ => .float

inductive BinaryOp
  | add | sub | mul | div | mod
deriving DecidableEq, Repr, Inhabited

def BinaryOp.symbol : BinaryOp → String
  | add => "+"
  | sub => "-"
  | mul => "*"
  | div => "/"
  | mod => "%"

inductive UnaryOp
  | plus | neg
deriving DecidableEq, Repr, Inhabited

def UnaryOp.symbol : UnaryOp → String
  | plus => "+"
  | neg => "-"

inductive Relation
  | eq | ne | gt | ge | lt | le
deriving DecidableEq, Repr, Inhabited

def Relation.symbol : Relation → String
  | eq => "=="
  | ne => "!="
  | gt => ">"
  | ge => ">="
  | lt => "<"
  | le => "<="

inductive Expr
  | literal (value : Value) (span : Span)
  | binary (op : BinaryOp) (left right : Expr) (span : Span)
  | unary (op : UnaryOp) (operand : Expr) (span : Span)
  | name (name : String) (span : Span)
  | element (name : String) (index : Expr) (span : Span)
deriving DecidableEq, Repr, Inhabited

def Expr.span : Expr → Span
  | literal _ s | binary _ _ _ s | unary _ _ s | name _ s | element _ _ s => s

inductive Place
  | name (name : String) (span : Span)
  | element (name : String) (index : Expr) (span : Span)
deriving DecidableEq, Repr, Inhabited

namespace Place

def span : Place → Span
  | name _ s | element _ _ s => s

def toExpr : Place → Expr
  | name x s => .name x s
  | element x i s => .element x i s

end Place

structure Condition where
  relation : Relation
  left : Expr
  right : Expr
  span : Span
deriving DecidableEq, Repr, Inhabited

/-- The length of an array: written out, or counted from the initializers and placed at the
closing bracket. -/
inductive Extent
  | stated (length : Expr)
  | counted (length : Int32) (span : Span)
deriving DecidableEq, Repr, Inhabited

def Extent.length : Extent → Expr
  | stated e => e
  | counted n s => .literal (.int n) s

/-- One declared name. It is an array when it has an extent; a scalar has at most one
initializer. -/
structure Variable where
  name : String
  nameSpan : Span
  kind : Kind
  constant : Bool
  extent : Option Extent
  initializers : List Expr
  span : Span
deriving DecidableEq, Repr, Inhabited

def Variable.isArray (v : Variable) : Bool := v.extent.isSome

inductive Stmt
  | declare (v : Variable)
  | assign (target : Place) (value : Expr) (span : Span)
  | call (name : String) (span : Span)
  | block (body : List Stmt) (span : Span)
  | branch (test : Condition) (body : Stmt) (span : Span)
  | branchElse (test : Condition) (body other : Stmt) (span : Span)
  | loop (test : Condition) (body : Stmt) (span : Span)
  | empty (span : Span)
deriving Repr, Inhabited

def Stmt.span : Stmt → Span
  | declare v => v.span
  | assign _ _ s | call _ s | block _ s | branch _ _ s | branchElse _ _ _ s | loop _ _ s
  | empty s => s

structure FunctionDef where
  name : String
  nameSpan : Span
  body : List Stmt
  bodySpan : Span
  span : Span
deriving Repr, Inhabited

inductive Declaration
  | function (f : FunctionDef)
  | global (v : Variable)
deriving Repr, Inhabited

def Declaration.span : Declaration → Span
  | function f => f.span
  | global v => v.span

abbrev Program := List Declaration

end C1Lang
