import C1Lang.Program.Tree

/-!
# Numbered nodes

The nodes of a program in a row, each after its children, with the numbers of its children. The
order is that in which the parts of the text are completed: a counted array length comes after
the initializers it counts.
-/

namespace C1Lang

inductive NodeKind
  | literal | binary | unary | lvalue | condition | function | declaration | assignment | call
  | block | branch | loop | empty
deriving DecidableEq, Repr, Inhabited

structure Node where
  kind : NodeKind
  span : Span
  children : List Nat
deriving DecidableEq, Repr, Inhabited

structure Arena where
  nodes : Array Node := #[]
  roots : List Nat := []
deriving Repr, Inhabited

namespace Arena

def push (nodes : Array Node) (kind : NodeKind) (span : Span) (children : List Nat) :
    Nat × Array Node :=
  (nodes.size, nodes.push ⟨kind, span, children⟩)

def addExpr : Expr → Array Node → Nat × Array Node
  | .literal _ s, nodes => push nodes .literal s []
  | .binary _ left right s, nodes =>
    let (l, nodes) := addExpr left nodes
    let (r, nodes) := addExpr right nodes
    push nodes .binary s [l, r]
  | .unary _ operand s, nodes =>
    let (o, nodes) := addExpr operand nodes
    push nodes .unary s [o]
  | .name _ s, nodes => push nodes .lvalue s []
  | .element _ index s, nodes =>
    let (i, nodes) := addExpr index nodes
    push nodes .lvalue s [i]

def addExprs : List Expr → Array Node → List Nat × Array Node
  | [], nodes => ([], nodes)
  | e :: es, nodes =>
    let (i, nodes) := addExpr e nodes
    let (is, nodes) := addExprs es nodes
    (i :: is, nodes)

def addCondition (c : Condition) (nodes : Array Node) : Nat × Array Node :=
  let (l, nodes) := addExpr c.left nodes
  let (r, nodes) := addExpr c.right nodes
  push nodes .condition c.span [l, r]

def addVariable (v : Variable) (nodes : Array Node) : Nat × Array Node :=
  match v.extent with
  | none =>
    let (is, nodes) := addExprs v.initializers nodes
    push nodes .declaration v.span is
  | some (.stated length) =>
    let (n, nodes) := addExpr length nodes
    let (is, nodes) := addExprs v.initializers nodes
    push nodes .declaration v.span (n :: is)
  | some (.counted _ s) =>
    let (is, nodes) := addExprs v.initializers nodes
    let (n, nodes) := push nodes .literal s []
    push nodes .declaration v.span (n :: is)

mutual

def addStmt : Stmt → Array Node → Nat × Array Node
  | .declare v, nodes => addVariable v nodes
  | .assign target value s, nodes =>
    let (t, nodes) := addExpr target.toExpr nodes
    let (v, nodes) := addExpr value nodes
    push nodes .assignment s [t, v]
  | .call _ s, nodes => push nodes .call s []
  | .block body s, nodes =>
    let (is, nodes) := addStmts body nodes
    push nodes .block s is
  | .branch test body s, nodes =>
    let (c, nodes) := addCondition test nodes
    let (b, nodes) := addStmt body nodes
    push nodes .branch s [c, b]
  | .branchElse test body other s, nodes =>
    let (c, nodes) := addCondition test nodes
    let (b, nodes) := addStmt body nodes
    let (o, nodes) := addStmt other nodes
    push nodes .branch s [c, b, o]
  | .loop test body s, nodes =>
    let (c, nodes) := addCondition test nodes
    let (b, nodes) := addStmt body nodes
    push nodes .loop s [c, b]
  | .empty s, nodes => push nodes .empty s []

def addStmts : List Stmt → Array Node → List Nat × Array Node
  | [], nodes => ([], nodes)
  | s :: rest, nodes =>
    let (i, nodes) := addStmt s nodes
    let (is, nodes) := addStmts rest nodes
    (i :: is, nodes)

end

def addDeclaration : Declaration → Array Node → Nat × Array Node
  | .global v, nodes => addVariable v nodes
  | .function f, nodes =>
    let (is, nodes) := addStmts f.body nodes
    let (b, nodes) := push nodes .block f.bodySpan is
    push nodes .function f.span [b]

def add : Program → Arena → Arena
  | [], a => a
  | d :: rest, a =>
    let (i, nodes) := addDeclaration d a.nodes
    add rest ⟨nodes, a.roots ++ [i]⟩

end Arena

def Program.arena (p : Program) : Arena := Arena.add p {}

end C1Lang
