import C1Lang.Number.Shortest
import C1Lang.Program.Tree

/-!
# Tree dumps

A program as nested lists. Expressions stand on one line; statements stand on lines of their own,
indented by two blanks for each level.
-/

namespace C1Lang

def Value.dump : Value → String
  | int n => toString n.toInt
  | float x => Number.compact.text x

def quoteName (name : String) : String := "\"" ++ name ++ "\""

def Expr.dump : Expr → String
  | literal v _ => v.dump
  | binary op left right _ => "(" ++ op.symbol ++ " " ++ left.dump ++ " " ++ right.dump ++ ")"
  | unary op operand _ => "(" ++ op.symbol ++ " " ++ operand.dump ++ ")"
  | name x _ => "(LValue " ++ quoteName x ++ ")"
  | element x index _ => "(Index " ++ quoteName x ++ " " ++ index.dump ++ ")"

def Condition.dump (c : Condition) : String :=
  "(" ++ c.relation.symbol ++ " " ++ c.left.dump ++ " " ++ c.right.dump ++ ")"

def Kind.word : Kind → String
  | int => "int"
  | float => "float"

def Variable.dump (v : Variable) : String :=
  let extent := match v.extent with
    | none => ""
    | some e => "[" ++ e.length.dump ++ "]"
  let values := " ".intercalate (v.initializers.map Expr.dump)
  let initializers :=
    if v.initializers.isEmpty then ""
    else if v.isArray then " = \x7b" ++ values ++ "\x7d"
    else " = " ++ values
  "(Var " ++ (if v.constant then "const " else "") ++ v.kind.word ++ " " ++ quoteName v.name ++
    extent ++ initializers ++ ")"

def newLine (level : Nat) : String := String.ofList ('\n' :: List.replicate (2 * level) ' ')

mutual

def Stmt.dump (level : Nat) : Stmt → String
  | .declare v => v.dump
  | .assign target value _ => "(Assign " ++ target.toExpr.dump ++ " " ++ value.dump ++ ")"
  | .call name _ => "(Call " ++ quoteName name ++ ")"
  | .block body _ => "(Block" ++ Stmt.dumpAll (level + 1) body ++ ")"
  | .branch test body _ =>
    "(If " ++ test.dump ++ newLine (level + 1) ++ body.dump (level + 1) ++ ")"
  | .branchElse test body other _ =>
    "(If " ++ test.dump ++ newLine (level + 1) ++ body.dump (level + 1) ++
      newLine (level + 1) ++ other.dump (level + 1) ++ ")"
  | .loop test body _ =>
    "(While " ++ test.dump ++ newLine (level + 1) ++ body.dump (level + 1) ++ ")"
  | .empty _ => "(Empty)"

def Stmt.dumpAll (level : Nat) : List Stmt → String
  | [] => ""
  | s :: rest => newLine level ++ s.dump level ++ Stmt.dumpAll level rest

end

def FunctionDef.dump (level : Nat) (f : FunctionDef) : String :=
  "(Function " ++ quoteName f.name ++ newLine (level + 1) ++
    (Stmt.block f.body f.bodySpan).dump (level + 1) ++ ")"

def Declaration.dump (level : Nat) : Declaration → String
  | function f => f.dump level
  | global v => v.dump

def Program.dump (p : Program) : String :=
  "(Program" ++ String.join (p.map fun d => newLine 1 ++ d.dump 1) ++ ")"

end C1Lang
