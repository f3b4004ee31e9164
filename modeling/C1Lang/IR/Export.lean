import C1Lang.IR.Json
import C1Lang.IR.Module

/-!
# Data export

A module as a JSON value, with every number, type, instruction and block of it.
-/

namespace C1Lang.IR

def Scalar.name : Scalar → String
  | i1 => "i1"
  | i32 => "i32"
  | f64 => "f64"

def Ty.json : Ty → Json
  | void => .string "void"
  | scalar s => .object [("scalar", .string s.name)]
  | array element length =>
    .object [("array", .object [("element", .string element.name), ("len", .nat length)])]
  | pointer target => .object [("pointer", target.json)]

/-- A finite number in its shortest digits; other numbers have no text. -/
def doubleJson (x : Float) : Json :=
  if Number.isFinite x then .number (Number.interchange.text x) else .null

def Const.json : Const → Json
  | int n => .object [("type", .string "int"), ("value", .number (toString n.toInt))]
  | float x => .object [("type", .string "float"), ("value", doubleJson x)]
  | bool b => .object [("type", .string "bool"), ("value", .bool b)]

def Operand.json : Operand → Json
  | temp id => .object [("kind", .string "temp"), ("value", .nat id)]
  | slot id => .object [("kind", .string "local"), ("value", .nat id)]
  | global id => .object [("kind", .string "global"), ("value", .nat id)]
  | const c => .object [("kind", .string "const"), ("value", c.json)]

def Arith.name : Arith → String
  | add => "add"
  | sub => "sub"
  | mul => "mul"
  | sdiv => "sdiv"
  | srem => "srem"
  | fadd => "fadd"
  | fsub => "fsub"
  | fmul => "fmul"
  | fdiv => "fdiv"

def Instr.json : Instr → Json
  | load dest ptr =>
    .object [("instr", .string "load"), ("dest", .nat dest), ("ptr", ptr.json)]
  | store ptr value =>
    .object [("instr", .string "store"), ("ptr", ptr.json), ("value", value.json)]
  | elementPtr dest base index =>
    .object [("instr", .string "element_ptr"), ("dest", .nat dest), ("base", base.json),
      ("index", index.json)]
  | binary dest op left right =>
    .object [("instr", .string "binary"), ("dest", .nat dest), ("op", .string op.name),
      ("left", left.json), ("right", right.json)]
  | unary dest op operand =>
    .object [("instr", .string "unary"), ("dest", .nat dest), ("op", .string op.mnemonic),
      ("operand", operand.json)]
  | compare dest predicate left right =>
    .object [("instr", .string "compare"), ("dest", .nat dest),
      ("predicate", .string predicate.mnemonic), ("left", left.json), ("right", right.json)]
  | cast dest op source =>
    .object [("instr", .string "cast"), ("dest", .nat dest), ("op", .string op.mnemonic),
      ("source", source.json)]
  | call callee => .object [("instr", .string "call"), ("callee", .nat callee)]

def Terminator.json : Terminator → Json
  | goto target => .object [("kind", .string "goto"), ("target", .nat target)]
  | branch condition thenBlock elseBlock =>
    .object [("kind", .string "branch"), ("condition", condition.json),
      ("then_block", .nat thenBlock), ("else_block", .nat elseBlock)]
  | ret => .object [("kind", .string "return")]
  | unreachable => .object [("kind", .string "unreachable")]

def Block.json (b : Block) : Json :=
  .object [("label", .string b.label),
    ("instructions", .array (b.instructions.toList.map Instr.json)),
    ("terminator", b.terminator.json)]

def Init.json : Init → Json
  | scalar c => .object [("scalar", c.json)]
  | array cs => .object [("array", .array (cs.map Const.json))]

def Global.json (g : Global) : Json :=
  .object [("name", .string g.name), ("ty", g.ty.json), ("constant", .bool g.constant),
    ("init", (g.init.map Init.json).getD .null)]

def Local.json (l : Local) : Json := .object [("name", .string l.name), ("ty", l.ty.json)]

def Function.json (f : Function) : Json :=
  .object [("name", .string f.name), ("locals", .array (f.locals.toList.map Local.json)),
    ("temps", .array (f.temps.toList.map fun t => .object [("ty", t.json)])),
    ("blocks", .array (f.blocks.toList.map Block.json)), ("entry_block", .nat f.entry),
    ("defined", .bool f.defined)]

def Module.json (m : Module) : Json :=
  .object [("name", .string m.name), ("globals", .array (m.globals.toList.map Global.json)),
    ("functions", .array (m.functions.toList.map Function.json))]

end C1Lang.IR
