import C1Lang.IR.Module

/-!
# Verification

The defects of a module: names that are defined twice, initializers that do not fit, and in every
defined function operands that do not exist or are read before they are written, types that
disagree, branches to nowhere, and blocks that are not ended or that no path reaches.
-/

namespace C1Lang.IR

inductive BlockDefect
  | missingTerminator
  | unreachable
  | unknownBlock (target : Nat)
  | unknownSlot (slot : Nat)
  | unknownTemp (temp : Nat)
  | unknownGlobal (global : Nat)
  | unknownCallee (callee : Nat)
  | unwritten (temp : Nat)
  | branchOn (actual : Ty)
  | mismatch (instruction : String) (expected actual : Ty)
deriving DecidableEq, Repr

inductive Defect
  | inBlock (function block : String) (defect : BlockDefect)
  | functionTwice (name : String)
  | globalTwice (name : String)
  | functionAndGlobal (name : String)
  | malformedInit (global : String)
deriving DecidableEq, Repr

def BlockDefect.message : BlockDefect → String
  | missingTerminator => " has no terminator"
  | unreachable => " is unreachable from the entry block"
  | unknownBlock target => " branches to unknown block " ++ toString target
  | unknownSlot slot => " uses unknown local %l" ++ toString slot
  | unknownTemp temp => " uses unknown temp %t" ++ toString temp
  | unknownGlobal global => " uses unknown global #" ++ toString global
  | unknownCallee callee => " calls unknown function #" ++ toString callee
  | unwritten temp => " uses %t" ++ toString temp ++ " before its definition"
  | branchOn actual => " branches on a " ++ actual.text ++ " instead of i1"
  | mismatch instruction expected actual =>
    ": " ++ instruction ++ " expects " ++ expected.text ++ " but got " ++ actual.text

def Defect.message : Defect → String
  | inBlock function block defect => "@" ++ function ++ ": block " ++ block ++ defect.message
  | functionTwice name => "function @" ++ name ++ " is defined twice"
  | globalTwice name => "global @" ++ name ++ " is defined twice"
  | functionAndGlobal name => "@" ++ name ++ " names both a global and a function"
  | malformedInit global => "initializer of global @" ++ global ++ " does not match its type"

def require (condition : Bool) (defect : BlockDefect) : List BlockDefect :=
  if condition then [] else [defect]

def requireTy (instruction : String) (expected actual : Ty) : List BlockDefect :=
  require (expected == actual) (.mismatch instruction expected actual)

def repeated (seen : List String) : List String → List String
  | [] => []
  | name :: rest =>
    if seen.contains name then name :: repeated seen rest else repeated (name :: seen) rest

def globalNameDefects (functions : List String) (seen : List String) : List String → List Defect
  | [] => []
  | name :: rest =>
    if seen.contains name then .globalTwice name :: globalNameDefects functions seen rest
    else if functions.contains name then
      .functionAndGlobal name :: globalNameDefects functions (name :: seen) rest
    else globalNameDefects functions (name :: seen) rest

def Init.fits : Init → Ty → Bool
  | scalar c, .scalar s => c.scalar == s
  | array cs, .array element length => cs.length == length && cs.all (·.scalar == element)
  | _, _ => false

def Global.wellFormed (g : Global) : Bool :=
  match g.init with
  | none => true
  | some init => init.fits g.ty

namespace Module

section Function

variable (m : Module) (f : Function)

def tempDefects (t : Nat) : List BlockDefect := require (t < f.temps.size) (.unknownTemp t)

def operandDefects (written : List Nat) : Operand → List BlockDefect
  | .temp t => tempDefects f t ++ require (written.contains t) (.unwritten t)
  | .slot l => require (l < f.locals.size) (.unknownSlot l)
  | .global g => require (g < m.globals.size) (.unknownGlobal g)
  | .const _ => []

def destTy (dest : Nat) : Ty := f.temps[dest]?.getD .void

def operandTyDefects (instruction : String) (expected : Ty) (o : Operand) : List BlockDefect :=
  match m.operandType? f o with
  | none => []
  | some actual => requireTy instruction expected actual

def typeDefects : Instr → List BlockDefect
  | .load dest ptr =>
    match m.operandType? f ptr with
    | none => []
    | some ty => requireTy "load" (ty.pointee?.getD .void) (destTy f dest)
  | .store ptr value =>
    match m.operandType? f ptr, m.operandType? f value with
    | some ty, some valueTy => requireTy "store" (ty.pointee?.getD .void) valueTy
    | _, _ => []
  | .elementPtr dest base index =>
    operandTyDefects m f "getelementptr index" (.scalar .i32) index ++
      match m.operandType? f base with
      | none => []
      | some (.pointer (.array element _)) =>
        requireTy "getelementptr" (.pointer (.scalar element)) (destTy f dest)
      | some ty => requireTy "getelementptr base" (.pointer (.array .i32 0)) ty
  | .binary dest op left right =>
    let ty := Ty.scalar op.scalar
    operandTyDefects m f op.mnemonic ty left ++ operandTyDefects m f op.mnemonic ty right ++
      requireTy op.mnemonic ty (destTy f dest)
  | .unary dest op operand =>
    let ty := Ty.scalar op.scalar
    operandTyDefects m f op.mnemonic ty operand ++ requireTy op.mnemonic ty (destTy f dest)
  | .compare dest predicate left right =>
    let ty := Ty.scalar predicate.scalar
    operandTyDefects m f predicate.instruction ty left ++
      operandTyDefects m f predicate.instruction ty right ++
      requireTy predicate.instruction (.scalar .i1) (destTy f dest)
  | .cast dest op source =>
    operandTyDefects m f op.mnemonic (.scalar op.source) source ++
      requireTy op.mnemonic (.scalar op.target) (destTy f dest)
  | .call callee => require (callee < m.functions.size) (.unknownCallee callee)

def instrDefects (written : List Nat) (i : Instr) : List BlockDefect :=
  i.operands.flatMap (operandDefects m f written) ++ typeDefects m f i ++
    (i.dest?.map (tempDefects f)).getD []

def writtenAfter (written : List Nat) (i : Instr) : List Nat :=
  match i.dest? with
  | some d => d :: written
  | none => written

def targetDefects (target : Nat) : List BlockDefect :=
  require (target < f.blocks.size) (.unknownBlock target)

def terminatorDefects (written : List Nat) : Terminator → List BlockDefect
  | .goto target => targetDefects f target
  | .branch condition thenBlock elseBlock =>
    operandDefects m f written condition ++ targetDefects f thenBlock ++
      targetDefects f elseBlock ++
      match m.operandType? f condition with
      | none => []
      | some ty => require (ty == .scalar .i1) (.branchOn ty)
  | .ret => []
  | .unreachable => [.missingTerminator]

def instrsDefects (written : List Nat) : List Instr → List BlockDefect × List Nat
  | [] => ([], written)
  | i :: rest =>
    let (defects, after) := instrsDefects (writtenAfter written i) rest
    (instrDefects m f written i ++ defects, after)

/-- The defects of the blocks in order. What one block writes counts as written in the next. -/
def blocksDefects (written : List Nat) : List Block → List Defect
  | [] => []
  | b :: rest =>
    let (defects, after) := instrsDefects m f written b.instructions.toList
    (defects ++ terminatorDefects m f after b.terminator).map (.inBlock f.name b.label) ++
      blocksDefects after rest

/-- The blocks that are reached from those in the queue. Every round takes one block off the
queue, and each block is queued at most once for each branch to it. -/
def explore (blocks : Array Block) : Nat → List Nat → List Nat → List Nat
  | 0, _, seen => seen
  | _, [], seen => seen
  | fuel + 1, id :: queue, seen =>
    match blocks[id]? with
    | none => explore blocks fuel queue seen
    | some b =>
      if seen.contains id then explore blocks fuel queue seen
      else explore blocks fuel (queue ++ b.terminator.successors) (id :: seen)

def reached : List Nat := explore f.blocks (2 * f.blocks.size + 1) [f.entry] []

def reachDefects : List Defect :=
  let seen := reached f
  f.blocks.toList.zipIdx.filterMap fun (b, id) =>
    if seen.contains id then none else some (.inBlock f.name b.label .unreachable)

def functionDefects : List Defect :=
  if f.defined then blocksDefects m f [] f.blocks.toList ++ reachDefects f else []

end Function

def defects (m : Module) : List Defect :=
  let functions := m.functions.toList.map (·.name)
  (repeated [] functions).map .functionTwice ++
    globalNameDefects functions [] (m.globals.toList.map (·.name)) ++
    (m.globals.toList.filter (!·.wellFormed)).map (fun g => .malformedInit g.name) ++
    m.functions.toList.flatMap (functionDefects m)

end Module

end C1Lang.IR
