import C1Lang.Proofs.Execution.Store

/-!
# Running code

A machine for modules. A configuration is the place in a function with its temporaries, what the
function can reach, and the functions that wait for a return. A call gets fresh slots, which are
zero at first. The machine runs for a number of steps.
-/

namespace C1Lang

open Execution

namespace IR

def Arith.run : Arith → Value → Value → Except Halt Value
  | add, .int a, .int b => .ok (.int (a + b))
  | sub, .int a, .int b => .ok (.int (a - b))
  | mul, .int a, .int b => .ok (.int (a * b))
  | sdiv, .int a, .int b => if b = 0 then .error .trap else .ok (.int (a / b))
  | srem, .int a, .int b => if b = 0 then .error .trap else .ok (.int (a % b))
  | fadd, .float x, .float y => .ok (.float (x + y))
  | fsub, .float x, .float y => .ok (.float (x - y))
  | fmul, .float x, .float y => .ok (.float (x * y))
  | fdiv, .float x, .float y => .ok (.float (x / y))
  | _, _, _ => .error .stuck

def Negation.run : Negation → Value → Except Halt Value
  | neg, .int a => .ok (.int (-a))
  | fneg, .float x => .ok (.float (-x))
  | _, _ => .error .stuck

def Cast.run : Cast → Value → Except Halt Value
  | sitofp, .int n => .ok (convert (.int n) .float)
  | fptosi, .float x => .ok (convert (.float x) .int)
  | _, _ => .error .stuck

namespace Predicate

def relation : Predicate → Relation
  | eq | oeq => .eq
  | ne | one => .ne
  | sgt | ogt => .gt
  | sge | oge => .ge
  | slt | olt => .lt
  | sle | ole => .le

def run (p : Predicate) (v w : Value) : Except Halt Bool :=
  match p.scalar, v, w with
  | .i32, .int a, .int b => .ok (p.relation.onInts a b)
  | .f64, .float x, .float y => .ok (p.relation.onFloats x y)
  | _, _, _ => .error .stuck

end Predicate

def Scalar.kind? : Scalar → Option Kind
  | i1 => none
  | i32 => some .int
  | f64 => some .float

def Ty.blank : Ty → List Value
  | scalar s => s.kind?.toList.map zero
  | array s n => s.kind?.toList.flatMap fun k => List.replicate n (zero k)
  | pointer _ | void => []

def Function.blank (f : Function) : Memory := f.locals.toList.map fun x => x.ty.blank

end IR

namespace Execution

open IR

/-- What an operand stands for. -/
inductive Datum
  | value (v : Value)
  | flag (b : Bool)
  | address (a : Address)
deriving DecidableEq, Repr

abbrev Temps := Nat → Option Datum

def Temps.set (T : Temps) (t : Nat) (d : Datum) : Temps := fun u => if u = t then some d else T u

def datum? (T : Temps) : Operand → Option Datum
  | .temp t => T t
  | .slot i => some (.address ⟨.slot i, 0⟩)
  | .global i => some (.address ⟨.global i, 0⟩)
  | .const (.int n) => some (.value (.int n))
  | .const (.float x) => some (.value (.float x))
  | .const (.bool b) => some (.flag b)

structure Point where
  code : Function
  block : Nat
  next : Nat
  temps : Temps

structure Config where
  point : Point
  store : Store
  callers : List (Point × Memory)

namespace Config

def value (c : Config) (o : Operand) : Except Halt Value :=
  match datum? c.point.temps o with
  | some (.value v) => .ok v
  | _ => .error .stuck

def flag (c : Config) (o : Operand) : Except Halt Bool :=
  match datum? c.point.temps o with
  | some (.flag b) => .ok b
  | _ => .error .stuck

def address (c : Config) (o : Operand) : Except Halt Address :=
  match datum? c.point.temps o with
  | some (.address a) => .ok a
  | _ => .error .stuck

def kind (c : Config) (t : Nat) : Except Halt Kind :=
  match c.point.code.temps[t]? with
  | some (.scalar .i32) => .ok .int
  | some (.scalar .f64) => .ok .float
  | _ => .error .stuck

def advance (c : Config) : Config := { c with point.next := c.point.next + 1 }

def set (c : Config) (t : Nat) (d : Datum) : Config :=
  { c.advance with point.temps := c.point.temps.set t d }

def jump (c : Config) (block : Nat) : Config :=
  { c with point.block := block, point.next := 0 }

def enter (f : Function) (globals : Memory) (callers : List (Point × Memory)) : Config :=
  ⟨⟨f, f.entry, 0, fun _ => none⟩, ⟨globals, f.blank⟩, callers⟩

end Config

def perform (m : Module) (c : Config) : Instr → Except Halt Config
  | .load t ptr => do
    let a ← c.address ptr
    let k ← c.kind t
    return c.set t (.value (c.store.read k a))
  | .store ptr value => do
    let a ← c.address ptr
    let v ← c.value value
    return { c.advance with store := c.store.write a v }
  | .elementPtr t base index => do
    let a ← c.address base
    let i ← c.value index
    let e ← c.store.element a.object i
    return c.set t (.address e)
  | .binary t op left right => do
    let v ← c.value left
    let w ← c.value right
    let x ← op.run v w
    return c.set t (.value x)
  | .unary t op operand => do
    let v ← c.value operand
    let x ← op.run v
    return c.set t (.value x)
  | .compare t p left right => do
    let v ← c.value left
    let w ← c.value right
    let b ← p.run v w
    return c.set t (.flag b)
  | .cast t op source => do
    let v ← c.value source
    let x ← op.run v
    return c.set t (.value x)
  | .call id =>
    match m.functions[id]? with
    | some f =>
      if f.defined then
        .ok (.enter f c.store.globals ((c.advance.point, c.store.locals) :: c.callers))
      else .error .stuck
    | none => .error .stuck

/-- The way out of a block. The last return gives the global variables. -/
def exit (c : Config) : Terminator → Except Halt (Config ⊕ Memory)
  | .goto block => .ok (.inl (c.jump block))
  | .branch o i j => do
    let b ← c.flag o
    return .inl (c.jump (if b then i else j))
  | .ret =>
    match c.callers with
    | [] => .ok (.inr c.store.globals)
    | (point, locals) :: rest => .ok (.inl ⟨point, ⟨c.store.globals, locals⟩, rest⟩)
  | .unreachable => .error .stuck

def step (m : Module) (c : Config) : Except Halt (Config ⊕ Memory) :=
  match c.point.code.blocks[c.point.block]? with
  | none => .error .stuck
  | some b =>
    match b.instructions[c.point.next]? with
    | some i => (perform m c i).map .inl
    | none => exit c b.terminator

def steps (m : Module) : Nat → Config → Except Halt Memory
  | 0, _ => .error .exhausted
  | n + 1, c =>
    match step m c with
    | .error h => .error h
    | .ok (.inl c') => steps m n c'
    | .ok (.inr globals) => .ok globals

end Execution

open IR

def IR.Module.run (m : Module) (n : Nat) (name : String) (globals : Memory) :
    Except Halt Memory :=
  match (m.functionByName? name).bind (m.functions[·]?) with
  | none => .error .stuck
  | some f => if f.defined then steps m n (.enter f globals []) else .error .stuck

end C1Lang
