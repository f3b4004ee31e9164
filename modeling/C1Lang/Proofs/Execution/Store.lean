import C1Lang.Proofs.Static.Constant

/-!
# Values and memory at run time

What a program and its code have in common when they run: the cells of variables, addresses, the
conversions and the operators on values. A variable is a row of cells, one when it is no array. A
cell is read in the kind of its variable. An index outside an array traps, and so does an integer
division by zero.
-/

namespace C1Lang

namespace Execution

/-- Why a run has no result: it trapped, the fuel did not last, or the program makes no sense. -/
inductive Halt
  | trap
  | exhausted
  | stuck
deriving DecidableEq, Repr

abbrev Memory := List (List Value)

structure Store where
  globals : Memory
  locals : Memory
deriving DecidableEq, Repr

structure Address where
  object : Storage
  offset : Nat
deriving DecidableEq, Repr

def zero : Kind → Value
  | .int => .int 0
  | .float => .float (Float.ofBits 0)

def convert (v : Value) (k : Kind) : Value := (v.convert k).1

namespace Store

def cells (s : Store) : Storage → List Value
  | .global i => s.globals.getD i []
  | .slot i => s.locals.getD i []

def read (s : Store) (k : Kind) (a : Address) : Value :=
  convert ((s.cells a.object).getD a.offset (zero k)) k

def write (s : Store) (a : Address) (v : Value) : Store :=
  match a.object with
  | .global i => { s with globals := s.globals.modify i (·.set a.offset v) }
  | .slot i => { s with locals := s.locals.modify i (·.set a.offset v) }

def element (s : Store) (object : Storage) : Value → Except Halt Address
  | .int i =>
    if 0 ≤ i.toInt ∧ i.toInt < (s.cells object).length then .ok ⟨object, i.toInt.toNat⟩
    else .error .trap
  | .float _ => .error .stuck

end Store

end Execution

open Execution

def BinaryOp.run (op : BinaryOp) : Value → Value → Except Halt Value
  | .int a, .int b =>
    if op.divides ∧ b = 0 then .error .trap else .ok (.int (op.onInts a b))
  | v, w =>
    match op.onFloats? v.toFloat w.toFloat with
    | some x => .ok (.float x)
    | none => .error .stuck

def UnaryOp.run (op : UnaryOp) : Value → Value
  | .int a => .int (op.onInt a)
  | .float x => .float (op.onFloat x)

namespace Relation

def onInts : Relation → Int32 → Int32 → Bool
  | eq, a, b => a == b
  | ne, a, b => a != b
  | gt, a, b => b < a
  | ge, a, b => b ≤ a
  | lt, a, b => a < b
  | le, a, b => a ≤ b

def onFloats : Relation → Float → Float → Bool
  | eq, x, y => x == y
  | ne, x, y => x < y || y < x
  | gt, x, y => y < x
  | ge, x, y => y ≤ x
  | lt, x, y => x < y
  | le, x, y => x ≤ y

def holds (r : Relation) : Value → Value → Bool
  | .int a, .int b => r.onInts a b
  | v, w => r.onFloats v.toFloat w.toFloat

end Relation

namespace Execution

@[simp] theorem convert_kind (v : Value) (k : Kind) : (convert v k).kind = k := by
  cases v <;> cases k <;> rfl

@[simp] theorem convert_self (v : Value) : convert v v.kind = v := by
  cases v <;> rfl

@[simp] theorem read_kind (s : Store) (k : Kind) (a : Address) : (s.read k a).kind = k :=
  convert_kind _ k

theorem zero_toConst (k : Kind) : (zero k).toConst = IR.Const.zero k.scalar := by
  cases k <;> rfl

@[simp] theorem unary_kind (op : UnaryOp) (v : Value) : (op.run v).kind = v.kind := by
  cases v <;> rfl

theorem binary_run_floats {op : BinaryOp} {v w : Value} {x : Float}
    (hk : v.kind = .float ∨ w.kind = .float)
    (hx : op.onFloats? v.toFloat w.toFloat = some x) : op.run v w = .ok (.float x) := by
  cases v with
  | int a =>
    cases w with
    | int b => simp [Value.kind] at hk
    | float y =>
      simp only [BinaryOp.run]
      rw [hx]
  | float y =>
    simp only [BinaryOp.run]
    rw [hx]

theorem binary_run_kind {op : BinaryOp} {v w x : Value} (h : op.run v w = .ok x) :
    x.kind = v.kind.unify w.kind := by
  cases v <;> cases w <;> simp only [BinaryOp.run] at h <;> split at h <;> cases h <;> rfl

end Execution

end C1Lang
