import C1Lang.IR.Module

/-!
# Building a function

A builder has a current block, at which instructions are appended. Blocks are labelled `BB0`,
`BB1`, … in the order of their creation; the first one exists from the start.
-/

namespace C1Lang.IR

structure Builder where
  name : String
  locals : Array Local := #[]
  temps : Array Ty := #[]
  blocks : Array Block
  current : Nat
  /-- How often a block was written to after it had been ended. Nothing is decided by it. -/
  rewrites : Nat := 0
deriving DecidableEq, Repr, Inhabited

namespace Builder

def label (n : Nat) : String := "BB" ++ toString n

def start (name : String) : Builder := { name, blocks := #[{ label := label 0 }], current := 0 }

def createBlock (b : Builder) : Nat × Builder :=
  (b.blocks.size, { b with blocks := b.blocks.push { label := label b.blocks.size } })

def switchTo (b : Builder) (block : Nat) : Builder := { b with current := block }

def addLocal (b : Builder) (name : String) (ty : Ty) : Nat × Builder :=
  (b.locals.size, { b with locals := b.locals.push ⟨name, ty⟩ })

def addTemp (b : Builder) (ty : Ty) : Nat × Builder :=
  (b.temps.size, { b with temps := b.temps.push ty })

def terminated? (b : Builder) : Option Bool :=
  b.blocks[b.current]?.map fun block => block.terminator != .unreachable

def modifyCurrent? (b : Builder) (change : Block → Block) : Option Builder :=
  match b.terminated? with
  | none => none
  | some ended => some { b with
      blocks := b.blocks.modify b.current change
      rewrites := b.rewrites + ended.toNat }

def emit? (b : Builder) (i : Instr) : Option Builder :=
  b.modifyCurrent? fun block => { block with instructions := block.instructions.push i }

def terminate? (b : Builder) (t : Terminator) : Option Builder :=
  b.modifyCurrent? fun block => { block with terminator := t }

def finish (b : Builder) : Function :=
  { name := b.name, locals := b.locals, temps := b.temps, blocks := b.blocks, defined := true }

end Builder

end C1Lang.IR
