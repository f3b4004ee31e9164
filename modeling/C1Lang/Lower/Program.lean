import C1Lang.Lower.Stmt

/-!
# Lowering programs

A program becomes a module, one declaration after the other. A declaration that stops leaves no
trace in the module.
-/

namespace C1Lang.Lower

def finishFunction : Lower IR.Function := do
  let s ← get
  match s.builder with
  | none => fault .noOpenFunction
  | some b =>
    match b.terminated? with
    | none => fault .missingBlock
    | some terminated =>
      unless terminated do terminate .ret
      let s ← get
      set { s with builder := none }
      match s.builder with
      | none => fault .noOpenFunction
      | some b => return b.finish

def declareFunction (f : FunctionDef) : Lower Nat := do
  let s ← get
  let (id, module) := s.module.declare f.name
  set { s with module, functions := (f.name, ⟨id, f.nameSpan⟩) :: s.functions }
  return id

def defineFunction (id : Nat) (f : IR.Function) : Lower Unit := do
  let s ← get
  match s.module.define? id f with
  | some module => set { s with module }
  | none => fault .missingFunction

/-- A function. Its name is known in its body, so that it can call itself. -/
def function (f : FunctionDef) : Lower Unit := do
  let s ← get
  match s.functions.lookup f.name, s.scopes.lookupGlobal f.name with
  | some previous, _ => report (.functionRedefined f.name previous.span) f.nameSpan
  | none, some global => report (.symbolRedefined f.name global.span) f.nameSpan
  | none, none =>
    let id ← declareFunction f
    modify fun s => { s with builder := some (IR.Builder.start f.name) }
    enterScope .function
    stmts .inFunction f.body
    exitScope
    defineFunction id (← finishFunction)

def declaration : Declaration → Lower Unit
  | .function f => function f
  | .global v => variableDeclaration .atModule v

def declarations : Program → Lower Unit
  | [] => return ()
  | d :: rest => do
    recording (declaration d) ()
    declarations rest

end C1Lang.Lower

namespace C1Lang

structure Lowered where
  module : IR.Module
  diagnostics : List Diagnostic
deriving DecidableEq, Repr

def Lowered.valid (l : Lowered) : Bool := Diagnostic.valid l.diagnostics

def lower (name : String) (p : Program) : Except Lower.Fault Lowered :=
  match Lower.declarations p { module := { name } } with
  | .ok _ s => .ok ⟨s.module, s.diagnostics⟩
  | .error (.fault f) _ => .error f
  | .error (.problem d) s => .ok ⟨s.module, s.diagnostics ++ [d]⟩

end C1Lang
