import C1Lang.Proofs.Execution.Store
import C1Lang.Proofs.Static.Judgement

/-!
# Running a program

A reference interpreter of program trees. Names are looked up lexically. A call has cells for each
declaration in the body of the function, numbered in the order of the text, which are zero at
first. Fuel bounds the depth of calls and the rounds of each loop.
-/

namespace C1Lang

namespace Execution

structure Site where
  object : Storage
  isArray : Bool
  kind : Kind
deriving DecidableEq, Repr

def find (Γ : Env Site) (name : String) : Except Halt Site :=
  match Γ.find? name with
  | some t => .ok t
  | none => .error .stuck

def Store.reach (s : Store) (t : Site) : Option (Except Halt Value) → Except Halt Address
  | none => if t.isArray then .error .stuck else .ok ⟨t.object, 0⟩
  | some index => if t.isArray then index >>= s.element t.object else .error .stuck

def eval (Γ : Env Site) (s : Store) : Expr → Except Halt Value
  | .literal v _ => return v
  | .binary op left right _ => do
    let v ← eval Γ s left
    let w ← eval Γ s right
    op.run v w
  | .unary op e _ => do
    let v ← eval Γ s e
    return op.run v
  | .name x _ => do
    let t ← find Γ x
    let a ← s.reach t none
    return s.read t.kind a
  | .element x i _ => do
    let t ← find Γ x
    let a ← s.reach t (some (eval Γ s i))
    return s.read t.kind a

def test (Γ : Env Site) (s : Store) (c : Condition) : Except Halt Bool := do
  let v ← eval Γ s c.left
  let w ← eval Γ s c.right
  return c.relation.holds v w

def assign (Γ : Env Site) (target : Place) (value : Expr) (s : Store) : Except Halt Store := do
  let v ← eval Γ s value
  let t ← find Γ target.root
  let a ← s.reach t (target.index.map (eval Γ s))
  return s.write a (convert v t.kind)

def fill (Γ : Env Site) (object : Storage) (k : Kind) :
    Nat → Nat → List Expr → Store → Except Halt Store
  | 0, _, _, s => return s
  | count + 1, i, [], s => fill Γ object k count (i + 1) [] (s.write ⟨object, i⟩ (zero k))
  | count + 1, i, e :: rest, s => do
    let v ← eval Γ s e
    fill Γ object k count (i + 1) rest (s.write ⟨object, i⟩ (convert v k))

/-- The number of cells of a variable. The length of an array has a value without any names. -/
def size (v : Variable) : Nat :=
  match v.extent with
  | none => 1
  | some extent =>
    match eval [] ⟨[], []⟩ extent.length with
    | .ok (.int n) => n.toInt.toNat
    | _ => 0

def blank (v : Variable) : List Value := List.replicate (size v) (zero v.kind)

/-- A declaration without initializers leaves the cells as they are. -/
def prepare (Γ : Env Site) (object : Storage) (v : Variable) (s : Store) :
    Except Halt Store :=
  match v.initializers, v.extent with
  | [], _ => return s
  | e :: _, none => do
    let w ← eval Γ s e
    return s.write ⟨object, 0⟩ (convert w v.kind)
  | es, some _ => fill Γ object v.kind (size v) 0 es s

structure Layout where
  names : Env Site
  locals : Nat

def Layout.declare (E : Layout) (v : Variable) : Layout :=
  ⟨E.names.declare v.name ⟨.slot E.locals, v.isArray, v.kind⟩, E.locals + 1⟩

mutual

def stmtVariables : Stmt → List Variable
  | .declare v => [v]
  | .block body _ => blockVariables body
  | .branch _ body _ | .loop _ body _ => stmtVariables body
  | .branchElse _ body other _ => stmtVariables body ++ stmtVariables other
  | .assign _ _ _ | .call _ _ | .empty _ => []

def blockVariables : List Stmt → List Variable
  | [] => []
  | st :: rest => stmtVariables st ++ blockVariables rest

end

def Layout.after (E : Layout) : Stmt → Layout
  | .declare v => E.declare v
  | .block body _ => { E with locals := E.locals + (blockVariables body).length }
  | .branch _ body _ | .loop _ body _ => E.after body
  | .branchElse _ body other _ => (E.after body).after other
  | .assign _ _ _ | .call _ _ | .empty _ => E

def rounds (test : Store → Except Halt Bool) (body : Store → Except Halt Store) :
    Nat → Store → Except Halt Store
  | 0, _ => .error .exhausted
  | n + 1, s => do
    if ← test s then
      let s ← body s
      rounds test body n s
    else return s

mutual

def exec (call : String → Memory → Except Halt Memory) (fuel : Nat) (E : Layout) :
    Stmt → Store → Except Halt Store
  | .declare v, s => prepare (E.declare v).names (.slot E.locals) v s
  | .assign target value _, s => assign E.names target value s
  | .call name _, s => do
    let globals ← call name s.globals
    return { s with globals }
  | .block body _, s => execAll call fuel ⟨[] :: E.names, E.locals⟩ body s
  | .branch c body _, s => do
    if ← test E.names s c then exec call fuel E body s else return s
  | .branchElse c body other _, s => do
    if ← test E.names s c then exec call fuel E body s
    else exec call fuel (E.after body) other s
  | .loop c body _, s => rounds (test E.names · c) (exec call fuel E body) fuel s
  | .empty _, s => return s

def execAll (call : String → Memory → Except Halt Memory) (fuel : Nat) (E : Layout) :
    List Stmt → Store → Except Halt Store
  | [], s => return s
  | st :: rest, s => do
    let s ← exec call fuel E st s
    execAll call fuel (E.after st) rest s

end

/-- The function of a name, with the global variables that were declared before it. -/
def definition? (name : String) (globals : List (String × Site)) :
    List Declaration → Option (List (String × Site) × FunctionDef)
  | [] => none
  | .function f :: rest =>
    if f.name = name then some (globals, f) else definition? name globals rest
  | .global v :: rest =>
    definition? name ((v.name, ⟨.global globals.length, v.isArray, v.kind⟩) :: globals) rest

end Execution

open Execution

def Program.run (p : Program) : Nat → String → Memory → Except Halt Memory
  | 0, _, _ => .error .exhausted
  | fuel + 1, name, globals =>
    match definition? name [] p with
    | none => .error .stuck
    | some (names, f) => do
      let s ← execAll (Program.run p fuel) fuel ⟨[[], names], 0⟩ f.body
        ⟨globals, (blockVariables f.body).map blank⟩
      return s.globals

namespace Execution

theorem eval_of_folds {e : Expr} {v : Value} (h : Folds e v) (Γ : Env Site) (s : Store) :
    eval Γ s e = .ok v := by
  induction h with
  | literal => rfl
  | ints _ _ hz ihl ihr =>
    simp only [eval, ihl, ihr]
    show (if _ then _ else _) = _
    rw [if_neg fun hd => hz hd.1 hd.2]
  | floats _ _ hk hx ihl ihr =>
    simp only [eval, ihl, ihr]
    exact binary_run_floats hk hx
  | int _ ih =>
    simp only [eval, ih]
    rfl
  | float _ ih =>
    simp only [eval, ih]
    rfl

theorem size_of_spans {v : Variable} {extent : Extent} {n : Nat} (hv : v.extent = some extent)
    (h : Spans v extent.length n) : size v = n := by
  obtain ⟨k, hk, -, rfl⟩ := h.folds
  simp only [size, hv, eval_of_folds hk]

end Execution

end C1Lang
