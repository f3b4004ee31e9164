import C1Lang.Lower.Expr

/-!
# Lowering statements

Each statement records the diagnostic that stops it, and lowering goes on with the next one. A
branch or a loop is a pattern of blocks; whatever happens inside of it, the current block
afterwards is a new one without a way out.
-/

namespace C1Lang.Lower

def bind (v : Variable) (storage : Storage) : Lower Unit := do
  let s ← get
  match s.scopes.declare? v.name ⟨storage, v.constant, v.isArray, v.kind, v.nameSpan⟩ with
  | some scopes => set { s with scopes }
  | none => fault .redeclared

/-- The length of an array: a positive integer that covers the initializers. -/
def arrayLength (ctx : Context) (v : Variable) (length : Expr) : Lower Nat := do
  match ← fold ctx length with
  | .float _ => report (.nonIntegerLength v.name) length.span
  | .int n =>
    if n ≤ 0 then report (.nonPositiveLength v.name n) length.span
    else if n.toInt.toNat < v.initializers.length then
      report (.tooManyInitializers v.name n v.initializers.length) v.span
    else return n.toInt.toNat

def constantInitializer (ctx : Context) (kind : Kind) (e : Expr) : Lower IR.Const := do
  let v ← fold ctx e
  match v.convert kind with
  | (.int n, true) =>
    modify (·.record ⟨.lossyConversion v.toFloat n, e.span⟩)
    return .int n
  | (converted, _) => return converted.toConst

def constantInitializers (ctx : Context) (kind : Kind) : List Expr → Lower (List IR.Const)
  | [] => return []
  | e :: rest => do
    let c ← constantInitializer ctx kind e
    return c :: (← constantInitializers ctx kind rest)

def addGlobal (v : Variable) (ty : IR.Ty) (init : Option IR.Init) : Lower Unit := do
  let s ← get
  let (id, module) := s.module.addGlobal ⟨v.name, ty, v.constant, init⟩
  set { s with module }
  bind v (.global id)

def globalScalar (ctx : Context) (v : Variable) : Lower Unit := do
  match v.initializers with
  | [] => addGlobal v v.kind.ty none
  | e :: _ =>
    let c ← constantInitializer ctx v.kind e
    addGlobal v v.kind.ty (some (.scalar c))

def globalArray (ctx : Context) (v : Variable) (length : Nat) : Lower Unit := do
  let given ← constantInitializers ctx v.kind v.initializers
  let padding := List.replicate (length - given.length) (IR.Const.zero v.kind.scalar)
  addGlobal v (.array v.kind.scalar length) (some (.array (given ++ padding)))

/-- A scalar in a function. Its initializer sees the variable already. -/
def localScalar (ctx : Context) (v : Variable) : Lower Unit := do
  let slot ← newSlot v.name v.kind.ty
  bind v (.slot slot)
  match v.initializers with
  | [] => return ()
  | e :: _ =>
    let (value, kind) ← rvalue ctx e
    emit (.store (.slot slot) (← coerce value kind v.kind))

def storeElement (slot : Nat) (kind : Kind) (index : Nat) (value : IR.Operand) : Lower Unit := do
  let element ← compute (.pointer kind.ty)
    (.elementPtr · (.slot slot) (.const (.int (Int32.ofNat index))))
  emit (.store element value)

def storeElements (ctx : Context) (slot : Nat) (kind : Kind) :
    Nat → Nat → List Expr → Lower Unit
  | 0, _, _ => return ()
  | count + 1, index, [] => do
    storeElement slot kind index (.const (IR.Const.zero kind.scalar))
    storeElements ctx slot kind count (index + 1) []
  | count + 1, index, e :: rest => do
    let (value, valueKind) ← rvalue ctx e
    storeElement slot kind index (← coerce value valueKind kind)
    storeElements ctx slot kind count (index + 1) rest

/-- An array in a function. Without initializers nothing is stored. -/
def localArray (ctx : Context) (v : Variable) (length : Nat) : Lower Unit := do
  let slot ← newSlot v.name (.array v.kind.scalar length)
  bind v (.slot slot)
  if v.initializers.isEmpty then return ()
  else storeElements ctx slot v.kind length 0 v.initializers

def variableDeclaration (ctx : Context) (v : Variable) : Lower Unit := do
  let s ← get
  match s.scopes.lookupCurrent v.name with
  | some previous => report (.variableRedefined v.name previous.span) v.nameSpan
  | none =>
    match ctx.inGlobalScope, s.functions.lookup v.name with
    | true, some f => report (.symbolRedefined v.name f.span) v.nameSpan
    | _, _ =>
      match v.extent, ctx.inGlobalScope with
      | none, true => globalScalar ctx v
      | none, false => localScalar ctx v
      | some extent, true => globalArray ctx v (← arrayLength ctx v extent.length)
      | some extent, false => localArray ctx v (← arrayLength ctx v extent.length)

def assignment (ctx : Context) (target : Place) (value : Expr) : Lower Unit := do
  let (operand, kind) ← rvalue ctx value
  let (ptr, targetKind) ← address ctx target
  emit (.store ptr (← coerce operand kind targetKind))

def call (name : String) (span : Span) : Lower Unit := do
  match (← get).functions.lookup name with
  | none => report (.undefinedFunction name) span
  | some f => emit (.call f.id)

def enterScope (kind : ScopeKind) : Lower Unit :=
  modify fun s => { s with scopes := s.scopes.enter kind }

def exitScope : Lower Unit := modify fun s => { s with scopes := s.scopes.exit }

def branch (condition : Lower IR.Operand) (body : Lower Unit) : Lower Unit := do
  let c ← condition
  let thenBlock ← newBlock
  let next ← newBlock
  terminate (.branch c thenBlock next)
  switchTo thenBlock
  recording body ()
  terminate (.goto next)
  switchTo next

def branchElse (condition : Lower IR.Operand) (body other : Lower Unit) : Lower Unit := do
  let c ← condition
  let thenBlock ← newBlock
  let elseBlock ← newBlock
  let next ← newBlock
  terminate (.branch c thenBlock elseBlock)
  switchTo thenBlock
  recording body ()
  terminate (.goto next)
  switchTo elseBlock
  recording other ()
  terminate (.goto next)
  switchTo next

/-- A loop: entering it and every round go through the block of the test. -/
def loop (condition : Lower IR.Operand) (body : Lower Unit) : Lower Unit := do
  let testBlock ← newBlock
  let bodyBlock ← newBlock
  let next ← newBlock
  terminate (.goto testBlock)
  switchTo testBlock
  let c ← condition
  terminate (.branch c bodyBlock next)
  switchTo bodyBlock
  recording body ()
  terminate (.goto testBlock)
  switchTo next

mutual

def stmt (ctx : Context) : Stmt → Lower Unit
  | .declare v => variableDeclaration ctx v
  | .assign target value _ => assignment ctx target value
  | .call name span => call name span
  | .block body _ => do
    enterScope .block
    stmts ctx body
    exitScope
  | .branch c body _ => branch (test ctx c) (stmt ctx body)
  | .branchElse c body other _ => branchElse (test ctx c) (stmt ctx body) (stmt ctx other)
  | .loop c body _ => loop (test ctx c) (stmt ctx body)
  | .empty _ => return ()

def stmts (ctx : Context) : List Stmt → Lower Unit
  | [] => return ()
  | s :: rest => do
    recording (stmt ctx s) ()
    stmts ctx rest

end

end C1Lang.Lower
