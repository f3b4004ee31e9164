import C1Lang.Lower.State

/-!
# Lowering expressions

In a constant context an expression is evaluated and nothing is emitted. Otherwise instructions
are emitted whose result is its value, or the address of a place when that is wanted. Operands of
different kinds meet in float.
-/

namespace C1Lang.Lower

/-- The operand in another kind: a constant is converted in place, anything else by a cast. -/
def coerce (operand : IR.Operand) (source target : Kind) : Lower IR.Operand :=
  if source = target then return operand
  else
    match operand with
    | .const (.int n) => return .const ((Value.int n).convert target).1.toConst
    | .const (.float x) => return .const ((Value.float x).convert target).1.toConst
    | operand =>
      match target with
      | .float => compute target.ty (.cast · .sitofp operand)
      | .int => compute target.ty (.cast · .fptosi operand)

def arith? : BinaryOp → Kind → Option IR.Arith
  | .add, .int => some .add
  | .sub, .int => some .sub
  | .mul, .int => some .mul
  | .div, .int => some .sdiv
  | .mod, .int => some .srem
  | .add, .float => some .fadd
  | .sub, .float => some .fsub
  | .mul, .float => some .fmul
  | .div, .float => some .fdiv
  | .mod, .float => none

def negation : Kind → IR.Negation
  | .int => .neg
  | .float => .fneg

def predicate : Relation → Kind → IR.Predicate
  | .eq, .int => .eq
  | .ne, .int => .ne
  | .gt, .int => .sgt
  | .ge, .int => .sge
  | .lt, .int => .slt
  | .le, .int => .sle
  | .eq, .float => .oeq
  | .ne, .float => .one
  | .gt, .float => .ogt
  | .ge, .float => .oge
  | .lt, .float => .olt
  | .le, .float => .ole

def asValue (step : Lower Evaluated) : Lower Value := do
  match ← step with
  | .folded v => return v
  | .runtime .. => fault .runtimeConstant

def asOperand (step : Lower Evaluated) : Lower (IR.Operand × Kind) := do
  match ← step with
  | .runtime operand kind => return (operand, kind)
  | .folded v => return (.const v.toConst, v.kind)

def literal (ctx : Context) (v : Value) : Evaluated :=
  if ctx.constant then .folded v else .runtime (.const v.toConst) v.kind

def meet (left right : IR.Operand × Kind) : Lower (IR.Operand × IR.Operand × Kind) := do
  let kind := left.2.unify right.2
  let l ← coerce left.1 left.2 kind
  let r ← coerce right.1 right.2 kind
  return (l, r, kind)

def binary (op : BinaryOp) (span : Span) (left right : IR.Operand × Kind) : Lower Evaluated := do
  if op = .mod && left.2.unify right.2 = .float then report .moduloOnFloat span
  else
    let (l, r, kind) ← meet left right
    match arith? op kind with
    | none => fault .floatRemainder
    | some a => return .runtime (← compute kind.ty (.binary · a l r)) kind

def unary (op : UnaryOp) (operand : IR.Operand × Kind) : Lower Evaluated := do
  match op with
  | .plus => return .runtime operand.1 operand.2
  | .neg =>
    let result ← compute operand.2.ty (.unary · (negation operand.2) operand.1)
    return .runtime result operand.2

def elementAddress (name : String) (b : Binding) (indexSpan : Span)
    (index : Lower (IR.Operand × Kind)) : Lower IR.Operand := do
  let (i, kind) ← index
  if kind = .int then compute (.pointer b.kind.ty) (.elementPtr · b.storage.operand i)
  else report (.nonIntegerIndex name) indexSpan

def placeAddress (name : String) (span : Span) (b : Binding)
    (index : Option (Span × Lower (IR.Operand × Kind))) : Lower IR.Operand :=
  match b.isArray, index with
  | false, none => return b.storage.operand
  | false, some _ => report (.indexOnScalar name) span
  | true, none => report (.missingIndex name) span
  | true, some (indexSpan, index) => elementAddress name b indexSpan index

def place (ctx : Context) (name : String) (span : Span)
    (index : Option (Span × Lower (IR.Operand × Kind))) : Lower Evaluated := do
  if ctx.constant then report (.variableInConstant name) span
  else
    match (← get).scopes.lookup name with
    | none => report (.undeclaredVariable name) span
    | some b =>
      if ctx.access = .address && b.constant then report (.assignToConstant name) span
      else
        let address ← placeAddress name span b index
        match ctx.access with
        | .address => return .runtime address b.kind
        | .read => return .runtime (← compute b.kind.ty (.load · address)) b.kind

def expr (ctx : Context) : Expr → Lower Evaluated
  | .literal v _ => return literal ctx v
  | .binary op left right span =>
    if ctx.constant then do
      let l ← asValue (expr ctx.withConstant left)
      let r ← asValue (expr ctx.withConstant right)
      match Value.foldBinary op l r with
      | .ok v => return .folded v
      | .error problem => report problem span
    else do
      let l ← asOperand (expr ctx.read left)
      let r ← asOperand (expr ctx.read right)
      binary op span l r
  | .unary op operand _ =>
    if ctx.constant then do
      let v ← asValue (expr ctx.withConstant operand)
      return .folded (Value.foldUnary op v)
    else do unary op (← asOperand (expr ctx.read operand))
  | .name name span => place ctx name span none
  | .element name index span =>
    place ctx name span (some (index.span, asOperand (expr ctx.read index)))

def fold (ctx : Context) (e : Expr) : Lower Value := asValue (expr ctx.withConstant e)

def rvalue (ctx : Context) (e : Expr) : Lower (IR.Operand × Kind) := asOperand (expr ctx.read e)

def address (ctx : Context) (target : Place) : Lower (IR.Operand × Kind) := do
  match ← expr ctx.address target.toExpr with
  | .runtime operand kind => return (operand, kind)
  | .folded _ => fault .foldedPlace

def condition (ctx : Context) (c : Condition) : Lower IR.Operand := do
  let left ← rvalue ctx c.left
  let right ← rvalue ctx c.right
  let (l, r, kind) ← meet left right
  compute (.scalar .i1) (.compare · (predicate c.relation kind) l r)

/-- The test of a branch or a loop. A test that stops is recorded and taken to fail, so that what
depends on it is lowered too. -/
def test (ctx : Context) (c : Condition) : Lower IR.Operand :=
  recording (condition ctx c) (.const (.bool false))

end C1Lang.Lower
