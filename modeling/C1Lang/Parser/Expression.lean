import C1Lang.Number.Decimal
import C1Lang.Parser.State
import C1Lang.Program.Tree

/-!
# Parsing expressions

Binary operators have a power on each side: `*`, `/` and `%` bind tighter than `+` and `-`, and
each is left-associative because its right side binds tighter than its left side. Expressions may
be nested in each other five hundred deep.
-/

namespace C1Lang.Parser

def maxDepth : Nat := 500

def binaryOp? : TokenKind → Option BinaryOp
  | .plus => some .add
  | .minus => some .sub
  | .asterisk => some .mul
  | .slash => some .div
  | .percent => some .mod
  | _ => none

def leftPower : BinaryOp → Nat
  | .add | .sub => 10
  | .mul | .div | .mod => 20

def rightPower (op : BinaryOp) : Nat := leftPower op + 1

def signPower : Nat := 30

def relation? : TokenKind → Option Relation
  | .equalEqual => some .eq
  | .bangEqual => some .ne
  | .greater => some .gt
  | .greaterEqual => some .ge
  | .less => some .lt
  | .lessEqual => some .le
  | _ => none

def place (inner : Parser Expr) : Parser Place := do
  let name ← expectName
  if ← accept .leftBracket then
    let index ← inner
    let close ← expect .rightBracket
    return .element name.lexeme index (name.span.merge close.span)
  else return .name name.lexeme name.span

/-- The literal for the smallest word, if that is what a minus sign and the tokens after it are:
its magnitude is no literal without the sign. -/
def minLiteral? (sign : Token) : List Token → Option (Expr × List Token)
  | t :: rest =>
    if t.kind = .int && Number.isMinMagnitude t.lexeme then
      some (.literal (.int Int32.minValue) (sign.span.merge t.span), rest)
    else none
  | [] => none

def signed (inner : Nat → Parser Expr) (op : UnaryOp) (sign : Token) : Parser Expr := do
  let operand ← inner signPower
  return .unary op operand (sign.span.merge operand.span)

def integerLiteral (t : Token) : Parser Expr :=
  match Number.literal? t.lexeme with
  | some n => return .literal (.int n) t.span
  | none => throw ⟨.integerOutOfRange, t.span⟩

def floatLiteral (t : Token) : Parser Expr :=
  match Number.readDouble? t.lexeme with
  | some x => return .literal (.float x) t.span
  | none => throw ⟨.malformedNumber, t.span⟩

/-- An expression without binary operators outside of parentheses, where `inner` reads an
expression one level deeper. -/
def operand (inner : Nat → Parser Expr) : Parser Expr := do
  match (← get).rest with
  | [] => fail .expectedExpression
  | t :: rest =>
    match t.kind with
    | .minus =>
      match minLiteral? t rest with
      | some (literal, rest) =>
        modify fun s => { s with rest }
        return literal
      | none =>
        advance
        signed inner .neg t
    | .plus =>
      advance
      signed inner .plus t
    | .leftParen =>
      advance
      let e ← inner 0
      let _ ← expect .rightParen
      return e
    | .int =>
      if Number.isMinMagnitude t.lexeme then fail .integerOutOfRange
      else
        advance
        integerLiteral t
    | .hex =>
      advance
      integerLiteral t
    | .float =>
      advance
      floatLiteral t
    | .identifier => return (← place (inner 0)).toExpr
    | _ => fail .expectedExpression

/-- Extends `left` by the operators that bind at least as tightly as `least`. Every round reads an
operator, so as many rounds as tokens are left suffice. -/
def climb (inner : Nat → Parser Expr) (least : Nat) : Nat → Expr → Parser Expr
  | 0, left => return left
  | fuel + 1, left => do
    match binaryOp? (← peek) with
    | none => return left
    | some op =>
      if leftPower op < least then return left
      else
        advance
        let right ← inner (rightPower op)
        climb inner least fuel (.binary op left right (left.span.merge right.span))

def expressionAt : Nat → Nat → Parser Expr
  | 0, _ => fail .nestedTooDeeply
  | depth + 1, least => do
    let left ← operand (expressionAt depth)
    climb (expressionAt depth) least (← remaining) left

def expression : Parser Expr := expressionAt maxDepth 0

def condition : Parser Condition := do
  let left ← expression
  match relation? (← peek) with
  | none => fail .expectedRelation
  | some relation =>
    advance
    let right ← expression
    return ⟨relation, left, right, left.span.merge right.span⟩

end C1Lang.Parser
