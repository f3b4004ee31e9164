import C1Lang.Program.Arena
import C1Lang.Proofs.Parser.Cursor

/-!
# Parsing into a row of nodes

The parser reads a second time here, without a tree, and in the whole list of tokens: a cursor steps
over the comments. A node is stored as soon as its last token has been read, at the end of one row
that all of the parser shares, and only its number is handed on. A node that is needed again is
looked up by its number. Nothing that was stored is taken back: the nodes of a statement that could
not be read stay where they are.
-/

namespace C1Lang

namespace Storing

open C1Lang.Parser

structure Cell extends Node where
  symbol : Option Nat
deriving DecidableEq, Repr

structure Store where
  cursor : Cursor
  valid : cursor.Valid
  symbols : SymbolTable := {}
  diagnostics : List Diagnostic := []
  cells : Array Cell := #[]

def Store.ofTokens (ts : List Token) : Store :=
  ⟨.ofTokens ts, Cursor.ofTokens_valid ts, {}, [], #[]⟩

/-- Why reading stops: a problem in the text, or a number under which nothing is stored. -/
inductive Stop
  | problem (d : Diagnostic)
  | dangling (id : Nat)

end Storing

abbrev Storing (α : Type) := EStateM Storing.Stop Storing.Store α

namespace Storing

open C1Lang.Parser

def Store.bump (st : Store) : Store := { st with cursor := st.cursor.bump, valid := st.valid.bump }

def Store.record (st : Store) (d : Diagnostic) : Store :=
  { st with diagnostics := st.diagnostics ++ [d] }

def Store.push (st : Store) (c : Cell) : Store := { st with cells := st.cells.push c }

def alloc (kind : NodeKind) (span : Span) (children : List Nat) (symbol : Option Nat) :
    Storing Nat :=
  fun st => .ok st.cells.size (st.push ⟨⟨kind, span, children⟩, symbol⟩)

def Store.spanAt? (st : Store) (id : Nat) : Option Span := st.cells[id]?.map fun c => c.span

def spanOf (id : Nat) : Storing Span := fun st =>
  match st.spanAt? id with
  | some span => .ok span st
  | none => .error (.dangling id) st

def peek : Storing TokenKind := return (← get).cursor.peek.kind

def peekSecond : Storing TokenKind := return ((← get).cursor.peekNth 1).kind

def remaining : Storing Nat := return (State.ofTokens (← get).cursor.unread).rest.length

def fail {α : Type} (problem : Problem) : Storing α := do
  throw (.problem ⟨problem, (← get).cursor.peek.span⟩)

def bump : Storing Token := fun st => .ok st.cursor.peek st.bump

def eat (kind : TokenKind) : Storing Bool := do
  if (← peek) = kind then
    let _ ← bump
    return true
  else return false

def expect (kind : TokenKind) : Storing Token := do
  if (← peek) = kind then bump else fail (.expectedToken (.token kind))

def expectName : Storing (Nat × Span) := do
  let t ← expect .identifier
  let (id, symbols) := (← get).symbols.intern t.lexeme
  modify fun st => { st with symbols }
  return (id, t.span)

def place (inner : Storing Nat) : Storing Nat := do
  let (name, nameSpan) ← expectName
  if ← eat .leftBracket then
    let index ← inner
    let close ← expect .rightBracket
    alloc .lvalue (nameSpan.merge close.span) [index] (some name)
  else alloc .lvalue nameSpan [] (some name)

def signed (inner : Nat → Storing Nat) (sign : Token) : Storing Nat := do
  let _ ← bump
  let operand ← inner signPower
  let span ← spanOf operand
  alloc .unary (sign.span.merge span) [operand] none

def literal {α : Type} (value : Option α) (problem : Problem) : Storing Nat := do
  let t ← bump
  match value with
  | some _ => alloc .literal t.span [] none
  | none => throw (.problem ⟨problem, t.span⟩)

def operand (inner : Nat → Storing Nat) : Storing Nat := do
  let c := (← get).cursor
  let t := c.peek
  match t.kind with
  | .minus =>
    let next := c.peekNth 1
    if next.kind = .int && Number.isMinMagnitude next.lexeme then
      let _ ← bump
      let magnitude ← bump
      alloc .literal (t.span.merge magnitude.span) [] none
    else signed inner t
  | .plus => signed inner t
  | .leftParen =>
    let _ ← bump
    let e ← inner 0
    let _ ← expect .rightParen
    return e
  | .int =>
    if Number.isMinMagnitude t.lexeme then fail .integerOutOfRange
    else literal (Number.literal? t.lexeme) .integerOutOfRange
  | .hex => literal (Number.literal? t.lexeme) .integerOutOfRange
  | .float => literal (Number.readDouble? t.lexeme) .malformedNumber
  | .identifier => place (inner 0)
  | _ => fail .expectedExpression

def climb (inner : Nat → Storing Nat) (least : Nat) : Nat → Nat → Storing Nat
  | 0, left => return left
  | fuel + 1, left => do
    match binaryOp? (← peek) with
    | none => return left
    | some op =>
      if leftPower op < least then return left
      else
        let _ ← bump
        let right ← inner (rightPower op)
        let leftSpan ← spanOf left
        let rightSpan ← spanOf right
        let both ← alloc .binary (leftSpan.merge rightSpan) [left, right] none
        climb inner least fuel both

def expressionAt : Nat → Nat → Storing Nat
  | 0, _ => fail .nestedTooDeeply
  | depth + 1, least => do
    let left ← operand (expressionAt depth)
    climb (expressionAt depth) least (← remaining) left

def expression : Storing Nat := expressionAt maxDepth 0

def condition : Storing Nat := do
  let left ← expression
  match relation? (← peek) with
  | none => fail .expectedRelation
  | some _ =>
    let _ ← bump
    let right ← expression
    let leftSpan ← spanOf left
    let rightSpan ← spanOf right
    alloc .condition (leftSpan.merge rightSpan) [left, right] none

def parenthesized : Storing Nat := do
  let _ ← expect .leftParen
  let test ← condition
  let _ ← expect .rightParen
  return test

def moreElements : Nat → Storing (List Nat)
  | 0 => return []
  | fuel + 1 => do
    if ← eat .comma then
      if (← peek) = .rightBrace then return []
      else
        let e ← expression
        return e :: (← moreElements fuel)
    else return []

def braceList : Storing (List Nat) := do
  let _ ← expect .leftBrace
  if ← eat .rightBrace then return []
  else
    let first ← expression
    let more ← moreElements (← remaining)
    let _ ← expect .rightBrace
    return first :: more

inductive Brackets
  | absent
  | unstated
  | length (id : Nat)

def brackets (nameSpan : Span) : Storing (Brackets × Span) := do
  if ← eat .leftBracket then
    if (← peek) = .rightBracket then
      let close ← expect .rightBracket
      return (.unstated, close.span)
    else
      let e ← expression
      let close ← expect .rightBracket
      return (.length e, close.span)
  else return (.absent, nameSpan)

def initializer (isArray : Bool) : Storing (List Nat × Span) := do
  if (← peek) = .leftBrace then
    if isArray then
      let values ← braceList
      return (values, (← get).cursor.previous.span)
    else fail .scalarBraces
  else if isArray then fail .arrayNeedsBraces
  else
    let value ← expression
    let span ← spanOf value
    return ([value], span)

/-- One declared name. The literal for a length that is not written out is stored behind the
initializers that it counts. -/
def declarator (start : Span) (constant : Bool) : Storing Nat := do
  let (name, nameSpan) ← expectName
  let (found, bracketSpan) ← brackets nameSpan
  let isArray := match found with
    | .absent => false
    | _ => true
  if ← eat .equal then
    let (values, stop) ← initializer isArray
    match found with
    | .absent => alloc .declaration (nameSpan.merge stop) values (some name)
    | .unstated =>
      let length ← alloc .literal bracketSpan [] none
      alloc .declaration (nameSpan.merge stop) (length :: values) (some name)
    | .length e => alloc .declaration (nameSpan.merge stop) (e :: values) (some name)
  else if constant then throw (.problem ⟨.uninitializedConstant, start.merge bracketSpan⟩)
  else
    match found with
    | .absent => alloc .declaration (nameSpan.merge bracketSpan) [] (some name)
    | .unstated => throw (.problem ⟨.missingArrayLength, bracketSpan⟩)
    | .length e => alloc .declaration (nameSpan.merge bracketSpan) [e] (some name)

def moreDeclarators (start : Span) (constant : Bool) : Nat → Storing (List Nat)
  | 0 => return []
  | fuel + 1 => do
    if ← eat .comma then
      let v ← declarator start constant
      return v :: (← moreDeclarators start constant fuel)
    else return []

def variableDeclaration : Storing (List Nat) := do
  let start := (← get).cursor.peek.span
  let constant ← eat .constKeyword
  match kindOf? (← peek) with
  | none => fail (.expectedToken .baseType)
  | some _ =>
    let _ ← bump
    let first ← declarator start constant
    let more ← moreDeclarators start constant (← remaining)
    let _ ← expect .semicolon
    return first :: more

def call : Storing Nat := do
  let (name, nameSpan) ← expectName
  let _ ← expect .leftParen
  let _ ← expect .rightParen
  let close ← expect .semicolon
  alloc .call (nameSpan.merge close.span) [] (some name)

def assignment : Storing Nat := do
  let target ← place expression
  let _ ← expect .equal
  let value ← expression
  let close ← expect .semicolon
  let span ← spanOf target
  alloc .assignment (span.merge close.span) [target, value] none

def skip (stops : TokenKind → Bool) : Nat → Storing Unit
  | 0 => return ()
  | fuel + 1 => do
    let kind ← peek
    if kind = .eof || stops kind then return ()
    else
      let _ ← bump
      if kind = .semicolon then return () else skip stops fuel

/-- Recovery from a part that began at the place `before`. If nothing was read, the next token is
lost, unless it is one to keep. -/
def recover (keeps stops : TokenKind → Bool) (before : Nat) : Storing Unit := do
  let kind ← peek
  if (← get).cursor.index = before && !(kind = .eof || keeps kind) then
    let _ ← bump
    skip stops (← remaining)
  else skip stops (← remaining)

def recoverStatement : Nat → Storing Unit :=
  recover (· == .rightBrace) fun kind => kind = .rightBrace || kind.startsStatement

def recoverDeclaration : Nat → Storing Unit := recover (fun _ => false) TokenKind.startsDeclaration

def orRecover (q : Storing (List Nat)) (recovery : Nat → Storing Unit) : Storing (List Nat) :=
  fun st =>
    match q st with
    | .ok ids st' => .ok ids st'
    | .error (.problem d) st' =>
      (recovery st.cursor.index >>= fun _ => Pure.pure []) (st'.record d)
    | .error (.dangling id) st' => .error (.dangling id) st'

def blockItem (statement : Storing Nat) : Storing (List Nat) := do
  if (← peek).startsVariable then variableDeclaration
  else return [← statement]

def blockItems (statement : Storing Nat) : Nat → Storing (List Nat)
  | 0 => return []
  | fuel + 1 => do
    match ← peek with
    | .rightBrace | .eof => return []
    | _ =>
      let found ← orRecover (blockItem statement) recoverStatement
      return found ++ (← blockItems statement fuel)

def block (statement : Storing Nat) : Storing Nat := do
  let left ← expect .leftBrace
  let body ← blockItems statement (← remaining)
  let right ← expect .rightBrace
  alloc .block (left.span.merge right.span) body none

def branch (statement : Storing Nat) : Storing Nat := do
  let keyword ← expect .ifKeyword
  let test ← parenthesized
  let body ← statement
  if ← eat .elseKeyword then
    let other ← statement
    let span ← spanOf other
    alloc .branch (keyword.span.merge span) [test, body, other] none
  else
    let span ← spanOf body
    alloc .branch (keyword.span.merge span) [test, body] none

def loop (statement : Storing Nat) : Storing Nat := do
  let keyword ← expect .whileKeyword
  let test ← parenthesized
  let body ← statement
  let span ← spanOf body
  alloc .loop (keyword.span.merge span) [test, body] none

def statementAt : Nat → Storing Nat
  | 0 => fail .expectedStatement
  | fuel + 1 => do
    match ← peek with
    | .leftBrace => block (statementAt fuel)
    | .ifKeyword => branch (statementAt fuel)
    | .whileKeyword => loop (statementAt fuel)
    | .semicolon =>
      let t ← expect .semicolon
      alloc .empty t.span [] none
    | .identifier => if (← peekSecond) = .leftParen then call else assignment
    | _ => fail .expectedStatement

def function : Storing Nat := do
  let keyword ← expect .voidKeyword
  let (name, _) ← expectName
  let _ ← expect .leftParen
  let _ ← expect .rightParen
  let body ← block (statementAt (← remaining))
  let span ← spanOf body
  alloc .function (keyword.span.merge span) [body] (some name)

def declaration : Storing (List Nat) := do
  let kind ← peek
  if kind = .voidKeyword then return [← function]
  else if kind.startsVariable then variableDeclaration
  else fail .expectedDeclaration

def declarations : Nat → Storing (List Nat)
  | 0 => return []
  | fuel + 1 => do
    if (← peek) = .eof then return []
    else
      let found ← orRecover declaration recoverDeclaration
      return found ++ (← declarations fuel)

def program : Storing (List Nat) := do declarations (← remaining)

end Storing

structure Stored where
  cells : Array Storing.Cell
  roots : List Nat
  symbols : SymbolTable

def Stored.arena (r : Stored) : Arena := ⟨r.cells.map Storing.Cell.toNode, r.roots⟩

/-- Parses a list of tokens into a row of nodes, which counts only when there are no
diagnostics. -/
def parseStored (ts : List Token) : Option Stored :=
  match Storing.program (.ofTokens ts) with
  | .ok roots st =>
    if st.diagnostics.isEmpty then some ⟨st.cells, roots, st.symbols⟩ else none
  | .error _ _ => none

end C1Lang
