import C1Lang.Parser.Expression

/-!
# Parsing declarations and statements

A statement that cannot be read is reported, and reading goes on behind its semicolon, or before
the end of the block or the next word that can only start a statement. So one block can report
many mistakes.
-/

namespace C1Lang.Parser

def moreElements : Nat → Parser (List Expr)
  | 0 => return []
  | fuel + 1 => do
    if ← accept .comma then
      if (← peek) = .rightBrace then return []
      else
        let e ← expression
        return e :: (← moreElements fuel)
    else return []

def braceList : Parser (List Expr × Token) := do
  let _ ← expect .leftBrace
  match ← accept? .rightBrace with
  | some close => return ([], close)
  | none =>
    let first ← expression
    let more ← moreElements (← remaining)
    let close ← expect .rightBrace
    return (first :: more, close)

inductive Brackets
  | absent
  | unstated
  | length (e : Expr)

def brackets (name : Token) : Parser (Brackets × Span) := do
  if ← accept .leftBracket then
    if (← peek) = .rightBracket then
      let close ← expect .rightBracket
      return (.unstated, close.span)
    else
      let e ← expression
      let close ← expect .rightBracket
      return (.length e, close.span)
  else return (.absent, name.span)

def initializer (isArray : Bool) : Parser (List Expr × Span) := do
  if (← peek) = .leftBrace then
    if isArray then
      let (values, close) ← braceList
      return (values, close.span)
    else fail .scalarBraces
  else if isArray then fail .arrayNeedsBraces
  else
    let value ← expression
    return ([value], value.span)

/-- One declared name. Constants and arrays of open length need a value. -/
def declarator (start : Span) (kind : Kind) (constant : Bool) : Parser Variable := do
  let name ← expectName
  let (found, bracketSpan) ← brackets name
  let isArray := match found with
    | .absent => false
    | _ => true
  if ← accept .equal then
    let (values, stop) ← initializer isArray
    let extent := match found with
      | .absent => none
      | .unstated => some (.counted (Int32.ofNat values.length) bracketSpan)
      | .length e => some (.stated e)
    return ⟨name.lexeme, name.span, kind, constant, extent, values, name.span.merge stop⟩
  else if constant then throw ⟨.uninitializedConstant, start.merge bracketSpan⟩
  else
    match found with
    | .absent =>
      return ⟨name.lexeme, name.span, kind, constant, none, [], name.span.merge bracketSpan⟩
    | .unstated => throw ⟨.missingArrayLength, bracketSpan⟩
    | .length e =>
      return ⟨name.lexeme, name.span, kind, constant, some (.stated e), [],
        name.span.merge bracketSpan⟩

def moreDeclarators (start : Span) (kind : Kind) (constant : Bool) :
    Nat → Parser (List Variable)
  | 0 => return []
  | fuel + 1 => do
    if ← accept .comma then
      let v ← declarator start kind constant
      return v :: (← moreDeclarators start kind constant fuel)
    else return []

def kindOf? : TokenKind → Option Kind
  | .intType => some .int
  | .floatType => some .float
  | _ => none

/-- `[const] (int | float) name …, name … ;` gives one variable for each name. -/
def variableDeclaration : Parser (List Variable) := do
  let start := (← get).span
  let constant ← accept .constKeyword
  match kindOf? (← peek) with
  | none => fail (.expectedToken .baseType)
  | some kind =>
    advance
    let first ← declarator start kind constant
    let more ← moreDeclarators start kind constant (← remaining)
    let _ ← expect .semicolon
    return first :: more

def call : Parser Stmt := do
  let name ← expectName
  let _ ← expect .leftParen
  let _ ← expect .rightParen
  let close ← expect .semicolon
  return .call name.lexeme (name.span.merge close.span)

def assignment : Parser Stmt := do
  let target ← place expression
  let _ ← expect .equal
  let value ← expression
  let close ← expect .semicolon
  return .assign target value (target.span.merge close.span)

def parenthesized : Parser Condition := do
  let _ ← expect .leftParen
  let test ← condition
  let _ ← expect .rightParen
  return test

def skipStatement : List Token → List Token
  | [] => []
  | t :: rest =>
    if t.kind = .rightBrace || t.kind.startsStatement then t :: rest
    else if t.kind = .semicolon then rest
    else skipStatement rest

/-- Recovery inside a block. A statement that read nothing loses its first token, so that reading
always goes on. -/
def recoverStatement (before after : State) : State :=
  let rest :=
    if after.rest.length = before.rest.length && after.kind != .rightBrace then after.rest.drop 1
    else after.rest
  { after with rest := skipStatement rest }

def blockItem (statement : Parser Stmt) : Parser (List Stmt) := do
  if (← peek).startsVariable then return (← variableDeclaration).map .declare
  else return [← statement]

def blockItems (statement : Parser Stmt) : Nat → Parser (List Stmt)
  | 0 => return []
  | fuel + 1 => do
    match ← peek with
    | .rightBrace | .eof => return []
    | _ =>
      let found ← orRecover (blockItem statement) [] recoverStatement
      return found ++ (← blockItems statement fuel)

def block (statement : Parser Stmt) : Parser (List Stmt × Span) := do
  let left ← expect .leftBrace
  let body ← blockItems statement (← remaining)
  let right ← expect .rightBrace
  return (body, left.span.merge right.span)

def branch (statement : Parser Stmt) : Parser Stmt := do
  let keyword ← expect .ifKeyword
  let test ← parenthesized
  let body ← statement
  if ← accept .elseKeyword then
    let other ← statement
    return .branchElse test body other (keyword.span.merge other.span)
  else return .branch test body (keyword.span.merge body.span)

def loop (statement : Parser Stmt) : Parser Stmt := do
  let keyword ← expect .whileKeyword
  let test ← parenthesized
  let body ← statement
  return .loop test body (keyword.span.merge body.span)

/-- A statement. Statements nest only after a token of their own, so as many levels as tokens are
left suffice. -/
def statementAt : Nat → Parser Stmt
  | 0 => fail .expectedStatement
  | fuel + 1 => do
    match ← peek with
    | .leftBrace =>
      let (body, span) ← block (statementAt fuel)
      return .block body span
    | .ifKeyword => branch (statementAt fuel)
    | .whileKeyword => loop (statementAt fuel)
    | .semicolon =>
      let t ← expect .semicolon
      return .empty t.span
    | .identifier => if (← peekSecond) = .leftParen then call else assignment
    | _ => fail .expectedStatement

def statement : Parser Stmt := do statementAt (← remaining)

end C1Lang.Parser
