import C1Lang.Parser.Statement

/-!
# Parsing programs

A program is read to its end whatever it holds. A declaration that cannot be read is reported,
and reading goes on behind its semicolon or before the next word that starts a declaration.
-/

namespace C1Lang.Parser

def function : Parser FunctionDef := do
  let keyword ← expect .voidKeyword
  let name ← expectName
  let _ ← expect .leftParen
  let _ ← expect .rightParen
  let (body, bodySpan) ← block (statementAt (← remaining))
  return ⟨name.lexeme, name.span, body, bodySpan, keyword.span.merge bodySpan⟩

def declaration : Parser (List Declaration) := do
  let kind ← peek
  if kind = .voidKeyword then return [.function (← function)]
  else if kind.startsVariable then return (← variableDeclaration).map .global
  else fail .expectedDeclaration

def skipDeclaration : List Token → List Token
  | [] => []
  | t :: rest =>
    if t.kind.startsDeclaration then t :: rest
    else if t.kind = .semicolon then rest
    else skipDeclaration rest

/-- Recovery at module level. A declaration that read nothing loses its first token. -/
def recoverDeclaration (before after : State) : State :=
  let rest :=
    if after.rest.length = before.rest.length then after.rest.drop 1 else after.rest
  { after with rest := skipDeclaration rest }

def declarations : Nat → Parser Program
  | 0 => return []
  | fuel + 1 => do
    if (← peek) = .eof then return []
    else
      let found ← orRecover declaration [] recoverDeclaration
      return found ++ (← declarations fuel)

def program : Parser Program := do declarations (← remaining)

end C1Lang.Parser

namespace C1Lang

structure Parsed where
  program : Program
  symbols : SymbolTable
  diagnostics : List Diagnostic
deriving Repr

/-- Parses a list of tokens, which may hold comments and need not have an end marker. -/
def parse (ts : List Token) : Parsed :=
  match Parser.program (Parser.State.ofTokens ts) with
  | .ok p s => ⟨p, s.symbols, s.diagnostics⟩
  | .error d s => ⟨[], s.symbols, s.diagnostics ++ [d]⟩

def Parsed.program? (p : Parsed) : Option Program :=
  if p.diagnostics.isEmpty then some p.program else none

end C1Lang
