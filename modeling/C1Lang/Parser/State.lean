import C1Lang.Diagnostic.Basic
import C1Lang.Source.Symbols

/-!
# Reading tokens

A parser works on the tokens that are left, which hold no comments and no end marker: at the end
of the list it sees the end of the file. It stops with a diagnostic, or it gives a result; either
way the tokens that it read stay read, and so do the names it mentioned and the diagnostics that
were recorded on the way.
-/

namespace C1Lang

namespace Parser

structure State where
  rest : List Token
  stop : Span
  symbols : SymbolTable := {}
  diagnostics : List Diagnostic := []
deriving DecidableEq, Repr

end Parser

abbrev Parser (α : Type) := EStateM Diagnostic Parser.State α

namespace Parser

def State.kind (s : State) : TokenKind :=
  match s.rest with
  | [] => .eof
  | t :: _ => t.kind

def State.span (s : State) : Span :=
  match s.rest with
  | [] => s.stop
  | t :: _ => t.span

def State.record (s : State) (d : Diagnostic) : State :=
  { s with diagnostics := s.diagnostics ++ [d] }

def peek : Parser TokenKind := return (← get).kind

def peekSecond : Parser TokenKind := do
  match (← get).rest with
  | _ :: t :: _ => return t.kind
  | _ => return .eof

def remaining : Parser Nat := return (← get).rest.length

def fail {α : Type} (problem : Problem) : Parser α := do throw ⟨problem, (← get).span⟩

def accept? (kind : TokenKind) : Parser (Option Token) := do
  match (← get).rest with
  | [] => return none
  | t :: rest =>
    if t.kind = kind then
      modify fun s => { s with rest }
      return some t
    else return none

def accept (kind : TokenKind) : Parser Bool := return (← accept? kind).isSome

def expect (kind : TokenKind) : Parser Token := do
  match ← accept? kind with
  | some t => return t
  | none => fail (.expectedToken (.token kind))

def advance : Parser Unit := modify fun s => { s with rest := s.rest.drop 1 }

def expectName : Parser Token := do
  let t ← expect .identifier
  modify fun s => { s with symbols := s.symbols.mention t.lexeme }
  return t

/-- Runs a parser; when it stops, records the diagnostic, continues after `recover`, and gives the
default. -/
def orRecover {α : Type} (p : Parser α) (default : α) (recover : State → State → State) :
    Parser α :=
  fun s =>
    match p s with
    | .ok a s' => .ok a s'
    | .error d s' => .ok default (recover s (s'.record d))

/-- The tokens before the first end marker without the comments, and the place of the end. A list
without an end marker ends where its last token is. -/
def State.ofTokens (ts : List Token) : State :=
  let before := ts.takeWhile (·.kind != .eof)
  let stop :=
    match ts.dropWhile (·.kind != .eof) with
    | t :: _ => t.span
    | [] => (ts.getLast?.map Token.span).getD ⟨0, 0⟩
  { rest := before.filter (!·.kind.isComment), stop }

end Parser

end C1Lang
