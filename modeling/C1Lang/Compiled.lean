import C1Lang.IR.Printer
import C1Lang.IR.Verify
import C1Lang.Lower.Program
import C1Lang.Parser.Program
import C1Lang.Token.Lexer

/-!
# From text to module

A text goes through lexing, parsing, lowering and verification. Each of the first three stages
ends the way when it reports an error; a lossy constant is a warning and does not.
-/

namespace C1Lang

inductive Progress
  | badTokens (diagnostics : List Diagnostic)
  | badProgram (diagnostics : List Diagnostic)
  | lowered (result : Lowered)
deriving DecidableEq, Repr

def Progress.ofText (name text : String) : Except Lower.Fault Progress :=
  let lexed := lex text
  if lexed.diagnostics.isEmpty then
    let parsed := parse lexed.tokens
    match parsed.program? with
    | none => .ok (.badProgram parsed.diagnostics)
    | some program => (lower name program).map .lowered
  else .ok (.badTokens lexed.diagnostics)

def moduleName (path : String) : String := (Path.fileStem? path).getD "main"

/-- What compiling a text gives. There is a module when no error was reported and no defect was
found. -/
structure Compiled where
  module? : Option IR.Module
  diagnostics : List Diagnostic
  defects : List IR.Defect := []
deriving DecidableEq, Repr

/-- A lowered program as a result; with `verify` the module must have no defects. -/
def Lowered.compiled (l : Lowered) (verify : Bool) : Compiled :=
  let defects := if l.valid && verify then l.module.defects else []
  ⟨if l.valid && defects.isEmpty then some l.module else none, l.diagnostics, defects⟩

def compile (path text : String) (verify : Bool) : Except Lower.Fault Compiled :=
  (Progress.ofText (moduleName path) text).map fun
    | .badTokens ds | .badProgram ds => ⟨none, ds, []⟩
    | .lowered l => l.compiled verify

end C1Lang
