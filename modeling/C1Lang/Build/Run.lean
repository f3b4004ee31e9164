import C1Lang.Build.Host
import C1Lang.Build.Log
import C1Lang.Compiled
import C1Lang.Diagnostic.Render
import C1Lang.IR.Export
import C1Lang.Program.Arena
import C1Lang.Program.Dump
import C1Lang.Project.Config
import C1Lang.Token.Table

/-!
# Building a file

A build reads a source file, compiles it, reports what it does and what it finds, and writes the
module. On request it also writes what the stages pass on to each other.
-/

namespace C1Lang

inductive Dump
  | tokens
  | program
  | module
deriving DecidableEq, Repr, Inhabited

namespace Dump

def all : List Dump := [tokens, program, module]

def word : Dump → String
  | tokens => "lexer"
  | program => "ast"
  | module => "ir"

def ofWord? (w : String) : Option Dump := all.find? (·.word == w)

def fileName : Dump → String
  | tokens => "dump-lexer.txt"
  | program => "dump-ast.txt"
  | module => "dump-ir.ll"

end Dump

structure BuildSettings where
  outputDir : String := defaultOutputDir
  artifact : Artifact := .assembly
  dumps : List Dump := []
  dumpDir : Option String := none
  verify : Bool := true
  checkOnly : Bool := false
deriving DecidableEq, Repr, Inhabited

structure Session where
  log : LogSettings := {}
  color : Bool := false
  settings : BuildSettings := {}
deriving DecidableEq, Repr, Inhabited

/-- Why a build ends early: the reason was reported, lowering contradicted itself, or the module
has no text. -/
inductive Halt
  | reported
  | fault (fault : Lower.Fault)
  | unprintable
deriving DecidableEq, Repr

abbrev Build (m : Type → Type) := ExceptT Halt m

namespace Build

variable {m : Type → Type} [Monad m] [Host m]

def print (text : String) : Build m Unit := ExceptT.lift (Host.print text)

def report (text : String) : Build m Unit := ExceptT.lift (Host.report (text ++ "\n"))

def fail {α : Type} (color : Bool) (message : String) : Build m α := do
  report (Style.boldRed.paint color "Error:" ++ " " ++ message)
  throw .reported

/-- The result of a file operation; an error is reported after `what`. -/
def orFail {α : Type} (color : Bool) (what path : String) (r : m (Except FileError α)) :
    Build m α := do
  match ← ExceptT.lift r with
  | .ok a => return a
  | .error e => fail color (what ++ " '" ++ path ++ "': " ++ e.message)

def arrow (s : Session) (style : Style) (message : String) : String :=
  style.paint s.color "-->" ++ " " ++ message

def phase (s : Session) (message : String) : Build m Unit := do
  if s.log.phases then report ("    " ++ arrow s .boldBrightGreen message)

def done (s : Session) (message : String) : Build m Unit := do
  if s.log.phases then report (arrow s .boldBrightGreen message)

def warn (s : Session) (message : String) : Build m Unit := do
  if s.log.phases then report (arrow s .boldBrightYellow message)

def trace (s : Session) (c : Component) (message : String) : Build m Unit := do
  if s.log.traced c then report ("debug[" ++ c.word ++ "]: " ++ message)

def info (s : Session) (message : String) : Build m Unit := do
  if s.log.info then report ("info: " ++ message)

def detail (s : Session) (message : String) : Build m Unit := do
  if s.log.details then report ("debug: " ++ message)

def remark (s : Session) (message : String) : Build m Unit := do
  if s.log.everything then report ("trace: " ++ message)

def display (s : Session) (file : SourceFile) (ds : List Diagnostic) : Build m Unit :=
  ExceptT.lift (Host.report (Diagnostic.render s.color file ds))

def dump (s : Session) (d : Dump) (content : String) : Build m Unit := do
  if s.settings.dumps.contains d then
    match s.settings.dumpDir with
    | none => print ("\n" ++ content ++ "\n")
    | some dir =>
      orFail s.color "Failed to create dump directory" dir (Host.createDirs dir)
      let path := Path.join dir d.fileName
      orFail s.color "Failed to write dump file" path (Host.writeText path content)

def assembly (module : IR.Module) : Build m String :=
  match module.text? with
  | some text => return text
  | none => throw .unprintable

def writeArtifact (s : Session) (name extension content : String) : Build m String := do
  let dir := s.settings.outputDir
  orFail s.color "Failed to create output directory" dir (Host.createDirs dir)
  let path := Path.join dir (name ++ "." ++ extension)
  orFail s.color "Failed to write" path (Host.writeText path content)
  return path

def tokens (s : Session) (file : SourceFile) : Build m (List Token) := do
  phase s ("Scanning... " ++ file.path)
  let lexed := lex file.text
  unless lexed.diagnostics.isEmpty do
    display s file lexed.diagnostics
    throw .reported
  dump s .tokens (TokenTable.render file lexed.tokens)
  trace s .lexer ("lexer produced " ++ toString lexed.tokens.length ++ " tokens")
  return lexed.tokens

def program (s : Session) (file : SourceFile) (ts : List Token) : Build m Program := do
  phase s ("Parsing... " ++ file.path)
  detail s ("parsing " ++ file.path)
  let parsed := parse ts
  match parsed.program? with
  | none =>
    display s file parsed.diagnostics
    throw .reported
  | some program =>
    dump s .program program.dump
    trace s .parser ("parser produced " ++ toString program.arena.nodes.size ++ " nodes")
    return program

/-- The module of a file; its diagnostics are shown unless the run is quiet. -/
def module (s : Session) (file : SourceFile) (program : Program) : Build m IR.Module := do
  phase s ("Generating IR... " ++ file.path)
  match lower (moduleName file.path) program with
  | .error f => throw (.fault f)
  | .ok lowered =>
    trace s .lowering
      ("codegen recorded " ++ toString lowered.diagnostics.length ++ " diagnostics")
    unless s.log.quiet do display s file lowered.diagnostics
    unless lowered.valid do throw .reported
    lowered.module.functions.toList.forM fun f =>
      remark s ("function '" ++ f.name ++ "': " ++ toString f.blocks.size ++ " blocks, " ++
        toString f.locals.size ++ " locals")
    dump s .module (← assembly lowered.module)
    return lowered.module

def verify (s : Session) (module : IR.Module) : Build m Unit := do
  if s.settings.verify then
    phase s ("Verifying IR... " ++ module.name)
    let defects := module.defects
    unless defects.isEmpty do
      trace s .verifier ("verifier found " ++ toString defects.length ++ " problems")
      defects.forM fun d =>
        report (Style.boldRed.paint s.color "Error:" ++ " " ++ d.message)
      throw .reported
  else warn s "IR verification skipped"

def emit (s : Session) (file : SourceFile) (module : IR.Module) : Build m Unit := do
  if s.settings.checkOnly then done s ("Check passed: " ++ file.path)
  else
    match s.settings.artifact with
    | .nothing => done s ("Compiled " ++ file.path)
    | .assembly =>
      let path ← writeArtifact s module.name "ll" (← assembly module)
      done s ("Wrote " ++ path)
    | .data =>
      let path ← writeArtifact s module.name "json" module.json.text
      done s ("Wrote " ++ path)

def file (s : Session) (path : String) : Build m Unit := do
  let text ← orFail s.color "Failed to read file" path (Host.readText path)
  let file := SourceFile.ofText path text
  let ts ← tokens s file
  let program ← program s file ts
  let module ← module s file program
  verify s module
  info s ("module '" ++ module.name ++ "': " ++ toString module.functions.size ++
    " functions, " ++ toString module.globals.size ++ " globals")
  emit s file module

end Build

end C1Lang
