import C1Lang.Build.Run
import C1Lang.Command.Options

/-!
# Running a command line

A command line is options, a command, and its options and file. `build` compiles a file and writes
the module; `check` writes nothing. An option that stands on both sides of the command counts as
given after it. What the command line leaves open comes from the project file.
-/

namespace C1Lang.Command

structure Given where
  dumps : Option (List Dump) := none
  dumpDir : Option String := none
  debug : Bool := false
  traces : Option (List Component) := none
  quiet : Bool := false
  verbosity : Option Nat := none
  outputDir : Option String := none
  artifact : Option Artifact := none
  noVerify : Bool := false
  file : Option String := none
deriving DecidableEq, Repr, Inhabited

inductive Refusal
  | usage
  | information
deriving DecidableEq, Repr, Inhabited

def maxCount : Nat := 255

def once {α : Type} (before : Option α) (value : α) : Except Refusal (Option α) :=
  match before with
  | none => .ok (some value)
  | some _ => .error .usage

def onceFlag (before : Bool) : Except Refusal Bool := if before then .error .usage else .ok true

def known {α : Type} : Option α → Except Refusal α
  | some a => .ok a
  | none => .error .usage

def Given.add (g : Given) : Item → Except Refusal Given
  | .word text => do return { g with file := ← once g.file text }
  | .option .dump value => do
    let dumps ← known ((value.splitOn ",").mapM Dump.ofWord?)
    return { g with dumps := some (g.dumps.getD [] ++ dumps) }
  | .option .dumpDir value => do return { g with dumpDir := ← once g.dumpDir value }
  | .option .debug _ => do return { g with debug := ← onceFlag g.debug }
  | .option .debugTrace value => do
    let trace ← known (Component.ofWord? value)
    return { g with traces := some (g.traces.getD [] ++ [trace]) }
  | .option .quiet _ => do return { g with quiet := ← onceFlag g.quiet }
  | .option .verbose _ =>
    return { g with verbosity := some (min (g.verbosity.getD 0 + 1) maxCount) }
  | .option .outputDir value => do return { g with outputDir := ← once g.outputDir value }
  | .option .emit value => do
    return { g with artifact := ← once g.artifact (← known (Artifact.ofWord? value)) }
  | .option .noVerify _ => do return { g with noVerify := ← onceFlag g.noVerify }
  | .option .help _ => .error .information
  | .option .version _ => .error .information

def Given.ofItems (items : List Item) : Except Refusal Given := items.foldlM Given.add {}

/-- Options in front of the command count unless they are given after it as well. -/
def Given.after (top g : Given) : Given :=
  { g with
    dumps := g.dumps <|> top.dumps
    dumpDir := g.dumpDir <|> top.dumpDir
    debug := g.debug || top.debug
    traces := g.traces <|> top.traces
    quiet := g.quiet || top.quiet
    verbosity := g.verbosity <|> top.verbosity }

inductive Action
  | build
  | check
deriving DecidableEq, Repr, Inhabited

def Action.ofWord? : String → Option Action
  | "build" => some build
  | "check" => some check
  | _ => none

def Action.level : Action → Level
  | build => .build
  | check => .check

structure Invocation where
  action : Action
  given : Given
deriving DecidableEq, Repr, Inhabited

/-- `help` takes at most one command, to tell about it. -/
def helpOn : List String → Refusal
  | [] => .information
  | ["help"] => .information
  | [command] => if (Action.ofWord? command).isSome then .information else .usage
  | _ => .usage

def parse (args : List String) : Except Refusal Invocation := do
  let (items, command?) ← known (scanTop args.length args)
  let top ← Given.ofItems items
  let (command, rest) ← known command?
  if command == "help" then throw (helpOn rest)
  let action ← known (Action.ofWord? command)
  let own ← Given.ofItems (← known (scan action.level rest.length rest))
  return ⟨action, top.after own⟩

def usage : String := "Usage: c1c [OPTIONS] <build|check> [OPTIONS] [FILE]\n"

def projectFile : String := "c1.toml"

namespace Invocation

variable {m : Type → Type} [Monad m] [Host m]

def project (color : Bool) : Build m (Option Project) := do
  if ← ExceptT.lift (Host.fileExists projectFile) then
    match ← ExceptT.lift (Host.readText projectFile) with
    | .error e => Build.fail color ("Failed to read " ++ projectFile ++ ": " ++ e.message)
    | .ok text =>
      match Project.parse? text with
      | some p => return some p
      | none => Build.fail color ("Invalid " ++ projectFile ++ ": not a project")
  else return none

def entryFile (i : Invocation) (project : Option Project) : Build m String := do
  match i.given.file <|> project.map (·.build.mainFile) with
  | some path => return path
  | none =>
    Build.report ("No file path provided and no " ++ projectFile ++
      " found in the current directory.")
    Build.report "For more information, run `c1c --help`"
    throw .reported

def settings (i : Invocation) (project : Option Project) : BuildSettings :=
  let dumps := i.given.dumps.getD []
  match i.action with
  | .build =>
    { outputDir := (i.given.outputDir <|> project.map (·.build.outputDir)).getD defaultOutputDir
      artifact := (i.given.artifact <|> project.map (·.build.artifact)).getD .assembly
      dumps
      dumpDir := i.given.dumpDir
      verify := !i.given.noVerify }
  | .check => { artifact := .nothing, dumps, dumpDir := i.given.dumpDir, checkOnly := true }

def log (i : Invocation) : LogSettings :=
  { debug := i.given.debug
    quiet := i.given.quiet
    verbosity := i.given.verbosity.getD 0
    traces := i.given.traces.getD [] }

def run (i : Invocation) (color : Bool) : Build m Unit := do
  let project ← project color
  let path ← i.entryFile project
  Build.file ⟨i.log, color, i.settings project⟩ path

end Invocation

def exitCode : Except Halt Unit → UInt8
  | .ok _ => 0
  | .error _ => 1

def Refusal.exitCode : Refusal → UInt8
  | usage => 2
  | information => 0

end C1Lang.Command
