import C1Lang.Toml.Reader

/-!
# Project files

A project file names the project and says how to build it: the file to start from, the directory
to write to and what to write. Settings that the program does not know are passed over.
-/

namespace C1Lang

inductive Artifact
  | assembly
  | data
  | nothing
deriving DecidableEq, Repr, Inhabited

namespace Artifact

def ofWord? : String → Option Artifact
  | "ir" => some assembly
  | "json" => some data
  | "none" => some nothing
  | _ => none

def word : Artifact → String
  | assembly => "ir"
  | data => "json"
  | nothing => "none"

end Artifact

def defaultOutputDir : String := "build"

structure ProjectBuild where
  mainFile : String
  outputDir : String := defaultOutputDir
  artifact : Artifact := .assembly
deriving DecidableEq, Repr, Inhabited

structure Project where
  name : String
  version : String := ""
  build : ProjectBuild
deriving DecidableEq, Repr, Inhabited

namespace Project

def text? : Toml.Value → Option String
  | .string s => some s
  | _ => none

def isEmptyGroup : Toml.Value → Bool
  | .array [] => true
  | .table _ [] => true
  | _ => false

/-- An artifact is named by its word, or by a table with that word as its only key and nothing
under it. -/
def artifact? : Toml.Value → Option Artifact
  | .string s => Artifact.ofWord? s
  | .table _ [(word, v)] => if isEmptyGroup v then Artifact.ofWord? word else none
  | _ => none

/-- A setting that may be left out, but must have the right form when it is there. -/
def optional {α : Type} (read : Toml.Value → Option α) (default : α) :
    Option Toml.Value → Option α
  | none => some default
  | some v => read v

def build? : Toml.Value → Option ProjectBuild
  | .table _ es => do
    let mainFile ← text? (← es.lookup "main_file")
    let outputDir ← optional text? defaultOutputDir (es.lookup "output_dir")
    let artifact ← optional artifact? .assembly (es.lookup "emit")
    some ⟨mainFile, outputDir, artifact⟩
  | .array items => do
    let mainFile ← text? (← items[0]?)
    let outputDir ← optional text? defaultOutputDir items[1]?
    let artifact ← optional artifact? .assembly items[2]?
    some ⟨mainFile, outputDir, artifact⟩
  | _ => none

def ofEntries? (es : Toml.Entries) : Option Project := do
  let name ← text? (← es.lookup "name")
  let version ← optional text? "" (es.lookup "version")
  let build ← build? (← es.lookup "build")
  some ⟨name, version, build⟩

def parse? (text : String) : Option Project := do ofEntries? (← Toml.read? text)

end Project

end C1Lang
