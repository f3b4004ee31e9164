import C1Lang.Source.Path

/-!
# Hosts

A run reads and writes files and two streams of text. A host is anything that offers that.
-/

namespace C1Lang

inductive FileError
  | notFound
  | alreadyExists
  | notDirectory
  | isDirectory
  | nameTooLong
  | zeroInName
  | undecodable
  | other (message : String)
deriving DecidableEq, Repr, Inhabited

def FileError.message : FileError → String
  | notFound => "No such file or directory (os error 2)"
  | alreadyExists => "File exists (os error 17)"
  | notDirectory => "Not a directory (os error 20)"
  | isDirectory => "Is a directory (os error 21)"
  | nameTooLong => "File name too long (os error 36)"
  | zeroInName => "file name contained an unexpected NUL byte"
  | undecodable => "stream did not contain valid UTF-8"
  | other message => message

class Host (m : Type → Type) where
  fileExists (path : String) : m Bool
  isDirectory (path : String) : m Bool
  readText (path : String) : m (Except FileError String)
  createDir (path : String) : m (Except FileError Unit)
  writeText (path content : String) : m (Except FileError Unit)
  print (text : String) : m Unit
  report (text : String) : m Unit

namespace Host

variable {m : Type → Type} [Monad m] [Host m]

/-- Makes a directory; one that is there already is as good as a new one. -/
def ensureDir (path : String) : m (Except FileError Unit) := do
  match ← createDir path with
  | .ok () => return .ok ()
  | .error e => if ← isDirectory path then return .ok () else return .error e

/-- Makes a directory; where one above it is missing, makes that first. A path has fewer pieces
the further up it is, so the fuel need not exceed their number. -/
def ensureDirs : Nat → String → m (Except FileError Unit)
  | 0, _ => return .error .notFound
  | fuel + 1, path => do
    if path == "" then return .ok ()
    else
      match ← ensureDir path, Path.parent? path with
      | .error .notFound, some parent =>
        match ← ensureDirs fuel parent with
        | .ok () => ensureDir path
        | .error e => return .error e
      | r, _ => return r

def createDirs (path : String) : m (Except FileError Unit) := ensureDirs (path.length + 1) path

end Host

end C1Lang
