import C1Lang.Command.Invocation

/-!
# Command line

The program itself: a host for runs in the real file system.
-/

namespace C1Lang

/-- The cause of an error of the system. Its numbers may be negated, as 32-bit words. -/
def FileError.ofCode (code : UInt32) (details : String) : FileError :=
  let number := if code < 0x80000000 then code else -code
  if number = 20 then .notDirectory
  else if number = 21 then .isDirectory
  else if number = 36 then .nameTooLong
  else .other (details ++ " (os error " ++ toString number.toNat ++ ")")

def FileError.ofIO : IO.Error → FileError
  | .noFileOrDirectory .. => .notFound
  | .alreadyExists .. => .alreadyExists
  | .inappropriateType _ code details => .ofCode code details
  | .invalidArgument _ code details => .ofCode code details
  | .permissionDenied _ code details => .ofCode code details
  | .resourceExhausted _ code details => .ofCode code details
  | e => .other (toString e)

def attempt {α : Type} (path : String) (act : IO α) : IO (Except FileError α) := do
  if path.contains '\x00' then return .error .zeroInName
  else
    match ← act.toBaseIO with
    | .ok a => return .ok a
    | .error e => return .error (.ofIO e)

def readTextFile (path : String) : IO (Except FileError String) := do
  match ← attempt path (IO.FS.readBinFile path) with
  | .error e => return .error e
  | .ok bytes =>
    match String.fromUTF8? bytes with
    | some text => return .ok text
    | none => return .error .undecodable

def isDirectoryPath (path : String) : IO Bool := do
  match ← attempt path (IO.FS.readBinFile path) with
  | .error .isDirectory => return true
  | _ => return false

def pathExists (path : String) : IO Bool := do
  match ← attempt path (IO.FS.readBinFile path) with
  | .error .notFound => return false
  | .error .notDirectory => return false
  | .error .zeroInName => return false
  | _ => return true

instance : Host IO where
  fileExists := pathExists
  isDirectory := isDirectoryPath
  readText := readTextFile
  createDir path := attempt path (IO.FS.createDir path)
  writeText path content := attempt path (IO.FS.writeFile path content)
  print := IO.print
  report := IO.eprint

/-- Whether messages are coloured: as the environment says, or else on a terminal. -/
def wantsColor : IO Bool := do
  if (← IO.getEnv "NO_COLOR").isSome then return false
  else
    match ← IO.getEnv "CLICOLOR_FORCE" with
    | some "0" | none => (← IO.getStdout).isTty
    | some _ => return true

end C1Lang

open C1Lang in
def main (args : List String) : IO UInt32 := do
  match Command.parse args with
  | .error refusal =>
    if refusal = .usage then IO.eprint Command.usage else IO.print Command.usage
    return refusal.exitCode.toUInt32
  | .ok invocation =>
    let result ← (invocation.run (← wantsColor) : Build IO Unit).run
    return (Command.exitCode result).toUInt32
