import C1Lang.Build.Host

/-!
# Trees of files

Files and directories below a working directory, and what the file operations do to them. A path
is followed piece by piece: every piece but the last must lead to a directory.
-/

namespace C1Lang

inductive Content
  | text (text : String)
  | bytes
deriving DecidableEq, Repr, Inhabited

inductive Entry
  | file (content : Content)
  | directory
deriving DecidableEq, Repr, Inhabited

/-- The names on the way from the working directory, where `..` leads out of it, or on the way
from the root, which is `/`. -/
abbrev Location := List String

def Location.isGiven (at_ : Location) : Bool := at_.all (· == "..") || at_ == ["/"]

structure FileTree where
  entries : List (Location × Entry) := []
deriving DecidableEq, Repr, Inhabited

namespace FileTree

def lookup (t : FileTree) (at_ : Location) : Option Entry :=
  if at_.isGiven then some .directory else t.entries.lookup at_

def insert (t : FileTree) (at_ : Location) (e : Entry) : FileTree :=
  ⟨t.entries.filter (·.1 != at_) ++ [(at_, e)]⟩

def maxName : Nat := 255

def maxPath : Nat := 4095

def step (at_ : Location) (piece : String) : Location :=
  if piece == "" || piece == "." then at_
  else if piece == ".." then
    if at_ == ["/"] then at_ else if at_.isGiven then at_ ++ [".."] else at_.dropLast
  else at_ ++ [piece]

def enter (t : FileTree) (at_ : Location) (piece : String) : Except FileError Unit :=
  match t.lookup at_ with
  | none => .error .notFound
  | some (.file _) => .error .notDirectory
  | some .directory => if maxName < piece.utf8ByteSize then .error .nameTooLong else .ok ()

/-- Follows the pieces of a path. What the last one leads to need not exist. -/
def follow (t : FileTree) (at_ : Location) : List String → Except FileError Location
  | [] => .ok at_
  | piece :: rest => do
    t.enter at_ piece
    t.follow (step at_ piece) rest

def origin (path : String) : Location := if Path.isAbsolute path then ["/"] else []

def pieces (path : String) : Except FileError (List String) :=
  if path.contains '\x00' then .error .zeroInName
  else if path == "" then .error .notFound
  else if maxPath < path.utf8ByteSize then .error .nameTooLong
  else .ok (Path.pieces path)

def find (t : FileTree) (path : String) : Except FileError (Location × Entry) := do
  let at_ ← t.follow (origin path) (← pieces path)
  match t.lookup at_ with
  | none => .error .notFound
  | some e => .ok (at_, e)

def isDirectory (t : FileTree) (path : String) : Bool :=
  match t.find path with
  | .ok (_, .directory) => true
  | _ => false

def readText (t : FileTree) (path : String) : Except FileError String := do
  match ← t.find path with
  | (_, .directory) => .error .isDirectory
  | (_, .file .bytes) => .error .undecodable
  | (_, .file (.text text)) => .ok text

/-- Whether the last piece of a path names something new, rather than a directory that is there. -/
def isName (piece : String) : Bool := piece != "" && piece != "." && piece != ".."

def createDir (t : FileTree) (path : String) : Except FileError FileTree := do
  let ps := (← pieces path).reverse.dropWhile (· == "") |>.reverse
  let parent ← t.follow (origin path) ps.dropLast
  let last := ps.getLast?.getD "."
  t.enter parent last
  let at_ := step parent last
  if isName last && (t.lookup at_).isNone then .ok (t.insert at_ .directory)
  else .error .alreadyExists

def writeText (t : FileTree) (path content : String) : Except FileError FileTree := do
  let at_ ← t.follow (origin path) (← pieces path)
  match t.lookup at_ with
  | some .directory => .error .isDirectory
  | _ => .ok (t.insert at_ (.file (.text content)))

def systemDirs : List String :=
  ["bin", "boot", "dev", "etc", "home", "lib", "media", "mnt", "opt", "proc", "root", "run", "sbin",
    "srv", "sys", "tmp", "usr", "var"]

/-- An empty working directory on a system, with the device that is always empty. -/
def fresh : FileTree :=
  ⟨systemDirs.map (fun name => (["/", name], .directory)) ++
    [(["/", "dev", "null"], .file (.text ""))]⟩

end FileTree

structure Workspace where
  tree : FileTree := {}
  output : String := ""
  messages : String := ""
deriving DecidableEq, Repr, Inhabited

def Workspace.update (change : FileTree → Except FileError FileTree) :
    StateM Workspace (Except FileError Unit) := fun w =>
  match change w.tree with
  | .ok tree => (.ok (), { w with tree })
  | .error e => (.error e, w)

instance : Host (StateM Workspace) where
  fileExists path := fun w => ((w.tree.find path).isOk, w)
  isDirectory path := fun w => (w.tree.isDirectory path, w)
  readText path := fun w => (w.tree.readText path, w)
  createDir path := Workspace.update (·.createDir path)
  writeText path content := Workspace.update (·.writeText path content)
  print text := modify fun w => { w with output := w.output ++ text }
  report text := modify fun w => { w with messages := w.messages ++ text }

end C1Lang
