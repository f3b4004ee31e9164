/-!
# File paths

A path is a text in which `/` separates components. Two spellings are equal when they have the
same components: empty components and inner `.` components do not count, a leading `.` does.
-/

namespace C1Lang.Path

def pieces (path : String) : List String := path.splitOn "/"

def isAbsolute (path : String) : Bool := path.startsWith "/"

/-- The components that count; an absolute path starts with `/`. -/
def components (path : String) : List String :=
  let inner := (pieces path).filter fun p => p != "" && p != "."
  if isAbsolute path then "/" :: inner
  else if (pieces path).head? == some "." then "." :: inner
  else inner

def same (p q : String) : Bool := components p == components q

def fileName? (path : String) : Option String :=
  match (components path).getLast? with
  | none => none
  | some name => if name == "/" || name == "." || name == ".." then none else some name

def splitLastDot (name : List Char) : Option (List Char × List Char) :=
  match name with
  | [] => none
  | c :: rest =>
    match splitLastDot rest with
    | some (before, after) => some (c :: before, after)
    | none => if c = '.' then some ([], rest) else none

/-- The file name up to its last dot, unless that dot is its first character. -/
def fileStem? (path : String) : Option String :=
  (fileName? path).map fun name =>
    match splitLastDot name.toList with
    | none => name
    | some ([], _) => name
    | some (stem, _) => String.ofList stem

def join (dir name : String) : String :=
  if isAbsolute name then name
  else if dir == "" || dir.endsWith "/" then dir ++ name
  else dir ++ "/" ++ name

/-- The components without the last one, as a path; none at the root and for the empty path. -/
def parent? (path : String) : Option String :=
  match (components path).reverse with
  | [] => none
  | ["/"] => none
  | _ :: rest =>
    match rest.reverse with
    | "/" :: inner => some ("/" ++ "/".intercalate inner)
    | inner => some ("/".intercalate inner)

end C1Lang.Path
