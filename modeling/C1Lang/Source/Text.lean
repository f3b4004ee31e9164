import C1Lang.Source.Path

/-!
# Source files

A source file keeps its text cut into lines. Positions are byte offsets; line and column numbers
start at one, and a column counts characters. The lines together are the text again, and each
line but the last ends in its line feed.
-/

namespace C1Lang

def byteLength : List Char → Nat
  | [] => 0
  | c :: cs => c.utf8Size + byteLength cs

/-- Cuts a text after every line feed. What follows the last one is a line too, even when empty. -/
def cutLines : List Char → List (List Char)
  | [] => [[]]
  | c :: cs =>
    match cutLines cs with
    | [] => [[c]]
    | line :: lines => if c = '\n' then [c] :: line :: lines else (c :: line) :: lines

structure Line where
  start : Nat
  chars : List Char
deriving DecidableEq, Repr, Inhabited

def Line.place (start : Nat) : List (List Char) → List Line
  | [] => []
  | cs :: rest => ⟨start, cs⟩ :: Line.place (start + byteLength cs) rest

def Line.content (l : Line) : List Char :=
  match l.chars.reverse with
  | '\n' :: '\r' :: rest => rest.reverse
  | '\n' :: rest => rest.reverse
  | _ => l.chars

/-- How many characters fill the first `n` bytes, or the whole text when it is shorter, counted on
from `count`; none when byte `n` is inside a character. -/
def charsFrom (count : Nat) : List Char → Nat → Option Nat
  | _, 0 => some count
  | [], _ + 1 => some count
  | c :: cs, n + 1 =>
    if c.utf8Size ≤ n + 1 then charsFrom (count + 1) cs (n + 1 - c.utf8Size) else none

def charsIn (cs : List Char) (n : Nat) : Option Nat := charsFrom 0 cs n

structure Position where
  line : Nat
  column : Nat
deriving DecidableEq, Repr, Inhabited

structure SourceFile where
  path : String
  text : String
  lines : List Line
deriving DecidableEq, Repr, Inhabited

namespace SourceFile

def ofText (path text : String) : SourceFile :=
  ⟨path, text, Line.place 0 (cutLines text.toList)⟩

def lineStarts (f : SourceFile) : List Nat := f.lines.map Line.start

def seek (pos : Nat) : Nat → Line → List Line → Nat × Line
  | number, current, [] => (number, current)
  | number, current, next :: rest =>
    if next.start ≤ pos then seek pos (number + 1) next rest else (number, current)

/-- The column of the byte `n` of a line: characters before it, or bytes when it is inside a
character. Bytes past the end count as the end. -/
def columnIn (cs : List Char) (n : Nat) : Nat := (charsIn cs n).getD n + 1

def position (f : SourceFile) (pos : Nat) : Position :=
  match f.lines with
  | [] => ⟨1, 1⟩
  | first :: rest =>
    let (number, line) := seek pos 1 first rest
    ⟨number, columnIn line.chars (pos - line.start)⟩

def slice? (f : SourceFile) (start stop : Nat) : Option String := do
  let cs := f.text.toList
  let i ← charsIn cs start
  let j ← charsIn cs stop
  if start ≤ stop && stop ≤ byteLength cs then some (String.ofList ((cs.drop i).take (j - i)))
  else none

/-- The `n`-th line, counted from one, without its line end. The empty piece after a final line
feed is no line. -/
def lineText? (f : SourceFile) (n : Nat) : Option (List Char) :=
  if n = 0 then none
  else
    match f.lines[n - 1]? with
    | none => none
    | some l => if l.chars = [] then none else some l.content

end SourceFile

structure SourceMap where
  files : List SourceFile := []
deriving DecidableEq, Repr, Inhabited

namespace SourceMap

def add (m : SourceMap) (path text : String) : Nat × SourceMap :=
  match m.files.findIdx? (Path.same path ·.path) with
  | some id => (id, m)
  | none => (m.files.length, ⟨m.files ++ [SourceFile.ofText path text]⟩)

def get? (m : SourceMap) (id : Nat) : Option SourceFile := m.files[id]?

end SourceMap

end C1Lang
