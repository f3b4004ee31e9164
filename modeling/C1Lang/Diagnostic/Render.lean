import C1Lang.Diagnostic.Basic
import C1Lang.Diagnostic.Style

/-!
# Diagnostics with source excerpts

A diagnostic is shown as a heading, its place, the line it starts in with the line before it, and
carets under the first line of its span. Labels and notes follow, and a blank line.
-/

namespace C1Lang

def padded (text : String) : String := text ++ String.ofList (List.replicate (3 - text.length) ' ')

namespace Excerpt

def bar (color : Bool) : String := Style.boldBlue.paint color (padded "|")

def numbered (color : Bool) (number : Nat) (text : String) : String :=
  Style.boldBlue.paint color (padded (toString number)) ++ bar color ++ text

def blank (color : Bool) (text : String) : String := padded "" ++ bar color ++ text

/-- Marks under a line from a column on, counted from one. -/
def marks (color : Bool) (style : Style) (column count : Nat) : String :=
  blank color (String.ofList (List.replicate (column - 1) ' ') ++
    style.paint color (String.ofList (List.replicate count '^')))

end Excerpt

namespace Diagnostic

/-- How many carets stand under the line `text` in which a span starts. When the span goes on in a
later line, they reach for the end of this one. -/
def caretCount (text : List Char) (first last : Position) : Nat :=
  if first.line = last.line then max (last.column - first.column) 1
  else max (byteLength text - first.column) 1

def heading (color : Bool) (d : Diagnostic) : String :=
  let (word, style) : String × Style :=
    match d.problem.severity with
    | .warning => ("Warning", .boldYellow)
    | .error => ("Error", .boldRed)
  style.paint color word ++ "[" ++ style.paint color d.problem.code ++ "]: " ++
    Style.bold.paint color d.problem.message

def placeLine (color : Bool) (file : SourceFile) (at_ : Position) : String :=
  "  " ++ Style.boldBlue.paint color "-->" ++ " " ++ Style.bold.paint color file.path ++ ":" ++
    Style.bold.paint color (toString at_.line) ++ ":" ++
    Style.bold.paint color (toString at_.column)

def contextLines (color : Bool) (file : SourceFile) (at_ : Position) : List String :=
  if at_.line ≤ 1 then []
  else
    let text := String.ofList ((file.lineText? (at_.line - 1)).getD [])
    [Excerpt.blank color "",
      Excerpt.numbered color (at_.line - 1) (Style.dimmed.paint color text)]

/-- The first line of the span with its carets. A place behind the last line shows none. -/
def sourceLines (color : Bool) (file : SourceFile) (first last : Position) : List String :=
  match file.lineText? first.line with
  | none => []
  | some text =>
    [Excerpt.numbered color first.line (String.ofList text),
      Excerpt.marks color .boldRed first.column (caretCount text first last)]

def labelLines (color : Bool) (file : SourceFile) (label : Span × String) : List String :=
  let at_ := file.position label.1.start
  ["", "  " ++ Style.boldYellow.paint color "label:" ++ " " ++ label.2] ++
    match file.lineText? at_.line with
    | none => []
    | some text =>
      [Excerpt.numbered color at_.line (String.ofList text),
        Excerpt.marks color .boldYellow at_.column 1]

def noteLine (color : Bool) (note : String) : String :=
  "  " ++ Style.boldCyan.paint color "note:" ++ " " ++ note

def lines (color : Bool) (file : SourceFile) (d : Diagnostic) : List String :=
  let first := file.position d.span.start
  let last := file.position d.span.stop
  [d.heading color, placeLine color file first] ++ contextLines color file first ++
    [Excerpt.blank color ""] ++ sourceLines color file first last ++
    d.problem.labels.flatMap (labelLines color file) ++ d.problem.notes.map (noteLine color) ++ [""]

def render (color : Bool) (file : SourceFile) (ds : List Diagnostic) : String :=
  String.join ((ds.flatMap (lines color file)).map (· ++ "\n"))

end Diagnostic

end C1Lang
