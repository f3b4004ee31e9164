import C1Lang.Source.Text
import C1Lang.Token.Basic

/-!
# Token tables

A dump of tokens as a boxed table of four columns. The table is at most a hundred characters
wide: while it is wider, its widest column loses a character, and cut cells end in `+`.
-/

namespace C1Lang.TokenTable

def escape (c : Char) : List Char :=
  if c = '\n' then ['\\', 'n'] else if c = '\r' then ['\\', 'r'] else if c = '\t' then ['\\', 't']
  else [c]

def row (file : SourceFile) (t : Token) : List (List Char) :=
  let at_ := file.position t.span.start
  [t.kind.label.toList, t.lexeme.toList.flatMap escape, (toString at_.line).toList,
    (toString at_.column).toList]

def header : List (List Char) :=
  ["Type".toList, "Lexeme".toList, "Line".toList, "Column".toList]

def widths (rows : List (List (List Char))) : List Nat :=
  rows.foldl (fun ws cells => List.zipWith max ws (cells.map List.length)) (header.map List.length)

/-- The widths with the last of the widest columns one narrower. -/
def narrow (ws : List Nat) : List Nat :=
  let widest := ws.foldl max 0
  match ws.reverse.findIdx? (· == widest) with
  | none => ws
  | some i => (ws.reverse.modify i (· - 1)).reverse

def frameWidth : Nat := 13

def maxWidth : Nat := 100

def fit (ws : List Nat) : List Nat :=
  Nat.repeat narrow (ws.foldl (· + ·) 0 + frameWidth - maxWidth) ws

def cell (w : Nat) (cs : List Char) : List Char :=
  if cs.length ≤ w then cs ++ List.replicate (w - cs.length) ' '
  else if w = 0 then []
  else cs.take (w - 1) ++ ['+']

def border (left middle right : Char) (ws : List Nat) : List Char :=
  left :: List.intercalate [middle] (ws.map fun w => List.replicate (w + 2) '─') ++ [right, '\n']

def line (ws : List Nat) (cells : List (List Char)) : List Char :=
  ['│', ' '] ++ List.intercalate [' ', '│', ' '] (List.zipWith cell ws cells) ++
    [' ', '│', '\n']

def render (file : SourceFile) (tokens : List Token) : String :=
  let rows := tokens.map (row file)
  let ws := fit (widths rows)
  String.ofList (border '┌' '┬' '┐' ws ++ line ws header ++ border '├' '┼' '┤' ws ++
    rows.flatMap (line ws) ++ border '└' '┴' '┘' ws)

end C1Lang.TokenTable
