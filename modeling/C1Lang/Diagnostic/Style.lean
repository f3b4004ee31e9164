/-!
# Text styles

A style is written as an escape sequence in front of a text and undone behind it. A text that
undoes styles itself gets the style again after each such place.
-/

namespace C1Lang

structure Style where
  codes : List Nat
deriving DecidableEq, Repr

namespace Style

def bold : Style := ⟨[1]⟩
def dimmed : Style := ⟨[2]⟩
def boldRed : Style := ⟨[1, 31]⟩
def boldYellow : Style := ⟨[1, 33]⟩
def boldBlue : Style := ⟨[1, 34]⟩
def boldCyan : Style := ⟨[1, 36]⟩
def boldBrightGreen : Style := ⟨[1, 92]⟩
def boldBrightYellow : Style := ⟨[1, 93]⟩

def start (s : Style) : List Char :=
  '\x1b' :: '[' :: (";".intercalate (s.codes.map toString)).toList ++ ['m']

/-- Puts `start` behind everything in a text that turns styles off. -/
def resume (start : List Char) : List Char → List Char
  | [] => []
  | '\x1b' :: '[' :: '0' :: 'm' :: rest =>
    ['\x1b', '[', '0', 'm'] ++ start ++ resume start rest
  | c :: rest => c :: resume start rest

def paint (color : Bool) (s : Style) (text : String) : String :=
  if color then
    String.ofList (s.start ++ resume s.start text.toList ++ ['\x1b', '[', '0', 'm'])
  else text

end Style

end C1Lang
