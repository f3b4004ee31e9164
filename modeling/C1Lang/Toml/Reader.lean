import C1Lang.Number.Decimal
import C1Lang.Toml.Text
import C1Lang.Toml.Value

/-!
# Reading configurations

A configuration text is a list of lines: comments, headers, and keys with values. Reading gives
none when a line cannot be read or contradicts an earlier one.
-/

namespace C1Lang.Toml

abbrev Reader := StateT (List Char) Option

namespace Reader

def rest : Reader (List Char) := get

def takeWhile (p : Char → Bool) : Reader (List Char) := do
  let cs ← rest
  set (cs.dropWhile p)
  return cs.takeWhile p

def skipBlanks : Reader Unit := do let _ ← takeWhile isBlank

def accept (c : Char) : Reader Bool := do
  match ← rest with
  | d :: ds => if c = d then set ds; return true else return false
  | [] => return false

def expect (c : Char) : Reader Unit := do unless ← accept c do failure

def quoted : Reader String := do
  let (text, after) ← (quoted? (← rest) : Option _)
  set after
  return text

def isBareKey (c : Char) : Bool := c.isAlphanum || c = '_' || c = '-'

def simpleKey : Reader String := do
  match ← rest with
  | '"' :: '"' :: '"' :: _ => failure
  | '\'' :: '\'' :: '\'' :: _ => failure
  | '"' :: _ => quoted
  | '\'' :: _ => quoted
  | _ =>
    let name ← takeWhile isBareKey
    if name.isEmpty then failure else return String.ofList name

/-- At most so many parts with dots between them; gives the parts before the last one, and the
last one. -/
def keyOf : Nat → Reader (List String × String)
  | 0 => failure
  | parts + 1 => do
    skipBlanks
    let first ← simpleKey
    skipBlanks
    if ← accept '.' then
      let (path, last) ← keyOf parts
      return (first :: path, last)
    else return ([], first)

def depthLimit : Nat := 79

def key : Reader (List String × String) := keyOf depthLimit

/-- Digits in which single underscores may stand between digits. -/
def digits (digit : Char → Bool) : Reader (List Char) := do
  let run ← takeWhile fun c => digit c || c = '_'
  let parts := (String.ofList run).splitOn "_"
  if parts.any String.isEmpty then failure else return run.filter (· ≠ '_')

def integerBound : Nat := 0x8000000000000000

def based (base : Nat) (digit : Char → Bool) : Reader Value := do
  let ds ← digits digit
  if Number.ofDigits base ds < integerBound then return .number (toString (Number.ofDigits base ds))
  else failure

def fraction : Reader (List Char) := do
  if ← accept '.' then return '.' :: (← digits Number.isDigit) else return []

def exponentSign : Reader (List Char) := do
  if ← accept '-' then return ['-']
  else
    let _ ← accept '+'
    return []

def power : Reader (List Char) := do
  let small ← accept 'e'
  let found ← if small then pure true else accept 'E'
  if found then
    let sign ← exponentSign
    return 'e' :: sign ++ (← digits Number.isDigit)
  else return []

/-- A number in base ten: an integer of 64 bits, or a fraction that is not too large. -/
def decimal (negative : Bool) : Reader Value := do
  let whole ← digits Number.isDigit
  if whole.length ≠ 1 && whole.head? = some '0' then failure
  let after ← fraction
  let scale ← power
  let text := String.ofList ((if negative then ['-'] else []) ++ whole ++ after ++ scale)
  if after.isEmpty && scale.isEmpty then
    let bound := if negative then integerBound + 1 else integerBound
    if Number.ofDigits 10 whole < bound then return .number text else failure
  else
    match Number.readDouble? text with
    | none => failure
    | some x => if x.toBits = 0x7FF0000000000000 then failure else return .number text

def word (w : String) : Reader Unit := do
  let cs ← rest
  if w.toList.isPrefixOf cs then set (cs.drop w.length) else failure

def special (negative : Bool) (w : String) : Reader Value := do
  word w
  return .number ((if negative then "-" else "") ++ w)

def number : Reader Value := do
  let negative ← accept '-'
  let signed ← if negative then pure true else accept '+'
  match signed, ← rest with
  | _, 'i' :: _ => special negative "inf"
  | _, 'n' :: _ => special negative "nan"
  | false, '0' :: 'x' :: cs => set cs; based 16 Number.isHexDigit
  | false, '0' :: 'o' :: cs => set cs; based 8 fun c => '0' ≤ c && c ≤ '7'
  | false, '0' :: 'b' :: cs => set cs; based 2 fun c => c = '0' || c = '1'
  | _, _ => decimal negative

def comment : Reader Unit := do
  if ← accept '#' then let _ ← takeWhile isPlain

def skipLines : Nat → Reader Unit
  | 0 => return ()
  | fuel + 1 => do
    skipBlanks
    comment
    match lineEnd? (← rest) with
    | some cs =>
      set cs
      skipLines fuel
    | none => return ()

def lineEnd : Reader Unit := do
  match ← rest with
  | [] => return ()
  | cs =>
    match lineEnd? cs with
    | some cs => set cs
    | none => failure

def moment : Reader Value := do
  let (moment, after) ← (moment? (← rest) : Option _)
  set after
  return .moment moment

mutual

def value : Nat → Nat → Reader Value
  | 0, _ => failure
  | fuel + 1, depth => do
    match ← rest, depth with
    | '"' :: _, _ => return .string (← quoted)
    | '\'' :: _, _ => return .string (← quoted)
    | '[' :: cs, depth + 1 =>
      set cs
      return .array (← items fuel depth)
    | '{' :: cs, depth + 1 =>
      set cs
      skipBlanks
      if ← accept '}' then return .table .inline []
      else return .table .inline (← members fuel depth [])
    | 't' :: _, _ => word "true"; return .bool true
    | 'f' :: _, _ => word "false"; return .bool false
    | _, _ => moment <|> number

def items : Nat → Nat → Reader (List Value)
  | 0, _ => failure
  | fuel + 1, depth => do
    skipLines fuel
    if ← accept ']' then return []
    else
      let first ← value fuel depth
      skipLines fuel
      if ← accept ',' then return first :: (← items fuel depth)
      else
        expect ']'
        return [first]

/-- The members of an inline table up to its end, added to those before. -/
def members : Nat → Nat → Entries → Reader Entries
  | 0, _, _ => failure
  | fuel + 1, depth, entries => do
    let (path, last) ← key
    expect '='
    skipBlanks
    let v ← value fuel depth
    skipBlanks
    let entries ← (entries.assign? path last v : Option _)
    if ← accept ',' then members fuel depth entries
    else
      expect '}'
      return entries

end

def assignment : Reader Entry := do
  let (path, last) ← key
  expect '='
  skipBlanks
  let v ← value ((← rest).length + 1) depthLimit
  return .assign path last v

def header : Reader Entry := do
  expect '['
  if ← accept '[' then
    let (path, last) ← key
    expect ']'
    expect ']'
    return .element path last
  else
    let (path, last) ← key
    expect ']'
    return .header path last

def entries : Nat → Reader (List Entry)
  | 0 => return []
  | fuel + 1 => do
    skipBlanks
    comment
    match ← rest with
    | [] => return []
    | '\n' :: _ => lineEnd; entries fuel
    | '\r' :: _ => lineEnd; entries fuel
    | cs =>
      let entry ← if cs.head? = some '[' then header else assignment
      skipBlanks
      comment
      lineEnd
      return entry :: (← entries fuel)

end Reader

def dropMark : List Char → List Char
  | '\ufeff' :: cs => cs
  | cs => cs

def read? (text : String) : Option Entries := do
  let cs := dropMark text.toList
  let (lines, rest) ← Reader.entries (cs.length + 1) |>.run cs
  if rest.isEmpty then Document.ofEntries? lines else none

end C1Lang.Toml
