import C1Lang.Number.Digits

/-!
# Quoted text in configurations

Double quotes allow escapes and single quotes do not; three quotes allow line ends. Line ends are
read as a line feed however they are written.
-/

namespace C1Lang.Toml

def isPlain (c : Char) : Bool := c = '\t' || (32 ≤ c.toNat && c.toNat ≠ 127)

def isBlank (c : Char) : Bool := c = ' ' || c = '\t'

def charOfDigits? (ds : List Char) : Option Char :=
  let n := Number.ofDigits 16 ds
  if ds.all Number.isHexDigit && Nat.isValidChar n then some (Char.ofNat n) else none

def escaped? (c : Char) : Option Char :=
  if c = 'b' then some '\x08'
  else if c = 't' then some '\t'
  else if c = 'n' then some '\n'
  else if c = 'f' then some '\x0c'
  else if c = 'r' then some '\r'
  else if c = '"' || c = '\\' then some c
  else none

/-- The character of an escape, given what follows the backslash, and the rest. -/
def escape? : List Char → Option (Char × List Char)
  | 'u' :: a :: b :: c :: d :: rest => (charOfDigits? [a, b, c, d]).map (·, rest)
  | 'U' :: a :: b :: c :: d :: e :: f :: g :: h :: rest =>
    (charOfDigits? [a, b, c, d, e, f, g, h]).map (·, rest)
  | c :: rest => (escaped? c).map (·, rest)
  | [] => none

def lineEnd? : List Char → Option (List Char)
  | '\n' :: rest => some rest
  | '\r' :: '\n' :: rest => some rest
  | _ => none

def basic? : Nat → List Char → Option (List Char × List Char)
  | 0, _ => none
  | _, [] => none
  | _, '"' :: rest => some ([], rest)
  | fuel + 1, '\\' :: rest => do
    let (c, rest) ← escape? rest
    let (text, rest) ← basic? fuel rest
    some (c :: text, rest)
  | fuel + 1, c :: rest =>
    if isPlain c then do
      let (text, rest) ← basic? fuel rest
      some (c :: text, rest)
    else none

def literal? : List Char → Option (List Char × List Char)
  | [] => none
  | '\'' :: rest => some ([], rest)
  | c :: rest =>
    if isPlain c then do
      let (text, rest) ← literal? rest
      some (c :: text, rest)
    else none

def dropBlankLines : List Char → List Char
  | '\r' :: '\n' :: rest => dropBlankLines rest
  | c :: rest => if isBlank c || c = '\n' then dropBlankLines rest else c :: rest
  | [] => []

/-- A backslash at the end of a line drops all blanks and line ends that follow it. -/
def continued? (rest : List Char) : Option (List Char) :=
  (lineEnd? (rest.dropWhile isBlank)).map dropBlankLines

/-- A text of several lines, up to three quotes. Quotes that stand right before those belong to
the text, up to two of them. -/
def lines? (quote : Char) (escapes : Bool) : Nat → List Char → Option (List Char × List Char)
  | 0, _ => none
  | fuel + 1, cs =>
    match cs.takeWhile (· == quote) with
    | _ :: _ :: _ :: more =>
      let extra := more.take 2
      some (extra, cs.drop (extra.length + 3))
    | _ => do
      let (head, rest) ← (match lineEnd? cs, cs with
        | some rest, _ => some (['\n'], rest)
        | none, [] => none
        | none, c :: rest =>
          if escapes && c = '\\' then
            match continued? rest with
            | some rest => some ([], rest)
            | none => (escape? rest).map fun (c, rest) => ([c], rest)
          else if isPlain c then some ([c], rest)
          else none)
      let (text, rest) ← lines? quote escapes fuel rest
      some (head ++ text, rest)

def block? (quote : Char) (escapes : Bool) (cs : List Char) : Option (List Char × List Char) :=
  let cs := (lineEnd? cs).getD cs
  lines? quote escapes (cs.length + 1) cs

def quoted? (cs : List Char) : Option (String × List Char) :=
  (match cs with
    | '"' :: '"' :: '"' :: rest => block? '"' true rest
    | '\'' :: '\'' :: '\'' :: rest => block? '\'' false rest
    | '"' :: rest => basic? (rest.length + 1) rest
    | '\'' :: rest => literal? rest
    | _ => none).map fun (text, rest) => (String.ofList text, rest)

end C1Lang.Toml
