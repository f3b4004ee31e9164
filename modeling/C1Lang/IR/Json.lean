/-!
# JSON text

Values and their indented text: two blanks for each level, one member to a line, and nothing
between the brackets of an empty value.
-/

namespace C1Lang

inductive Json
  | null
  | bool (value : Bool)
  | number (text : String)
  | string (value : String)
  | array (items : List Json)
  | object (members : List (String × Json))
deriving Inhabited

namespace Json

def hexDigit (n : Nat) : Char := (Nat.digitChar (n % 16))

def escape (c : Char) : List Char :=
  if c = '"' then ['\\', '"']
  else if c = '\\' then ['\\', '\\']
  else if c = '\n' then ['\\', 'n']
  else if c = '\r' then ['\\', 'r']
  else if c = '\t' then ['\\', 't']
  else if c.toNat = 8 then ['\\', 'b']
  else if c.toNat = 12 then ['\\', 'f']
  else if c.toNat < 32 then ['\\', 'u', '0', '0', hexDigit (c.toNat / 16), hexDigit c.toNat]
  else [c]

def quote (s : String) : String := String.ofList ('"' :: s.toList.flatMap escape ++ ['"'])

def newLine (level : Nat) : String := String.ofList ('\n' :: List.replicate (2 * level) ' ')

mutual

def textAt (level : Nat) : Json → String
  | null => "null"
  | bool b => toString b
  | number text => text
  | string s => quote s
  | array [] => "[]"
  | array (item :: items) =>
    "[" ++ newLine (level + 1) ++ item.textAt (level + 1) ++ itemsText (level + 1) items ++
      newLine level ++ "]"
  | object [] => "\x7b\x7d"
  | object ((key, value) :: members) =>
    "\x7b" ++ newLine (level + 1) ++ quote key ++ ": " ++ value.textAt (level + 1) ++
      membersText (level + 1) members ++ newLine level ++ "\x7d"

def itemsText (level : Nat) : List Json → String
  | [] => ""
  | item :: items => "," ++ newLine level ++ item.textAt level ++ itemsText level items

def membersText (level : Nat) : List (String × Json) → String
  | [] => ""
  | (key, value) :: members =>
    "," ++ newLine level ++ quote key ++ ": " ++ value.textAt level ++ membersText level members

end

def text (j : Json) : String := j.textAt 0

def nat (n : Nat) : Json := number (toString n)

end Json

end C1Lang
