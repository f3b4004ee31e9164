/-!
# Integers in digits

Reading of digit strings in base ten and sixteen, and the value of an integer literal as a 32-bit
word. A single `+` may stand before the digits.
-/

namespace C1Lang.Number

def isDigit (c : Char) : Bool := '0' ≤ c && c ≤ '9'

def isHexDigit (c : Char) : Bool :=
  isDigit c || ('a' ≤ c && c ≤ 'f') || ('A' ≤ c && c ≤ 'F')

def digitValue (c : Char) : Nat :=
  if isDigit c then c.toNat - '0'.toNat
  else if 'a' ≤ c && c ≤ 'f' then c.toNat - 'a'.toNat + 10
  else c.toNat - 'A'.toNat + 10

def ofDigits (base : Nat) (cs : List Char) : Nat :=
  cs.foldl (fun n c => n * base + digitValue c) 0

def dropPlus : List Char → List Char
  | '+' :: cs => cs
  | cs => cs

def readBelow? (base : Nat) (digit : Char → Bool) (bound : Nat) (cs : List Char) : Option Nat :=
  let ds := dropPlus cs
  if ds.isEmpty || !ds.all digit then none
  else if ofDigits base ds < bound then some (ofDigits base ds)
  else none

def readDecimal? (cs : List Char) : Option Nat := readBelow? 10 isDigit 0x10000000000000000 cs

def readHex? (cs : List Char) : Option Nat := readBelow? 16 isHexDigit 0x100000000 cs

def minMagnitude : Nat := 0x80000000

/-- The word of an integer literal. A hexadecimal literal is any 32-bit pattern; a decimal one
goes up to the magnitude of the smallest word, which wraps to that word. -/
def literal? (lexeme : String) : Option Int32 :=
  match lexeme.toList with
  | '0' :: 'x' :: ds => (readHex? ds).map Int32.ofNat
  | '0' :: 'X' :: ds => (readHex? ds).map Int32.ofNat
  | cs =>
    match readDecimal? cs with
    | none => none
    | some n => if n ≤ minMagnitude then some (Int32.ofNat n) else none

def isMinMagnitude (lexeme : String) : Bool := readDecimal? lexeme.toList == some minMagnitude

end C1Lang.Number
