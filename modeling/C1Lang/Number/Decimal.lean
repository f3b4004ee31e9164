import C1Lang.Number.Digits
import C1Lang.Number.Shortest

/-!
# Doubles in decimal notation

Reading of a decimal text as the nearest double, ties to even: an optional sign, digits with an
optional point among them, an optional exponent; or `inf`, `infinity` and `nan` in any case. A
double is read as its pattern of bits.
-/

namespace C1Lang.Number

def infinityBits : Nat := 0x7FF0000000000000

def roundQuotient (num den : Nat) : Nat :=
  let low := num / den
  let rest := num % den
  if 2 * rest < den || 2 * rest == den && low % 2 == 0 then low else low + 1

/-- The smallest positive double is `2 ^ (-unitBits)`. -/
def unitBits : Nat := 1074

/-- The bits of the double nearest to `num / den`. What has more than 53 binary digits, counted in
units, is cut down to so many; rounding up may carry into the exponent. -/
def nearestBits (num den : Nat) : Nat :=
  let units := num * Nat.pow 2 unitBits
  let scale := (units / den).log2 - 52
  min (scale * hiddenBit + roundQuotient units (den * Nat.pow 2 scale)) infinityBits

/-- `mantissa · 10 ^ exponent`, rounded once. Magnitudes beyond the range of doubles are settled
by their number of digits, so that no huge power is computed. -/
def scaledBits (mantissa : Nat) (exponent : Int) : Nat :=
  let top : Int := (Nat.toDigits 10 mantissa).length + exponent
  if mantissa = 0 || top < -330 then 0
  else if 310 < top then infinityBits
  else
    let (num, den) := powerOfTen exponent
    nearestBits (mantissa * num) den

def readDigits? (ds : List Char) : Option Nat :=
  if ds.isEmpty || !ds.all isDigit then none else some (ofDigits 10 ds)

def readExponent? : List Char → Option Int
  | [] => some 0
  | e :: rest =>
    if e != 'e' && e != 'E' then none
    else
      match rest with
      | '-' :: ds => (readDigits? ds).map fun n : Nat => -(n : Int)
      | '+' :: ds => (readDigits? ds).map Int.ofNat
      | ds => (readDigits? ds).map Int.ofNat

def readMagnitude? (cs : List Char) : Option Nat := do
  let whole := cs.takeWhile isDigit
  let (fraction, rest) : List Char × List Char :=
    match cs.dropWhile isDigit with
    | '.' :: after => (after.takeWhile isDigit, after.dropWhile isDigit)
    | after => ([], after)
  if whole.isEmpty && fraction.isEmpty then none
  else
    let exponent ← readExponent? rest
    some (scaledBits (ofDigits 10 (whole ++ fraction)) (exponent - fraction.length))

def readUnsigned? (cs : List Char) : Option Nat :=
  let word := String.ofList (cs.map Char.toLower)
  if word == "inf" || word == "infinity" then some infinityBits
  else if word == "nan" then some 0x7FF8000000000000
  else readMagnitude? cs

def readDouble? (text : String) : Option Float :=
  match text.toList with
  | '-' :: cs => (readUnsigned? cs).map fun bits => Float.ofBits (.ofNat (signBit + bits))
  | '+' :: cs => (readUnsigned? cs).map fun bits => Float.ofBits (.ofNat bits)
  | cs => (readUnsigned? cs).map fun bits => Float.ofBits (.ofNat bits)

end C1Lang.Number
