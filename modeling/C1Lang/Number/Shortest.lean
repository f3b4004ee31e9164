/-!
# Doubles in their shortest digits

A finite double other than zero is `m · 2 ^ q`. The reals that round to it form an interval, whose
ends belong to it when `m` is even. Its shortest digits are those of the first decimal grid (one
digit, two digits, ...) that has a point in the interval, and of two such points the nearer one.
A `NumberFormat` then lays the digits out as a text.
-/

namespace C1Lang.Number

inductive Tie
  | up
  | even
deriving DecidableEq, Repr

/-- The digits `d₁ d₂ … dₙ` and the exponent `e` of `d₁.d₂…dₙ · 10 ^ e`. -/
structure Digits where
  digits : List Char
  exponent : Int
deriving DecidableEq, Repr

def signBit : Nat := 0x8000000000000000

/-- The bit above the fraction, which the mantissa of a normal number has and its pattern lacks. -/
def hiddenBit : Nat := 0x10000000000000

structure Binary where
  mantissa : Nat
  exponent : Int
deriving DecidableEq, Repr

/-- The number whose sign-less bit pattern is `bits`; the smallest exponent is shared by the
subnormal numbers. -/
def Binary.ofBits (bits : Nat) : Binary :=
  let biased : Nat := bits / hiddenBit
  let fraction := bits % hiddenBit
  if biased = 0 then ⟨fraction, -1074⟩ else ⟨hiddenBit + fraction, (biased : Int) - 1075⟩

/-- Four times the number and the ends of its interval, over one denominator. The interval is
narrower below a power of two, where the next double down is half as far away. -/
structure Interval where
  low : Nat
  value : Nat
  high : Nat
  unit : Nat
  closed : Bool
deriving DecidableEq, Repr

def Binary.interval (b : Binary) : Interval :=
  let shift := b.exponent - 2
  let scale := Nat.pow 2 shift.toNat
  let below := if b.mantissa = hiddenBit && -1074 < b.exponent then 1 else 2
  ⟨(4 * b.mantissa - below) * scale, 4 * b.mantissa * scale, (4 * b.mantissa + 2) * scale,
    Nat.pow 2 (-shift).toNat, b.mantissa % 2 == 0⟩

def powerOfTen (e : Int) : Nat × Nat := (Nat.pow 10 e.toNat, Nat.pow 10 (-e).toNat)

def Interval.contains (i : Interval) (d : Nat) (e : Int) : Bool :=
  let (num, den) := powerOfTen e
  let point := d * num * i.unit
  if i.closed then i.low * den ≤ point && point ≤ i.high * den
  else i.low * den < point && point < i.high * den

/-- The point of the grid `10 ^ e` for the number: of its two neighbours on the grid, one that
lies in the interval, the nearer one if both do. -/
def Interval.point? (tie : Tie) (i : Interval) (e : Int) : Option Nat :=
  let (num, den) := powerOfTen e
  let d := i.value * den / (i.unit * num)
  let rest := i.value * den % (i.unit * num)
  match i.contains d e, i.contains (d + 1) e with
  | true, false => some d
  | false, true => some (d + 1)
  | false, false => none
  | true, true =>
    if 2 * rest < i.unit * num then some d
    else if i.unit * num < 2 * rest then some (d + 1)
    else
      match tie with
      | .up => some (d + 1)
      | .even => some (if d % 2 = 0 then d else d + 1)

def Interval.magnitude (i : Interval) : Int :=
  if i.unit ≤ i.value then ((Nat.toDigits 10 (i.value / i.unit)).length : Int) - 1
  else
    -- The quotient `unit / value` has `n` digits, so `value` is at least `10 ^ (-n)`.
    let n := (Nat.toDigits 10 (i.unit / i.value)).length
    if i.unit ≤ i.value * Nat.pow 10 (n - 1) then -((n - 1 : Nat) : Int) else -(n : Int)

def dropTrailingZeros (ds : List Char) : List Char :=
  let kept := (ds.reverse.dropWhile (· == '0')).reverse
  if kept.isEmpty then ['0'] else kept

/-- Tries the grids with `count`, `count + 1`, … digits. Seventeen digits always suffice. -/
def Interval.search (tie : Tie) (i : Interval) (magnitude : Int) : Nat → Nat → Digits
  | 0, _ => ⟨['0'], 0⟩
  | fuel + 1, count =>
    let e := magnitude - count + 1
    match i.point? tie e with
    | some d =>
      let ds := Nat.toDigits 10 d
      ⟨dropTrailingZeros ds, e + ds.length - 1⟩
    | none => i.search tie magnitude fuel (count + 1)

def shortest (tie : Tie) (x : Float) : Digits :=
  let bits := x.toBits.toNat % signBit
  if bits = 0 then ⟨['0'], 0⟩
  else
    let i := (Binary.ofBits bits).interval
    i.search tie i.magnitude 17 1

structure NumberFormat where
  positional : Int → Bool
  pointed : Bool
  signed : Bool
  tie : Tie

def NumberFormat.positionalText (n : NumberFormat) (d : Digits) : List Char :=
  if d.exponent < 0 then
    '0' :: '.' :: (List.replicate (d.exponent.natAbs - 1) '0' ++ d.digits)
  else
    let wholeCount := d.exponent.toNat + 1
    let whole := d.digits.take wholeCount
    let fraction := d.digits.drop wholeCount
    let whole := whole ++ List.replicate (wholeCount - whole.length) '0'
    if fraction.isEmpty then if n.pointed then whole ++ ['.', '0'] else whole
    else whole ++ '.' :: fraction

def NumberFormat.scientificText (n : NumberFormat) (d : Digits) : List Char :=
  let mantissa :=
    match d.digits with
    | [] => ['0']
    | [c] => [c]
    | c :: rest => c :: '.' :: rest
  let sign := if d.exponent < 0 then ['-'] else if n.signed then ['+'] else []
  mantissa ++ 'e' :: (sign ++ Nat.toDigits 10 d.exponent.natAbs)

def isNegative (x : Float) : Bool := signBit ≤ x.toBits.toNat

def isFinite (x : Float) : Bool := x.toBits.toNat % signBit < 0x7FF0000000000000

def isNaN (x : Float) : Bool := 0x7FF0000000000000 < x.toBits.toNat % signBit

def NumberFormat.text (n : NumberFormat) (x : Float) : String :=
  if isNaN x then "NaN"
  else
    let sign := if isNegative x then ['-'] else []
    if !isFinite x then String.ofList (sign ++ ['i', 'n', 'f'])
    else
      let d := shortest n.tie x
      String.ofList
        (sign ++ if n.positional d.exponent then n.positionalText d else n.scientificText d)

def plain : NumberFormat := ⟨fun _ => true, false, false, .up⟩

/-- Dumps and assembly text switch to an exponent below `10 ^ (-4)` and from `10 ^ 16` on. -/
def compact : NumberFormat := ⟨fun e => -4 ≤ e && e < 16, true, false, .up⟩

/-- Data export switches to an exponent below `10 ^ (-5)` and from `10 ^ 16` on. -/
def interchange : NumberFormat := ⟨fun e => -5 ≤ e && e < 16, true, true, .even⟩

def upperHex (width n : Nat) : String :=
  let upper (c : Char) : Char := if 'a' ≤ c && c ≤ 'f' then Char.ofNat (c.toNat - 32) else c
  let ds := (Nat.toDigits 16 n).map upper
  String.ofList (List.replicate (width - ds.length) '0' ++ ds)

end C1Lang.Number
