import C1Lang.Number.Digits

/-!
# Dates and times in configurations

A moment is a day, a time of day, or both with a separator between them, and then perhaps the
distance from universal time. All fields have a fixed number of digits.
-/

namespace C1Lang.Toml

structure Day where
  year : Nat
  month : Nat
  day : Nat
deriving DecidableEq, Repr, Inhabited

/-- A time of day; the fraction of the second is kept as its digits. -/
structure Clock where
  hour : Nat
  minute : Nat
  second : Nat
  fraction : List Char := []
deriving DecidableEq, Repr, Inhabited

inductive Moment
  | day (day : Day)
  | clock (clock : Clock)
  | both (day : Day) (clock : Clock) (offset : Option Int)
deriving DecidableEq, Repr, Inhabited

def isLeapYear (year : Nat) : Bool :=
  year % 4 == 0 && (year % 100 != 0 || year % 400 == 0)

def daysIn (year month : Nat) : Nat :=
  if month = 2 then if isLeapYear year then 29 else 28
  else if month = 4 || month = 6 || month = 9 || month = 11 then 30
  else 31

def field? (width low high : Nat) (cs : List Char) : Option (Nat × List Char) :=
  let ds := cs.take width
  let n := Number.ofDigits 10 ds
  if ds.length = width && ds.all Number.isDigit && low ≤ n && n ≤ high then some (n, cs.drop width)
  else none

def after? (marks : List Char) : List Char → Option (List Char)
  | [] => none
  | c :: cs => if marks.contains c then some cs else none

def day? (cs : List Char) : Option (Day × List Char) := do
  let (year, cs) ← field? 4 0 9999 cs
  let (month, cs) ← field? 2 1 12 (← after? ['-'] cs)
  let (day, cs) ← field? 2 1 (daysIn year month) (← after? ['-'] cs)
  some (⟨year, month, day⟩, cs)

def secondFraction : List Char → List Char × List Char
  | '.' :: cs =>
    if (cs.takeWhile Number.isDigit).isEmpty then ([], '.' :: cs)
    else (cs.takeWhile Number.isDigit, cs.dropWhile Number.isDigit)
  | cs => ([], cs)

def clock? (cs : List Char) : Option (Clock × List Char) := do
  let (hour, cs) ← field? 2 0 23 cs
  let (minute, cs) ← field? 2 0 59 (← after? [':'] cs)
  let (second, cs) ← field? 2 0 60 (← after? [':'] cs)
  let (fraction, cs) := secondFraction cs
  some (⟨hour, minute, second, fraction⟩, cs)

def offset? : List Char → Option (Int × List Char)
  | 'Z' :: cs => some (0, cs)
  | 'z' :: cs => some (0, cs)
  | sign :: cs => do
    let _ ← after? ['+', '-'] [sign]
    let (hours, cs) ← field? 2 0 23 cs
    let (minutes, cs) ← field? 2 0 59 (← after? [':'] cs)
    let distance := Int.ofNat (60 * hours + minutes)
    some (if sign = '-' then -distance else distance, cs)
  | [] => none

def timeOfDay? (cs : List Char) : Option (Clock × Option Int × List Char) := do
  let (clock, cs) ← clock? (← after? ['T', 't', ' '] cs)
  match offset? cs with
  | some (offset, cs) => some (clock, some offset, cs)
  | none => some (clock, none, cs)

def moment? (cs : List Char) : Option (Moment × List Char) :=
  match day? cs with
  | some (day, cs) =>
    match timeOfDay? cs with
    | some (clock, offset, cs) => some (.both day clock offset, cs)
    | none => some (.day day, cs)
  | none => (clock? cs).map fun (clock, cs) => (.clock clock, cs)

end C1Lang.Toml
