import C1Lang.Proofs.Token.Spelling
import Mathlib.Data.List.Induction
import Mathlib.Data.Nat.Digits.Defs
import Mathlib.Tactic.Ring

/-!
# The words of integer literals

An integer literal is read digit by digit into a machine word, and the reading stops when a product
or a sum leaves the word. It fails exactly when the number itself does not fit, however many zeros
stand in front of it (`readBelow?_eq`). So the word of a literal has the bits of its number, and
`2147483648` is the one decimal literal that becomes negative (`literal?_exact`).
-/

namespace C1Lang.Number

def figures : List Char := "0123456789abcdef".toList

def numeral (base : Nat) (ds : List Char) : Nat :=
  Nat.ofDigits base (ds.reverse.map fun c => figures.idxOf c.toLower)

def digitChars : List Char := "0123456789abcdefABCDEF".toList

theorem mem_digitChars {c : Char} (h : isHexDigit c = true) : c ∈ digitChars := by
  have hle : ∀ d e : Char, d ≤ e ↔ d.toNat ≤ e.toNat := fun _ _ => Iff.rfl
  have htop : ('9' : Char).toNat = 57 ∧ ('f' : Char).toNat = 102 ∧ ('F' : Char).toNat = 70 := by
    decide
  have hc : c.toNat < 128 := by
    simp only [isHexDigit, isDigit, Bool.or_eq_true, Bool.and_eq_true, decide_eq_true_eq, hle] at h
    omega
  have hascii : ∀ n < 128, isHexDigit (Char.ofNat n) = true → Char.ofNat n ∈ digitChars := by
    decide +kernel
  have hmem := hascii c.toNat hc
  rw [Char.ofNat_toNat] at hmem
  exact hmem h

theorem digitValue_eq {c : Char} (h : isHexDigit c = true) :
    digitValue c = figures.idxOf c.toLower := by
  have hvalues : (digitChars.all fun d => digitValue d == figures.idxOf d.toLower) = true := by
    decide +kernel
  exact beq_iff_eq.mp (List.all_eq_true.mp hvalues c (mem_digitChars h))

theorem isHexDigit_of_isDigit {c : Char} (h : isDigit c = true) : isHexDigit c = true := by
  simp [isHexDigit, h]

theorem ofDigits_eq_numeral (base : Nat) {ds : List Char} (h : ∀ c ∈ ds, isHexDigit c = true) :
    ofDigits base ds = numeral base ds := by
  induction ds using List.reverseRecOn with
  | nil => rfl
  | append_singleton ds c ih =>
    have hds : ∀ d ∈ ds, isHexDigit d = true := fun d hd => h d (List.mem_append_left _ hd)
    have hc : isHexDigit c = true := h c (by simp)
    have hlast : ofDigits base (ds ++ [c]) = ofDigits base ds * base + digitValue c := by
      simp [ofDigits, List.foldl_append]
    have hfirst : numeral base (ds ++ [c]) =
        figures.idxOf c.toLower + base * numeral base ds := by
      simp [numeral, Nat.ofDigits_cons]
    rw [hlast, hfirst, ih hds, digitValue_eq hc]
    ring

section Checked

variable {base bound : Nat} {digit : Char → Bool}

def fit? (bound n : Nat) : Option Nat := if n < bound then some n else none

/-- The number `n` with one more digit behind it, when the product and the sum both fit. -/
def push? (base : Nat) (digit : Char → Bool) (bound n : Nat) (c : Char) : Option Nat :=
  if digit c then (fit? bound (n * base)).bind fun m => fit? bound (m + digitValue c) else none

theorem push?_eq {n : Nat} {c : Char} (hc : digit c = true) :
    push? base digit bound n c = fit? bound (n * base + digitValue c) := by
  by_cases hprod : n * base < bound
  · simp [push?, fit?, hc, hprod]
  · have hsum : ¬ n * base + digitValue c < bound := by omega
    simp [push?, fit?, hc, hprod, hsum]

theorem le_foldl_digits (hbase : 0 < base) (n : Nat) (cs : List Char) :
    n ≤ cs.foldl (fun n c => n * base + digitValue c) n := by
  induction cs generalizing n with
  | nil => exact Nat.le_refl n
  | cons c cs ih =>
    have hstep : n ≤ n * base + digitValue c :=
      Nat.le_add_right_of_le (Nat.le_mul_of_pos_right n hbase)
    exact hstep.trans (ih _)

theorem foldlM_push? (hbase : 0 < base) {n : Nat} (hn : n < bound) (cs : List Char) :
    cs.foldlM (push? base digit bound) n =
      if cs.all digit then fit? bound (cs.foldl (fun n c => n * base + digitValue c) n)
      else none := by
  induction cs generalizing n with
  | nil => simp [fit?, hn]
  | cons c cs ih =>
    rw [List.foldlM_cons, List.all_cons, List.foldl_cons]
    by_cases hc : digit c = true
    · rw [push?_eq hc, hc, Bool.true_and]
      by_cases hstep : n * base + digitValue c < bound
      · rw [← ih hstep]
        simp [fit?, hstep]
      · have hend := le_foldl_digits hbase (n * base + digitValue c) cs
        have hover : ¬ cs.foldl (fun n c => n * base + digitValue c) (n * base + digitValue c) <
            bound := by omega
        simp [fit?, hstep, hover]
    · simp [push?, hc]

/-- Overflow on the way means overflow at the end. -/
theorem readBelow?_eq (hbase : 0 < base) (hbound : 0 < bound) (cs : List Char) :
    readBelow? base digit bound cs =
      if (dropPlus cs).isEmpty then none
      else (dropPlus cs).foldlM (push? base digit bound) 0 := by
  rw [foldlM_push? hbase hbound]
  by_cases hempty : (dropPlus cs).isEmpty = true
  · simp [readBelow?, hempty]
  · by_cases hall : (dropPlus cs).all digit = true
    · simp only [readBelow?, hempty, hall, Bool.not_true, Bool.or_self, if_pos]
      rfl
    · simp [readBelow?, hempty, hall]

end Checked

def readWord? (base : Nat) (digit : Char → Bool) (bits : Nat) (cs : List Char) :
    Option (BitVec bits) :=
  if (dropPlus cs).isEmpty then none
  else ((dropPlus cs).foldlM (push? base digit (2 ^ bits)) 0).map (BitVec.ofNat bits)

/-- An integer literal, as it is read into words: a hexadecimal one into 32 bits, a decimal one into
64 bits of which the lower half is kept. -/
def readLiteral? (lexeme : String) : Option Int32 :=
  match lexeme.toList with
  | '0' :: 'x' :: ds => (readWord? 16 isHexDigit 32 ds).map Int32.ofBitVec
  | '0' :: 'X' :: ds => (readWord? 16 isHexDigit 32 ds).map Int32.ofBitVec
  | cs =>
    match readWord? 10 isDigit 64 cs with
    | none => none
    | some w => if w ≤ 0x80000000 then some (Int32.ofBitVec (w.setWidth 32)) else none

theorem readWord?_eq {base : Nat} (hbase : 0 < base) (digit : Char → Bool) (bits : Nat)
    (cs : List Char) :
    readWord? base digit bits cs =
      (readBelow? base digit (2 ^ bits) cs).map (BitVec.ofNat bits) := by
  rw [readBelow?_eq hbase (Nat.two_pow_pos bits)]
  unfold readWord?
  split
  · rfl
  · rfl

theorem readDecimal?_lt {cs : List Char} {n : Nat} (h : readDecimal? cs = some n) :
    n < 2 ^ 64 := by
  unfold readDecimal? readBelow? at h
  grind

theorem readHexWord_eq (ds : List Char) :
    (readWord? 16 isHexDigit 32 ds).map Int32.ofBitVec = (readHex? ds).map Int32.ofNat := by
  rw [readWord?_eq (by omega), Option.map_map]
  rfl

theorem readDecimalWord_eq (cs : List Char) :
    (match readWord? 10 isDigit 64 cs with
      | none => none
      | some w => if w ≤ 0x80000000 then some (Int32.ofBitVec (w.setWidth 32)) else none) =
    match readDecimal? cs with
      | none => none
      | some n => if n ≤ minMagnitude then some (Int32.ofNat n) else none := by
  have hword : readWord? 10 isDigit 64 cs = (readDecimal? cs).map (BitVec.ofNat 64) :=
    readWord?_eq (by omega) isDigit 64 cs
  rw [hword]
  cases hread : readDecimal? cs with
  | none => rfl
  | some n =>
    have hn := readDecimal?_lt hread
    have hle : BitVec.ofNat 64 n ≤ 0x80000000 ↔ n ≤ minMagnitude := by
      rw [BitVec.le_def, BitVec.toNat_ofNat, Nat.mod_eq_of_lt hn]
      rfl
    have hcast : (BitVec.ofNat 64 n).setWidth 32 = BitVec.ofNat 32 n := by simp
    simp only [Option.map_some, hle, hcast]
    rfl

theorem readLiteral?_eq (lexeme : String) : readLiteral? lexeme = literal? lexeme := by
  unfold readLiteral?
  split
  · next ds heq =>
    rw [literal?, heq]
    exact readHexWord_eq ds
  · next ds heq =>
    rw [literal?, heq]
    exact readHexWord_eq ds
  · next hx hX =>
    rw [readDecimalWord_eq, eq_comm]
    unfold literal?
    split
    · next ds heq => exact absurd heq (hx ds)
    · next ds heq => exact absurd heq (hX ds)
    · rfl

theorem ofBitVec_neg_iff {n : Nat} (h : n ≤ minMagnitude) :
    Int32.ofBitVec (BitVec.ofNat 32 n) < 0 ↔ n = minMagnitude := by
  have hn : n % 2 ^ 32 = n := Nat.mod_eq_of_lt (by unfold minMagnitude at h; omega)
  rw [Int32.lt_iff_toInt_lt, Int32.toInt_ofBitVec, BitVec.toInt_eq_toNat_cond, BitVec.toNat_ofNat,
    hn, Int32.toInt_zero]
  unfold minMagnitude at h ⊢
  split
  · omega
  · omega

/-- A literal is read exactly, whatever its length and its leading zeros: it has the bits of the
number that it denotes, and it has no word when a decimal number is above `2147483648` or a
hexadecimal one needs more than 32 bits. -/
theorem literal?_exact :
    (∀ lexeme, readLiteral? lexeme = literal? lexeme) ∧
    (∀ ds, DigitText isDigit ds →
      literal? (String.ofList ds) =
        (if numeral 10 ds ≤ 2147483648 then
          some (Int32.ofBitVec (BitVec.ofNat 32 (numeral 10 ds))) else none) ∧
      (isMinMagnitude (String.ofList ds) = true ↔ numeral 10 ds = 2147483648) ∧
      (isMinMagnitude (String.ofList ds) = true ↔
        ∃ v, literal? (String.ofList ds) = some v ∧ v < 0)) ∧
    ∀ x ds, (x = 'x' ∨ x = 'X') → DigitText isHexDigit ds →
      literal? (String.ofList ('0' :: x :: ds)) =
        if numeral 16 ds < 4294967296 then
          some (Int32.ofBitVec (BitVec.ofNat 32 (numeral 16 ds))) else none := by
  refine ⟨readLiteral?_eq, fun ds hds => ?_, fun x ds hx hds => ?_⟩
  · have hnumeral := ofDigits_eq_numeral 10 fun c hc => isHexDigit_of_isDigit (hds.2 c hc)
    have hliteral := literal?_digits hds
    have hmin := isMinMagnitude_digits hds
    rw [hnumeral] at hliteral hmin
    refine ⟨hliteral, hmin, hmin.trans ?_⟩
    rw [hliteral]
    by_cases hle : numeral 10 ds ≤ minMagnitude
    · have hneg := ofBitVec_neg_iff hle
      rw [if_pos hle]
      constructor
      · intro h
        exact ⟨_, rfl, hneg.mpr h⟩
      · rintro ⟨v, hv, hlt⟩
        cases hv
        exact hneg.mp hlt
    · rw [if_neg hle]
      constructor
      · intro h
        exact absurd h.le hle
      · rintro ⟨v, hv, -⟩
        cases hv
  · have hnumeral := ofDigits_eq_numeral 16 hds.2
    have hliteral := literal?_hex hx hds
    rw [hnumeral] at hliteral
    exact hliteral

theorem literal?_exact_zeros :
    DigitText isDigit "00000000000000000000002147483648".toList ∧
    literal? "00000000000000000000002147483648" = some Int32.minValue ∧
    isMinMagnitude "00000000000000000000002147483648" = true ∧
    DigitText isHexDigit "00fFfFfFfF".toList ∧ literal? "0X00fFfFfFfF" = some (-1) ∧
    DigitText isDigit "18446744073709551616".toList ∧
    literal? "18446744073709551616" = none := by
  have hzeros : DigitText isDigit "00000000000000000000002147483648".toList :=
    ⟨by decide, List.all_eq_true.mp (by decide)⟩
  have hhex : DigitText isHexDigit "00fFfFfFfF".toList :=
    ⟨by decide, List.all_eq_true.mp (by decide)⟩
  have hwide : DigitText isDigit "18446744073709551616".toList :=
    ⟨by decide, List.all_eq_true.mp (by decide)⟩
  obtain ⟨-, hdecimal, hhexadecimal⟩ := literal?_exact
  refine ⟨hzeros, ?_, ?_, hhex, ?_, hwide, ?_⟩
  · exact (hdecimal _ hzeros).1.trans (by decide +kernel)
  · exact (hdecimal _ hzeros).2.1.mpr (by decide +kernel)
  · exact (hhexadecimal 'X' _ (.inr rfl) hhex).trans (by decide +kernel)
  · exact (hdecimal _ hwide).1.trans (by decide +kernel)

end C1Lang.Number
