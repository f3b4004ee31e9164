import C1Lang.Proofs.Number.Interval
import C1Lang.Proofs.Token.Locality
import C1Lang.Proofs.Token.Reading
import Mathlib.Data.List.TakeWhile

/-!
# Texts of numbers

A text of a double, in any of the number formats, belongs to that double only
(`NumberFormat.text_injective`): the text of a finite double denotes a point of its interval, and
the text without its sign begins differently for the infinities and the one NaN. Integers and
doubles are written with few characters, and in a format that shows a point they are told apart.
-/

namespace C1Lang.Number

theorem toBits_injective : Function.Injective Float.toBits := by
  intro x y h
  obtain ⟨⟨b, hb⟩⟩ := x
  obtain ⟨⟨c, hc⟩⟩ := y
  obtain rfl : b = c := h
  rfl

open Float.Model in
theorem isNaN_unique {x y : Float} (hx : isNaN x = true) (hy : isNaN y = true) : x = y := by
  have hpacked : ∀ {x : Float}, isNaN x = true →
      x.toBits.toBitVec = UnpackedFloat.packedNaN Format.binary64 := by
    intro x hx
    have hlarge : 0x7FF0000000000000 < x.toModel.toBits.toNat % 0x8000000000000000 :=
      of_decide_eq_true hx
    refine x.toModel.valid.eq_packedNaN ?_ ?_
    · apply BitVec.eq_of_toNat_eq
      show (x.toModel.toBits.toNat >>> 52) % 2 ^ 11 = 2 ^ 11 - 1
      rw [Nat.shiftRight_eq_div_pow]
      omega
    · intro hzero
      have hfraction := congrArg BitVec.toNat hzero
      have : x.toModel.toBits.toNat % 4503599627370496 = 0 := by
        simpa [UnpackedFloat.unpackMantissa] using hfraction
      omega
  apply toBits_injective
  exact UInt64.toBitVec_inj.mp ((hpacked hx).trans (hpacked hy).symm)

theorem ofDigits_append (base : Nat) (xs ys : List Char) :
    ofDigits base (xs ++ ys) = ofDigits base xs * base ^ ys.length + ofDigits base ys := by
  induction ys using List.reverseRecOn with
  | nil => simp [ofDigits]
  | append_singleton ys c ih =>
    simp only [ofDigits, ← List.append_assoc, List.foldl_append, List.foldl_cons, List.foldl_nil,
      List.length_append, List.length_singleton] at ih ⊢
    rw [ih]
    ring

theorem ofDigits_zeros (base n : Nat) : ofDigits base (List.replicate n '0') = 0 := by
  have hzero : digitValue '0' = 0 := by decide
  induction n with
  | zero => rfl
  | succ n ih =>
    rw [List.replicate_succ', ofDigits_append, ih]
    simp [ofDigits, hzero]

structure Digits.Proper (d : Digits) : Prop where
  digits : ∀ c ∈ d.digits, isDigit c = true
  nonempty : d.digits ≠ []

/-- The number that the digits stand for. -/
def Digits.value (d : Digits) : ℚ :=
  ofDigits 10 d.digits * 10 ^ (d.exponent - (d.digits.length - 1))

theorem dropTrailingZeros_spec (ds : List Char) :
    dropTrailingZeros ds = ['0'] ∧ ofDigits 10 ds = 0 ∨
    dropTrailingZeros ds ≠ [] ∧ ∃ k, ds = dropTrailingZeros ds ++ List.replicate k '0' := by
  have hsplit : ds = (ds.reverse.dropWhile (· == '0')).reverse ++
      (ds.reverse.takeWhile (· == '0')).reverse := by
    rw [← List.reverse_append, List.takeWhile_append_dropWhile, List.reverse_reverse]
  have hzeros : ∃ k, (ds.reverse.takeWhile (· == '0')).reverse = List.replicate k '0' := by
    refine ⟨_, List.eq_replicate_of_mem fun c hc => ?_⟩
    simpa using List.mem_takeWhile_imp (List.mem_reverse.mp hc)
  obtain ⟨k, hk⟩ := hzeros
  rw [hk] at hsplit
  unfold dropTrailingZeros
  dsimp only
  split
  · next hempty =>
    rw [List.isEmpty_iff.mp hempty, List.nil_append] at hsplit
    exact .inl ⟨rfl, hsplit ▸ ofDigits_zeros 10 k⟩
  · next hne => exact .inr ⟨by simpa using hne, k, hsplit⟩

theorem gridDigits_proper (d : Nat) (e : Int) : (gridDigits d e).Proper := by
  have hdigits : ∀ c ∈ Nat.toDigits 10 d, isDigit c = true := fun c hc => isDigit_of_mem_toDigits hc
  rcases dropTrailingZeros_spec (Nat.toDigits 10 d) with ⟨hzero, -⟩ | ⟨hne, k, hk⟩
  · have hdrop : (gridDigits d e).digits = ['0'] := hzero
    exact ⟨hdrop ▸ List.forall_mem_singleton.mpr (by decide), by rw [hdrop]; decide⟩
  · refine ⟨fun c hc => hdigits c ?_, hne⟩
    rw [hk]
    exact List.mem_append_left _ hc

theorem gridDigits_value (d : Nat) (e : Int) : (gridDigits d e).value = d * 10 ^ e := by
  have hread := ofDigits_toDigits d
  rcases dropTrailingZeros_spec (Nat.toDigits 10 d) with ⟨hzero, hd⟩ | ⟨hne, k, hk⟩
  · have hdrop : (gridDigits d e).digits = ['0'] := hzero
    have hzero' : ofDigits 10 ['0'] = 0 := by decide
    rw [Digits.value, hdrop, hzero', ← hread, hd]
    simp
  · have hlen := congrArg List.length hk
    have hvalue := congrArg (ofDigits 10) hk
    rw [ofDigits_append, ofDigits_zeros, hread, Nat.add_zero, List.length_replicate] at hvalue
    rw [List.length_append, List.length_replicate] at hlen
    simp only [Digits.value, gridDigits, hlen]
    have hexp : e + ((dropTrailingZeros (Nat.toDigits 10 d)).length + k : Nat) - 1 -
        ((dropTrailingZeros (Nat.toDigits 10 d)).length - 1) = k + e := by
      push_cast
      ring
    rw [hexp, zpow_add₀ (by norm_num), zpow_natCast, ← mul_assoc]
    exact_mod_cast congrArg (fun n : Nat => (n : ℚ) * 10 ^ e) hvalue.symm

section Reading

open Lexer (span_append)

def exponentOf : List Char → Int
  | 'e' :: '-' :: ds => -(ofDigits 10 ds : Int)
  | 'e' :: '+' :: ds => ofDigits 10 ds
  | 'e' :: ds => ofDigits 10 ds
  | _ => 0

@[simp] theorem exponentOf_nil : exponentOf [] = 0 := rfl

def valueOf (cs : List Char) : ℚ :=
  let whole := cs.takeWhile isDigit
  match cs.dropWhile isDigit with
  | '.' :: after =>
    let fraction := after.takeWhile isDigit
    ofDigits 10 (whole ++ fraction) *
      10 ^ (exponentOf (after.dropWhile isDigit) - fraction.length)
  | after => ofDigits 10 whole * 10 ^ exponentOf after

def Ends (tail : List Char) : Prop := ∀ c ∈ tail.head?, isDigit c = false

variable {whole fraction tail : List Char}

theorem valueOf_pointed (hw : ∀ c ∈ whole, isDigit c = true) (hf : ∀ c ∈ fraction, isDigit c = true)
    (ht : Ends tail) : valueOf (whole ++ '.' :: (fraction ++ tail)) =
      ofDigits 10 (whole ++ fraction) * 10 ^ (exponentOf tail - fraction.length) := by
  have hpoint : ∀ c ∈ ('.' :: (fraction ++ tail)).head?, isDigit c = false := by
    simp
    decide
  obtain ⟨htake, hdrop⟩ := span_append hw hpoint
  obtain ⟨htake', hdrop'⟩ := span_append hf ht
  simp only [valueOf, htake, hdrop, htake', hdrop']

theorem valueOf_whole (hw : ∀ c ∈ whole, isDigit c = true) (ht : Ends tail)
    (hp : tail.head? ≠ some '.') :
    valueOf (whole ++ tail) = ofDigits 10 whole * 10 ^ exponentOf tail := by
  obtain ⟨htake, hdrop⟩ := span_append hw ht
  unfold valueOf
  simp only [htake, hdrop]
  split
  · simp at hp
  · rfl

theorem ends_nil : Ends [] := by simp [Ends]

theorem ends_exponent (cs : List Char) : Ends ('e' :: cs) := by
  intro c hc
  obtain rfl : 'e' = c := by simpa using hc
  decide

theorem exponentOf_written (signed : Bool) (e : Int) :
    exponentOf ('e' :: ((if e < 0 then ['-'] else if signed then ['+'] else []) ++
      Nat.toDigits 10 e.natAbs)) = e := by
  obtain ⟨d, ds, hds, hd, -⟩ := exists_toDigits e.natAbs
  have hread := ofDigits_toDigits e.natAbs
  split
  · simp only [List.cons_append, List.nil_append, exponentOf, hread]
    omega
  · split
    · simp only [List.cons_append, List.nil_append, exponentOf, hread]
      omega
    · -- without a sign, the first character is a digit
      rw [List.nil_append, hds]
      rw [hds] at hread
      have hplain : exponentOf ('e' :: d :: ds) = ofDigits 10 (d :: ds) := by
        unfold exponentOf
        split
        · next heq =>
          cases heq
          exact absurd hd (by decide)
        · next heq =>
          cases heq
          exact absurd hd (by decide)
        · next heq =>
          cases heq
          rfl
        · next h => exact absurd rfl (h _)
      rw [hplain, hread]
      omega

end Reading

section Formats

variable {n : NumberFormat} {d : Digits}

theorem isDigit_zeros (k : Nat) : ∀ c ∈ List.replicate k '0', isDigit c = true := by
  intro c hc
  rw [List.eq_of_mem_replicate hc]
  decide

theorem isDigit_append {xs ys : List Char} (hxs : ∀ c ∈ xs, isDigit c = true)
    (hys : ∀ c ∈ ys, isDigit c = true) : ∀ c ∈ xs ++ ys, isDigit c = true :=
  fun c hc => (List.mem_append.mp hc).elim (hxs c) (hys c)

theorem valueOf_fraction {whole fraction : List Char} (hw : ∀ c ∈ whole, isDigit c = true)
    (hf : ∀ c ∈ fraction, isDigit c = true) : valueOf (whole ++ '.' :: fraction) =
      ofDigits 10 (whole ++ fraction) * 10 ^ (-(fraction.length : Int)) := by
  have h := valueOf_pointed hw hf ends_nil
  rwa [List.append_nil, exponentOf_nil, zero_sub] at h

theorem positionalText_small (n : NumberFormat) (hd : d.Proper) (he : d.exponent < 0) :
    valueOf (n.positionalText d) = d.value := by
  unfold NumberFormat.positionalText
  rw [if_pos he]
  have hone : ∀ c ∈ ['0'], isDigit c = true := List.forall_mem_singleton.mpr (by decide)
  refine (valueOf_fraction hone (isDigit_append (isDigit_zeros _) hd.digits)).trans ?_
  have hzero : ofDigits 10 ['0'] = 0 := by decide
  have hexp : -((List.replicate (d.exponent.natAbs - 1) '0' ++ d.digits).length : Int) =
      d.exponent - (d.digits.length - 1) := by
    rw [List.length_append, List.length_replicate]
    push_cast
    omega
  rw [ofDigits_append, ofDigits_append, ofDigits_zeros, hzero, hexp, Digits.value]
  simp

theorem value_padded {w : Nat} (hw : d.digits.length ≤ w) (he : d.exponent = (w : Int) - 1) :
    (ofDigits 10 (d.digits ++ List.replicate (w - d.digits.length) '0') : ℚ) = d.value := by
  have hexp : (w : Int) - 1 - (d.digits.length - 1) = (w - d.digits.length : Nat) := by
    rw [Nat.cast_sub hw]
    ring
  rw [Digits.value, he, hexp, zpow_natCast, ofDigits_append, ofDigits_zeros, List.length_replicate]
  push_cast
  ring

theorem positionalText_large (n : NumberFormat) (hd : d.Proper) (he : ¬ d.exponent < 0) :
    valueOf (n.positionalText d) = d.value := by
  unfold NumberFormat.positionalText
  rw [if_neg he]
  have he : d.exponent = ((d.exponent.toNat + 1 : Nat) : Int) - 1 := by omega
  generalize d.exponent.toNat + 1 = w at he
  dsimp only
  split
  · next hempty =>
    -- all digits stand before the point
    have hw : d.digits.length ≤ w := List.drop_eq_nil_iff.mp (List.isEmpty_iff.mp hempty)
    rw [List.take_of_length_le hw]
    have hwhole := isDigit_append hd.digits (isDigit_zeros (w - d.digits.length))
    split
    · refine (valueOf_fraction hwhole (isDigit_zeros 1)).trans ?_
      rw [ofDigits_append, ← value_padded hw he, ofDigits_zeros]
      simp
    · have h := valueOf_whole hwhole ends_nil (by simp)
      rw [List.append_nil] at h
      rw [h, value_padded hw he]
      simp
  · next hrest =>
    have hw : w < d.digits.length := by
      simpa [List.isEmpty_iff, List.drop_eq_nil_iff] using hrest
    have htake : (d.digits.take w).length = w := List.length_take_of_le hw.le
    rw [htake, Nat.sub_self, List.replicate_zero, List.append_nil]
    have hwhole : ∀ c ∈ d.digits.take w, isDigit c = true :=
      fun c hc => hd.digits c (List.mem_of_mem_take hc)
    have hfraction : ∀ c ∈ d.digits.drop w, isDigit c = true :=
      fun c hc => hd.digits c (List.mem_of_mem_drop hc)
    refine (valueOf_fraction hwhole hfraction).trans ?_
    have hexp : -((d.digits.drop w).length : Int) = d.exponent - (d.digits.length - 1) := by
      rw [List.length_drop, Nat.cast_sub hw.le, he]
      ring
    rw [List.take_append_drop, hexp, Digits.value]

theorem positionalText_value (n : NumberFormat) (hd : d.Proper) :
    valueOf (n.positionalText d) = d.value := by
  by_cases he : d.exponent < 0
  · exact positionalText_small n hd he
  · exact positionalText_large n hd he

theorem scientificText_value (n : NumberFormat) (hd : d.Proper) :
    valueOf (n.scientificText d) = d.value := by
  have hexponent := exponentOf_written n.signed d.exponent
  have htail := ends_exponent ((if d.exponent < 0 then ['-'] else if n.signed then ['+'] else []) ++
    Nat.toDigits 10 d.exponent.natAbs)
  obtain ⟨digits, exponent⟩ := d
  obtain ⟨hdigits, hne⟩ := hd
  unfold NumberFormat.scientificText
  match digits with
  | [] => exact absurd rfl hne
  | [c] =>
    refine (valueOf_whole hdigits htail (by simp)).trans ?_
    rw [hexponent, Digits.value]
    simp
  | c :: c' :: rest =>
    obtain ⟨hc, hrest⟩ := List.forall_mem_cons.mp hdigits
    have hwhole : ∀ x ∈ [c], isDigit x = true := List.forall_mem_singleton.mpr hc
    have h := valueOf_pointed hwhole hrest htail
    refine Eq.trans ?_ (h.trans ?_)
    · simp
    · rw [hexponent, Digits.value]
      simp

end Formats

def magnitudeBits (x : Float) : Nat := x.toBits.toNat % signBit

theorem shortest_spec (tie : Tie) (x : Float) : (shortest tie x).Proper ∧
    (magnitudeBits x = 0 ∧ (shortest tie x).value = 0 ∨
      0 < magnitudeBits x ∧
        (Binary.ofBits (magnitudeBits x)).interval.Mem (shortest tie x).value) := by
  unfold shortest magnitudeBits
  dsimp only
  split
  · next hzero =>
    have hdigits : ofDigits 10 ['0'] = 0 := by decide
    exact ⟨⟨List.forall_mem_singleton.mpr (by decide), by decide⟩,
      .inl ⟨hzero, by simp [Digits.value, hdigits]⟩⟩
  · next hne =>
    have hpos := Nat.pos_of_ne_zero hne
    obtain ⟨d, e, hmem, hsearch⟩ := search_finds tie hpos
    rw [hsearch]
    exact ⟨gridDigits_proper d e, .inr ⟨hpos, gridDigits_value d e ▸ hmem⟩⟩

theorem shortest_value_injective {tie : Tie} {x y : Float}
    (h : (shortest tie x).value = (shortest tie y).value) : magnitudeBits x = magnitudeBits y := by
  have hpos : ∀ {z : Float} {v : ℚ}, 0 < magnitudeBits z →
      (Binary.ofBits (magnitudeBits z)).interval.Mem v → 0 < v := fun hz hmem =>
    (Binary.lower_pos (Binary.mantissa_pos hz)).trans_le hmem.le.1
  obtain ⟨-, ⟨hx, hvx⟩ | ⟨hx, hmx⟩⟩ := shortest_spec tie x <;>
    obtain ⟨-, ⟨hy, hvy⟩ | ⟨hy, hmy⟩⟩ := shortest_spec tie y
  · rw [hx, hy]
  · exact absurd (hpos hy hmy) (by rw [← h, hvx]; exact lt_irrefl _)
  · exact absurd (hpos hx hmx) (by rw [h, hvy]; exact lt_irrefl _)
  · exact hmx.unique (h ▸ hmy)

/-- The text of a double that is no NaN, without its sign. -/
def NumberFormat.unsigned (n : NumberFormat) (x : Float) : List Char :=
  if isFinite x then
    let d := shortest n.tie x
    if n.positional d.exponent then n.positionalText d else n.scientificText d
  else ['i', 'n', 'f']

theorem NumberFormat.text_toList (n : NumberFormat) (x : Float) : (n.text x).toList =
    if isNaN x then ['N', 'a', 'N'] else (if isNegative x then ['-'] else []) ++ n.unsigned x := by
  unfold text unsigned
  split
  · rfl
  · cases isFinite x <;> simp

theorem NumberFormat.unsigned_value (n : NumberFormat) {x : Float} (hx : isFinite x = true) :
    valueOf (n.unsigned x) = (shortest n.tie x).value := by
  have hd := (shortest_spec n.tie x).1
  unfold unsigned
  rw [if_pos hx]
  dsimp only
  split
  · exact positionalText_value n hd
  · exact scientificText_value n hd

theorem positionalText_head (n : NumberFormat) {d : Digits} (hd : d.Proper) :
    ∃ c rest, n.positionalText d = c :: rest ∧ isDigit c = true := by
  obtain ⟨c, rest, hc⟩ := List.exists_cons_of_ne_nil hd.nonempty
  have hdigit : isDigit c = true := hd.digits c (hc ▸ List.mem_cons_self)
  unfold NumberFormat.positionalText
  split
  · exact ⟨'0', _, rfl, by decide⟩
  · rw [hc]
    dsimp only
    rw [List.take_succ_cons]
    split
    · split <;> exact ⟨c, _, rfl, hdigit⟩
    · exact ⟨c, _, rfl, hdigit⟩

theorem scientificText_head (n : NumberFormat) {d : Digits} (hd : d.Proper) :
    ∃ c rest, n.scientificText d = c :: rest ∧ isDigit c = true := by
  obtain ⟨c, rest, hc⟩ := List.exists_cons_of_ne_nil hd.nonempty
  have hdigit : isDigit c = true := hd.digits c (hc ▸ List.mem_cons_self)
  unfold NumberFormat.scientificText
  rw [hc]
  cases rest <;> exact ⟨c, _, rfl, hdigit⟩

theorem NumberFormat.unsigned_head (n : NumberFormat) (x : Float) :
    ∃ c rest, n.unsigned x = c :: rest ∧ if isFinite x then isDigit c = true else c = 'i' := by
  have hd := (shortest_spec n.tie x).1
  unfold unsigned
  split
  · dsimp only
    split
    · exact positionalText_head n hd
    · exact scientificText_head n hd
  · exact ⟨'i', _, rfl, rfl⟩

theorem eq_of_magnitudeBits {x y : Float} (hs : isNegative x = isNegative y)
    (hm : magnitudeBits x = magnitudeBits y) : x = y := by
  apply toBits_injective
  apply UInt64.toNat_inj.mp
  have hx := x.toBits.toNat_lt
  have hy := y.toBits.toNat_lt
  simp only [isNegative, decide_eq_decide] at hs
  unfold magnitudeBits signBit at *
  omega

theorem NumberFormat.signed_injective {n : NumberFormat} {x y : Float}
    (h : (if isNegative x then ['-'] else []) ++ n.unsigned x =
      (if isNegative y then ['-'] else []) ++ n.unsigned y) :
    isNegative x = isNegative y ∧ n.unsigned x = n.unsigned y := by
  have hminus : ∀ z : Float, ∀ rest, n.unsigned z ≠ '-' :: rest := by
    intro z rest heq
    obtain ⟨c, rest', hc, hhead⟩ := n.unsigned_head z
    rw [heq] at hc
    cases hc
    split at hhead
    · exact absurd hhead (by decide)
    · exact absurd hhead (by decide)
  cases hx : isNegative x <;> cases hy : isNegative y <;>
    simp only [hx, hy, Bool.false_eq_true, if_true, if_false, List.nil_append,
      List.cons_append, List.cons.injEq, true_and] at h
  · exact ⟨rfl, h⟩
  · exact absurd h (hminus x _)
  · exact absurd h.symm (hminus y _)
  · exact ⟨rfl, h⟩

theorem NumberFormat.unsigned_injective {n : NumberFormat} {x y : Float} (hx : isNaN x = false)
    (hy : isNaN y = false) (h : n.unsigned x = n.unsigned y) :
    magnitudeBits x = magnitudeBits y := by
  have hfinite : isFinite x = isFinite y := by
    obtain ⟨c, rest, hc, hhead⟩ := n.unsigned_head x
    obtain ⟨c', rest', hc', hhead'⟩ := n.unsigned_head y
    obtain ⟨rfl, -⟩ : c = c' ∧ rest = rest' := by simpa [hc, hc'] using h
    have hi : isDigit 'i' = false := by decide
    cases hfx : isFinite x <;> cases hfy : isFinite y <;> simp_all
  cases hfy : isFinite y with
  | true =>
    have hvalue := congrArg valueOf h
    rw [n.unsigned_value (hfinite.trans hfy), n.unsigned_value hfy] at hvalue
    exact shortest_value_injective hvalue
  | false =>
    -- the only magnitude that is neither finite nor that of a NaN
    have hfx := hfinite.trans hfy
    simp only [isFinite, isNaN, decide_eq_false_iff_not] at hfx hfy hx hy
    unfold magnitudeBits
    omega

/-- In each format, no two doubles have the same text. -/
theorem NumberFormat.text_injective (n : NumberFormat) : Function.Injective n.text := by
  intro x y h
  have hlist := congrArg String.toList h
  rw [n.text_toList, n.text_toList] at hlist
  have hnan : ∀ z : Float, ['N', 'a', 'N'] ≠
      (if isNegative z then ['-'] else []) ++ n.unsigned z := by
    intro z heq
    obtain ⟨c, rest, hc, hhead⟩ := n.unsigned_head z
    rw [hc] at heq
    have hN : isDigit 'N' = false := by decide
    cases hz : isNegative z <;> simp [hz] at heq
    obtain ⟨rfl, -⟩ := heq
    split at hhead
    · exact absurd hhead (by decide)
    · exact absurd hhead (by decide)
  cases hx : isNaN x <;> cases hy : isNaN y <;>
    simp only [hx, hy, Bool.false_eq_true, if_true, if_false] at hlist
  · obtain ⟨hs, hu⟩ := NumberFormat.signed_injective hlist
    exact eq_of_magnitudeBits hs (NumberFormat.unsigned_injective hx hy hu)
  · exact absurd hlist.symm (hnan x)
  · exact absurd hlist (hnan y)
  · exact isNaN_unique hx hy

section Characters

def isNumeric (c : Char) : Bool := isDigit c || c ∈ ['+', '-', '.', 'e', 'i', 'n', 'f', 'N', 'a']

theorem isNumeric_of_isDigit {c : Char} (h : isDigit c = true) : isNumeric c = true := by
  simp [isNumeric, h]

def NumericText (cs : List Char) : Prop := ∀ c ∈ cs, isNumeric c = true

namespace NumericText

variable {c : Char} {cs ds : List Char}

theorem nil : NumericText [] := List.forall_mem_nil _

theorem cons (hc : isNumeric c = true) (h : NumericText cs) : NumericText (c :: cs) :=
  List.forall_mem_cons.mpr ⟨hc, h⟩

theorem append (h : NumericText cs) (k : NumericText ds) : NumericText (cs ++ ds) :=
  List.forall_mem_append.mpr ⟨h, k⟩

theorem of_digits (h : ∀ c ∈ cs, isDigit c = true) : NumericText cs :=
  fun c hc => isNumeric_of_isDigit (h c hc)

end NumericText

variable {n : NumberFormat} {d : Digits}

theorem positionalText_numeric (hd : d.Proper) : NumericText (n.positionalText d) := by
  unfold NumberFormat.positionalText
  split
  · exact .cons (by decide) (.cons (by decide)
      (.of_digits (isDigit_append (isDigit_zeros _) hd.digits)))
  · dsimp only
    have hwhole : ∀ k m, NumericText (d.digits.take k ++ List.replicate m '0') := fun k m =>
      .of_digits (isDigit_append (fun c hc => hd.digits c (List.mem_of_mem_take hc))
        (isDigit_zeros m))
    split
    · split
      · exact (hwhole _ _).append (.cons (by decide) (.cons (by decide) .nil))
      · exact hwhole _ _
    · exact (hwhole _ _).append (.cons (by decide)
        (.of_digits fun c hc => hd.digits c (List.mem_of_mem_drop hc)))

theorem scientificText_numeric (hd : d.Proper) : NumericText (n.scientificText d) := by
  unfold NumberFormat.scientificText
  dsimp only
  refine .append ?_ (.cons (by decide) (.append ?_
    (.of_digits fun c hc => isDigit_of_mem_toDigits hc)))
  · have hdigits : NumericText d.digits := .of_digits hd.digits
    split
    · exact .cons (by decide) .nil
    · next h => exact h ▸ hdigits
    · next h =>
      rw [h] at hdigits
      obtain ⟨hc, hrest⟩ := List.forall_mem_cons.mp hdigits
      exact .cons hc (.cons (by decide) hrest)
  · split
    · exact .cons (by decide) .nil
    · split
      · exact .cons (by decide) .nil
      · exact .nil

theorem NumberFormat.text_numeric (n : NumberFormat) (x : Float) :
    NumericText (n.text x).toList := by
  have hd := (shortest_spec n.tie x).1
  have hunsigned : NumericText (n.unsigned x) := by
    unfold unsigned
    split
    · dsimp only
      split
      · exact positionalText_numeric hd
      · exact scientificText_numeric hd
    · exact List.all_eq_true.mp (by decide)
  rw [n.text_toList]
  split
  · exact List.all_eq_true.mp (by decide)
  · split
    · exact .cons (by decide) hunsigned
    · exact hunsigned

theorem NumberFormat.text_pointed (hn : n.pointed = true) (x : Float) :
    ∃ c ∈ (n.text x).toList, isDigit c = false ∧ c ≠ '-' := by
  have hpositional : '.' ∈ n.positionalText (shortest n.tie x) := by
    unfold positionalText
    grind
  have hscientific : 'e' ∈ n.scientificText (shortest n.tie x) := by
    unfold scientificText
    grind
  rw [n.text_toList]
  by_cases hnan : isNaN x
  · exact ⟨'N', by simp [hnan], by decide, by decide⟩
  have hunsigned : ∀ c ∈ n.unsigned x, c ∈ (if isNaN x then ['N', 'a', 'N'] else
      (if isNegative x then ['-'] else []) ++ n.unsigned x) := by
    intro c hc
    rw [if_neg hnan]
    exact List.mem_append_right _ hc
  by_cases hfinite : isFinite x
  · by_cases hexp : n.positional (shortest n.tie x).exponent
    · exact ⟨'.', hunsigned _ (by simpa [unsigned, hfinite, hexp]), by decide, by decide⟩
    · exact ⟨'e', hunsigned _ (by simpa [unsigned, hfinite, hexp]), by decide, by decide⟩
  · exact ⟨'i', hunsigned _ (by simp [unsigned, hfinite]), by decide, by decide⟩

theorem integerText_toList (k : Int) : (toString k).toList =
    (if k < 0 then ['-'] else []) ++ Nat.toDigits 10 k.natAbs := by
  show k.repr.toList = _
  rw [Int.repr_eq_if]
  by_cases hk : k < 0
  · have habs : (-k).toNat = k.natAbs := by omega
    rw [if_neg (by omega), if_pos hk, String.toList_append, Nat.toList_repr, habs]
    rfl
  · have habs : k.toNat = k.natAbs := by omega
    rw [if_pos (by omega), if_neg hk, Nat.toList_repr, habs, List.nil_append]

theorem integerText_digits (k : Int) :
    ∀ c ∈ (toString k).toList, isDigit c = true ∨ c = '-' := by
  intro c hc
  rw [integerText_toList] at hc
  rcases List.mem_append.mp hc with hsign | hdigit
  · split at hsign
    · exact .inr (List.mem_singleton.mp hsign)
    · cases hsign
  · exact .inl (isDigit_of_mem_toDigits hdigit)

theorem integerText_ne_nil (k : Int) : (toString k).toList ≠ [] := by
  rw [integerText_toList]
  simp [Nat.toDigits_ne_nil]

/-- The digits say what the number is but for its sign, and the sign stands before a digit. -/
theorem integerText_injective {k l : Int} (h : (toString k).toList = (toString l).toList) :
    k = l := by
  rw [integerText_toList, integerText_toList] at h
  have hread : ∀ {m n : Nat}, Nat.toDigits 10 m = Nat.toDigits 10 n → m = n := fun {m n} h => by
    rw [← ofDigits_toDigits m, h, ofDigits_toDigits]
  have hminus : ∀ n rest, Nat.toDigits 10 n ≠ '-' :: rest := fun n rest heq =>
    absurd (isDigit_of_mem_toDigits (heq ▸ List.mem_cons_self)) (by decide)
  by_cases hk : k < 0 <;> by_cases hl : l < 0 <;>
    simp only [hk, hl, if_true, if_false, List.nil_append, List.cons_append, List.cons.injEq,
      true_and] at h
  · have := hread h
    omega
  · exact absurd h.symm (hminus _ _)
  · exact absurd h (hminus _ _)
  · have := hread h
    omega

end Characters

end C1Lang.Number
