import C1Lang.Number.Decimal
import C1Lang.Proofs.Number.Interval
import Mathlib.Data.Rat.Cast.Order

/-!
# The double nearest to a rational

The doubles without a sign are in the order of their bits, and all of them are multiples of
`2 ^ (-1074)`. A rational has one nearest double when infinity counts as `2 ^ 1024` and of two
doubles that are equally near the even one is taken (`Nearest.unique`). The bits of a decimal number
are those of that double (`scaledBits_nearest`).
-/

namespace C1Lang.Number

/-- The double with these bits, in units of `2 ^ (-1074)`: below an exponent of 11 bits stand the 52
bits of a fraction, with a bit before them that is one unless the exponent is zero. -/
def unitsOf (bits : Nat) : Nat :=
  if bits / 2 ^ 52 = 0 then bits else (2 ^ 52 + bits % 2 ^ 52) * 2 ^ (bits / 2 ^ 52 - 1)

def bitsValue (bits : Nat) : ℚ := unitsOf bits / 2 ^ 1074

theorem bitsValue_eq (bits : Nat) : bitsValue bits = unitsOf bits / 2 ^ unitBits := by
  have hunit : unitBits = 1074 := rfl
  rw [bitsValue, hunit]

/-- No double is nearer to `x`, and none is as near unless this one is even. -/
structure Nearest (x : ℚ) (bits : Nat) : Prop where
  le : bits ≤ 0x7FF0000000000000
  near : ∀ other ≤ 0x7FF0000000000000, |x - bitsValue bits| ≤ |x - bitsValue other|
  even : ∀ other ≤ 0x7FF0000000000000, other ≠ bits →
    |x - bitsValue bits| = |x - bitsValue other| → bits % 2 = 0

section Order

theorem unitsOf_eq {scale mantissa : Nat} (hlow : scale = 0 ∨ hiddenBit ≤ mantissa)
    (hhigh : mantissa ≤ 2 * hiddenBit) :
    unitsOf (scale * hiddenBit + mantissa) = mantissa * 2 ^ scale := by
  unfold hiddenBit at *
  unfold unitsOf
  rcases Nat.lt_or_ge mantissa 0x10000000000000 with hsub | hnormal
  · obtain rfl : scale = 0 := by omega
    rw [if_pos (by omega)]
    simp
  · rcases Nat.lt_or_ge mantissa (2 * 0x10000000000000) with hlt | hge
    · have hdiv : (scale * 0x10000000000000 + mantissa) / 2 ^ 52 = scale + 1 := by omega
      have hmod : 2 ^ 52 + (scale * 0x10000000000000 + mantissa) % 2 ^ 52 = mantissa := by omega
      rw [hdiv, hmod, if_neg (by omega), Nat.add_sub_cancel]
    · -- the mantissa has carried into the next power of two
      obtain rfl : mantissa = 2 * 0x10000000000000 := by omega
      have hdiv : (scale * 0x10000000000000 + 2 * 0x10000000000000) / 2 ^ 52 = scale + 2 := by
        omega
      have hmod : (scale * 0x10000000000000 + 2 * 0x10000000000000) % 2 ^ 52 = 0 := by omega
      rw [hdiv, hmod, if_neg (by omega)]
      have hpow : 2 ^ (scale + 2 - 1) = 2 * 2 ^ scale := by
        rw [Nat.add_sub_assoc (by omega), Nat.pow_add, Nat.mul_comm]
      rw [hpow]
      ring

theorem exists_mantissa (bits : Nat) : ∃ scale mantissa, bits = scale * hiddenBit + mantissa ∧
    (scale = 0 ∨ hiddenBit ≤ mantissa) ∧ mantissa < 2 * hiddenBit := by
  unfold hiddenBit
  rcases Nat.lt_or_ge bits 0x10000000000000 with hsub | hnormal
  · exact ⟨0, bits, by omega, .inl rfl, by omega⟩
  · exact ⟨bits / 0x10000000000000 - 1, 0x10000000000000 + bits % 0x10000000000000, by omega,
      .inr (by omega), by omega⟩

theorem unitsOf_strictMono : StrictMono unitsOf := by
  refine strictMono_nat_of_lt_succ fun bits => ?_
  obtain ⟨scale, mantissa, rfl, hlow, hhigh⟩ := exists_mantissa bits
  rw [Nat.add_assoc, unitsOf_eq hlow hhigh.le, unitsOf_eq (by omega) hhigh]
  exact Nat.mul_lt_mul_of_pos_right (Nat.lt_succ_self _) (by positivity)

theorem bitsValue_strictMono : StrictMono bitsValue := by
  intro m n hmn
  have hunits : (unitsOf m : ℚ) < unitsOf n := by exact_mod_cast unitsOf_strictMono hmn
  exact div_lt_div_of_pos_right hunits (by positivity)

theorem bitsValue_zero : bitsValue 0 = 0 := by
  simp [bitsValue, unitsOf]

theorem bitsValue_one : bitsValue 1 = 1 / 2 ^ 1074 := by
  simp [bitsValue, unitsOf]

theorem bitsValue_infinity : bitsValue 0x7FF0000000000000 = 2 ^ 1024 := by
  have hparts : (0x7FF0000000000000 : Nat) = 2046 * hiddenBit + hiddenBit := by decide
  have hunits : unitsOf 0x7FF0000000000000 = 2 ^ 52 * 2 ^ 2046 := by
    rw [hparts, unitsOf_eq (.inr le_rfl) (by omega)]
    exact congrArg (· * 2 ^ 2046) (show hiddenBit = 2 ^ 52 by decide)
  have hpow : (2 : ℚ) ^ 52 * 2 ^ 2046 = 2 ^ 1024 * 2 ^ 1074 := by
    rw [← pow_add, ← pow_add]
  rw [bitsValue, hunits, Nat.cast_mul, Nat.cast_pow, Nat.cast_pow, Nat.cast_ofNat, hpow,
    mul_div_assoc, div_self (by positivity), mul_one]

end Order

namespace Nearest

variable {x : ℚ} {m n : Nat}

theorem farther_below {k : Nat} (hx : bitsValue n ≤ x) (hlt : k < n) :
    |x - bitsValue n| < |x - bitsValue k| := by
  have hvalue := bitsValue_strictMono hlt
  rw [abs_of_nonneg (by linarith), abs_of_nonneg (by linarith)]
  linarith

theorem farther_above {k : Nat} (hx : x ≤ bitsValue n) (hlt : n < k) :
    |x - bitsValue n| < |x - bitsValue k| := by
  have hvalue := bitsValue_strictMono hlt
  rw [abs_sub_comm, abs_sub_comm x, abs_of_nonneg (by linarith), abs_of_nonneg (by linarith)]
  linarith

/-- Only the two neighbours of a number have to be compared. -/
theorem of_between (hm : m ≤ 0x7FF0000000000000) (hlow : bitsValue n ≤ x)
    (hhigh : x ≤ bitsValue (n + 1))
    (hnear : ∀ k, k = n ∨ k = n + 1 → |x - bitsValue m| ≤ |x - bitsValue k|)
    (heven : ∀ k, k = n ∨ k = n + 1 → k ≠ m → |x - bitsValue m| = |x - bitsValue k| → m % 2 = 0) :
    Nearest x m := by
  have hfar : ∀ k, ¬ (k = n ∨ k = n + 1) → |x - bitsValue m| < |x - bitsValue k| := by
    intro k hk
    rcases Nat.lt_or_ge k n with hlt | hge
    · exact (hnear n (.inl rfl)).trans_lt (farther_below hlow hlt)
    · exact (hnear (n + 1) (.inr rfl)).trans_lt (farther_above hhigh (by omega))
  refine ⟨hm, fun k _ => ?_, fun k _ hne heq => ?_⟩
  · by_cases hk : k = n ∨ k = n + 1
    · exact hnear k hk
    · exact (hfar k hk).le
  · by_cases hk : k = n ∨ k = n + 1
    · exact heven k hk hne heq
    · exact absurd heq (hfar k hk).ne

theorem of_low (hn : n + 1 ≤ 0x7FF0000000000000) (hlow : bitsValue n ≤ x)
    (hnear : x - bitsValue n ≤ bitsValue (n + 1) - x)
    (heven : x - bitsValue n = bitsValue (n + 1) - x → n % 2 = 0) : Nearest x n := by
  have hbelow : |x - bitsValue n| = x - bitsValue n := abs_of_nonneg (by linarith)
  have habove : |x - bitsValue (n + 1)| = bitsValue (n + 1) - x := by
    rw [abs_sub_comm, abs_of_nonneg (by linarith)]
  refine .of_between (by omega) hlow (by linarith) ?_ ?_
  · rintro k (rfl | rfl)
    · exact le_rfl
    · rwa [hbelow, habove]
  · rintro k (rfl | rfl) hne heq
    · exact absurd rfl hne
    · exact heven (by rwa [hbelow, habove] at heq)

theorem of_high (hn : n + 1 ≤ 0x7FF0000000000000) (hhigh : x ≤ bitsValue (n + 1))
    (hnear : bitsValue (n + 1) - x ≤ x - bitsValue n)
    (heven : bitsValue (n + 1) - x = x - bitsValue n → (n + 1) % 2 = 0) : Nearest x (n + 1) := by
  have hbelow : |x - bitsValue n| = x - bitsValue n := abs_of_nonneg (by linarith)
  have habove : |x - bitsValue (n + 1)| = bitsValue (n + 1) - x := by
    rw [abs_sub_comm, abs_of_nonneg (by linarith)]
  refine .of_between hn (by linarith) hhigh ?_ ?_
  · rintro k (rfl | rfl)
    · rwa [hbelow, habove]
    · exact le_rfl
  · rintro k (rfl | rfl) hne heq
    · exact heven (by rwa [hbelow, habove] at heq)
    · exact absurd rfl hne

theorem of_large (h : bitsValue 0x7FF0000000000000 ≤ x) : Nearest x 0x7FF0000000000000 := by
  refine ⟨le_rfl, fun other hle => ?_, fun _ _ _ _ => by norm_num⟩
  have hvalue := bitsValue_strictMono.monotone hle
  rw [abs_of_nonneg (by linarith), abs_of_nonneg (by linarith)]
  linarith

theorem of_small (hpos : 0 ≤ x) (h : 2 * x ≤ bitsValue 1) : Nearest x 0 := by
  refine .of_low (by norm_num) (by rwa [bitsValue_zero]) ?_ fun _ => rfl
  rw [bitsValue_zero, Nat.zero_add]
  linarith

theorem unique (hm : Nearest x m) (hn : Nearest x n) : m = n := by
  by_contra hne
  wlog hlt : m < n generalizing m n
  · exact this hn hm (Ne.symm hne) (by omega)
  have hdist : |x - bitsValue m| = |x - bitsValue n| :=
    le_antisymm (hm.near n hn.le) (hn.near m hm.le)
  have hmeven := hm.even n hn.le (by omega) hdist
  have hneven := hn.even m hm.le (by omega) hdist.symm
  have hvalue := bitsValue_strictMono hlt
  have hmiddle : x - bitsValue m = -(x - bitsValue n) := by
    rcases abs_eq_abs.mp hdist with heq | heq
    · linarith
    · exact heq
  -- both are even, and the odd double between them is nearer
  have hbelow := bitsValue_strictMono (Nat.lt_add_one m)
  have habove := bitsValue_strictMono (show m + 1 < n by omega)
  have hnearer : |x - bitsValue (m + 1)| < |x - bitsValue m| := by
    rw [abs_of_nonneg (show 0 ≤ x - bitsValue m by linarith)]
    exact abs_lt.mpr ⟨by linarith, by linarith⟩
  exact absurd (hm.near (m + 1) (by have := hn.le; omega)) (not_le.mpr hnearer)

end Nearest

section Rounding

variable {num den : Nat}

theorem roundQuotient_cases (num den : Nat) :
    (roundQuotient num den = num / den ∧ 2 * (num % den) ≤ den ∧
      (2 * (num % den) = den → num / den % 2 = 0)) ∨
    (roundQuotient num den = num / den + 1 ∧ den ≤ 2 * (num % den) ∧
      (2 * (num % den) = den → (num / den + 1) % 2 = 0)) := by
  unfold roundQuotient
  dsimp only
  split
  · next h =>
    simp only [Bool.or_eq_true, Bool.and_eq_true, decide_eq_true_eq, beq_iff_eq] at h
    exact .inl ⟨rfl, by omega, by omega⟩
  · next h =>
    simp only [Bool.or_eq_true, Bool.and_eq_true, decide_eq_true_eq, beq_iff_eq] at h
    exact .inr ⟨rfl, by omega, by omega⟩

theorem scaled_bounds (n : Nat) :
    n / 2 ^ (n.log2 - 52) < 2 * hiddenBit ∧
    (n.log2 - 52 = 0 ∨ hiddenBit ≤ n / 2 ^ (n.log2 - 52)) := by
  have hpos : 0 < 2 ^ (n.log2 - 52) := by positivity
  have hbit : hiddenBit = 2 ^ 52 := by decide
  constructor
  · rw [Nat.div_lt_iff_lt_mul hpos, hbit, ← Nat.pow_succ', ← Nat.pow_add]
    exact Nat.lt_log2_self.trans_le (Nat.pow_le_pow_right (by decide) (by omega))
  · rcases Nat.eq_zero_or_pos (n.log2 - 52) with hzero | hscaled
    · exact .inl hzero
    · have hn : n ≠ 0 := by
        rintro rfl
        simp at hscaled
      right
      rw [Nat.le_div_iff_mul_le hpos, hbit, ← Nat.pow_add, Nat.add_sub_cancel' (by omega)]
      exact Nat.log2_self_le hn

theorem gaps {scale : Nat} (hden : 0 < den) (num : Nat)
    (hlow : scale = 0 ∨ hiddenBit ≤ num * 2 ^ unitBits / (den * 2 ^ scale))
    (hhigh : num * 2 ^ unitBits / (den * 2 ^ scale) < 2 * hiddenBit) :
    let bits := scale * hiddenBit + num * 2 ^ unitBits / (den * 2 ^ scale)
    let rest : Nat := num * 2 ^ unitBits % (den * 2 ^ scale)
    (num / den : ℚ) - bitsValue bits = rest / (den * 2 ^ unitBits) ∧
    bitsValue (bits + 1) - num / den = ((den * 2 ^ scale : Nat) - rest) / (den * 2 ^ unitBits) := by
  intro bits rest
  have hdiv : (num * 2 ^ unitBits : ℚ) = den * 2 ^ scale *
      (num * 2 ^ unitBits / (den * 2 ^ scale) : Nat) + rest := by
    exact_mod_cast (Nat.div_add_mod (num * 2 ^ unitBits) (den * 2 ^ scale)).symm
  have hbits : bitsValue bits =
      (num * 2 ^ unitBits / (den * 2 ^ scale) : Nat) * 2 ^ scale / 2 ^ unitBits := by
    rw [bitsValue_eq, unitsOf_eq hlow hhigh.le, Nat.cast_mul, Nat.cast_pow, Nat.cast_ofNat]
  have hnext : bitsValue (bits + 1) =
      ((num * 2 ^ unitBits / (den * 2 ^ scale) : Nat) + 1) * 2 ^ scale / 2 ^ unitBits := by
    rw [bitsValue_eq, Nat.add_assoc, unitsOf_eq (by omega) hhigh, Nat.cast_mul, Nat.cast_pow,
      Nat.cast_ofNat, Nat.cast_succ]
  have hden' : (den : ℚ) ≠ 0 := by exact_mod_cast hden.ne'
  have hunit := (pow_pos two_pos unitBits : (0 : ℚ) < 2 ^ unitBits).ne'
  rw [hbits, hnext, Nat.cast_mul, Nat.cast_pow, Nat.cast_ofNat]
  generalize (2 : ℚ) ^ scale = width at *
  constructor
  · field_simp
    linarith
  · field_simp
    linarith

section Gaps

variable {rest width unit : ℚ}

theorem gap_le (hunit : 0 < unit) : rest / unit ≤ (width - rest) / unit ↔ 2 * rest ≤ width := by
  rw [div_le_div_iff_of_pos_right hunit, le_sub_iff_add_le, two_mul]

theorem le_gap (hunit : 0 < unit) : (width - rest) / unit ≤ rest / unit ↔ width ≤ 2 * rest := by
  rw [div_le_div_iff_of_pos_right hunit, sub_le_iff_le_add, two_mul]

theorem gap_eq (hunit : 0 < unit) : rest / unit = (width - rest) / unit ↔ 2 * rest = width := by
  rw [div_left_inj' hunit.ne', eq_sub_iff_add_eq, two_mul]

end Gaps

/-- Rounding goes to the nearer neighbour, when the quotient counts from an even number on. -/
theorem roundQuotient_nearest {x unit : ℚ} {base num width : Nat} (hunit : 0 < unit)
    (hwidth : 0 < width) (hbase : base % 2 = 0)
    (hbelow : x - bitsValue (base + num / width) = (num % width : Nat) / unit)
    (habove : bitsValue (base + num / width + 1) - x = (width - (num % width : Nat)) / unit) :
    Nearest x (min (base + roundQuotient num width) 0x7FF0000000000000) := by
  have hcases := roundQuotient_cases num width
  have hrest : num % width ≤ width := (Nat.mod_lt _ hwidth).le
  have hparity : ∀ n, (base + n) % 2 = n % 2 := by omega
  generalize num / width = low at *
  generalize num % width = rest at *
  have hfirst : (0 : ℚ) ≤ rest / unit := div_nonneg (Nat.cast_nonneg _) hunit.le
  have hlast : (0 : ℚ) ≤ (width - rest) / unit :=
    div_nonneg (sub_nonneg.mpr (by exact_mod_cast hrest)) hunit.le
  rcases Nat.lt_or_ge (base + low) 0x7FF0000000000000 with hlt | hge
  · rcases hcases with ⟨hround, hnear, heven⟩ | ⟨hround, hnear, heven⟩
    · rw [hround, Nat.min_eq_left hlt.le]
      refine .of_low hlt (by linarith) ?_ fun heq => ?_
      · rw [hbelow, habove, gap_le hunit]
        exact_mod_cast hnear
      · rw [hbelow, habove, gap_eq hunit] at heq
        rw [hparity]
        exact heven (by exact_mod_cast heq)
    · rw [hround, ← Nat.add_assoc, Nat.min_eq_left hlt]
      refine .of_high hlt (by linarith) ?_ fun heq => ?_
      · rw [hbelow, habove, le_gap hunit]
        exact_mod_cast hnear
      · rw [hbelow, habove, eq_comm, gap_eq hunit] at heq
        rw [Nat.add_assoc, hparity]
        exact heven (by exact_mod_cast heq)
  · have hmin : min (base + roundQuotient num width) 0x7FF0000000000000 = 0x7FF0000000000000 := by
      refine Nat.min_eq_right ?_
      rcases hcases with ⟨hround, -⟩ | ⟨hround, -⟩ <;> omega
    rw [hmin]
    have hvalue := bitsValue_strictMono.monotone hge
    rw [← hbelow, sub_nonneg] at hfirst
    exact .of_large (hvalue.trans hfirst)

/-- The quotient of two numbers is rounded to the double nearest to it. -/
theorem nearestBits_nearest (hden : 0 < den) (num : Nat) :
    Nearest (num / den) (nearestBits num den) := by
  obtain ⟨scale, hscale⟩ : ∃ scale, scale = (num * 2 ^ unitBits / den).log2 - 52 := ⟨_, rfl⟩
  obtain ⟨hhigh, hlow⟩ := scaled_bounds (num * 2 ^ unitBits / den)
  rw [← hscale, Nat.div_div_eq_div_mul] at hhigh hlow
  obtain ⟨hbelow, habove⟩ := gaps hden num hlow hhigh
  have hbits : nearestBits num den = min (scale * hiddenBit +
      roundQuotient (num * 2 ^ unitBits) (den * 2 ^ scale)) 0x7FF0000000000000 := by
    simp only [nearestBits, Nat.pow_eq, ← hscale, infinityBits]
  have hunit : (0 : ℚ) < den * 2 ^ unitBits :=
    mul_pos (by exact_mod_cast hden) (by positivity)
  have hbase : scale * hiddenBit % 2 = 0 := by
    unfold hiddenBit
    omega
  rw [hbits]
  exact roundQuotient_nearest hunit (by positivity) hbase hbelow habove

theorem tiny_power : 2 * (10 : ℚ) ^ (-331 : Int) ≤ 1 / 2 ^ 1074 := by
  have hpow : 2 * 2 ^ 1074 ≤ 10 ^ 331 := by decide +kernel
  have hcast : (2 * 2 ^ 1074 : ℚ) ≤ 10 ^ 331 := by exact_mod_cast hpow
  rw [zpow_neg, ← div_eq_mul_inv, div_le_div_iff₀ (by positivity) (by positivity), one_mul]
  exact hcast

theorem huge_power : (2 : ℚ) ^ 1024 ≤ 10 ^ (310 : Int) := by
  have hpow : 2 ^ 1024 ≤ 10 ^ 310 := by decide +kernel
  exact_mod_cast hpow

theorem scaledBits_nearest (mantissa : Nat) (exponent : Int) :
    Nearest (mantissa * 10 ^ exponent) (scaledBits mantissa exponent) := by
  have hten : (0 : ℚ) < 10 ^ exponent := by positivity
  rcases Nat.eq_zero_or_pos mantissa with rfl | hpos
  · rw [show scaledBits 0 exponent = 0 by simp [scaledBits]]
    refine .of_small (by simp) ?_
    rw [bitsValue_one]
    norm_num
  obtain ⟨hlow, hhigh⟩ := Interval.pow_length_toDigits hpos
  have hlength := Nat.length_toDigits_pos (b := 10) (n := mantissa)
  unfold scaledBits
  dsimp only
  generalize (Nat.toDigits 10 mantissa).length = length at *
  split
  · next hsmall =>
    have hsmall : length + exponent < -330 := by simpa [hpos.ne'] using hsmall
    have hbound : (mantissa * 10 ^ exponent : ℚ) ≤ 10 ^ (-331 : Int) := by
      calc (mantissa * 10 ^ exponent : ℚ)
        _ ≤ 10 ^ length * 10 ^ exponent :=
          mul_le_mul_of_nonneg_right (by exact_mod_cast hhigh.le) hten.le
        _ = 10 ^ (length + exponent) := by rw [zpow_add₀ (by norm_num), zpow_natCast]
        _ ≤ 10 ^ (-331 : Int) := zpow_le_zpow_right₀ (by norm_num) (by omega)
    refine .of_small (by positivity) ?_
    rw [bitsValue_one]
    exact (mul_le_mul_of_nonneg_left hbound zero_le_two).trans tiny_power
  · split
    · next hlarge =>
      have hbound : 10 ^ (310 : Int) ≤ (mantissa * 10 ^ exponent : ℚ) := by
        calc (10 : ℚ) ^ (310 : Int)
          _ ≤ 10 ^ ((length - 1 : Nat) + exponent) :=
            zpow_le_zpow_right₀ (by norm_num) (by omega)
          _ = 10 ^ (length - 1) * 10 ^ exponent := by rw [zpow_add₀ (by norm_num), zpow_natCast]
          _ ≤ mantissa * 10 ^ exponent :=
            mul_le_mul_of_nonneg_right (by exact_mod_cast hlow) hten.le
      refine .of_large ?_
      rw [bitsValue_infinity]
      exact huge_power.trans hbound
    · have hpow := pow_toNat_div (b := 10) (by norm_num) exponent
      have hden : 0 < Nat.pow 10 (-exponent).toNat := Nat.pow_pos (by decide)
      have hnearest := nearestBits_nearest hden (mantissa * Nat.pow 10 exponent.toNat)
      rwa [Nat.cast_mul, mul_div_assoc, Nat.pow_eq, Nat.pow_eq, Nat.cast_pow, Nat.cast_pow,
        Nat.cast_ofNat, hpow] at hnearest

end Rounding

end C1Lang.Number
