import C1Lang.Number.Shortest
import Mathlib.Algebra.Field.Rat
import Mathlib.Algebra.Order.Field.Power
import Mathlib.Algebra.Order.Ring.Rat
import Mathlib.Tactic.FieldSimp
import Mathlib.Tactic.Linarith
import Mathlib.Tactic.NormNum
import Mathlib.Tactic.Positivity
import Mathlib.Tactic.Ring

/-!
# Intervals of doubles

The intervals in which the shortest digits of doubles are searched lie side by side: each ends
where that of the next double begins, and of two neighbours only the even one has the end that
they share. So no rational lies in the intervals of two doubles (`Interval.Mem.unique`). The grid
with seventeen digits has a point in every interval, so that the search finds one
(`search_finds`).
-/

namespace C1Lang.Number

theorem pow_toNat_div {b : ℚ} (hb : b ≠ 0) (e : Int) : b ^ e.toNat / b ^ (-e).toNat = b ^ e := by
  rw [← zpow_natCast, ← zpow_natCast, ← zpow_sub₀ hb]
  congr 1
  omega

namespace Interval

variable {i : Interval}

def lower (i : Interval) : ℚ := i.low / i.unit

def upper (i : Interval) : ℚ := i.high / i.unit

def center (i : Interval) : ℚ := i.value / i.unit

def Mem (i : Interval) (x : ℚ) : Prop :=
  if i.closed then i.lower ≤ x ∧ x ≤ i.upper else i.lower < x ∧ x < i.upper

theorem Mem.of_lt {x : ℚ} (hl : i.lower < x) (hu : x < i.upper) : i.Mem x := by
  unfold Mem
  split
  · exact ⟨hl.le, hu.le⟩
  · exact ⟨hl, hu⟩

theorem Mem.le {x : ℚ} (h : i.Mem x) : i.lower ≤ x ∧ x ≤ i.upper := by
  unfold Mem at h
  split at h
  · exact h
  · exact ⟨h.1.le, h.2.le⟩

theorem Mem.lt {x : ℚ} (h : i.Mem x) (hc : i.closed = false) : i.lower < x ∧ x < i.upper := by
  unfold Mem at h
  rwa [hc] at h

theorem contains_iff (hu : 0 < i.unit) (d : Nat) (e : Int) :
    i.contains d e = true ↔ i.Mem (d * 10 ^ e) := by
  have hunit : (0 : ℚ) < i.unit := Nat.cast_pos.mpr hu
  have hden : (0 : ℚ) < 10 ^ (-e).toNat := by positivity
  have hpoint : (d : ℚ) * 10 ^ e = (d * 10 ^ e.toNat) / 10 ^ (-e).toNat := by
    rw [← pow_toNat_div (by norm_num) e, mul_div_assoc]
  unfold contains powerOfTen Mem lower upper
  simp only [Nat.pow_eq, hpoint]
  split
  · rw [div_le_div_iff₀ hunit hden, div_le_div_iff₀ hden hunit]
    simp only [Bool.and_eq_true, decide_eq_true_eq]
    norm_cast
  · rw [div_lt_div_iff₀ hunit hden, div_lt_div_iff₀ hden hunit]
    simp only [Bool.and_eq_true, decide_eq_true_eq]
    norm_cast

theorem point?_contains {tie : Tie} {e : Int} {d : Nat} (h : i.point? tie e = some d) :
    i.contains d e = true := by
  unfold point? at h
  grind

theorem exists_point? (hu : 0 < i.unit) (tie : Tie) (e : Int)
    (h : ∀ d : Nat, d * (10 : ℚ) ^ e ≤ i.center → i.center < (d + 1) * 10 ^ e →
      i.Mem (d * 10 ^ e) ∨ i.Mem ((d + 1) * 10 ^ e)) : ∃ d, i.point? tie e = some d := by
  have hunit : (0 : ℚ) < i.unit := Nat.cast_pos.mpr hu
  have hpow := pow_toNat_div (b := 10) (by norm_num) e
  have hnum : (0 : ℚ) < 10 ^ e.toNat := by positivity
  have hden : (0 : ℚ) < 10 ^ (-e).toNat := by positivity
  have hpos : 0 < i.unit * 10 ^ e.toNat := Nat.mul_pos hu (by positivity)
  obtain ⟨d, hd⟩ : ∃ d, d = i.value * 10 ^ (-e).toNat / (i.unit * 10 ^ e.toNat) := ⟨_, rfl⟩
  have hle : d * (10 : ℚ) ^ e ≤ i.center := by
    have : d * (i.unit * 10 ^ e.toNat) ≤ i.value * 10 ^ (-e).toNat := hd ▸ Nat.div_mul_le_self _ _
    rw [← hpow, center, ← mul_div_assoc, div_le_div_iff₀ hden hunit, mul_assoc, mul_comm (10 ^ _)]
    exact_mod_cast this
  have hlt : i.center < (d + 1) * (10 : ℚ) ^ e := by
    have : i.value * 10 ^ (-e).toNat < (d + 1) * (i.unit * 10 ^ e.toNat) :=
      hd ▸ Nat.lt_mul_of_div_lt (Nat.lt_succ_self _) hpos
    rw [← hpow, center, ← mul_div_assoc, div_lt_div_iff₀ hunit hden, mul_assoc,
      mul_comm (10 ^ e.toNat)]
    exact_mod_cast this
  have hneighbour := h d hle hlt
  rw [← contains_iff hu, ← Nat.cast_succ, ← contains_iff hu] at hneighbour
  unfold point? powerOfTen
  simp only [Nat.pow_eq, ← hd]
  split
  · exact ⟨d, rfl⟩
  · exact ⟨d + 1, rfl⟩
  · next hlow hhigh => simp [hlow, hhigh] at hneighbour
  · split
    · exact ⟨d, rfl⟩
    · split
      · exact ⟨d + 1, rfl⟩
      · cases tie <;> exact ⟨_, rfl⟩

theorem pow_length_toDigits {n : Nat} (hn : 0 < n) :
    10 ^ ((Nat.toDigits 10 n).length - 1) ≤ n ∧ n < 10 ^ (Nat.toDigits 10 n).length := by
  have hpos := Nat.length_toDigits_pos (b := 10) (n := n)
  have hiff := fun k hk => Nat.length_toDigits_le_iff (n := n) (k := k) (b := 10) (by decide) hk
  refine ⟨?_, (hiff _ hpos).mp le_rfl⟩
  by_contra hlt
  rcases Nat.eq_zero_or_pos ((Nat.toDigits 10 n).length - 1) with hzero | hone
  · rw [hzero] at hlt
    omega
  · have := (hiff _ hone).mpr (by omega)
    omega

theorem magnitude_le (hv : 0 < i.value) (hu : 0 < i.unit) :
    (10 : ℚ) ^ i.magnitude ≤ i.center := by
  have hunit : (0 : ℚ) < i.unit := Nat.cast_pos.mpr hu
  have hvalue : (0 : ℚ) < i.value := Nat.cast_pos.mpr hv
  unfold magnitude center
  split
  · next hle =>
    obtain ⟨hlow, -⟩ := pow_length_toDigits (Nat.div_pos hle hu)
    have hpos := Nat.length_toDigits_pos (b := 10) (n := i.value / i.unit)
    obtain ⟨k, hk⟩ : ∃ k, (Nat.toDigits 10 (i.value / i.unit)).length = k + 1 :=
      ⟨_, (Nat.sub_add_cancel hpos).symm⟩
    rw [hk] at hlow ⊢
    have hexp : ((k + 1 : Nat) : Int) - 1 = (k : Nat) := by push_cast; ring
    rw [hexp, zpow_natCast, le_div_iff₀ hunit]
    have := (Nat.le_div_iff_mul_le hu).mp hlow
    exact_mod_cast this
  · next hlt =>
    obtain ⟨-, hhigh⟩ := pow_length_toDigits (Nat.div_pos (le_of_not_ge hlt) hv)
    dsimp only
    split
    · next hle =>
      rw [zpow_neg, zpow_natCast, inv_le_comm₀ (by positivity) (by positivity), inv_div,
        div_le_iff₀ hvalue, mul_comm]
      simp only [Nat.pow_eq] at hle
      exact_mod_cast hle
    · rw [zpow_neg, zpow_natCast, inv_le_comm₀ (by positivity) (by positivity), inv_div,
        div_le_iff₀ hvalue]
      have := (Nat.div_lt_iff_lt_mul hv).mp hhigh
      exact_mod_cast this.le

end Interval

namespace Binary

/-- How far down the interval reaches, in quarters of the last place. -/
def below (b : Binary) : Nat := if b.mantissa = hiddenBit ∧ -1074 < b.exponent then 1 else 2

variable {b : Binary}

theorem unit_pos (b : Binary) : 0 < b.interval.unit := Nat.pow_pos (by decide)

theorem interval_eq (n : Nat) (b : Binary) :
    ((n * Nat.pow 2 (b.exponent - 2).toNat : Nat) : ℚ) / b.interval.unit =
      n * 2 ^ (b.exponent - 2) := by
  rw [← pow_toNat_div (by norm_num) (b.exponent - 2), ← mul_div_assoc]
  simp [interval]

theorem lower_eq (hm : 0 < b.mantissa) :
    b.interval.lower = (4 * b.mantissa - b.below) * 2 ^ (b.exponent - 2) := by
  have hle : b.below ≤ 4 * b.mantissa := by
    unfold below
    split <;> omega
  have hlow : b.interval.low = (4 * b.mantissa - b.below) * Nat.pow 2 (b.exponent - 2).toNat := by
    simp only [interval, below, Bool.and_eq_true, decide_eq_true_eq]
  rw [Interval.lower, hlow, interval_eq, Nat.cast_sub hle]
  norm_num

theorem upper_eq (b : Binary) :
    b.interval.upper = (4 * b.mantissa + 2) * 2 ^ (b.exponent - 2) := by
  have hhigh : b.interval.high = (4 * b.mantissa + 2) * Nat.pow 2 (b.exponent - 2).toNat := rfl
  rw [Interval.upper, hhigh, interval_eq]
  norm_num

theorem center_eq (b : Binary) : b.interval.center = 4 * b.mantissa * 2 ^ (b.exponent - 2) := by
  have hvalue : b.interval.value = 4 * b.mantissa * Nat.pow 2 (b.exponent - 2).toNat := rfl
  rw [Interval.center, hvalue, interval_eq]
  norm_num

theorem value_pos (hm : 0 < b.mantissa) : 0 < b.interval.value :=
  Nat.mul_pos (by omega) (Nat.pow_pos (by decide))

theorem below_pos (b : Binary) : 1 ≤ b.below := by
  unfold below
  split <;> omega

theorem below_le (b : Binary) : b.below ≤ 2 := by
  unfold below
  split <;> omega

theorem lower_lt_upper (hm : 0 < b.mantissa) : b.interval.lower < b.interval.upper := by
  rw [lower_eq hm, upper_eq]
  have hpow : (0 : ℚ) < 2 ^ (b.exponent - 2) := by positivity
  have hbelow : (1 : ℚ) ≤ b.below := by exact_mod_cast b.below_pos
  exact mul_lt_mul_of_pos_right (by linarith) hpow

theorem lower_pos (hm : 0 < b.mantissa) : 0 < b.interval.lower := by
  rw [lower_eq hm]
  have hpow : (0 : ℚ) < 2 ^ (b.exponent - 2) := by positivity
  have hbelow : (b.below : ℚ) ≤ 2 := by exact_mod_cast b.below_le
  have hmantissa : (1 : ℚ) ≤ b.mantissa := by exact_mod_cast hm
  exact mul_pos (by linarith) hpow

theorem fine_grid (hm : 0 < b.mantissa) (hlt : b.mantissa < 2 * hiddenBit) {g : ℚ}
    (hfine : g * 10 ^ 16 ≤ b.interval.center) {x : ℚ} (hle : x ≤ b.interval.center)
    (hnext : b.interval.center < x + g) : b.interval.Mem x ∨ b.interval.Mem (x + g) := by
  have hpow : (0 : ℚ) < 2 ^ (b.exponent - 2) := by positivity
  have hmantissa : (b.mantissa : ℚ) < 2 * 0x10000000000000 := by exact_mod_cast hlt
  have hlower := lower_eq hm
  have hupper := upper_eq b
  have hcenter := center_eq b
  generalize (2 : ℚ) ^ (b.exponent - 2) = u at *
  unfold below at hlower
  split at hlower
  · next hpower =>
    have hm' : (b.mantissa : ℚ) = 0x10000000000000 := by exact_mod_cast hpower.1
    rw [hm'] at hlower hupper hcenter
    refine .inr (.of_lt ?_ ?_) <;> norm_num at hlower hupper hcenter hfine <;> linarith
  · have hspacing : g < 4 * u := by
      have : g * 10 ^ 16 < 8 * 0x10000000000000 * u := by
        refine lt_of_le_of_lt hfine ?_
        rw [hcenter]
        exact mul_lt_mul_of_pos_right (by linarith) hpow
      norm_num at this
      linarith
    by_cases hnear : b.interval.center - x < 2 * u
    · refine .inl (.of_lt ?_ ?_) <;> push_cast at hlower <;> linarith
    · refine .inr (.of_lt ?_ ?_) <;> push_cast at hlower <;> linarith

theorem ofBits_subnormal {fraction : Nat} (hf : fraction < hiddenBit) :
    ofBits fraction = ⟨fraction, -1074⟩ := by
  simp [ofBits, Nat.div_eq_of_lt hf, Nat.mod_eq_of_lt hf]

theorem ofBits_normal (k : Nat) {fraction : Nat} (hf : fraction < hiddenBit) :
    ofBits ((k + 1) * hiddenBit + fraction) = ⟨hiddenBit + fraction, k - 1074⟩ := by
  have hpos : 0 < hiddenBit := by decide
  have hdiv : ((k + 1) * hiddenBit + fraction) / hiddenBit = k + 1 := by
    rw [Nat.add_comm, Nat.add_mul_div_right _ _ hpos, Nat.div_eq_of_lt hf, Nat.zero_add]
  have hmod : ((k + 1) * hiddenBit + fraction) % hiddenBit = fraction := by
    rw [Nat.add_comm, Nat.add_mul_mod_self_right, Nat.mod_eq_of_lt hf]
  simp only [ofBits, hdiv, hmod, if_neg k.succ_ne_zero, Binary.mk.injEq, true_and]
  push_cast
  ring

/-- The two shapes of bit patterns: subnormal and normal numbers. -/
theorem pattern_cases (n : Nat) : n < hiddenBit ∨
    ∃ k fraction, fraction < hiddenBit ∧ n = (k + 1) * hiddenBit + fraction := by
  rcases Nat.lt_or_ge n hiddenBit with hlt | hge
  · exact .inl hlt
  · refine .inr ⟨n / hiddenBit - 1, n % hiddenBit, Nat.mod_lt n (by decide), ?_⟩
    rw [Nat.sub_add_cancel (Nat.div_pos hge (by decide)), Nat.mul_comm, Nat.div_add_mod]

theorem mantissa_pos {n : Nat} (hn : 0 < n) : 0 < (ofBits n).mantissa := by
  rcases pattern_cases n with hlt | ⟨k, fraction, hf, rfl⟩
  · rwa [ofBits_subnormal hlt]
  · rw [ofBits_normal k hf]
    exact Nat.add_pos_left (by decide) _

theorem mantissa_lt (n : Nat) : (ofBits n).mantissa < 2 * hiddenBit := by
  rcases pattern_cases n with hlt | ⟨k, fraction, hf, rfl⟩
  · rw [ofBits_subnormal hlt]
    dsimp only
    omega
  · rw [ofBits_normal k hf]
    dsimp only
    omega

theorem closed_eq (n : Nat) : (ofBits n).interval.closed = (n % 2 == 0) := by
  have hmod : (ofBits n).mantissa % 2 = n % 2 := by
    rcases pattern_cases n with hlt | ⟨k, fraction, hf, rfl⟩
    · rw [ofBits_subnormal hlt]
    · rw [ofBits_normal k hf]
      unfold hiddenBit
      dsimp only
      omega
  unfold interval
  rw [hmod]

theorem upper_eq_lower (n : Nat) :
    (ofBits n).interval.upper = (ofBits (n + 1)).interval.lower := by
  have hbit : (hiddenBit : ℚ) = 0x10000000000000 := by norm_num [hiddenBit]
  have hm : 0 < (ofBits (n + 1)).mantissa := mantissa_pos n.succ_pos
  rw [upper_eq, lower_eq hm]
  rcases pattern_cases n with hlt | ⟨k, fraction, hf, rfl⟩
  · rcases Nat.lt_or_ge (n + 1) hiddenBit with hnext | hge
    · rw [ofBits_subnormal hlt, ofBits_subnormal hnext, below, if_neg (by simp)]
      dsimp only
      generalize (2 : ℚ) ^ ((-1074 : Int) - 2) = u
      push_cast
      ring
    · -- the next double is the first normal one, which has the same exponent
      have hn : n = hiddenBit - 1 := by omega
      subst hn
      have hfirst : hiddenBit - 1 + 1 = (0 + 1) * hiddenBit + 0 := by decide
      rw [ofBits_subnormal hlt, hfirst, ofBits_normal 0 (by decide), below, if_neg (by simp)]
      dsimp only
      rw [Nat.cast_sub (by decide), Nat.cast_add, hbit]
      norm_num
  · rcases Nat.lt_or_ge (fraction + 1) hiddenBit with hnext | hge
    · rw [Nat.add_assoc, ofBits_normal k hf, ofBits_normal k hnext, below, if_neg (by simp)]
      push_cast
      ring
    · -- the next double is a power of two, with the next exponent
      have hfraction : fraction = hiddenBit - 1 := by omega
      subst hfraction
      have hcarry : (k + 1) * hiddenBit + (hiddenBit - 1) + 1 = (k + 1 + 1) * hiddenBit + 0 := by
        unfold hiddenBit
        omega
      rw [ofBits_normal k hf, hcarry, ofBits_normal (k + 1) (by decide), below,
        if_pos ⟨rfl, by push_cast; omega⟩]
      have hexp : ((k + 1 : Nat) : Int) - 1074 - 2 = ((k : Int) - 1074 - 2) + 1 := by
        push_cast
        ring
      rw [hexp, zpow_add_one₀ (by norm_num), Nat.cast_add, Nat.cast_sub (by decide), Nat.cast_add,
        hbit]
      push_cast
      ring

end Binary

section Neighbours

variable {m n : Nat} {x : ℚ}

/-- Where the interval of a double begins. -/
def edge (n : Nat) : ℚ := (Binary.ofBits n).interval.lower

theorem edge_lt_succ (hn : 0 < n) : edge n < edge (n + 1) := by
  rw [edge, edge, ← Binary.upper_eq_lower]
  exact Binary.lower_lt_upper (Binary.mantissa_pos hn)

theorem edge_le (hm : 0 < m) (hmn : m ≤ n) : edge m ≤ edge n := by
  induction n, hmn using Nat.le_induction with
  | base => exact le_rfl
  | succ n hmn ih => exact ih.trans (edge_lt_succ (hm.trans_le hmn)).le

theorem not_mem_of_lt (hmn : m < n) (h : (Binary.ofBits m).interval.Mem x) :
    ¬ (Binary.ofBits n).interval.Mem x := by
  intro h'
  have hupper : x ≤ edge (m + 1) := h.le.2.trans_eq (Binary.upper_eq_lower m)
  have hlower : edge n ≤ x := h'.le.1
  obtain heq | hlt := Nat.eq_or_lt_of_le (Nat.succ_le_of_lt hmn)
  · -- of two neighbours one is odd, and does not have the end that they share
    subst heq
    cases hc : (Binary.ofBits m).interval.closed with
    | false =>
      have := (h.lt hc).2
      rw [Binary.upper_eq_lower] at this
      exact absurd (this.trans_le hlower) (lt_irrefl _)
    | true =>
      have hc' : (Binary.ofBits (m + 1)).interval.closed = false := by
        rw [Binary.closed_eq] at hc ⊢
        simp only [beq_iff_eq, beq_eq_false_iff_ne] at hc ⊢
        omega
      exact absurd ((h'.lt hc').1.trans_le hupper) (lt_irrefl _)
  · have hgap := (edge_lt_succ m.succ_pos).trans_le (edge_le (Nat.succ_pos _) hlt)
    exact absurd ((hgap.trans_le hlower).trans_le hupper) (lt_irrefl _)

theorem Interval.Mem.unique (h : (Binary.ofBits m).interval.Mem x)
    (h' : (Binary.ofBits n).interval.Mem x) : m = n := by
  rcases Nat.lt_trichotomy m n with hlt | heq | hgt
  · exact absurd h' (not_mem_of_lt hlt h)
  · exact heq
  · exact absurd h (not_mem_of_lt hgt h')

end Neighbours

section Search

def gridDigits (d : Nat) (e : Int) : Digits :=
  ⟨dropTrailingZeros (Nat.toDigits 10 d), e + (Nat.toDigits 10 d).length - 1⟩

/-- If one of the grids that are tried has a point in the interval, then such a point is found. -/
theorem Interval.search_contains {tie : Tie} {i : Interval} {magnitude : Int} {fuel count : Nat}
    (h : ∃ c, count ≤ c ∧ c < count + fuel ∧ ∃ d, i.point? tie (magnitude - c + 1) = some d) :
    ∃ d e, i.contains d e = true ∧ i.search tie magnitude fuel count = gridDigits d e := by
  induction fuel generalizing count with
  | zero =>
    obtain ⟨c, hle, hlt, -⟩ := h
    omega
  | succ fuel ih =>
    cases hp : i.point? tie (magnitude - count + 1) with
    | some d =>
      refine ⟨d, _, point?_contains hp, ?_⟩
      simp only [search, hp]
      rfl
    | none =>
      obtain ⟨c, hle, hlt, d, hd⟩ := h
      have hne : c ≠ count := by
        rintro rfl
        rw [hp] at hd
        cases hd
      have hlater : ∃ c, count + 1 ≤ c ∧ c < count + 1 + fuel ∧
          ∃ d, i.point? tie (magnitude - c + 1) = some d := ⟨c, by omega, by omega, d, hd⟩
      obtain ⟨d, e, hc, hs⟩ := ih hlater
      refine ⟨d, e, hc, ?_⟩
      simpa only [search, hp] using hs

theorem search_finds (tie : Tie) {n : Nat} (hn : 0 < n) :
    let i := (Binary.ofBits n).interval
    ∃ (d : Nat) (e : Int), i.Mem (d * 10 ^ e) ∧
      i.search tie i.magnitude 17 1 = gridDigits d e := by
  intro i
  have hu : 0 < i.unit := Binary.unit_pos _
  have hm := Binary.mantissa_pos hn
  have hseventeen : ∃ d, i.point? tie (i.magnitude - (17 : Nat) + 1) = some d := by
    refine Interval.exists_point? hu tie _ fun d hle hlt => ?_
    rw [add_one_mul] at hlt ⊢
    refine Binary.fine_grid hm (Binary.mantissa_lt n) ?_ hle hlt
    have hmagnitude := Interval.magnitude_le (Binary.value_pos hm) hu
    refine le_trans (le_of_eq ?_) hmagnitude
    rw [← zpow_natCast, ← zpow_add₀ (by norm_num)]
    congr 1
    push_cast
    ring
  have htried : ∃ c : Nat, 1 ≤ c ∧ c < 1 + 17 ∧
      ∃ d, i.point? tie (i.magnitude - c + 1) = some d := ⟨17, by decide, by decide, hseventeen⟩
  obtain ⟨d, e, hc, hs⟩ := Interval.search_contains htried
  exact ⟨d, e, (Interval.contains_iff hu d e).mp hc, hs⟩

end Search

end C1Lang.Number
