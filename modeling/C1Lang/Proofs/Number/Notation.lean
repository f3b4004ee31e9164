import C1Lang.Proofs.Number.Nearest
import C1Lang.Proofs.Number.Word

/-!
# How numbers are written

The texts that are read as integers and as doubles, and what they denote. Reading a text gives a
number exactly when the text denotes it (`literal?_eq_some_iff`, `readDouble?_eq_some_iff`).
-/

namespace C1Lang.Number

/-- One digit or more, those above nine in either case. -/
def FigureText (base : Nat) (cs : List Char) : Prop :=
  cs ≠ [] ∧ ∀ c ∈ cs, c.toLower ∈ figures.take base

def Numeral (base : Nat) (cs : List Char) (n : Nat) : Prop :=
  ∃ ds, (cs = ds ∨ cs = '+' :: ds) ∧ FigureText base ds ∧ n = numeral base ds

inductive WordText : List Char → Nat → Prop
  | decimal {cs : List Char} {n : Nat} :
      Numeral 10 cs n → n ≤ 2147483648 → WordText cs n
  | hexadecimal {x : Char} {cs : List Char} {n : Nat} :
      x = 'x' ∨ x = 'X' → Numeral 16 cs n → n < 4294967296 →
      WordText ('0' :: x :: cs) n

/-- Digits with or without a point: the number without the point, and how many digits stand behind
the point. -/
inductive Mantissa : List Char → Nat → Nat → Prop
  | whole {ds : List Char} : FigureText 10 ds → Mantissa ds (numeral 10 ds) 0
  | pointed {whole fraction : List Char} :
      FigureText 10 (whole ++ fraction) →
      Mantissa (whole ++ '.' :: fraction) (numeral 10 (whole ++ fraction)) fraction.length

inductive Exponent : List Char → Int → Prop
  | none : Exponent [] 0
  | positive {e : Char} {cs : List Char} {n : Nat} :
      e = 'e' ∨ e = 'E' → Numeral 10 cs n → Exponent (e :: cs) n
  | negative {e : Char} {ds : List Char} :
      e = 'e' ∨ e = 'E' → FigureText 10 ds → Exponent (e :: '-' :: ds) (-(numeral 10 ds))

inductive Magnitude : List Char → Nat → Prop
  | decimal {ms es : List Char} {m k bits : Nat} {e : Int} :
      Mantissa ms m k → Exponent es e → Nearest (m * 10 ^ (e - k)) bits → Magnitude (ms ++ es) bits
  | infinity {cs : List Char} :
      cs.map Char.toLower = "inf".toList ∨ cs.map Char.toLower = "infinity".toList →
      Magnitude cs 0x7FF0000000000000
  | nan {cs : List Char} : cs.map Char.toLower = "nan".toList → Magnitude cs 0x7FF8000000000000

inductive DoubleText : List Char → Float → Prop
  | unsigned {cs : List Char} {bits : Nat} :
      Magnitude cs bits → DoubleText cs (Float.ofBits (.ofNat bits))
  | plus {cs : List Char} {bits : Nat} :
      Magnitude cs bits → DoubleText ('+' :: cs) (Float.ofBits (.ofNat bits))
  | minus {cs : List Char} {bits : Nat} :
      Magnitude cs bits → DoubleText ('-' :: cs) (Float.ofBits (.ofNat (2 ^ 63 + bits)))

theorem toLower_mem_figures (c : Char) :
    (c.toLower ∈ figures.take 10 ↔ isDigit c = true) ∧
    (c.toLower ∈ figures.take 16 ↔ isHexDigit c = true) := by
  rcases Nat.lt_or_ge c.toNat 128 with hlow | hhigh
  · have hascii : ∀ n < 128,
        ((Char.ofNat n).toLower ∈ figures.take 10 ↔ isDigit (Char.ofNat n) = true) ∧
        ((Char.ofNat n).toLower ∈ figures.take 16 ↔ isHexDigit (Char.ofNat n) = true) := by
      decide +kernel
    have hc := hascii c.toNat hlow
    rwa [Char.ofNat_toNat] at hc
  · -- nothing beyond ASCII is a digit or a capital
    have hupper : ¬ (c.val ≥ 'A'.val ∧ c.val ≤ 'Z'.val) := fun h => by
      have hle : c.toNat ≤ 90 := h.2
      omega
    have hlower : c.toLower = c := dif_neg hupper
    have hfigures : c ∉ figures := fun h => by
      have hall : (figures.all fun d => d.toNat < 128) = true := by decide
      have hlt := of_decide_eq_true (List.all_eq_true.mp hall c h)
      omega
    have hhex : isHexDigit c ≠ true := fun h => by
      have hall : (digitChars.all fun d => d.toNat < 128) = true := by decide
      have hlt := of_decide_eq_true (List.all_eq_true.mp hall c (mem_digitChars h))
      omega
    rw [hlower]
    exact ⟨iff_of_false (fun h => hfigures (List.mem_of_mem_take h))
        (fun h => hhex (isHexDigit_of_isDigit h)),
      iff_of_false (fun h => hfigures (List.mem_of_mem_take h)) hhex⟩

theorem figureText_ten {cs : List Char} : FigureText 10 cs ↔ DigitText isDigit cs := by
  simp only [FigureText, DigitText, toLower_mem_figures]

theorem figureText_sixteen {cs : List Char} : FigureText 16 cs ↔ DigitText isHexDigit cs := by
  simp only [FigureText, DigitText, toLower_mem_figures]

theorem ofDigits_isDigit {base : Nat} {ds : List Char} (h : ∀ c ∈ ds, isDigit c = true) :
    ofDigits base ds = numeral base ds :=
  ofDigits_eq_numeral base fun c hc => isHexDigit_of_isDigit (h c hc)

/-- What the readers refuse at once is what has no digit or something else. -/
theorem digitText_iff {digit : Char → Bool} {ds : List Char} :
    DigitText digit ds ↔ (ds.isEmpty || !ds.all digit) = false := by
  simp [DigitText]

section Words

variable {cs : List Char} {n : Nat}

theorem readBelow?_eq_some_iff {base bound : Nat} {digit : Char → Bool}
    (hdigit : ∀ {ds}, FigureText base ds ↔ DigitText digit ds)
    (hhex : ∀ c, digit c = true → isHexDigit c = true) (hplus : digit '+' = false) :
    readBelow? base digit bound cs = some n ↔ Numeral base cs n ∧ n < bound := by
  have hiff : readBelow? base digit bound cs = some n ↔
      DigitText digit (dropPlus cs) ∧ n = numeral base (dropPlus cs) ∧ n < bound := by
    by_cases hds : DigitText digit (dropPlus cs)
    · have hvalue := ofDigits_eq_numeral base fun c hc => hhex c (hds.2 c hc)
      simp only [readBelow?, digitText_iff.mp hds, hvalue, hds, true_and, Bool.false_eq_true,
        if_false]
      split
      · next hlt =>
        rw [Option.some.injEq, eq_comm]
        exact ⟨fun h => ⟨h, h ▸ hlt⟩, And.left⟩
      · next hlt =>
        exact ⟨fun h => absurd h.symm (Option.some_ne_none n), fun h => absurd (h.1 ▸ h.2) hlt⟩
    · have hnone := Bool.not_eq_false _ ▸ mt digitText_iff.mpr hds
      simp [readBelow?, hnone, hds]
  rw [hiff]
  constructor
  · rintro ⟨hds, hn, hlt⟩
    refine ⟨⟨dropPlus cs, ?_, hdigit.mpr hds, hn⟩, hlt⟩
    unfold dropPlus
    split
    · exact .inr rfl
    · exact .inl rfl
  · rintro ⟨⟨ds, hcs, hfigures, hn⟩, hlt⟩
    have hds := hdigit.mp hfigures
    have hdrop : dropPlus cs = ds := by
      rcases hcs with rfl | rfl
      · exact dropPlus_digits hplus hds
      · rfl
    rw [hdrop]
    exact ⟨hds, hn, hlt⟩

theorem readDecimal?_eq_some_iff :
    readDecimal? cs = some n ↔ Numeral 10 cs n ∧ n < 0x10000000000000000 :=
  readBelow?_eq_some_iff figureText_ten (fun _ => isHexDigit_of_isDigit) (by decide)

theorem readHex?_eq_some_iff :
    readHex? cs = some n ↔ Numeral 16 cs n ∧ n < 4294967296 :=
  readBelow?_eq_some_iff figureText_sixteen (fun _ => id) (by decide)

theorem readWordDecimal?_iff :
    readBelow? 10 isDigit 2147483649 cs = some n ↔ Numeral 10 cs n ∧ n < 2147483649 :=
  readBelow?_eq_some_iff figureText_ten (fun _ => isHexDigit_of_isDigit) (by decide)

theorem decimal_word (cs : List Char) :
    (match readDecimal? cs with
      | none => none
      | some n => if n ≤ minMagnitude then some (Int32.ofNat n) else none) =
    (readBelow? 10 isDigit 2147483649 cs).map Int32.ofNat := by
  unfold readDecimal? readBelow? minMagnitude
  grind

theorem isMinMagnitude_iff (lexeme : String) :
    isMinMagnitude lexeme = true ↔ Numeral 10 lexeme.toList 2147483648 := by
  rw [isMinMagnitude, beq_iff_eq, readDecimal?_eq_some_iff]
  exact and_iff_left (by decide)

theorem literal?_eq_some_iff {lexeme : String} {v : Int32} :
    literal? lexeme = some v ↔ ∃ n, WordText lexeme.toList n ∧ v = Int32.ofNat n := by
  have hhex : ∀ {x cs}, x = 'x' ∨ x = 'X' → ((readHex? cs).map Int32.ofNat = some v ↔
      ∃ n, WordText ('0' :: x :: cs) n ∧ v = Int32.ofNat n) := by
    intro x cs hx
    rw [Option.map_eq_some_iff]
    constructor
    · rintro ⟨n, hn, rfl⟩
      obtain ⟨hcs, hlt⟩ := readHex?_eq_some_iff.mp hn
      exact ⟨n, .hexadecimal hx hcs hlt, rfl⟩
    · rintro ⟨n, hword, rfl⟩
      cases hword with
      | decimal hcs hle =>
        obtain ⟨ds, heq | heq, hds, -⟩ := hcs
        · have hdigit := (figureText_ten.mp hds).2 x (heq ▸ by simp)
          rcases hx with rfl | rfl <;> exact absurd hdigit (by decide)
        · cases heq
      | hexadecimal _ hcs hlt => exact ⟨n, readHex?_eq_some_iff.mpr ⟨hcs, hlt⟩, rfl⟩
  unfold literal?
  split
  · next cs heq =>
    rw [heq]
    exact hhex (.inl rfl)
  · next cs heq =>
    rw [heq]
    exact hhex (.inr rfl)
  · next hx hX =>
    refine (iff_of_eq (congrArg (· = some v) (decimal_word lexeme.toList))).trans ?_
    rw [Option.map_eq_some_iff]
    constructor
    · rintro ⟨n, hn, rfl⟩
      obtain ⟨hcs, hlt⟩ := readWordDecimal?_iff.mp hn
      exact ⟨n, .decimal hcs (Nat.le_of_lt_succ hlt), rfl⟩
    · rintro ⟨n, hword, rfl⟩
      generalize lexeme.toList = cs at hword hx hX ⊢
      cases hword with
      | decimal hcs hle => exact ⟨n, readWordDecimal?_iff.mpr ⟨hcs, Nat.lt_succ_of_le hle⟩, rfl⟩
      | hexadecimal hprefix _ _ =>
        rcases hprefix with rfl | rfl
        · exact absurd rfl (hx _)
        · exact absurd rfl (hX _)

end Words

section Doubles

variable {cs : List Char}

theorem readDigits?_eq_some_iff {n : Nat} :
    readDigits? cs = some n ↔ FigureText 10 cs ∧ n = numeral 10 cs := by
  rw [figureText_ten]
  by_cases hds : DigitText isDigit cs
  · simp [readDigits?, digitText_iff.mp hds, hds, ofDigits_isDigit hds.2, eq_comm]
  · have hnone := Bool.not_eq_false _ ▸ mt digitText_iff.mpr hds
    simp [readDigits?, hnone, hds]

theorem readExponent?_eq_some_iff {e : Int} : readExponent? cs = some e ↔ Exponent cs e := by
  constructor
  · intro h
    unfold readExponent? at h
    split at h
    · cases h
      exact .none
    · next c cs =>
      split at h
      · cases h
      · next hletter =>
        have hc : c = 'e' ∨ c = 'E' := by
          rw [Bool.and_eq_true, bne_iff_ne, bne_iff_ne] at hletter
          tauto
        split at h <;> obtain ⟨n, hn, rfl⟩ := Option.map_eq_some_iff.mp h <;>
          obtain ⟨hds, rfl⟩ := readDigits?_eq_some_iff.mp hn
        · exact .negative hc hds
        · exact .positive hc ⟨_, .inr rfl, hds, rfl⟩
        · exact .positive hc ⟨_, .inl rfl, hds, rfl⟩
  · have hread : ∀ {ds}, FigureText 10 ds → readDigits? ds = some (numeral 10 ds) :=
      fun hds => readDigits?_eq_some_iff.mpr ⟨hds, rfl⟩
    have hletter : ∀ {c : Char}, c = 'e' ∨ c = 'E' → (c != 'e' && c != 'E') = false := by
      rintro c (rfl | rfl) <;> rfl
    intro h
    cases h with
    | none => rfl
    | negative hc hds => simp [readExponent?, hletter hc, hread hds]
    | positive hc hcs =>
      obtain ⟨ds, rfl | rfl, hds, rfl⟩ := hcs
      · -- the first digit is no sign
        obtain ⟨d, rest, rfl, hd⟩ := (figureText_ten.mp hds).head
        have hminus : d ≠ '-' := ne_of_isDigit hd (by decide)
        have hplus : d ≠ '+' := ne_of_isDigit hd (by decide)
        simp [readExponent?, hletter hc, hread hds, hminus, hplus]
      · simp [readExponent?, hletter hc, hread hds]

theorem Exponent.stops {e : Int} (h : Exponent cs e) :
    (∀ c ∈ cs.head?, isDigit c = false) ∧ cs.head? ≠ some '.' := by
  have hletter : ∀ {c : Char}, c = 'e' ∨ c = 'E' → isDigit c = false ∧ c ≠ '.' := by
    rintro c (rfl | rfl) <;> decide
  cases h with
  | none => simp
  | positive hc _ => simpa using hletter hc
  | negative hc _ => simpa using hletter hc

theorem readMagnitude?_of_parts {ms es : List Char} {m k : Nat} {e : Int} (hm : Mantissa ms m k)
    (he : Exponent es e) : readMagnitude? (ms ++ es) = some (scaledBits m (e - k)) := by
  obtain ⟨hstop, hpoint⟩ := he.stops
  have hread := readExponent?_eq_some_iff.mpr he
  cases hm with
  | whole hfigures =>
    have hds := figureText_ten.mp hfigures
    rw [readMagnitude?_whole hds hstop hpoint hread, ofDigits_isDigit hds.2, Nat.cast_zero,
      sub_zero]
  | @pointed whole fraction hfigures =>
    have hds := figureText_ten.mp hfigures
    obtain ⟨hw, hf⟩ := List.forall_mem_append.mp hds.2
    have hne : whole ≠ [] ∨ fraction ≠ [] := by
      by_contra hempty
      rw [not_or, not_not, not_not] at hempty
      exact hds.1 (by rw [hempty.1, hempty.2, List.append_nil])
    rw [List.append_assoc, List.cons_append, readMagnitude?_point hw hf hne hstop hread,
      ofDigits_isDigit hds.2]

theorem exists_parts {bits : Nat} (h : readMagnitude? cs = some bits) :
    ∃ ms es m k e, cs = ms ++ es ∧ Mantissa ms m k ∧ Exponent es e ∧
      bits = scaledBits m (e - (k : Nat)) := by
  have hsplit : cs.takeWhile isDigit ++ cs.dropWhile isDigit = cs :=
    List.takeWhile_append_dropWhile
  have hwhole : ∀ c ∈ cs.takeWhile isDigit, isDigit c = true := fun c => List.mem_takeWhile_imp
  unfold readMagnitude? at h
  generalize cs.takeWhile isDigit = whole at *
  generalize cs.dropWhile isDigit = after at *
  split at h
  next fraction rest hparts =>
  dsimp only at h
  split at h
  · cases h
  · next hne =>
    obtain ⟨e, he, hbits⟩ := Option.bind_eq_some_iff.mp h
    have hexponent := readExponent?_eq_some_iff.mp he
    have hbits := (Option.some.inj hbits).symm
    split at hparts
    · next after =>
      cases hparts
      have hfraction : ∀ c ∈ after.takeWhile isDigit, isDigit c = true :=
        fun c => List.mem_takeWhile_imp
      have hdigits : DigitText isDigit (whole ++ after.takeWhile isDigit) :=
        ⟨by simpa using hne, List.forall_mem_append.mpr ⟨hwhole, hfraction⟩⟩
      rw [ofDigits_isDigit hdigits.2] at hbits
      refine ⟨_, _, _, _, e, ?_, .pointed (figureText_ten.mpr hdigits), hexponent, hbits⟩
      rw [List.append_assoc, List.cons_append, List.takeWhile_append_dropWhile, hsplit]
    · cases hparts
      have hdigits : DigitText isDigit whole := ⟨by simpa using hne, hwhole⟩
      rw [List.append_nil, ofDigits_isDigit hwhole] at hbits
      exact ⟨whole, _, _, _, e, hsplit.symm, .whole (figureText_ten.mpr hdigits), hexponent, hbits⟩

theorem readMagnitude?_eq_some_iff {bits : Nat} : readMagnitude? cs = some bits ↔
    ∃ ms es m k e, cs = ms ++ es ∧ Mantissa ms m k ∧ Exponent es e ∧
      Nearest (m * 10 ^ (e - (k : Nat))) bits := by
  constructor
  · intro h
    obtain ⟨ms, es, m, k, e, hcs, hm, he, rfl⟩ := exists_parts h
    exact ⟨ms, es, m, k, e, hcs, hm, he, scaledBits_nearest _ _⟩
  · rintro ⟨ms, es, m, k, e, rfl, hm, he, hnearest⟩
    rw [readMagnitude?_of_parts hm he, (scaledBits_nearest _ _).unique hnearest]

theorem Mantissa.head {ms : List Char} {m k : Nat} (h : Mantissa ms m k) :
    ∃ c rest, ms = c :: rest ∧ c ∈ '.' :: digitChars := by
  have hdigit : ∀ {c}, isDigit c = true → c ∈ '.' :: digitChars := fun hc =>
    List.mem_cons_of_mem _ (mem_digitChars (isHexDigit_of_isDigit hc))
  cases h with
  | whole hds =>
    obtain ⟨d, ds, rfl, hd⟩ := (figureText_ten.mp hds).head
    exact ⟨d, ds, rfl, hdigit hd⟩
  | @pointed whole fraction hds =>
    cases whole with
    | nil => exact ⟨'.', fraction, rfl, List.mem_cons_self⟩
    | cons d ds => exact ⟨d, _, rfl, hdigit ((figureText_ten.mp hds).2 d (by simp))⟩

theorem ne_of_mem_digitChars {c : Char} (h : c ∈ '.' :: digitChars) :
    c ≠ '-' ∧ c ≠ '+' ∧ c.toLower ≠ 'i' ∧ c.toLower ≠ 'n' := by
  have hall : (('.' :: digitChars).all fun d =>
      d ≠ '-' ∧ d ≠ '+' ∧ d.toLower ≠ 'i' ∧ d.toLower ≠ 'n') = true := by decide +kernel
  exact of_decide_eq_true (List.all_eq_true.mp hall c h)

theorem ofList_beq_iff (ds : List Char) (word : String) :
    (String.ofList ds == word) = true ↔ ds = word.toList := by
  rw [beq_iff_eq]
  constructor
  · rintro rfl
    rw [String.toList_ofList]
  · rintro rfl
    rw [String.ofList_toList]

theorem readUnsigned?_eq_some_iff {bits : Nat} :
    readUnsigned? cs = some bits ↔ Magnitude cs bits := by
  unfold readUnsigned?
  simp only [Bool.or_eq_true, ofList_beq_iff]
  constructor
  · intro h
    split at h
    · next hword =>
      cases h
      exact .infinity hword
    · split at h
      · next hword =>
        cases h
        exact .nan hword
      · obtain ⟨ms, es, m, k, e, rfl, hm, he, hnearest⟩ := readMagnitude?_eq_some_iff.mp h
        exact .decimal hm he hnearest
  · intro h
    cases h with
    | infinity hword => rw [if_pos hword]; rfl
    | nan hword =>
      have hother : ¬ ("nan".toList = "inf".toList ∨ "nan".toList = "infinity".toList) := by decide
      rw [if_neg (hword ▸ hother), if_pos hword]
    | @decimal ms es m k bits e hm he hnearest =>
      obtain ⟨c, rest, rfl, hc⟩ := hm.head
      obtain ⟨-, -, hi, hn⟩ := ne_of_mem_digitChars hc
      have hinf : ¬ ((c :: rest ++ es).map Char.toLower = "inf".toList ∨
          (c :: rest ++ es).map Char.toLower = "infinity".toList) := by
        rintro (heq | heq)
        · exact hi (List.cons.inj heq).1
        · exact hi (List.cons.inj heq).1
      have hnan : (c :: rest ++ es).map Char.toLower ≠ "nan".toList :=
        fun heq => hn (List.cons.inj heq).1
      rw [if_neg hinf, if_neg hnan]
      exact readMagnitude?_eq_some_iff.mpr ⟨_, _, m, k, e, rfl, hm, he, hnearest⟩

theorem Magnitude.head {bits : Nat} (h : Magnitude cs bits) :
    ∀ c ∈ cs.head?, c ≠ '-' ∧ c ≠ '+' := by
  have hword : ∀ {d : Char} {ds : List Char}, cs.map Char.toLower = d :: ds →
      d ≠ '-' → d ≠ '+' → ∀ c ∈ cs.head?, c ≠ '-' ∧ c ≠ '+' := by
    intro d ds heq hminus hplus c hc
    have hlower : c.toLower = d := by
      have hhead := congrArg List.head? heq
      rw [List.head?_map, Option.mem_def.mp hc] at hhead
      exact Option.some.inj hhead
    constructor <;> rintro rfl
    · exact hminus hlower.symm
    · exact hplus hlower.symm
  cases h with
  | decimal hm _ _ =>
    obtain ⟨c, rest, rfl, hc⟩ := hm.head
    rintro _ ⟨⟩
    exact ⟨(ne_of_mem_digitChars hc).1, (ne_of_mem_digitChars hc).2.1⟩
  | infinity heq =>
    rcases heq with heq | heq
    · exact hword heq (by decide) (by decide)
    · exact hword heq (by decide) (by decide)
  | nan heq => exact hword heq (by decide) (by decide)

/-- A text is read as the double that it denotes, and not at all when it denotes none. -/
theorem readDouble?_eq_some_iff {text : String} {x : Float} :
    readDouble? text = some x ↔ DoubleText text.toList x := by
  have hread : ∀ {cs bits}, Magnitude cs bits → readUnsigned? cs = some bits :=
    readUnsigned?_eq_some_iff.mpr
  unfold readDouble?
  generalize text.toList = cs
  constructor
  · intro h
    split at h <;> obtain ⟨bits, hbits, rfl⟩ := Option.map_eq_some_iff.mp h
    · exact .minus (readUnsigned?_eq_some_iff.mp hbits)
    · exact .plus (readUnsigned?_eq_some_iff.mp hbits)
    · exact .unsigned (readUnsigned?_eq_some_iff.mp hbits)
  · intro h
    cases h with
    | unsigned hmagnitude =>
      have hhead := hmagnitude.head
      split
      · exact absurd rfl (hhead _ rfl).1
      · exact absurd rfl (hhead _ rfl).2
      · rw [hread hmagnitude, Option.map_some]
    | plus hmagnitude => simp only [hread hmagnitude, Option.map_some]
    | minus hmagnitude =>
      simp only [hread hmagnitude, Option.map_some]
      rfl

end Doubles

end C1Lang.Number
