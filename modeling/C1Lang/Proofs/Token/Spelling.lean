import C1Lang.Number.Decimal
import C1Lang.Proofs.Token.Locality

/-!
# How tokens are spelled

Numbers and names are spelled as the language has them, and the integers among them fit a word
(`lex_spelled`). So what was taken for a number can be read as one.
-/

namespace C1Lang

open Number (isDigit isHexDigit ofDigits)
open Lexer

def DigitText (digit : Char → Bool) (cs : List Char) : Prop := cs ≠ [] ∧ ∀ c ∈ cs, digit c = true

def ExponentPart (cs : List Char) : Prop :=
  ∃ e sign digits, cs = e :: (sign ++ digits) ∧ (e = 'e' ∨ e = 'E') ∧
    (sign = [] ∨ sign = ['+'] ∨ sign = ['-']) ∧ DigitText isDigit digits

/-- Digits with a point behind or among them, or digits behind a point. -/
def Pointed (cs : List Char) : Prop :=
  (∃ whole fraction, cs = whole ++ '.' :: fraction ∧ DigitText isDigit whole ∧
    ∀ c ∈ fraction, isDigit c = true) ∨
  ∃ fraction, cs = '.' :: fraction ∧ DigitText isDigit fraction

def FloatText (cs : List Char) : Prop :=
  ∃ mantissa exponent, cs = mantissa ++ exponent ∧
    (Pointed mantissa ∧ (exponent = [] ∨ ExponentPart exponent) ∨
      DigitText isDigit mantissa ∧ ExponentPart exponent)

def NameText (cs : List Char) : Prop :=
  ∃ c rest, cs = c :: rest ∧ isLetter c = true ∧ ∀ d ∈ rest, isWordChar d = true

/-- How a number or a name is written. -/
def Spelled : TokenKind → List Char → Prop
  | .int, cs => DigitText isDigit cs ∧ ofDigits 10 cs ≤ 2147483648
  | .hex, cs => ∃ x digits, cs = '0' :: x :: digits ∧ (x = 'x' ∨ x = 'X') ∧
      DigitText isHexDigit digits ∧ ofDigits 16 digits < 4294967296
  | .float, cs => FloatText cs
  | .identifier, cs => NameText cs ∧ TokenKind.keyword? (String.ofList cs) = none
  | _, _ => True

theorem DigitText.head {digit : Char → Bool} {cs : List Char} (h : DigitText digit cs) :
    ∃ d ds, cs = d :: ds ∧ digit d = true := by
  cases cs with
  | nil => exact absurd rfl h.1
  | cons d ds => exact ⟨d, ds, rfl, h.2 d List.mem_cons_self⟩

namespace Number

theorem ne_of_isDigit {c d : Char} (hc : isDigit c = true) (hd : isDigit d = false) : c ≠ d := by
  rintro rfl
  rw [hc] at hd
  cases hd

theorem dropPlus_digits {digit : Char → Bool} (hplus : digit '+' = false) {cs : List Char}
    (h : DigitText digit cs) : dropPlus cs = cs := by
  unfold dropPlus
  split
  · next rest =>
    have hhead := h.2 '+' List.mem_cons_self
    rw [hplus] at hhead
    cases hhead
  · rfl

theorem readBelow?_digits {digit : Char → Bool} (hplus : digit '+' = false) {cs : List Char}
    (h : DigitText digit cs) (base bound : Nat) :
    readBelow? base digit bound cs =
      if ofDigits base cs < bound then some (ofDigits base cs) else none := by
  have hempty : cs.isEmpty = false := List.isEmpty_eq_false_iff.mpr h.1
  have hall : cs.all digit = true := List.all_eq_true.mpr h.2
  simp [readBelow?, dropPlus_digits hplus h, hempty, hall]

theorem literal?_digits {cs : List Char} (h : DigitText isDigit cs) :
    literal? (String.ofList cs) =
      if ofDigits 10 cs ≤ minMagnitude then some (Int32.ofNat (ofDigits 10 cs)) else none := by
  have hnox : ∀ x rest, cs = '0' :: x :: rest → isDigit x = true := by
    rintro x rest rfl
    exact h.2 x (by simp)
  unfold literal?
  rw [String.toList_ofList]
  split
  · next rest => exact absurd (hnox _ _ rfl) (by decide)
  · next rest => exact absurd (hnox _ _ rfl) (by decide)
  · rw [readDecimal?, readBelow?_digits (by decide) h]
    unfold minMagnitude
    by_cases hn : ofDigits 10 cs < 0x10000000000000000
    · simp [hn]
    · have hn' : ¬ ofDigits 10 cs ≤ 0x80000000 := by omega
      simp [hn, hn']

theorem isMinMagnitude_digits {cs : List Char} (h : DigitText isDigit cs) :
    isMinMagnitude (String.ofList cs) = true ↔ ofDigits 10 cs = minMagnitude := by
  unfold isMinMagnitude
  rw [String.toList_ofList, readDecimal?, readBelow?_digits (by decide) h]
  unfold minMagnitude
  split
  · simp
  · simp
    omega

theorem literal?_hex {x : Char} (hx : x = 'x' ∨ x = 'X') {cs : List Char}
    (h : DigitText isHexDigit cs) :
    literal? (String.ofList ('0' :: x :: cs)) =
      if ofDigits 16 cs < 4294967296 then some (Int32.ofNat (ofDigits 16 cs)) else none := by
  unfold literal?
  rw [String.toList_ofList]
  rcases hx with rfl | rfl
  · simp only [readHex?, readBelow?_digits (by decide) h]
    split <;> simp
  · simp only [readHex?, readBelow?_digits (by decide) h]
    split <;> simp

theorem readExponent?_isSome {cs : List Char} (h : cs = [] ∨ ExponentPart cs) :
    (readExponent? cs).isSome = true := by
  rcases h with rfl | ⟨e, sign, digits, rfl, he, hsign, hdigits⟩
  · rfl
  have hempty : digits.isEmpty = false := List.isEmpty_eq_false_iff.mpr hdigits.1
  have hall : digits.all isDigit = true := List.all_eq_true.mpr hdigits.2
  have hletter : (e != 'e' && e != 'E') = false := by rcases he with rfl | rfl <;> rfl
  rcases hsign with rfl | rfl | rfl
  · obtain ⟨d, ds, rfl, hd⟩ := hdigits.head
    have hminus : d ≠ '-' := ne_of_isDigit hd (by decide)
    have hplus : d ≠ '+' := ne_of_isDigit hd (by decide)
    have hds : ∀ c ∈ ds, isDigit c = true := (List.forall_mem_cons.mp hdigits.2).2
    simpa [readExponent?, readDigits?, hletter, hminus, hplus, hd] using hds
  · simp [readExponent?, readDigits?, hletter, hempty, hall]
  · simp [readExponent?, readDigits?, hletter, hempty, hall]

theorem exponent_head {cs : List Char} (h : cs = [] ∨ ExponentPart cs) :
    ∀ c ∈ cs.head?, isDigit c = false := by
  rcases h with rfl | ⟨e, sign, digits, rfl, rfl | rfl, -⟩
  · simp
  · rintro _ ⟨⟩
    decide
  · rintro _ ⟨⟩
    decide

theorem readMagnitude?_point {whole fraction exponent : List Char} {e : Int}
    (hw : ∀ c ∈ whole, isDigit c = true) (hf : ∀ c ∈ fraction, isDigit c = true)
    (hne : whole ≠ [] ∨ fraction ≠ []) (hstop : ∀ c ∈ exponent.head?, isDigit c = false)
    (he : readExponent? exponent = some e) :
    readMagnitude? (whole ++ '.' :: (fraction ++ exponent)) =
      some (scaledBits (ofDigits 10 (whole ++ fraction)) (e - fraction.length)) := by
  have hpoint : ∀ c ∈ ('.' :: (fraction ++ exponent)).head?, isDigit c = false := by
    rintro _ ⟨⟩
    decide
  obtain ⟨htake, hdrop⟩ := span_append hw hpoint
  obtain ⟨htake', hdrop'⟩ := span_append hf hstop
  have hsome : (whole.isEmpty && fraction.isEmpty) = false := by
    rcases hne with h | h <;> simp [h]
  simp only [readMagnitude?, htake, hdrop, htake', hdrop', hsome, he]
  rfl

theorem readMagnitude?_whole {whole exponent : List Char} {e : Int} (hw : DigitText isDigit whole)
    (hstop : ∀ c ∈ exponent.head?, isDigit c = false) (hpoint : exponent.head? ≠ some '.')
    (he : readExponent? exponent = some e) :
    readMagnitude? (whole ++ exponent) = some (scaledBits (ofDigits 10 whole) e) := by
  obtain ⟨htake, hdrop⟩ := span_append hw.2 hstop
  have hsome : whole.isEmpty = false := List.isEmpty_eq_false_iff.mpr hw.1
  unfold readMagnitude?
  simp only [htake, hdrop]
  split
  · simp at hpoint
  · simp [hsome, he]

theorem readMagnitude?_isSome {cs : List Char} (h : FloatText cs) :
    (readMagnitude? cs).isSome = true := by
  obtain ⟨mantissa, exponent, rfl, hparts⟩ := h
  have hexponent : exponent = [] ∨ ExponentPart exponent := by
    rcases hparts with ⟨-, he⟩ | ⟨-, he⟩
    · exact he
    · exact .inr he
  obtain ⟨e, he⟩ := Option.isSome_iff_exists.mp (readExponent?_isSome hexponent)
  have hstop := exponent_head hexponent
  rcases hparts with ⟨⟨whole, fraction, rfl, hw, hf⟩ | ⟨fraction, rfl, hf⟩, -⟩ | ⟨hdigits, hpart⟩
  · rw [List.append_assoc, List.cons_append, readMagnitude?_point hw.2 hf (.inl hw.1) hstop he]
    rfl
  · have hread := readMagnitude?_point (List.forall_mem_nil _) hf.2 (.inr hf.1) hstop he
    rw [List.nil_append] at hread
    rw [List.cons_append, hread]
    rfl
  · have hpoint : exponent.head? ≠ some '.' := by
      obtain ⟨e, sign, digits, rfl, rfl | rfl, -⟩ := hpart <;> simp
    rw [readMagnitude?_whole hdigits hstop hpoint he]
    rfl

theorem floatText_head {cs : List Char} (h : FloatText cs) :
    ∃ c rest, cs = c :: rest ∧ c ≠ '-' ∧ c ≠ '+' := by
  have hdigit : ∀ {d : Char}, isDigit d = true → d ≠ '-' ∧ d ≠ '+' := fun hd =>
    ⟨ne_of_isDigit hd (by decide), ne_of_isDigit hd (by decide)⟩
  obtain ⟨mantissa, exponent, rfl, ⟨hpoint, -⟩ | ⟨hdigits, -⟩⟩ := h
  · rcases hpoint with ⟨whole, fraction, rfl, hw, -⟩ | ⟨fraction, rfl, -⟩
    · obtain ⟨d, ds, rfl, hd⟩ := hw.head
      exact ⟨d, _, rfl, hdigit hd⟩
    · exact ⟨'.', _, rfl, by decide⟩
  · obtain ⟨d, ds, rfl, hd⟩ := hdigits.head
    exact ⟨d, _, rfl, hdigit hd⟩

theorem readDouble?_isSome {cs : List Char} (h : FloatText cs) :
    (readDouble? (String.ofList cs)).isSome = true := by
  have hmagnitude := readMagnitude?_isSome h
  obtain ⟨c, rest, rfl, hminus, hplus⟩ := floatText_head h
  unfold readDouble?
  rw [String.toList_ofList]
  split
  · next heq => cases heq; exact absurd rfl hminus
  · next heq => cases heq; exact absurd rfl hplus
  · rw [Option.isSome_map]
    unfold readUnsigned?
    dsimp only
    split
    · rfl
    · split
      · rfl
      · exact hmagnitude

end Number

namespace Lexer

theorem integer_spelled {kind k : TokenKind} {taken rest : List Char}
    (h : (integer kind taken rest).outcome = .token k) :
    kind = k ∧ (Number.literal? (String.ofList taken)).isSome = true := by
  unfold integer at h
  split at h
  · next n hn =>
    cases h
    simp [hn]
  · cases h

theorem int_spelled {k : TokenKind} {taken rest : List Char} (hd : DigitText isDigit taken)
    (h : (integer .int taken rest).outcome = .token k) : Spelled k taken := by
  obtain ⟨rfl, hsome⟩ := integer_spelled h
  rw [Number.literal?_digits hd] at hsome
  by_cases hn : ofDigits 10 taken ≤ Number.minMagnitude
  · exact ⟨hd, hn⟩
  · rw [if_neg hn] at hsome
    cases hsome

theorem hexadecimal_spelled {x : Char} (hx : x = 'x' ∨ x = 'X') {cs : List Char} {k : TokenKind}
    (h : (hexadecimal x cs).outcome = .token k) : Spelled k (hexadecimal x cs).taken := by
  unfold hexadecimal at h ⊢
  dsimp only at h ⊢
  split at h
  · cases h
  · next hne =>
    have hd : DigitText isHexDigit (cs.takeWhile isHexDigit) :=
      ⟨by simpa using hne, fun c hc => List.mem_takeWhile_imp hc⟩
    obtain ⟨rfl, hsome⟩ := integer_spelled h
    rw [if_neg hne, integer_taken]
    rw [Number.literal?_hex hx hd] at hsome
    by_cases hn : ofDigits 16 (cs.takeWhile isHexDigit) < 4294967296
    · exact ⟨x, _, rfl, hx, hd, hn⟩
    · rw [if_neg hn] at hsome
      cases hsome

theorem exponentSign_cases (cs : List Char) :
    (exponentSign cs).1 = [] ∨ (exponentSign cs).1 = ['+'] ∨ (exponentSign cs).1 = ['-'] := by
  unfold exponentSign
  split <;> simp

def Mantissa (isFloat : Bool) (cs : List Char) : Prop :=
  if isFloat then Pointed cs else DigitText isDigit cs

theorem exponent_spelled (isFloat : Bool) {taken : List Char} (hm : Mantissa isFloat taken)
    {cs : List Char} {k : TokenKind} (h : (exponent isFloat taken cs).outcome = .token k) :
    Spelled k (exponent isFloat taken cs).taken := by
  by_cases hends : ∀ e ∈ cs.head?, (e == 'e' || e == 'E') = false
  · rw [exponent_ends hends] at h ⊢
    cases isFloat with
    | true =>
      cases h
      exact ⟨taken, [], by simp, .inl ⟨hm, .inl rfl⟩⟩
    | false =>
      have hd : DigitText isDigit taken := hm
      simp only [Bool.false_eq_true, if_false, integer_taken] at h ⊢
      exact int_spelled hd h
  · cases cs with
    | nil => simp at hends
    | cons e cs =>
      have he : (e == 'e' || e == 'E') = true := by
        simpa only [List.head?_cons, Option.mem_some_iff, forall_eq', Bool.not_eq_false] using hends
      obtain ⟨sign, after, hs⟩ : ∃ sign after, exponentSign cs = (sign, after) := ⟨_, _, rfl⟩
      have hsign := exponentSign_cases cs
      rw [hs] at hsign
      rw [exponent_marked he isFloat taken hs] at h ⊢
      unfold marked at h ⊢
      by_cases hne : (after.takeWhile isDigit).isEmpty = true
      · rw [if_pos hne] at h
        cases h
      · rw [if_neg hne] at h
        cases h
        have hdigits : DigitText isDigit (after.takeWhile isDigit) :=
          ⟨by simpa using hne, fun c hc => List.mem_takeWhile_imp hc⟩
        have hexponent : ExponentPart (e :: (sign ++ after.takeWhile isDigit)) :=
          ⟨e, sign, _, rfl, by simpa using he, hsign, hdigits⟩
        cases isFloat with
        | true => exact ⟨taken, _, rfl, .inl ⟨hm, .inr hexponent⟩⟩
        | false => exact ⟨taken, _, rfl, .inr ⟨hm, hexponent⟩⟩

theorem decimal_spelled {c : Char} {cs : List Char} (hn : startsNumber c cs = true)
    {k : TokenKind} (h : (decimal c cs).outcome = .token k) : Spelled k (decimal c cs).taken := by
  have hwhole : ∀ d ∈ cs.takeWhile isDigit, isDigit d = true := fun d hd =>
    List.mem_takeWhile_imp hd
  unfold decimal at h ⊢
  dsimp only at h ⊢
  split at h
  · next hpoint =>
    obtain rfl := eq_of_beq hpoint
    rw [if_pos hpoint]
    have hdot : isDigit '.' = false := by decide
    have hne : cs.takeWhile isDigit ≠ [] := by
      cases cs with
      | nil => simp [startsNumber, hdot] at hn
      | cons d cs =>
        have hd : isDigit d = true := by simpa [startsNumber, hdot] using hn
        simp [hd]
    have hpointed : Pointed ('.' :: cs.takeWhile isDigit) := .inr ⟨_, rfl, hne, hwhole⟩
    exact exponent_spelled true hpointed h
  · next hpoint =>
    have hdigit : isDigit c = true := by simpa [startsNumber, hpoint] using hn
    have hdigits : DigitText isDigit (c :: cs.takeWhile isDigit) :=
      ⟨by simp, List.forall_mem_cons.mpr ⟨hdigit, hwhole⟩⟩
    rw [if_neg hpoint]
    refine exponent_spelled _ ?_ h
    unfold fraction
    split
    · next rest _ =>
      have hpointed : Pointed ((c :: cs.takeWhile isDigit) ++ '.' :: rest.takeWhile isDigit) :=
        .inl ⟨_, _, rfl, hdigits, fun d hd => List.mem_takeWhile_imp hd⟩
      exact hpointed
    · simpa [Mantissa] using hdigits

theorem number_spelled {c : Char} {cs : List Char} (hn : startsNumber c cs = true)
    {k : TokenKind} (h : (number c cs).outcome = .token k) : Spelled k (number c cs).taken := by
  by_cases hx : ∃ x rest, c = '0' ∧ cs = x :: rest ∧ (x = 'x' ∨ x = 'X')
  · obtain ⟨x, rest, rfl, rfl, hx⟩ := hx
    have heq : number '0' (x :: rest) = hexadecimal x rest := by
      rcases hx with rfl | rfl <;> rfl
    rw [heq] at h ⊢
    exact hexadecimal_spelled hx h
  · rw [number.eq_3 c cs (fun rest hc hr => hx ⟨_, rest, hc, hr, .inl rfl⟩)
      (fun rest hc hr => hx ⟨_, rest, hc, hr, .inr rfl⟩)] at h ⊢
    exact decimal_spelled hn h

theorem word_spelled {c : Char} (hc : isLetter c = true) {cs : List Char} {k : TokenKind}
    (h : (word c cs).outcome = .token k) : Spelled k (word c cs).taken := by
  unfold word at h ⊢
  dsimp only at h ⊢
  have hname : NameText (c :: cs.takeWhile isWordChar) :=
    ⟨c, _, rfl, hc, fun d hd => List.mem_takeWhile_imp hd⟩
  cases hkeyword : TokenKind.keyword? (String.ofList (c :: cs.takeWhile isWordChar)) with
  | none =>
    rw [hkeyword] at h
    cases h
    exact ⟨hname, hkeyword⟩
  | some kind =>
    rw [hkeyword] at h
    cases h
    unfold TokenKind.keyword? at hkeyword
    split at hkeyword <;> cases hkeyword <;> trivial

theorem punctuation_spelled {c : Char} {kind : TokenKind} (h : punctuation? c = some kind)
    (cs : List Char) : Spelled kind cs := by
  unfold punctuation? at h
  split at h <;> cases h <;> trivial

theorem comparison_spelled {c : Char} {alone : Outcome} {doubled k : TokenKind}
    (hc : comparison? c = some (alone, doubled)) {cs : List Char}
    (h : (comparison c alone doubled cs).outcome = .token k) (ds : List Char) : Spelled k ds := by
  have hk : k = doubled ∨ alone = .token k := by
    unfold comparison at h
    split at h
    · exact .inl (by cases h; rfl)
    · exact .inr h
  unfold comparison? at hc
  split at hc <;> cases hc <;> rcases hk with rfl | hk <;> first | trivial | (cases hk; trivial)

theorem slash_spelled {cs : List Char} {k : TokenKind} (h : (slash cs).outcome = .token k)
    (ds : List Char) : Spelled k ds := by
  unfold slash at h
  split at h
  · cases h
    trivial
  · unfold blockComment at h
    split at h
    · cases h
      trivial
    · cases h
  · cases h
    trivial

theorem scan_spelled {c : Char} {cs : List Char} {k : TokenKind}
    (h : (scan c cs).outcome = .token k) : Spelled k (scan c cs).taken := by
  unfold scan at h ⊢
  split at h
  · next hkind =>
    cases h
    exact punctuation_spelled hkind _
  · next hcomparison => exact comparison_spelled hcomparison h _
  · split at h
    · exact slash_spelled h _
    · next hslash =>
      split at h
      · cases h
      · next hblank =>
        rw [if_neg hslash, if_neg hblank]
        split at h
        · next hn =>
          rw [if_pos hn]
          exact number_spelled hn h
        · next hn =>
          rw [if_neg hn]
          split at h
          · next hletter =>
            rw [if_pos hletter]
            exact word_spelled hletter h
          · cases h

end Lexer

theorem lex_spelled (text : String) :
    ∀ t ∈ (lex text).tokens, Spelled t.kind t.lexeme.toList := by
  intro t ht
  have htokens : (lex text).tokens = (lex text).tokens.dropLast ++
      [Token.wrap ⟨.eof, "", ⟨byteLength text.toList, byteLength text.toList⟩⟩] := by
    simp [lex, lexChars]
  rw [htokens] at ht
  rcases List.mem_append.mp ht with ht | ht
  · obtain ⟨c, rest, houtcome, hlexeme⟩ := exists_scan_of_token ht
    rw [hlexeme, String.toList_ofList]
    exact scan_spelled houtcome
  · obtain rfl := List.mem_singleton.mp ht
    trivial

end C1Lang
