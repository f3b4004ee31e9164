import C1Lang.Proofs.Token.Slices

/-!
# Lexing what was written

`Lexes cs rest reads` says that in front of `rest` the characters `cs` are lexed without a
diagnostic, wherever they stand in a text, to tokens that `reads` describes. A number that was
written in decimal digits is read as that number.
-/

namespace C1Lang

namespace Number

theorem isDigit_eq (c : Char) : isDigit c = c.isDigit := by
  have h : ∀ d e : Char, (d ≤ e) = (d.val ≤ e.val) := fun _ _ => rfl
  simp only [isDigit, Char.isDigit, h, ge_iff_le]

theorem isDigit_of_mem_toDigits {n : Nat} {c : Char} (h : c ∈ Nat.toDigits 10 n) :
    isDigit c = true := by
  rw [isDigit_eq]
  exact Nat.isDigit_of_mem_toDigits (by omega) (by omega) h

theorem ofDigits_toDigits (n : Nat) : ofDigits 10 (Nat.toDigits 10 n) = n := by
  have hfold : ofDigits 10 (Nat.toDigits 10 n) = Nat.ofDigitChars 10 (Nat.toDigits 10 n) 0 := by
    rw [ofDigits, Nat.ofDigitChars_eq_foldl]
    refine List.foldl_rel rfl fun c hc a b hab => ?_
    rw [digitValue, if_pos (isDigit_of_mem_toDigits hc), hab, Nat.mul_comm]
  rw [hfold, Nat.ofDigitChars_ten_toDigits]

theorem exists_toDigits (n : Nat) : ∃ d ds, Nat.toDigits 10 n = d :: ds ∧ isDigit d = true ∧
    ∀ c ∈ ds, isDigit c = true := by
  cases h : Nat.toDigits 10 n with
  | nil => exact absurd h Nat.toDigits_ne_nil
  | cons d ds =>
    have hdigits : ∀ c ∈ d :: ds, isDigit c = true :=
      fun c hc => isDigit_of_mem_toDigits (h ▸ hc)
    exact ⟨d, ds, rfl, (List.forall_mem_cons.mp hdigits).1, (List.forall_mem_cons.mp hdigits).2⟩

theorem readDecimal?_toDigits {n : Nat} (h : n < 0x10000000000000000) :
    readDecimal? (Nat.toDigits 10 n) = some n := by
  obtain ⟨d, ds, hds, hd, hdigits⟩ := exists_toDigits n
  have hplus : dropPlus (Nat.toDigits 10 n) = Nat.toDigits 10 n := by
    rw [hds]
    unfold dropPlus
    split
    · next heq =>
      cases heq
      exact absurd hd (by decide)
    · rfl
  have hall : (Nat.toDigits 10 n).all isDigit = true :=
    List.all_eq_true.mpr fun c hc => isDigit_of_mem_toDigits hc
  have hempty : (Nat.toDigits 10 n).isEmpty = false := by simp [hds]
  simp [readDecimal?, readBelow?, hplus, hall, hempty, ofDigits_toDigits, h]

theorem literal?_toDigits {n : Nat} (h : n ≤ minMagnitude) :
    literal? (String.ofList (Nat.toDigits 10 n)) = some (Int32.ofNat n) := by
  obtain ⟨d, ds, hds, hd, hdigits⟩ := exists_toDigits n
  have hread := readDecimal?_toDigits (n := n) (by unfold minMagnitude at h; omega)
  have hx : ∀ x rest, ds = x :: rest → isDigit x = true := by
    rintro x rest rfl
    exact hdigits x List.mem_cons_self
  unfold literal?
  rw [String.toList_ofList]
  split
  · next rest heq =>
    cases hds.symm.trans heq
    exact absurd (hx _ _ rfl) (by decide)
  · next rest heq =>
    cases hds.symm.trans heq
    exact absurd (hx _ _ rfl) (by decide)
  · simp [hread, h]

theorem isMinMagnitude_toDigits {n : Nat} (h : n < minMagnitude) :
    isMinMagnitude (String.ofList (Nat.toDigits 10 n)) = false := by
  have hread := readDecimal?_toDigits (n := n) (by unfold minMagnitude at h; omega)
  simp [isMinMagnitude, hread, Nat.ne_of_lt h]

end Number

namespace Lexer

open Number (isDigit)

/-- In front of `rest` the characters are lexed to tokens that `reads` describes. -/
def Lexes (cs rest : List Char) (reads : List Token → Prop) : Prop :=
  ∀ pos, ∃ ts : List Token,
    items pos (cs ++ rest) = ts.map .token ++ items (pos + byteLength cs) rest ∧
    reads (ts.map Token.wrap)

def Single (kind : TokenKind) (cs : List Char) (ts : List Token) : Prop :=
  ∃ t, ts = [t] ∧ t.kind = kind ∧ t.lexeme = String.ofList cs

namespace Lexes

variable {cs ds rest : List Char} {reads reads' : List Token → Prop}

theorem append (h : Lexes cs (ds ++ rest) reads) (k : Lexes ds rest reads') :
    Lexes (cs ++ ds) rest (fun ts => ∃ us vs, ts = us ++ vs ∧ reads us ∧ reads' vs) := by
  intro pos
  obtain ⟨us, hus, hreads⟩ := h pos
  obtain ⟨vs, hvs, hreads'⟩ := k (pos + byteLength cs)
  refine ⟨us ++ vs, ?_, _, _, List.map_append, hreads, hreads'⟩
  rw [List.append_assoc, hus, hvs, List.map_append, List.append_assoc, byteLength_append,
    Nat.add_assoc]

theorem mono (h : Lexes cs rest reads) (hr : ∀ ts, reads ts → reads' ts) :
    Lexes cs rest reads' := by
  intro pos
  obtain ⟨ts, hts, hreads⟩ := h pos
  exact ⟨ts, hts, hr _ hreads⟩

theorem token {c : Char} {kind : TokenKind}
    (h : scan c (cs ++ rest) = ⟨.token kind, c :: cs, rest⟩) :
    Lexes (c :: cs) rest (Single kind (c :: cs)) := by
  intro pos
  refine ⟨[⟨kind, String.ofList (c :: cs), ⟨pos, pos + byteLength (c :: cs)⟩⟩], ?_, _, rfl, rfl,
    rfl⟩
  rw [List.cons_append, items, h]
  rfl

theorem blank {c : Char} (h : scan c rest = ⟨.blank, [c], rest⟩) :
    Lexes [c] rest (fun ts => ts = []) := by
  intro pos
  refine ⟨[], ?_, rfl⟩
  rw [List.singleton_append, items, h]
  rfl

end Lexes

theorem Lexes.spaced {cs rest : List Char} {reads : List Token → Prop}
    (h : Lexes cs (' ' :: rest) reads) : Lexes (cs ++ [' ']) rest reads := by
  refine (h.append (.blank rfl)).mono ?_
  rintro _ ⟨us, _, rfl, hus, rfl⟩
  rwa [List.append_nil]

theorem punctuation_lexes {c : Char} {kind : TokenKind} (h : punctuation? c = some kind)
    (rest : List Char) : Lexes [c] rest (Single kind [c]) := by
  refine .token ?_
  simp [scan, h]

def EndsNumber (rest : List Char) : Prop :=
  ∀ c cs, rest = c :: cs → isDigit c = false ∧ c ≠ '.' ∧ c ≠ 'e' ∧ c ≠ 'E' ∧ c ≠ 'x' ∧ c ≠ 'X'

theorem EndsNumber.cons {c : Char} (hd : isDigit c = false)
    (hc : c ≠ '.' ∧ c ≠ 'e' ∧ c ≠ 'E' ∧ c ≠ 'x' ∧ c ≠ 'X') (cs : List Char) :
    EndsNumber (c :: cs) := by
  rintro _ _ ⟨⟩
  exact ⟨hd, hc⟩

theorem takeWhile_digits {ds rest : List Char} (hd : ∀ c ∈ ds, isDigit c = true)
    (hr : EndsNumber rest) :
    (ds ++ rest).takeWhile isDigit = ds ∧ (ds ++ rest).dropWhile isDigit = rest := by
  rw [List.takeWhile_append_of_pos hd, List.dropWhile_append_of_pos hd]
  cases rest with
  | nil => simp
  | cons c cs => simp [(hr c cs rfl).1]

theorem fraction_of_ends {rest : List Char} (hr : EndsNumber rest) :
    fraction rest = ([], rest) := by
  unfold fraction
  split
  · next cs => exact absurd rfl (hr '.' cs rfl).2.1
  · rfl

theorem exponent_of_ends {rest : List Char} (hr : EndsNumber rest) (taken : List Char) :
    exponent false taken rest = integer .int taken rest := by
  unfold exponent
  split
  · next e cs =>
    obtain ⟨-, -, he, hE, -⟩ := hr e cs rfl
    simp [he, hE]
  · rfl

theorem number_of_ends {d : Char} {ds rest : List Char} (hd : isDigit d = true)
    (hds : ∀ c ∈ ds, isDigit c = true) (hr : EndsNumber rest) :
    number d (ds ++ rest) = integer .int (d :: ds) rest := by
  -- Neither a digit nor what ends the number makes it hexadecimal.
  have hx : ∀ x cs, ds ++ rest = x :: cs → x ≠ 'x' ∧ x ≠ 'X' := by
    intro x cs heq
    cases ds with
    | nil => exact ⟨(hr x cs heq).2.2.2.2.1, (hr x cs heq).2.2.2.2.2⟩
    | cons c ds =>
      cases heq
      have hc := hds x List.mem_cons_self
      constructor <;> rintro rfl <;> exact absurd hc (by decide)
  obtain ⟨htake, hdrop⟩ := takeWhile_digits hds hr
  have hpoint : (d == '.') = false := by
    cases hp : d == '.' with
    | false => rfl
    | true =>
      rw [eq_of_beq hp] at hd
      exact absurd hd (by decide)
  unfold number
  split
  · next cs heq => exact absurd rfl (hx _ _ heq).1
  · next cs heq => exact absurd rfl (hx _ _ heq).2
  · simp [decimal, htake, hdrop, hpoint, fraction_of_ends hr, exponent_of_ends hr]

theorem scan_of_isDigit {d : Char} (hd : isDigit d = true) (cs : List Char) :
    scan d cs = number d cs := by
  have hpunctuation : punctuation? d = none := by
    unfold punctuation?
    split <;> first | rfl | exact absurd hd (by decide)
  have hcomparison : comparison? d = none := by
    unfold comparison?
    split <;> first | rfl | exact absurd hd (by decide)
  have hslash : d ≠ '/' := by
    rintro rfl
    exact absurd hd (by decide)
  have hblank : isBlank d = false := by
    rw [Bool.eq_false_iff]
    intro hb
    simp only [isBlank, Bool.or_eq_true, beq_iff_eq] at hb
    obtain ((rfl | rfl) | rfl) | rfl := hb <;> exact absurd hd (by decide)
  simp [scan, hpunctuation, hcomparison, hslash, hblank, startsNumber, hd]

theorem number_lexes {n : Nat} (hn : n ≤ Number.minMagnitude) {rest : List Char}
    (hr : EndsNumber rest) :
    Lexes (Nat.toDigits 10 n) rest (Single .int (Nat.toDigits 10 n)) := by
  obtain ⟨d, ds, heq, hd, hds⟩ := Number.exists_toDigits n
  have hliteral := Number.literal?_toDigits hn
  rw [heq] at hliteral ⊢
  refine .token ?_
  rw [scan_of_isDigit hd, number_of_ends hd hds hr, integer, hliteral]

end Lexer

theorem lex_of_lexes {text : String} {reads : List Token → Prop}
    (h : Lexer.Lexes text.toList [] reads) :
    ∃ ts eof, (lex text).tokens = ts ++ [eof] ∧ eof.kind = .eof ∧ (lex text).diagnostics = [] ∧
      reads ts := by
  obtain ⟨ts, hts, hreads⟩ := h 0
  rw [List.append_nil, Lexer.items, List.append_nil] at hts
  let eof : Token := ⟨.eof, "", ⟨byteLength text.toList, byteLength text.toList⟩⟩
  refine ⟨ts.map Token.wrap, eof.wrap, ?_, rfl, ?_, hreads⟩
  · have hfound : (ts.map Lexer.Item.token).filterMap Lexer.Item.token? = ts := by
      rw [List.filterMap_map]
      exact List.filterMap_some
    simp only [lex, lexChars, hts, hfound, List.map_append, List.map_singleton, eof]
  · have hfound : (ts.map Lexer.Item.token).filterMap Lexer.Item.diagnostic? = [] := by
      rw [List.filterMap_map]
      exact List.filterMap_eq_nil_iff.mpr fun _ _ => rfl
    simp only [lex, lexChars, hts, hfound, List.map_nil]

end C1Lang
