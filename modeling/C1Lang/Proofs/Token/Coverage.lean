import C1Lang.Proofs.Token.Slices
import Mathlib.Data.List.Forall2
import Mathlib.Data.List.Nodup

/-!
# Lexing loses nothing

A text is blanks, tokens and pieces that are no token, one behind the other (`Covers`). So the
spans of tokens and diagnostics do not overlap and come in the order of the text, every byte
outside of them is a blank, and the text is put together again from the gaps and the pieces
(`lex_lossless`).
-/

namespace C1Lang

def utf8Bytes (cs : List Char) : List UInt8 := cs.flatMap String.utf8EncodeChar

theorem utf8Bytes_append (cs ds : List Char) :
    utf8Bytes (cs ++ ds) = utf8Bytes cs ++ utf8Bytes ds := by
  simp [utf8Bytes]

theorem utf8Bytes_length (cs : List Char) : (utf8Bytes cs).length = byteLength cs := by
  induction cs with
  | nil => rfl
  | cons c cs ih =>
    have hcons := utf8Bytes_append [c] cs
    have hone : (utf8Bytes [c]).length = c.utf8Size := by
      simp [utf8Bytes, String.length_utf8EncodeChar]
    rw [List.singleton_append] at hcons
    rw [hcons, List.length_append, hone, ih, byteLength]

theorem toUTF8_toList (text : String) : text.toUTF8.data.toList = utf8Bytes text.toList := by
  show text.toByteArray.data.toList = _
  rw [← String.utf8Encode_toList]
  simp [utf8Bytes, List.utf8Encode]

def blankBytes : List UInt8 := [0x20, 0x09, 0x0d, 0x0a]

namespace Lexer

theorem isBlank_bytes {c : Char} (h : isBlank c = true) :
    ∃ b ∈ blankBytes, String.utf8EncodeChar c = [b] := by
  simp only [isBlank, Bool.or_eq_true, beq_iff_eq] at h
  obtain ((rfl | rfl) | rfl) | rfl := h
  · exact ⟨0x20, by simp [blankBytes], by decide +kernel⟩
  · exact ⟨0x0d, by simp [blankBytes], by decide +kernel⟩
  · exact ⟨0x09, by simp [blankBytes], by decide +kernel⟩
  · exact ⟨0x0a, by simp [blankBytes], by decide +kernel⟩

def Outcome.Solid : Outcome → Prop
  | .blank => False
  | .token kind => kind ≠ .eof
  | .problem _ => True

theorem integer_solid {kind : TokenKind} (hk : kind ≠ .eof) (taken rest : List Char) :
    (integer kind taken rest).outcome.Solid := by
  unfold integer
  split
  · exact hk
  · trivial

theorem exponent_solid (isFloat : Bool) (taken cs : List Char) :
    (exponent isFloat taken cs).outcome.Solid := by
  have hint : TokenKind.int ≠ .eof := by decide
  have hfloat : TokenKind.float ≠ .eof := by decide
  unfold exponent
  split
  · split
    · dsimp only
      split
      · trivial
      · exact hfloat
    · split
      · exact hfloat
      · exact integer_solid hint _ _
  · split
    · exact hfloat
    · exact integer_solid hint _ _

theorem number_solid (c : Char) (cs : List Char) : (number c cs).outcome.Solid := by
  have hex : ∀ x cs, (hexadecimal x cs).outcome.Solid := by
    intro x cs
    unfold hexadecimal
    dsimp only
    split
    · trivial
    · exact integer_solid (by decide) _ _
  unfold number
  split
  · exact hex _ _
  · exact hex _ _
  · unfold decimal
    dsimp only
    split
    · exact exponent_solid _ _ _
    · exact exponent_solid _ _ _

theorem slash_solid (cs : List Char) : (slash cs).outcome.Solid := by
  have hline : TokenKind.lineComment ≠ .eof := by decide
  have hblock : TokenKind.blockComment ≠ .eof := by decide
  have hslash : TokenKind.slash ≠ .eof := by decide
  unfold slash
  split
  · exact hline
  · unfold blockComment
    split
    · exact hblock
    · trivial
  · exact hslash

theorem word_solid (c : Char) (cs : List Char) : (word c cs).outcome.Solid := by
  show (TokenKind.keyword? (String.ofList (c :: cs.takeWhile isWordChar))).getD .identifier ≠ .eof
  generalize String.ofList (c :: cs.takeWhile isWordChar) = name
  unfold TokenKind.keyword?
  split <;> simp

theorem comparison_solid {c : Char} {alone : Outcome} {doubled : TokenKind}
    (h : comparison? c = some (alone, doubled)) (cs : List Char) :
    (comparison c alone doubled cs).outcome.Solid := by
  have hboth : alone.Solid ∧ doubled ≠ .eof := by
    unfold comparison? at h
    split at h <;> cases h <;> simp [Outcome.Solid]
  unfold comparison
  split
  · exact hboth.2
  · exact hboth.1

theorem scan_blank_or_solid (c : Char) (cs : List Char) :
    isBlank c = true ∧ scan c cs = ⟨.blank, [c], cs⟩ ∨ (scan c cs).outcome.Solid := by
  unfold scan
  split
  · next kind hkind =>
    right
    show kind ≠ .eof
    unfold punctuation? at hkind
    split at hkind <;> cases hkind <;> decide
  · next hcomparison => exact .inr (comparison_solid hcomparison cs)
  · split
    · exact .inr (slash_solid cs)
    · split
      · next hblank => exact .inl ⟨hblank, rfl⟩
      · split
        · exact .inr (number_solid c cs)
        · split
          · exact .inr (word_solid c cs)
          · exact .inr trivial

def Item.span : Item → Span
  | .token t => t.span
  | .problem d => d.span

theorem Item.Stands.cut {text : List Char} {item : Item} (h : item.Stands text) :
    ∃ taken, CutAt text item.span taken := by
  cases item with
  | token t =>
    obtain ⟨taken, hcut, -⟩ := h
    exact ⟨taken, hcut⟩
  | problem d => exact h

def Item.Is (taken : List Char) : Item → Prop
  | .token t => t.lexeme = String.ofList taken ∧ t.kind ≠ .eof
  | .problem _ => True

/-- From the offset `pos` on the text is made of blanks and of the items, in this order. -/
inductive Covers : Nat → List Char → List Item → Prop
  | done {pos : Nat} : Covers pos [] []
  | blank {pos : Nat} {c : Char} {cs : List Char} {found : List Item} :
      isBlank c = true → Covers (pos + c.utf8Size) cs found → Covers pos (c :: cs) found
  | piece {pos : Nat} {taken rest : List Char} {item : Item} {found : List Item} :
      taken ≠ [] → item.Is taken → item.span = ⟨pos, pos + byteLength taken⟩ →
      Covers (pos + byteLength taken) rest found → Covers pos (taken ++ rest) (item :: found)

theorem items_cover (pos : Nat) (cs : List Char) : Covers pos cs (items pos cs) := by
  induction pos, cs using items.induct with
  | case1 =>
    rw [items]
    exact .done
  | case2 pos c cs ih =>
    rw [items]
    rcases scan_blank_or_solid c cs with ⟨hblank, hscan⟩ | hsolid
    · rw [hscan] at ih ⊢
      exact .blank hblank ih
    · have happend := scan_append c cs
      have htaken := scan_taken_ne_nil c cs
      generalize scan c cs = p at *
      obtain ⟨outcome, taken, rest⟩ := p
      dsimp only at *
      rw [← happend]
      cases outcome with
      | blank => exact hsolid.elim
      | token kind => exact .piece htaken ⟨rfl, hsolid⟩ rfl ih
      | problem problem => exact .piece htaken trivial rfl ih

namespace Covers

variable {pos : Nat} {cs : List Char} {found : List Item}

theorem start_le (h : Covers pos cs found) : ∀ item ∈ found, pos ≤ item.span.start := by
  induction h with
  | done => simp
  | blank _ _ ih =>
    intro item hitem
    exact Nat.le_trans (Nat.le_add_right _ _) (ih item hitem)
  | piece _ _ hspan _ ih =>
    intro item hitem
    rcases List.mem_cons.mp hitem with rfl | hitem
    · simp [hspan]
    · exact Nat.le_trans (Nat.le_add_right _ _) (ih item hitem)

theorem apart (h : Covers pos cs found) :
    (found.map Item.span).Pairwise (fun a b => a.stop ≤ b.start) := by
  induction h with
  | done => exact .nil
  | blank _ _ ih => exact ih
  | piece _ _ hspan hrest ih =>
    refine .cons (fun b hb => ?_) ih
    obtain ⟨item, hitem, rfl⟩ := List.mem_map.mp hb
    rw [hspan]
    exact hrest.start_le item hitem

theorem start_lt_stop (h : Covers pos cs found) :
    ∀ item ∈ found, item.span.start < item.span.stop := by
  induction h with
  | done => simp
  | blank _ _ ih => exact ih
  | @piece pos taken rest item found htaken _ hspan _ ih =>
    intro item' hitem
    rcases List.mem_cons.mp hitem with rfl | hitem
    · have hpos := List.length_pos_iff.mpr htaken
      have hbytes := length_le_byteLength taken
      rw [hspan]
      dsimp only
      omega
    · exact ih item' hitem

theorem kind_ne_eof (h : Covers pos cs found) :
    ∀ t ∈ found.filterMap Item.token?, t.kind ≠ .eof := by
  induction h with
  | done => simp
  | blank _ _ ih => exact ih
  | @piece pos taken rest item found _ his _ _ ih =>
    cases item with
    | problem d => exact ih
    | token t => exact List.forall_mem_cons.mpr ⟨his.2, ih⟩

theorem blank_byte (h : Covers pos cs found) :
    ∀ i b, (utf8Bytes cs)[i]? = some b →
      (∀ item ∈ found, ¬ (item.span.start ≤ pos + i ∧ pos + i < item.span.stop)) →
      b ∈ blankBytes := by
  induction h with
  | done =>
    intro i b hb
    simp [utf8Bytes] at hb
  | @blank pos c cs found hc _ ih =>
    intro i b hb hout
    obtain ⟨x, hx, hbytes⟩ := isBlank_bytes hc
    have hsize : c.utf8Size = 1 := by
      rw [← String.length_utf8EncodeChar, hbytes]
      rfl
    have hcons : utf8Bytes (c :: cs) = x :: utf8Bytes cs := by simp [utf8Bytes, hbytes]
    rw [hcons] at hb
    cases i with
    | zero =>
      obtain rfl : x = b := by simpa using hb
      exact hx
    | succ i =>
      refine ih i b (by simpa using hb) fun item hitem => ?_
      have hnot := hout item hitem
      rw [hsize]
      rwa [show pos + (i + 1) = pos + 1 + i by omega] at hnot
  | @piece pos taken rest item found _ _ hspan _ ih =>
    intro i b hb hout
    have hlen := utf8Bytes_length taken
    have hhead := hout item List.mem_cons_self
    simp only [hspan] at hhead
    have hi : byteLength taken ≤ i := by omega
    rw [utf8Bytes_append, List.getElem?_append_right (by omega), hlen] at hb
    refine ih _ b hb fun item' hitem => ?_
    have hnot := hout item' (List.mem_cons_of_mem _ hitem)
    rwa [show pos + byteLength taken + (i - byteLength taken) = pos + i by omega]

/-- The text is put together again from the gaps and the pieces, which stand at their spans. -/
theorem exists_gaps (h : Covers pos cs found) (before : List Char)
    (hpos : pos = byteLength before) :
    ∃ (gaps pieces : List (List Char)) (last : List Char),
      (∀ gap ∈ last :: gaps, ∀ c ∈ gap, isBlank c = true) ∧ gaps.length = found.length ∧
      List.Forall₂ (CutAt (before ++ cs)) (found.map Item.span) pieces ∧
      cs = (List.zipWith (· ++ ·) gaps pieces).flatten ++ last := by
  induction h generalizing before with
  | done => exact ⟨[], [], [], by simp, rfl, .nil, rfl⟩
  | @blank pos c cs found hc _ ih =>
    obtain ⟨gaps, pieces, last, hblank, hlen, hcut, htext⟩ :=
      ih (before ++ [c]) (by simp [hpos, byteLength])
    rw [List.append_assoc, List.singleton_append] at hcut
    cases gaps with
    | nil =>
      refine ⟨[], pieces, c :: last, ?_, hlen, hcut, by simp [htext]⟩
      simpa [hc] using hblank
    | cons gap gaps =>
      cases pieces with
      | nil =>
        have hnil := hcut.length_eq
        simp only [List.length_map, List.length_nil, ← hlen, List.length_cons] at hnil
        omega
      | cons piece pieces =>
        refine ⟨(c :: gap) :: gaps, piece :: pieces, last, ?_, hlen, hcut, by simp [htext]⟩
        simpa [hc] using hblank
  | @piece pos taken rest item found _ _ hspan _ ih =>
    obtain ⟨gaps, pieces, last, hblank, hlen, hcut, htext⟩ :=
      ih (before ++ taken) (by simp [hpos])
    refine ⟨[] :: gaps, taken :: pieces, last, ?_, by simp [hlen], .cons ?_ ?_, by simp [htext]⟩
    · simpa using hblank
    · exact ⟨before, rest, by rw [List.append_assoc], by rw [hspan, hpos]⟩
    · rwa [List.append_assoc] at hcut

end Covers

end Lexer

def Lexed.spans (l : Lexed) : List Span :=
  ((l.tokens.filter (·.kind != .eof)).map Token.span ++ l.diagnostics.map Diagnostic.span).mergeSort
    fun a b => a.start ≤ b.start

open Lexer

theorem spans_perm (found : List Item) :
    (found.map Item.span).Perm ((found.filterMap Item.token?).map Token.span ++
      (found.filterMap Item.diagnostic?).map Diagnostic.span) := by
  induction found with
  | nil => exact .nil
  | cons item found ih =>
    cases item with
    | token t => exact ih.cons _
    | problem d => exact (ih.cons _).trans List.perm_middle.symm

theorem items_apart (cs : List Char) :
    (items 0 cs).Pairwise (fun a b => a.span.stop ≤ b.span.start) :=
  List.pairwise_map.mp (items_cover 0 cs).apart

section Short

variable {text : String} (hbytes : byteLength text.toList < 0x100000000)

include hbytes

theorem filter_lex_tokens : (lex text).tokens.filter (·.kind != .eof) =
    (items 0 text.toList).filterMap Item.token? := by
  have hkinds := (items_cover 0 text.toList).kind_ne_eof
  rw [lex_tokens_eq hbytes, List.filter_append,
    List.filter_eq_self.mpr (by simpa using hkinds)]
  simp

theorem lex_spans : (lex text).spans = (items 0 text.toList).map Item.span := by
  have hcover := items_cover 0 text.toList
  have hstrict : ((items 0 text.toList).map Item.span).Pairwise
      (fun a b => a.start < b.start) := by
    refine hcover.apart.imp_of_mem fun {a b} ha _ hab => ?_
    obtain ⟨item, hitem, rfl⟩ := List.mem_map.mp ha
    exact Nat.lt_of_lt_of_le (hcover.start_lt_stop item hitem) hab
  have hsorted : (lex text).spans.Pairwise (fun a b => a.start ≤ b.start) := by
    have hsort : ∀ spans : List Span, (spans.mergeSort fun a b => a.start ≤ b.start).Pairwise
        fun a b => decide (a.start ≤ b.start) = true :=
      List.pairwise_mergeSort (by simpa using fun a b c : Span => Nat.le_trans)
        (by simp [Nat.le_total])
    exact (hsort _).imp (by simp)
  have hperm : (lex text).spans.Perm ((items 0 text.toList).map Item.span) := by
    refine (List.mergeSort_perm _ _).trans ?_
    rw [filter_lex_tokens hbytes, lex_diagnostics_eq hbytes]
    exact (spans_perm _).symm
  -- no two of them start at the same byte, so that there is only one order
  have hnodup : (((items 0 text.toList).map Item.span).map Span.start).Nodup :=
    (List.pairwise_map.mpr hstrict).imp Nat.ne_of_lt
  refine hperm.eq_of_pairwise (fun a b ha hb hab hba => ?_) hsorted (hstrict.imp Nat.le_of_lt)
  exact List.inj_on_of_nodup_map hnodup (hperm.subset ha) hb (Nat.le_antisymm hab hba)

theorem lex_tokens_apart : (lex text).tokens.Pairwise (fun a b => a.span.stop ≤ b.span.start) := by
  rw [lex_tokens_eq hbytes, List.pairwise_append]
  refine ⟨?_, List.pairwise_singleton _ _, fun a ha b hb => ?_⟩
  · refine (items_apart text.toList).filterMap _ ?_
    intro x y hxy t ht u hu
    cases x <;> cases ht
    cases y <;> cases hu
    exact hxy
  · obtain rfl := List.mem_singleton.mp hb
    have hmem : a ∈ (lex text).tokens := by
      rw [lex_tokens_eq hbytes]
      exact List.mem_append_left _ ha
    exact (lex_tokens_within hbytes "" a hmem).stop

theorem lex_diagnostics_apart :
    (lex text).diagnostics.Pairwise (fun a b => a.span.stop ≤ b.span.start) := by
  rw [lex_diagnostics_eq hbytes]
  refine (items_apart text.toList).filterMap _ ?_
  intro x y hxy d hd e he
  cases x <;> cases hd
  cases y <;> cases he
  exact hxy

end Short

/-- The tokens and the diagnostics stand apart from each other in the text, in its order and
between characters, with blanks only around them; every token is the text at its span, and the
end marker comes last. So the text is made of the pieces and of the gaps between them. -/
theorem lex_lossless (path text : String) (hbytes : byteLength text.toList < 0x100000000) :
    let l := lex text
    let slice? := fun span : Span => (SourceFile.ofText path text).slice? span.start span.stop
    (∀ span ∈ l.spans, span.start < span.stop ∧ span.stop ≤ byteLength text.toList ∧
      ∃ piece, slice? span = some piece) ∧
    l.spans.Pairwise (fun a b => a.stop ≤ b.start) ∧
    (∀ (i : Nat) (b : UInt8), text.toUTF8.data.toList[i]? = some b →
      (∀ span ∈ l.spans, ¬ (span.start ≤ i ∧ i < span.stop)) → b ∈ blankBytes) ∧
    (∀ t ∈ l.tokens, slice? t.span = some t.lexeme) ∧
    l.tokens.Pairwise (fun a b => a.span.stop ≤ b.span.start) ∧
    l.diagnostics.Pairwise (fun a b => a.span.stop ≤ b.span.start) ∧
    (∃ front, l.tokens = front ++
      [⟨.eof, "", ⟨byteLength text.toList, byteLength text.toList⟩⟩] ∧
      ∀ t ∈ front, t.kind ≠ .eof) ∧
    ∃ (gaps pieces : List (List Char)) (last : List Char),
      (∀ gap ∈ last :: gaps, ∀ c ∈ gap, isBlank c = true) ∧ gaps.length = l.spans.length ∧
      List.Forall₂ (fun span piece => slice? span = some (String.ofList piece)) l.spans pieces ∧
      text.toList = (List.zipWith (· ++ ·) gaps pieces).flatten ++ last := by
  intro l slice?
  have hcover := items_cover 0 text.toList
  have hspans : l.spans = (items 0 text.toList).map Item.span := lex_spans hbytes
  obtain ⟨gaps, pieces, last, hblank, hlen, hcut, htext⟩ := hcover.exists_gaps [] rfl
  rw [← hspans] at hcut
  refine ⟨fun span hspan => ?_, hspans ▸ hcover.apart, fun i b hb hout => ?_,
    fun t ht => (lex_tokens_within hbytes path t ht).slice, lex_tokens_apart hbytes,
    lex_diagnostics_apart hbytes, ⟨_, lex_tokens_eq hbytes, hcover.kind_ne_eof⟩,
    gaps, pieces, last, hblank, by simp [hspans, hlen], hcut.imp ?_, htext⟩
  · have hmem := hspan
    rw [hspans] at hmem
    obtain ⟨item, hitem, rfl⟩ := List.mem_map.mp hmem
    obtain ⟨taken, htaken⟩ := (items_stand [] text.toList item hitem).cut
    exact ⟨hcover.start_lt_stop item hitem, htaken.stop_le, _, htaken.slice? path⟩
  · rw [toUTF8_toList] at hb
    refine hcover.blank_byte i b hb fun item hitem => ?_
    rw [Nat.zero_add]
    exact hout _ (hspans ▸ List.mem_map_of_mem hitem)
  · intro span piece hpiece
    exact hpiece.slice? path

theorem lex_lossless_accent :
    let text := "x = 08;\t/* é"
    byteLength text.toList < 0x100000000 ∧
    (lex text).spans = [⟨0, 1⟩, ⟨2, 3⟩, ⟨4, 6⟩, ⟨6, 7⟩, ⟨8, 13⟩] ∧
    (∀ t ∈ (lex text).tokens,
      (SourceFile.ofText "a.c1" text).slice? t.span.start t.span.stop = some t.lexeme) ∧
    (lex text).spans.Pairwise fun a b => a.stop ≤ b.start := by
  have hbytes : byteLength "x = 08;\t/* é".toList < 0x100000000 := by decide +kernel
  obtain ⟨-, happart, -, hslice, -⟩ := lex_lossless "a.c1" "x = 08;\t/* é" hbytes
  refine ⟨hbytes, ?_, hslice, happart⟩
  rw [lex_spans hbytes]
  decide +kernel

end C1Lang
