import C1Lang.Source.Text
import C1Lang.Token.Lexer

/-!
# Where tokens are cut out of a text

Offsets count bytes. What a scan takes stands behind the characters that were taken before, so the
span of a token or of a diagnostic begins and ends between characters, and the text there is what
was taken (`lex_tokens_within`). Every scan takes a character, so there are no more tokens than
characters. Offsets are stored in 32 bits, which is enough for texts of less than 2 ^ 32 bytes
(`lex_tokens_eq`).
-/

namespace C1Lang

@[simp] theorem byteLength_append (cs ds : List Char) :
    byteLength (cs ++ ds) = byteLength cs + byteLength ds := by
  induction cs with
  | nil => simp [byteLength]
  | cons c cs ih => simp [byteLength, ih, Nat.add_assoc]

theorem length_le_byteLength (cs : List Char) : cs.length ≤ byteLength cs := by
  induction cs with
  | nil => simp [byteLength]
  | cons c cs ih =>
    have hpos := c.utf8Size_pos
    simp only [byteLength, List.length_cons]
    omega

theorem charsFrom_append (n : Nat) (cs rest : List Char) :
    charsFrom n (cs ++ rest) (byteLength cs) = some (n + cs.length) := by
  induction cs generalizing n with
  | nil => cases rest <;> simp [charsFrom, byteLength]
  | cons c cs ih =>
    have hpos := c.utf8Size_pos
    obtain ⟨k, hk⟩ : ∃ k, byteLength (c :: cs) = k + 1 :=
      ⟨c.utf8Size + byteLength cs - 1, by simp only [byteLength]; omega⟩
    have hle : c.utf8Size ≤ k + 1 := by simp only [byteLength] at hk; omega
    have hrest : k + 1 - c.utf8Size = byteLength cs := by simp only [byteLength] at hk; omega
    rw [hk, List.cons_append, charsFrom, if_pos hle, hrest, ih, List.length_cons]
    congr 1
    omega

def CutAt (text : List Char) (span : Span) (taken : List Char) : Prop :=
  ∃ before after, text = before ++ taken ++ after ∧
    span = ⟨byteLength before, byteLength before + byteLength taken⟩

theorem CutAt.slice? {text : String} {span : Span} {taken : List Char}
    (h : CutAt text.toList span taken) (path : String) :
    (SourceFile.ofText path text).slice? span.start span.stop = some (String.ofList taken) := by
  obtain ⟨before, after, htext, rfl⟩ := h
  have hstart : charsIn text.toList (byteLength before) = some before.length := by
    have hchars := charsFrom_append 0 before (taken ++ after)
    rwa [← List.append_assoc, ← htext, Nat.zero_add] at hchars
  have hstop : charsIn text.toList (byteLength before + byteLength taken) =
      some (before.length + taken.length) := by
    have hchars := charsFrom_append 0 (before ++ taken) after
    rwa [← htext, Nat.zero_add, byteLength_append, List.length_append] at hchars
  have hle : byteLength before + byteLength taken ≤ byteLength text.toList := by
    simp [htext]
  have hpiece : ((text.toList.drop before.length).take taken.length) = taken := by
    simp [htext]
  simp [SourceFile.slice?, SourceFile.ofText, hstart, hstop, hle, hpiece]

theorem CutAt.stop_le {text : List Char} {span : Span} {taken : List Char}
    (h : CutAt text span taken) : span.stop ≤ byteLength text := by
  obtain ⟨before, after, rfl, rfl⟩ := h
  simp

theorem CutAt.start_le_stop {text : List Char} {span : Span} {taken : List Char}
    (h : CutAt text span taken) : span.start ≤ span.stop := by
  obtain ⟨before, after, -, rfl⟩ := h
  exact Nat.le_add_right _ _

theorem CutAt.wrap_eq {text : List Char} {span : Span} {taken : List Char}
    (h : CutAt text span taken) (hbytes : byteLength text < 0x100000000) : span.wrap = span := by
  have hstop := Nat.lt_of_le_of_lt h.stop_le hbytes
  exact Span.wrap_of_lt (Nat.lt_of_le_of_lt h.start_le_stop hstop) hstop

namespace Lexer

/-- A token is the text at its span; a diagnostic is about such a text. -/
def Item.Stands (text : List Char) : Item → Prop
  | .token t => ∃ taken, CutAt text t.span taken ∧ t.lexeme = String.ofList taken
  | .problem d => ∃ taken, CutAt text d.span taken

theorem Piece.items_stand {before : List Char} {p : Piece} :
    ∀ item ∈ p.items (byteLength before), item.Stands (before ++ (p.taken ++ p.rest)) := by
  have hcut : CutAt (before ++ (p.taken ++ p.rest))
      ⟨byteLength before, byteLength before + byteLength p.taken⟩ p.taken :=
    ⟨before, p.rest, by rw [List.append_assoc], rfl⟩
  intro item hitem
  unfold Piece.items at hitem
  split at hitem
  · cases hitem
  · obtain rfl := List.mem_singleton.mp hitem
    exact ⟨p.taken, hcut, rfl⟩
  · obtain rfl := List.mem_singleton.mp hitem
    exact ⟨p.taken, hcut⟩

theorem items_stand (before cs : List Char) :
    ∀ item ∈ items (byteLength before) cs, item.Stands (before ++ cs) := by
  -- The offset is that of the characters before, which grow with every scan.
  generalize hpos : byteLength before = pos
  induction pos, cs using items.induct generalizing before with
  | case1 => simp [items]
  | case2 pos c cs ih =>
    subst hpos
    have happend := scan_append c cs
    intro item hitem
    rw [items] at hitem
    rcases List.mem_append.mp hitem with hitem | hitem
    · have hstand := Piece.items_stand item hitem
      rwa [happend] at hstand
    · have hstand := ih (before ++ (scan c cs).taken) (byteLength_append _ _) item hitem
      rwa [List.append_assoc, happend] at hstand

theorem items_length_le (pos : Nat) (cs : List Char) : (items pos cs).length ≤ cs.length := by
  induction pos, cs using items.induct with
  | case1 => simp [items]
  | case2 pos c cs ih =>
    have hpiece : ((scan c cs).items pos).length ≤ 1 := by
      unfold Piece.items
      split <;> simp
    have hrest := scan_rest_length_le c cs
    rw [items, List.length_append, List.length_cons]
    omega

end Lexer

structure Span.Within (span : Span) (path text : String) (piece : String) : Prop where
  slice : (SourceFile.ofText path text).slice? span.start span.stop = some piece
  stop : span.stop ≤ byteLength text.toList

theorem CutAt.within {text : String} {span : Span} {taken : List Char}
    (h : CutAt text.toList span taken) (path : String) :
    span.Within path text (String.ofList taken) :=
  ⟨h.slice? path, h.stop_le⟩

section Short

variable {text : String} (hbytes : byteLength text.toList < 0x100000000)

include hbytes

theorem lex_tokens_eq : (lex text).tokens =
    (Lexer.items 0 text.toList).filterMap Lexer.Item.token? ++
      [⟨.eof, "", ⟨byteLength text.toList, byteLength text.toList⟩⟩] := by
  refine (List.map_congr_left fun t ht => ?_).trans (List.map_id _)
  have hspan : t.span.wrap = t.span := by
    rcases List.mem_append.mp ht with ht | ht
    · obtain ⟨item, hitem, htoken⟩ := List.mem_filterMap.mp ht
      have hstand := Lexer.items_stand [] text.toList item hitem
      cases item with
      | problem d => cases htoken
      | token u =>
        cases htoken
        obtain ⟨taken, hcut, -⟩ := hstand
        exact hcut.wrap_eq hbytes
    · obtain rfl := List.mem_singleton.mp ht
      exact Span.wrap_of_lt hbytes hbytes
  simp only [Token.wrap, hspan, id]

theorem lex_diagnostics_eq : (lex text).diagnostics =
    (Lexer.items 0 text.toList).filterMap Lexer.Item.diagnostic? := by
  refine (List.map_congr_left fun d hd => ?_).trans (List.map_id _)
  have hspan : d.span.wrap = d.span := by
    obtain ⟨item, hitem, hdiagnostic⟩ := List.mem_filterMap.mp hd
    have hstand := Lexer.items_stand [] text.toList item hitem
    cases item with
    | token t => cases hdiagnostic
    | problem e =>
      cases hdiagnostic
      obtain ⟨taken, hcut⟩ := hstand
      exact hcut.wrap_eq hbytes
  simp only [Diagnostic.wrap, hspan, id]

theorem lex_tokens_cut : ∀ t ∈ (lex text).tokens, CutAt text.toList t.span t.lexeme.toList := by
  intro t ht
  rw [lex_tokens_eq hbytes] at ht
  rcases List.mem_append.mp ht with ht | ht
  · obtain ⟨item, hitem, htoken⟩ := List.mem_filterMap.mp ht
    have hstand := Lexer.items_stand [] text.toList item hitem
    cases item with
    | problem d => cases htoken
    | token u =>
      cases htoken
      obtain ⟨taken, hcut, hlexeme⟩ := hstand
      rwa [hlexeme, String.toList_ofList]
  · obtain rfl := List.mem_singleton.mp ht
    exact ⟨text.toList, [], by simp, by simp [byteLength]⟩

theorem lex_diagnostics_cut :
    ∀ d ∈ (lex text).diagnostics, ∃ taken, CutAt text.toList d.span taken := by
  intro d hd
  rw [lex_diagnostics_eq hbytes] at hd
  obtain ⟨item, hitem, hdiagnostic⟩ := List.mem_filterMap.mp hd
  have hstand := Lexer.items_stand [] text.toList item hitem
  cases item with
  | token t => cases hdiagnostic
  | problem e =>
    cases hdiagnostic
    exact hstand

theorem lex_tokens_within (path : String) :
    ∀ t ∈ (lex text).tokens, t.span.Within path text t.lexeme := by
  intro t ht
  have hwithin := (lex_tokens_cut hbytes t ht).within path
  rwa [String.ofList_toList] at hwithin

theorem lex_diagnostics_within (path : String) :
    ∀ d ∈ (lex text).diagnostics, ∃ piece, d.span.Within path text piece := by
  intro d hd
  obtain ⟨taken, hcut⟩ := lex_diagnostics_cut hbytes d hd
  exact ⟨_, hcut.within path⟩

end Short

end C1Lang
