import C1Lang.Proofs.Token.Locality

/-!
# Lexing line by line

A text is lexed line by line, comments that go on over lines apart (`lex_line`). So the tokens of a
text are found again when each is written on a line of its own (`lex_lexemes`).
-/

namespace C1Lang

open Lexer

theorem filterMap_shift (n : Nat) (found : List Item) :
    (found.map (Item.shift n)).filterMap Item.token? =
      (found.filterMap Item.token?).map (Token.shift n) ∧
    (found.map (Item.shift n)).filterMap Item.diagnostic? =
      (found.filterMap Item.diagnostic?).map (Diagnostic.shift n) := by
  induction found with
  | nil => exact ⟨rfl, rfl⟩
  | cons item found ih =>
    cases item with
    | token t => exact ⟨congrArg _ ih.1, ih.2⟩
    | problem d => exact ⟨ih.1, congrArg _ ih.2⟩

theorem items_blanks (pos n : Nat) (cs : List Char) :
    items pos (List.replicate n ' ' ++ cs) = items (pos + n) cs := by
  induction n generalizing pos with
  | zero => rfl
  | succ n ih =>
    have hblank : items pos (' ' :: (List.replicate n ' ' ++ cs)) =
        items (pos + 1) (List.replicate n ' ' ++ cs) := by
      rw [items]
      rfl
    rw [List.replicate_succ, List.cons_append, hblank, ih, Nat.add_assoc, Nat.add_comm 1]

theorem byteLength_blanks (n : Nat) : byteLength (List.replicate n ' ') = n := by
  induction n with
  | zero => rfl
  | succ n ih =>
    have hblank : (' ' : Char).utf8Size = 1 := by decide
    rw [List.replicate_succ, byteLength, ih, hblank, Nat.add_comm]

theorem byteLength_newline (a b : List Char) :
    byteLength (a ++ '\n' :: b) = byteLength a + 1 + byteLength b := by
  have hline : ('\n' : Char).utf8Size = 1 := by decide
  simp only [byteLength_append, byteLength, hline]
  omega

theorem lexChars_append_blanks {a : List Char}
    (h : ∀ d ∈ (lexChars a).diagnostics, d.problem ≠ .unterminatedComment) (n : Nat)
    (b : List Char) :
    (lexChars (a ++ '\n' :: (List.replicate n ' ' ++ b))).tokens =
      (lexChars a).tokens.dropLast ++
        (lexChars b).tokens.map (fun t => (t.shift (byteLength a + 1 + n)).wrap) ∧
    (lexChars (a ++ '\n' :: (List.replicate n ' ' ++ b))).diagnostics =
      (lexChars a).diagnostics ++
        (lexChars b).diagnostics.map (fun d => (d.shift (byteLength a + 1 + n)).wrap) := by
  have hsize : byteLength (a ++ '\n' :: (List.replicate n ' ' ++ b)) =
      byteLength b + (byteLength a + 1 + n) := by
    rw [byteLength_newline, byteLength_append, byteLength_blanks]
    omega
  have hclosed : Closed (items 0 a) := fun d hd => h d.wrap (List.mem_map_of_mem hd)
  have hitems := items_append_newline 0 a (List.replicate n ' ' ++ b) hclosed
  have hshift := items_shift (byteLength a + 1 + n) 0 b
  obtain ⟨htokens, hdiagnostics⟩ := filterMap_shift (byteLength a + 1 + n) (items 0 b)
  rw [Nat.zero_add] at hitems hshift
  rw [items_blanks, hshift] at hitems
  constructor
  · have heof : ∀ m k : Nat, (⟨.eof, "", ⟨m + k, m + k⟩⟩ : Token) =
        Token.shift k ⟨.eof, "", ⟨m, m⟩⟩ := fun _ _ => rfl
    simp only [lexChars, hitems, htokens, hsize, heof _ (byteLength a + 1 + n),
      List.filterMap_append]
    simp [Token.wrap_shift_wrap]
  · simp [lexChars, hitems, hdiagnostics, Diagnostic.wrap_shift_wrap]

theorem lexChars_append_newline {a : List Char}
    (h : ∀ d ∈ (lexChars a).diagnostics, d.problem ≠ .unterminatedComment) (b : List Char) :
    (lexChars (a ++ '\n' :: b)).tokens = (lexChars a).tokens.dropLast ++
      (lexChars b).tokens.map (fun t => (t.shift (byteLength a + 1)).wrap) ∧
    (lexChars (a ++ '\n' :: b)).diagnostics = (lexChars a).diagnostics ++
      (lexChars b).diagnostics.map (fun d => (d.shift (byteLength a + 1)).wrap) :=
  lexChars_append_blanks h 0 b

theorem lex_newline (a b : String) :
    lex (a ++ "\n" ++ b) = lexChars (a.toList ++ '\n' :: b.toList) := by
  simp [lex]

/-- Lines are lexed one by one: unless a comment is open at the end of `a`, what stands behind its
line feed is lexed like a text of its own that begins there. Offsets are those of 32 bits, and
plain ones in a text of less than 2 ^ 32 bytes. -/
theorem lex_line (a b : String)
    (h : ∀ d ∈ (lex a).diagnostics, d.problem ≠ .unterminatedComment) :
    let text := a ++ "\n" ++ b
    let n := byteLength a.toList + 1
    ((lex text).tokens =
        (lex a).tokens.dropLast ++ (lex b).tokens.map (fun t => (t.shift n).wrap) ∧
      (lex text).diagnostics =
        (lex a).diagnostics ++ (lex b).diagnostics.map (fun d => (d.shift n).wrap)) ∧
    (byteLength text.toList < 0x100000000 →
      (lex text).tokens = (lex a).tokens.dropLast ++ (lex b).tokens.map (Token.shift n) ∧
      (lex text).diagnostics =
        (lex a).diagnostics ++ (lex b).diagnostics.map (Diagnostic.shift n)) := by
  intro text n
  have hlex : lex text = lexChars (a.toList ++ '\n' :: b.toList) := lex_newline a b
  obtain ⟨htokens, hdiagnostics⟩ := lexChars_append_newline h b.toList
  rw [hlex]
  refine ⟨⟨htokens, hdiagnostics⟩, fun hbytes => ?_⟩
  have hsize : byteLength text.toList = n + byteLength b.toList := by
    rw [show text.toList = a.toList ++ '\n' :: b.toList by simp [text], byteLength_newline]
  have hb : byteLength b.toList < 0x100000000 := by omega
  -- what is cut out of `b` does not reach 2 ^ 32 bytes in the whole text
  have hfits : ∀ {span taken}, CutAt b.toList span taken → (span.shift n).wrap = span.shift n := by
    intro span taken hcut
    have hle := hcut.start_le_stop
    have hstop := hcut.stop_le
    exact Span.wrap_of_lt (by simp only [Span.shift]; omega) (by simp only [Span.shift]; omega)
  rw [htokens, hdiagnostics]
  constructor
  · refine congrArg _ (List.map_congr_left fun t ht => ?_)
    exact congrArg (Token.mk t.kind t.lexeme) (hfits (lex_tokens_cut hb t ht))
  · refine congrArg _ (List.map_congr_left fun d hd => ?_)
    obtain ⟨taken, hcut⟩ := lex_diagnostics_cut hb d hd
    exact congrArg (Diagnostic.mk d.problem) (hfits hcut)

theorem lex_line_cut :
    (∀ d ∈ (lex "x = 1e").diagnostics, d.problem ≠ .unterminatedComment) ∧
    (lex ("x = 1e" ++ "\n" ++ "+2; /* é")).tokens.map Token.kind =
      [.identifier, .equal, .plus, .int, .semicolon, .eof] ∧
    byteLength ("x = 1e" ++ "\n" ++ "+2; /* é").toList < 0x100000000 ∧
    (lex ("x = 1e" ++ "\n" ++ "+2; /* é")).diagnostics =
      [⟨.malformedNumber, ⟨4, 6⟩⟩, ⟨.unterminatedComment, ⟨11, 16⟩⟩] := by
  have hclosed : ∀ d ∈ (lex "x = 1e").diagnostics, d.problem ≠ .unterminatedComment := by
    decide +kernel
  have hbytes : byteLength ("x = 1e" ++ "\n" ++ "+2; /* é").toList < 0x100000000 := by
    decide +kernel
  obtain ⟨⟨htokens, -⟩, hplain⟩ := lex_line "x = 1e" "+2; /* é" hclosed
  refine ⟨hclosed, ?_, hbytes, ?_⟩
  · rw [htokens]
    decide +kernel
  · rw [(hplain hbytes).2]
    decide +kernel

def farApart (a b : String) : String :=
  String.ofList (a.toList ++ '\n' ::
    (List.replicate (0x100000000 - (byteLength a.toList + 1)) ' ' ++ b.toList))

/-- Behind 2 ^ 32 bytes the offsets begin again at zero. -/
theorem lex_farApart {a : String} (ha : byteLength a.toList < 0x100000000)
    (h : ∀ d ∈ (lex a).diagnostics, d.problem ≠ .unterminatedComment) (b : String) :
    lex (farApart a b) = ⟨(lex a).tokens.dropLast ++ (lex b).tokens,
      (lex a).diagnostics ++ (lex b).diagnostics⟩ := by
  have hfar : byteLength a.toList + 1 + (0x100000000 - (byteLength a.toList + 1)) =
      0x100000000 := by omega
  obtain ⟨htokens, hdiagnostics⟩ :=
    lexChars_append_blanks h (0x100000000 - (byteLength a.toList + 1)) b.toList
  rw [hfar] at htokens hdiagnostics
  have hround : ∀ s : Span, (s.wrap.shift 0x100000000).wrap = s.wrap := by
    simp [Span.wrap, Span.shift]
  have htoken : ∀ t ∈ (lexChars b.toList).tokens, (t.shift 0x100000000).wrap = t := by
    intro t ht
    obtain ⟨u, -, rfl⟩ := List.mem_map.mp ht
    exact congrArg (Token.mk u.kind u.lexeme) (hround u.span)
  have hdiagnostic : ∀ d ∈ (lexChars b.toList).diagnostics, (d.shift 0x100000000).wrap = d := by
    intro d hd
    obtain ⟨e, -, rfl⟩ := List.mem_map.mp hd
    exact congrArg (Diagnostic.mk e.problem) (hround e.span)
  rw [List.map_congr_left htoken, List.map_id'] at htokens
  rw [List.map_congr_left hdiagnostic, List.map_id'] at hdiagnostics
  rw [lex, farApart, String.toList_ofList]
  exact congrArg₂ Lexed.mk htokens hdiagnostics

def Token.spelling (t : Token) : TokenKind × String := (t.kind, t.lexeme)

def lexemeLines (ts : List Token) : String := "\n".intercalate (ts.map Token.lexeme)

/-- A line without mistakes that holds the tokens `found`, and then ends. -/
def Holds (line : String) (found : List (TokenKind × String)) : Prop :=
  (lex line).diagnostics = [] ∧ (lex line).tokens.map Token.spelling = found ++ [(.eof, "")]

theorem holds_empty : Holds "" [] := by
  unfold Holds
  decide +kernel

theorem Holds.newline {line rest : String} {found more : List (TokenKind × String)}
    (h : Holds line found) (k : Holds rest more) :
    Holds (line ++ "\n" ++ rest) (found ++ more) := by
  have hclosed : ∀ d ∈ (lex line).diagnostics, d.problem ≠ .unterminatedComment := by simp [h.1]
  obtain ⟨htokens, hdiagnostics⟩ := lexChars_append_newline hclosed rest.toList
  have hshift : ∀ n, (Token.spelling ∘ fun t => (t.shift n).wrap) = Token.spelling := fun _ => rfl
  rw [Holds, lex_newline, hdiagnostics, htokens]
  change (lex line).diagnostics ++ (lex rest).diagnostics.map _ = [] ∧
    ((lex line).tokens.dropLast ++ (lex rest).tokens.map _).map _ = _
  refine ⟨by rw [h.1, k.1]; rfl, ?_⟩
  rw [List.map_append, List.map_map, hshift, k.2, List.map_dropLast, h.2,
    List.dropLast_concat, List.append_assoc]

theorem holds_lexeme (text : String) {t : Token} (ht : t ∈ (lex text).tokens.dropLast) :
    Holds t.lexeme [t.spelling] := by
  obtain ⟨c, rest, houtcome, hlexeme⟩ := exists_scan_of_token ht
  have hclosed : (scan c rest).outcome ≠ .problem .unterminatedComment := by simp [houtcome]
  obtain ⟨used, htaken, -, hlocal⟩ := scan_taken hclosed
  have hscan := hlocal [] (.nil _)
  rw [List.append_nil] at hscan
  have hitems : items 0 (c :: used) =
      [.token ⟨t.kind, t.lexeme, ⟨0, 0 + byteLength (c :: used)⟩⟩] := by
    rw [items, hscan, Piece.items, houtcome, htaken, items, hlexeme, htaken]
    rfl
  have htext : t.lexeme.toList = c :: used := by rw [hlexeme, htaken, String.toList_ofList]
  unfold Holds lex lexChars
  rw [htext, hitems]
  exact ⟨rfl, rfl⟩

theorem holds_lexemeLines {ts : List Token} (h : ∀ t ∈ ts, Holds t.lexeme [t.spelling]) :
    Holds (lexemeLines ts) (ts.map Token.spelling) := by
  induction ts with
  | nil => exact holds_empty
  | cons t ts ih =>
    obtain ⟨ht, hts⟩ := List.forall_mem_cons.mp h
    cases ts with
    | nil => simpa [lexemeLines] using ht
    | cons u ts =>
      have hlines : lexemeLines (t :: u :: ts) = t.lexeme ++ "\n" ++ lexemeLines (u :: ts) := by
        simp [lexemeLines, String.intercalate_cons_cons]
      rw [hlines]
      exact ht.newline (ih hts)

theorem Holds.lexemeLines_concat {ts : List Token} {found : List (TokenKind × String)}
    (h : Holds (lexemeLines ts) found) {last : Token} (hlast : last.lexeme = "") :
    Holds (lexemeLines (ts ++ [last])) found := by
  cases ts with
  | nil => simpa [lexemeLines, hlast] using h
  | cons t ts =>
    have hlines : lexemeLines (t :: ts ++ [last]) = lexemeLines (t :: ts) ++ "\n" ++ "" := by
      rw [lexemeLines, List.map_append,
        String.intercalate_append_of_ne_nil (by simp) (by simp)]
      simp [lexemeLines, hlast]
    rw [hlines, ← List.append_nil found]
    exact h.newline holds_empty

/-- Tokens are found again when their texts stand on a line each, with or without the empty line of
the end marker: what was taken for a token never needed what stood behind it. -/
theorem lex_lexemes (text : String) :
    let tokens := (lex text).tokens
    ((lex (lexemeLines tokens)).diagnostics = [] ∧
      (lex (lexemeLines tokens)).tokens.map Token.spelling = tokens.map Token.spelling) ∧
    ((lex (lexemeLines tokens.dropLast)).diagnostics = [] ∧
      (lex (lexemeLines tokens.dropLast)).tokens.map Token.spelling =
        tokens.map Token.spelling) := by
  intro tokens
  obtain ⟨front, last, htokens, hkind, hlast⟩ : ∃ front last, tokens = front ++ [last] ∧
      last.kind = .eof ∧ last.lexeme = "" := ⟨_, _, List.map_append, rfl, rfl⟩
  have hfront : tokens.dropLast = front := by rw [htokens, List.dropLast_concat]
  have hspelling : tokens.map Token.spelling = front.map Token.spelling ++ [(.eof, "")] := by
    rw [htokens, List.map_append, List.map_singleton, Token.spelling, hkind, hlast]
  have hlines := holds_lexemeLines fun t ht => holds_lexeme text (hfront.symm ▸ ht)
  rw [hspelling, hfront, htokens]
  exact ⟨hlines.lexemeLines_concat hlast, hlines⟩

end C1Lang
