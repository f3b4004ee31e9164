import C1Lang.Diagnostic.Render
import C1Lang.Proofs.Source.LineTable

/-!
# Carets under a span

The excerpt of a diagnostic shows the line in which its span begins, and carets under it. They begin
at the column of the span, and when the span ends in its line there are as many as it has
characters. Of a span that goes on in later lines the carets do not reach the end of the line: their
number is that of the bytes of the whole line less the column, counted from one. From line 1000 on
the margin of the line is wider than that of the carets (`carets_exact`).
-/

namespace C1Lang

def charStarts (pos : Nat) : List Char → List Nat
  | [] => []
  | c :: cs => pos :: charStarts (pos + c.utf8Size) cs

/-- How many characters of a text begin in both spans. -/
def sharedChars (cs : List Char) (a b : Span) : Nat :=
  (charStarts 0 cs).countP fun p => max a.start b.start ≤ p ∧ p < min a.stop b.stop

def Line.extent (l : Line) : Span := ⟨l.start, l.start + byteLength l.content⟩

section Starts

theorem charStarts_append (pos : Nat) (cs ds : List Char) :
    charStarts pos (cs ++ ds) = charStarts pos cs ++ charStarts (pos + byteLength cs) ds := by
  induction cs generalizing pos with
  | nil => rfl
  | cons c cs ih => simp only [List.cons_append, charStarts, ih, byteLength, Nat.add_assoc]

theorem charStarts_length (pos : Nat) (cs : List Char) :
    (charStarts pos cs).length = cs.length := by
  induction cs generalizing pos with
  | nil => rfl
  | cons c cs ih => simp only [charStarts, List.length_cons, ih]

theorem charStarts_bounds {pos p : Nat} {cs : List Char} (h : p ∈ charStarts pos cs) :
    pos ≤ p ∧ p < pos + byteLength cs := by
  induction cs generalizing pos with
  | nil => cases h
  | cons c cs ih =>
    have hpos := c.utf8Size_pos
    rw [byteLength]
    rcases List.mem_cons.mp h with rfl | h
    · omega
    · have hrest := ih h
      omega

theorem countP_charStarts (before inside after : List Char) {start stop : Nat}
    (hstart : start = byteLength before) (hstop : stop = start + byteLength inside) :
    (charStarts 0 (before ++ (inside ++ after))).countP (fun p => start ≤ p ∧ p < stop) =
      inside.length := by
  rw [charStarts_append, charStarts_append, List.countP_append, List.countP_append]
  have hbefore : (charStarts 0 before).countP (fun p => start ≤ p ∧ p < stop) = 0 := by
    apply List.countP_eq_zero.mpr
    intro p hp
    have hbounds := charStarts_bounds hp
    simp only [decide_eq_true_eq]
    omega
  have hinside : (charStarts (0 + byteLength before) inside).countP
      (fun p => start ≤ p ∧ p < stop) = inside.length := by
    rw [← charStarts_length (0 + byteLength before) inside]
    apply List.countP_eq_length.mpr
    intro p hp
    have hbounds := charStarts_bounds hp
    simp only [decide_eq_true_eq]
    omega
  have hafter : (charStarts (0 + byteLength before + byteLength inside) after).countP
      (fun p => start ≤ p ∧ p < stop) = 0 := by
    apply List.countP_eq_zero.mpr
    intro p hp
    have hbounds := charStarts_bounds hp
    simp only [decide_eq_true_eq]
    omega
  omega

theorem countP_charStarts_empty (cs : List Char) {start stop : Nat} (h : stop ≤ start) :
    (charStarts 0 cs).countP (fun p => start ≤ p ∧ p < stop) = 0 := by
  apply List.countP_eq_zero.mpr
  intro p _
  simp only [decide_eq_true_eq]
  omega

end Starts

theorem prefix_of_byteLength_le {a b cs : List Char} (ha : a <+: cs) (hb : b <+: cs)
    (h : byteLength a ≤ byteLength b) : a <+: b := by
  obtain ⟨after, rfl⟩ := ha
  obtain ⟨after', hcs⟩ := hb
  obtain ⟨e, he⟩ := exists_append_of_byteLength_le hcs.symm h
  exact ⟨e, he.symm⟩

theorem sharedChars_of_prefix {before a b cs : List Char} (ha : a <+: cs) (hb : b <+: cs)
    {start : Nat} (hstart : start = byteLength before) :
    (charStarts 0 (before ++ cs)).countP
        (fun p => start ≤ p ∧ p < start + min (byteLength a) (byteLength b)) =
      min a.length b.length := by
  by_cases hle : byteLength a ≤ byteLength b
  · obtain ⟨after, rfl⟩ := ha
    rw [countP_charStarts before a after hstart (by omega)]
    have hlength := (prefix_of_byteLength_le (List.prefix_append a after) hb hle).length_le
    omega
  · obtain ⟨after, rfl⟩ := hb
    rw [countP_charStarts before b after hstart (by omega)]
    have hlength :=
      (prefix_of_byteLength_le (List.prefix_append b after) ha (by omega)).length_le
    omega

theorem exists_body {cs line : List Char} (h : line ∈ cutLines cs) :
    ∃ body, '\n' ∉ body ∧ (line = body ∨ line = body ++ ['\n']) := by
  induction cs generalizing line with
  | nil =>
    obtain rfl := List.mem_singleton.mp h
    exact ⟨[], List.not_mem_nil, .inl rfl⟩
  | cons c cs ih =>
    obtain ⟨first, lines, hcs⟩ := exists_cutLines cs
    rw [hcs] at ih
    rw [cutLines_cons hcs] at h
    by_cases hc : c = '\n'
    · rw [if_pos hc] at h
      rcases List.mem_cons.mp h with rfl | h
      · exact ⟨[], List.not_mem_nil, .inr (by rw [hc]; rfl)⟩
      · exact ih h
    · rw [if_neg hc] at h
      rcases List.mem_cons.mp h with rfl | h
      · obtain ⟨body, hbody, hline⟩ := ih List.mem_cons_self
        refine ⟨c :: body, ?_, ?_⟩
        · rw [List.mem_cons, not_or]
          exact ⟨Ne.symm hc, hbody⟩
        · rcases hline with rfl | rfl
          · exact .inl rfl
          · exact .inr rfl
      · exact ih (List.mem_cons_of_mem _ h)

theorem Line.content_prefix {l : Line} {body : List Char} (hbody : '\n' ∉ body)
    (h : l.chars = body ∨ l.chars = body ++ ['\n']) : l.content <+: body := by
  rcases h with h | h
  · -- without a line feed the line is shown as it is
    have hnone : ∀ rest, body.reverse ≠ '\n' :: rest := by
      intro rest hrev
      apply hbody
      rw [← List.mem_reverse, hrev]
      exact List.mem_cons_self
    unfold content
    rw [h]
    split
    · next hrev => exact absurd hrev (hnone _)
    · next hrev => exact absurd hrev (hnone _)
    · exact List.prefix_rfl
  · unfold content
    rw [h, List.reverse_append, List.reverse_singleton, List.singleton_append]
    split
    · next rest hrev =>
      have hbody : body = rest.reverse ++ ['\r'] := by
        rw [← List.reverse_reverse body, (List.cons.inj hrev).2, List.reverse_cons]
      rw [hbody]
      exact List.prefix_append _ _
    · next rest _ hrev =>
      obtain rfl : rest.reverse = body := by rw [← (List.cons.inj hrev).2, List.reverse_reverse]
      exact List.prefix_rfl
    · next hrev => exact absurd rfl (hrev _)

theorem place_chars (start : Nat) (lines : List (List Char)) :
    (Line.place start lines).map Line.chars = lines := by
  induction lines generalizing start with
  | nil => rfl
  | cons cs lines ih => rw [Line.place, List.map_cons, ih]

namespace SourceFile

/-- The line in which a piece of a text begins: `front` stands in front of the line, and `head` in
it in front of the piece. -/
structure Begins (f : SourceFile) (before behind : List Char) (line : Line)
    (front head : List Char) : Prop where
  shown : f.lines[(f.position (byteLength before)).line - 1]? = some line
  column : (f.position (byteLength before)).column = head.length + 1
  before_eq : before = front ++ head
  start_eq : line.start = byteLength front
  content_prefix : line.content <+: head ++ behind
  no_newline : '\n' ∉ line.content

theorem exists_begins (path : String) {text : String} {before behind : List Char}
    (h : text.toList = before ++ behind) :
    ∃ line front head, (ofText path text).Begins before behind line front head := by
  obtain ⟨i, line, front, after, hlast, hline, hentry, hposition, htext, hstart, hinside⟩ :=
    exists_line path text (byteLength before)
  have hle := hlast.le
  rw [hentry, hstart] at hle
  obtain ⟨head, rfl⟩ := exists_append_of_byteLength_le (htext.symm.trans h) hle
  have hrest : line.chars ++ after = head ++ behind := by
    rw [htext, List.append_assoc] at h
    exact List.append_cancel_left h
  have hhead : byteLength head ≤ byteLength line.chars := by
    rcases hinside with rfl | hinside
    · rw [List.append_nil] at hrest
      rw [hrest, byteLength_append]
      omega
    · rw [byteLength_append, hstart] at hinside
      omega
  obtain ⟨tail, htail⟩ := exists_append_of_byteLength_le hrest.symm hhead
  have hcolumn : columnIn line.chars (byteLength (front ++ head) - line.start) =
      head.length + 1 := by
    rw [byteLength_append, hstart, Nat.add_sub_cancel_left, columnIn, charsIn, htail,
      charsFrom_append, Option.getD_some, Nat.zero_add]
  have hmem : line.chars ∈ cutLines text.toList := by
    rw [← place_chars 0 (cutLines text.toList)]
    exact List.mem_map_of_mem (List.mem_of_getElem? hline)
  obtain ⟨body, hbody, hchars⟩ := exists_body hmem
  have hcontent := Line.content_prefix hbody hchars
  refine ⟨line, front, head, ?_, ?_, rfl, hstart, ?_, fun hn => hbody (hcontent.subset hn)⟩
  · rw [hposition]
    exact hline
  · rw [hposition]
    exact hcolumn
  · have hline : body <+: line.chars := by
      rcases hchars with hchars | hchars
      · exact hchars ▸ List.prefix_rfl
      · exact hchars ▸ List.prefix_append _ _
    rw [← hrest]
    exact (hcontent.trans hline).trans (List.prefix_append _ _)

namespace Begins

variable {f : SourceFile} {before taken after front head : List Char} {line : Line}

theorem rest_prefix (h : f.Begins before (taken ++ after) line front head) :
    (line.content.length ≤ head.length ∧ byteLength line.content ≤ byteLength head) ∨
      ∃ rest, line.content = head ++ rest ∧ rest <+: taken ++ after ∧ '\n' ∉ rest := by
  by_cases hle : byteLength line.content ≤ byteLength head
  · have hcovered :=
      prefix_of_byteLength_le h.content_prefix (List.prefix_append head _) hle
    exact .inl ⟨hcovered.length_le, hle⟩
  · obtain ⟨rest, hrest⟩ :=
      prefix_of_byteLength_le (List.prefix_append head _) h.content_prefix (by omega)
    refine .inr ⟨rest, hrest.symm, ?_, fun hn => h.no_newline ?_⟩
    · have hcontent := h.content_prefix
      rw [← hrest] at hcontent
      exact (List.prefix_append_right_inj head).mp hcontent
    · rw [← hrest]
      exact List.mem_append_right _ hn

theorem sharedChars_eq (h : f.Begins before (taken ++ after) line front head) {span : Span}
    (hspan : span = ⟨byteLength before, byteLength before + byteLength taken⟩) :
    sharedChars (before ++ (taken ++ after)) span line.extent =
      min taken.length (line.content.length - head.length) := by
  have hbefore : byteLength before = line.start + byteLength head := by
    rw [h.before_eq, byteLength_append, h.start_eq]
  unfold sharedChars Line.extent
  rw [hspan]
  dsimp only
  rcases h.rest_prefix with ⟨hlength, hbytes⟩ | ⟨rest, hrest, hprefix, -⟩
  · rw [countP_charStarts_empty _ (by omega)]
    omega
  · have hstart : max (byteLength before) line.start = byteLength before := by omega
    have hstop : min (byteLength before + byteLength taken)
        (line.start + byteLength line.content) =
          byteLength before + min (byteLength taken) (byteLength rest) := by
      rw [hrest, byteLength_append]
      omega
    rw [hstart, hstop, sharedChars_of_prefix (List.prefix_append taken after) hprefix rfl, hrest,
      List.length_append, Nat.add_sub_cancel_left]

theorem rest_le_of_newline (h : f.Begins before (taken ++ after) line front head)
    (hn : '\n' ∈ taken) : line.content.length - head.length ≤ taken.length := by
  rcases h.rest_prefix with ⟨hlength, -⟩ | ⟨rest, hrest, hprefix, hnone⟩
  · omega
  · rw [hrest, List.length_append, Nat.add_sub_cancel_left]
    by_cases hle : byteLength taken ≤ byteLength rest
    · have htaken := prefix_of_byteLength_le (List.prefix_append taken after) hprefix hle
      exact absurd (htaken.subset hn) hnone
    · exact (prefix_of_byteLength_le hprefix (List.prefix_append taken after) (by omega)).length_le

end Begins

theorem lineText?_eq {f : SourceFile} {n : Nat} {line : Line} (h : f.lines[n - 1]? = some line)
    (hshown : (f.lineText? n).isSome = true) : f.lineText? n = some line.content := by
  unfold lineText? at hshown ⊢
  rw [h] at hshown ⊢
  by_cases hn : n = 0
  · rw [if_pos hn] at hshown
    cases hshown
  · by_cases hchars : line.chars = []
    · simp [hn, hchars] at hshown
    · simp [hn, hchars]

theorem position_behind (path : String) {text : String} {before taken after : List Char}
    (h : text.toList = before ++ (taken ++ after)) :
    let first := (ofText path text).position (byteLength before)
    let last := (ofText path text).position (byteLength before + byteLength taken)
    (first.line = last.line ↔ '\n' ∉ taken) ∧
      ('\n' ∉ taken → last.column = first.column + taken.length) := by
  have hend : text.toList = (before ++ taken) ++ after := by rw [h, List.append_assoc]
  rw [← byteLength_append, position_eq h, position_eq hend]
  dsimp only
  constructor
  · rw [List.count_append, ← List.count_eq_zero]
    omega
  · intro hn
    rw [follow_append, follow_of_not_mem _ hn, List.length_append]
    omega

end SourceFile

theorem padded_length (text : String) : (padded text).length = 3 + (text.length - 3) := by
  unfold padded
  rw [String.length_append, String.length_ofList, List.length_replicate]
  omega

/-- A line of the text behind its number, and under it carets from a column on. The margin that
holds the number is wider by `shift` than the margin of the carets. -/
structure Underlined (color : Bool) (upper lower : String) (number : Nat) (source : List Char)
    (column count shift : Nat) : Prop where
  source_eq : upper = Style.boldBlue.paint color (padded (toString number)) ++
    Excerpt.bar color ++ String.ofList source
  carets_eq : lower = padded "" ++ Excerpt.bar color ++
    (String.ofList (List.replicate (column - 1) ' ') ++
      Style.boldRed.paint color (String.ofList (List.replicate count '^')))
  margins : (padded (toString number)).length = (padded "").length + shift

namespace Diagnostic

theorem underlined (color : Bool) (number : Nat) (source : List Char) (column count : Nat) :
    Underlined color (Excerpt.numbered color number (String.ofList source))
      (Excerpt.marks color .boldRed column count) number source column count
      ((toString number).length - 3) :=
  ⟨rfl, rfl, by rw [padded_length, padded_length]; rfl⟩

theorem shift_eq_zero_iff (number : Nat) :
    (toString number).length - 3 = 0 ↔ number < 1000 := by
  have hdigits : number.repr.length ≤ 3 ↔ number < 10 ^ 3 := Nat.length_repr_le_iff (by omega)
  change number.repr.length - 3 = 0 ↔ _
  omega

theorem lines_eq (color : Bool) (f : SourceFile) (d : Diagnostic) {source : List Char}
    (h : f.lineText? (f.position d.span.start).line = some source) :
    ∃ back, d.lines color f =
      [d.heading color, placeLine color f (f.position d.span.start)] ++
        contextLines color f (f.position d.span.start) ++
        [Excerpt.blank color "",
          Excerpt.numbered color (f.position d.span.start).line (String.ofList source),
          Excerpt.marks color .boldRed (f.position d.span.start).column
            (caretCount source (f.position d.span.start) (f.position d.span.stop))] ++ back := by
  refine ⟨d.problem.labels.flatMap (labelLines color f) ++
    d.problem.notes.map (noteLine color) ++ [""], ?_⟩
  simp only [lines, sourceLines, h, List.append_assoc, List.cons_append, List.nil_append]

theorem caretCount_eq {path text : String} {before taken after front head : List Char} {line : Line}
    {span : Span} (htext : text.toList = before ++ (taken ++ after))
    (hbegins : (SourceFile.ofText path text).Begins before (taken ++ after) line front head)
    (hspan : span = ⟨byteLength before, byteLength before + byteLength taken⟩) :
    let first := (SourceFile.ofText path text).position span.start
    let last := (SourceFile.ofText path text).position span.stop
    let count := caretCount line.content first last
    (first.line = last.line → count = max 1 taken.length ∧
      (last.column ≤ line.content.length + 1 →
        count = max 1 (sharedChars text.toList span line.extent))) ∧
    (first.line ≠ last.line → count = max 1 (byteLength line.content - first.column) ∧
      sharedChars text.toList span line.extent = line.content.length + 1 - first.column) := by
  intro first last count
  have hfirst : first = (SourceFile.ofText path text).position (byteLength before) := by
    simp only [first, hspan]
  have hlast : last =
      (SourceFile.ofText path text).position (byteLength before + byteLength taken) := by
    simp only [last, hspan]
  obtain ⟨hsame, hcolumns⟩ := SourceFile.position_behind path htext
  rw [← hfirst, ← hlast] at hsame hcolumns
  have hcolumn : first.column = head.length + 1 := hfirst ▸ hbegins.column
  have hshared : sharedChars text.toList span line.extent =
      min taken.length (line.content.length - head.length) := by
    rw [htext]
    exact hbegins.sharedChars_eq hspan
  refine ⟨fun h => ?_, fun h => ?_⟩
  · have hend := hcolumns (hsame.mp h)
    have hcount : count = max 1 taken.length := by
      simp only [count, caretCount, if_pos h, hend, Nat.add_sub_cancel_left, Nat.max_comm]
    refine ⟨hcount, fun hle => ?_⟩
    rw [hcount, hshared]
    congr 1
    omega
  · have hn : '\n' ∈ taken := by
      by_contra hn
      exact h (hsame.mpr hn)
    have hrest := hbegins.rest_le_of_newline hn
    constructor
    · simp only [count, caretCount, if_neg h, Nat.max_comm]
    · rw [hshared, hcolumn]
      omega

/-- The carets under a span, whose first line is shown. They stand under the line from the column of
the span on, unless its number has more than three digits. When the span ends in the line there are
as many as it has characters, of which a carriage return in front of the line feed is one. When it
goes on, they are counted from the bytes of the line and its column, and not from the characters
that are left of it. The text is so short that 32 bits hold every offset, line and column. -/
theorem carets_exact (color : Bool) (path text : String) (d : Diagnostic) {taken : List Char}
    (hbytes : byteLength text.toList + 1 < 0x100000000)
    (hspan : CutAt text.toList d.span taken)
    (hshown : ((SourceFile.ofText path text).lineText?
      ((SourceFile.ofText path text).position d.span.start).line).isSome = true) :
    let f := SourceFile.ofText path text
    let first := f.position d.span.start
    let last := f.position d.span.stop
    (d.span.stop < 0x100000000 ∧ first.line < 0x100000000 ∧ first.column < 0x100000000 ∧
      last.line < 0x100000000 ∧ last.column < 0x100000000) ∧
    ∃ (line : Line) (upper lower : String) (count shift : Nat) (back : List String),
      f.lines[first.line - 1]? = some line ∧
      d.lines color f = [d.heading color, placeLine color f first] ++ contextLines color f first ++
        [Excerpt.blank color "", upper, lower] ++ back ∧
      Underlined color upper lower first.line line.content first.column count shift ∧
      (shift = 0 ↔ first.line < 1000) ∧
      (first.line = last.line → count = max 1 taken.length ∧
        (last.column ≤ line.content.length + 1 →
          count = max 1 (sharedChars text.toList d.span line.extent))) ∧
      (first.line ≠ last.line → count = max 1 (byteLength line.content - first.column) ∧
        sharedChars text.toList d.span line.extent = line.content.length + 1 - first.column) := by
  intro f first last
  obtain ⟨before, after, htext, hd⟩ := hspan
  have hfits : d.span.stop < 0x100000000 := by
    rw [htext, byteLength_append, byteLength_append] at hbytes
    rw [hd]
    dsimp only
    omega
  obtain ⟨hfirstLine, hfirstColumn⟩ := SourceFile.position_lt hbytes d.span.start
  obtain ⟨hlastLine, hlastColumn⟩ := SourceFile.position_lt hbytes d.span.stop
  refine ⟨⟨hfits, hfirstLine, hfirstColumn, hlastLine, hlastColumn⟩, ?_⟩
  rw [List.append_assoc] at htext
  obtain ⟨line, front, head, hbegins⟩ := SourceFile.exists_begins path htext
  have hfirst : first = f.position (byteLength before) := by simp only [first, hd]
  have hline : f.lines[first.line - 1]? = some line := hfirst ▸ hbegins.shown
  obtain ⟨back, hlines⟩ := lines_eq color f d (SourceFile.lineText?_eq hline hshown)
  exact ⟨line, _, _, caretCount line.content first last, _, back, hline, hlines,
    underlined color first.line line.content first.column _, shift_eq_zero_iff first.line,
    caretCount_eq htext hbegins hd⟩

theorem carets_exact_accent :
    let text := "int a;\r\nx é@;\r\n"
    let f := SourceFile.ofText "t.c1" text
    let d : Diagnostic := ⟨.invalidCharacter, ⟨10, 13⟩⟩
    byteLength text.toList + 1 < 0x100000000 ∧ CutAt text.toList d.span "é@".toList ∧
      f.position d.span.start = ⟨2, 3⟩ ∧
      (f.lineText? (f.position d.span.start).line).isSome = true ∧
      ∃ back, d.lines false f = [d.heading false, "  --> t.c1:2:3", "   |  ", "1  |  int a;"] ++
        ["   |  ", "2  |  x é@;", "   |    ^^"] ++ back := by
  intro text f d
  have hspan : CutAt text.toList d.span "é@".toList :=
    ⟨"int a;\r\nx ".toList, ";\r\n".toList, by decide, by decide⟩
  have hfirst : f.position d.span.start = ⟨2, 3⟩ := by decide +kernel
  have hlast : f.position d.span.stop = ⟨2, 5⟩ := by decide +kernel
  have hshown : (f.lineText? (f.position d.span.start).line).isSome = true := by decide +kernel
  have hsecond : f.lines[1]? = some ⟨8, "x é@;\r\n".toList⟩ := by decide +kernel
  have hbytes : byteLength text.toList + 1 < 0x100000000 := by decide
  refine ⟨hbytes, hspan, hfirst, hshown, ?_⟩
  obtain ⟨-, line, upper, lower, count, shift, back, hline, hlines, hunder, -, hsame, -⟩ :=
    carets_exact false "t.c1" text d hbytes hspan hshown
  obtain ⟨hcount, -⟩ := hsame (by rw [hfirst, hlast])
  rw [hfirst] at hline hlines hunder
  obtain rfl := Option.some.inj (hline.symm.trans hsecond)
  have hplace : placeLine false (SourceFile.ofText "t.c1" text) ⟨2, 3⟩ = "  --> t.c1:2:3" := by
    decide +kernel
  have hcontext : contextLines false (SourceFile.ofText "t.c1" text) ⟨2, 3⟩ =
      ["   |  ", "1  |  int a;"] := by
    decide +kernel
  have hupper : upper = "2  |  x é@;" := hunder.source_eq.trans (by decide +kernel)
  have hlower : lower = "   |    ^^" := by
    rw [hcount] at hunder
    exact hunder.carets_eq.trans (by decide +kernel)
  rw [hlines, hplace, hcontext, hupper, hlower]
  exact ⟨back, rfl⟩

/-- Under an open comment that goes on in the next line stands a caret less than the line has
characters. -/
theorem carets_fall_short :
    let text := "/* ab\n"
    let f := SourceFile.ofText "t.c1" text
    let d : Diagnostic := ⟨.unterminatedComment, ⟨0, 6⟩⟩
    let line : Line := ⟨0, text.toList⟩
    (lex text).diagnostics = [d] ∧ CutAt text.toList d.span text.toList ∧
      f.position d.span.start = ⟨1, 1⟩ ∧ f.lines[0]? = some line ∧
      (f.lineText? 1).isSome = true ∧ sharedChars text.toList d.span line.extent = 5 ∧
      ¬ ∃ upper lower shift back,
        d.lines false f = [d.heading false, placeLine false f ⟨1, 1⟩] ++
          contextLines false f ⟨1, 1⟩ ++ [Excerpt.blank false "", upper, lower] ++ back ∧
        Underlined false upper lower 1 line.content 1 5 shift := by
  intro text f d line
  have hspan : CutAt text.toList d.span text.toList := ⟨[], [], by simp, by decide⟩
  refine ⟨by decide +kernel, hspan, by decide +kernel, by decide +kernel, by decide +kernel,
    by decide +kernel, ?_⟩
  rintro ⟨upper, lower, shift, back, hlines, hunder⟩
  have hfifth : (d.lines false f)[4]? = some "   |  ^^^^" := by decide +kernel
  have hlower : some lower = some "   |  ^^^^" := by
    rw [← hfifth, hlines]
    rfl
  have hfive : lower = "   |  ^^^^^" := hunder.carets_eq
  rw [hfive] at hlower
  exact absurd hlower (by decide)

end Diagnostic

end C1Lang
