import C1Lang.Proofs.Token.Slices

/-!
# Lines and columns

Between characters, the line of an offset is the number of line feeds before it, and the column is
the number of characters behind the last of them, both counted from one (`position_eq`). So lines
and columns follow the order of the offsets (`position_mono`).
-/

namespace C1Lang

/-- The order of reading: by lines, and in a line by columns. -/
instance : LE Position where
  le a b := a.line < b.line ∨ a.line = b.line ∧ a.column ≤ b.column

/-- The line that has been begun when the characters have followed `line`. -/
def follow (line cs : List Char) : List Char :=
  cs.foldl (fun line c => if c = '\n' then [] else line ++ [c]) line

theorem follow_append (line cs ds : List Char) :
    follow line (cs ++ ds) = follow (follow line cs) ds :=
  List.foldl_append

theorem follow_of_not_mem (line : List Char) {cs : List Char} (h : '\n' ∉ cs) :
    follow line cs = line ++ cs := by
  induction cs generalizing line with
  | nil => simp [follow]
  | cons c cs ih =>
    obtain ⟨hc, hcs⟩ := not_or.mp (mt List.mem_cons.mpr h)
    have hstep : follow line (c :: cs) = follow (line ++ [c]) cs := by
      simp [follow, Ne.symm hc]
    rw [hstep, ih _ hcs, List.append_assoc, List.singleton_append]

theorem exists_cutLines (cs : List Char) : ∃ line lines, cutLines cs = line :: lines := by
  cases cs with
  | nil => exact ⟨[], [], rfl⟩
  | cons c cs =>
    unfold cutLines
    split
    · exact ⟨_, _, rfl⟩
    · split
      · exact ⟨_, _, rfl⟩
      · exact ⟨_, _, rfl⟩

theorem cutLines_cons {c : Char} {cs line : List Char} {lines : List (List Char)}
    (h : cutLines cs = line :: lines) :
    cutLines (c :: cs) = if c = '\n' then [c] :: line :: lines else (c :: line) :: lines := by
  rw [cutLines, h]

theorem ne_nil_of_cutLines {cs line next : List Char} {lines : List (List Char)}
    (h : cutLines cs = line :: next :: lines) : line ≠ [] := by
  cases cs with
  | nil => cases h
  | cons c cs =>
    obtain ⟨line', lines', hcs⟩ := exists_cutLines cs
    rw [cutLines_cons hcs] at h
    split at h
    · cases h
      simp
    · cases h
      simp

theorem byteLength_pos {cs : List Char} (h : cs ≠ []) : 0 < byteLength cs :=
  Nat.lt_of_lt_of_le (List.length_pos_iff.mpr h) (length_le_byteLength cs)

namespace SourceFile

theorem seek_place (before line : List Char) (start number : Nat) {after first : List Char}
    {lines : List (List Char)} (h : cutLines (before ++ after) = first :: lines) :
    ∃ start' more,
      seek (start + byteLength line + byteLength before) number ⟨start, line ++ first⟩
        (Line.place (start + byteLength (line ++ first)) lines) =
        (number + before.count '\n', ⟨start', follow line before ++ more⟩) ∧
      start' + byteLength (follow line before) = start + byteLength line + byteLength before := by
  induction before generalizing line start number first lines with
  | nil =>
    refine ⟨start, first, ?_, rfl⟩
    cases lines with
    | nil => rfl
    | cons next lines =>
      have hpos := byteLength_pos (ne_nil_of_cutLines h)
      have hlater : ¬ start + byteLength (line ++ first) ≤ start + byteLength line := by
        rw [byteLength_append]
        omega
      simp only [Line.place, seek, byteLength, Nat.add_zero, if_neg hlater]
      rfl
  | cons c before ih =>
    obtain ⟨first', lines', hrest⟩ := exists_cutLines (before ++ after)
    have hpos : start + byteLength line + byteLength (c :: before) =
        start + byteLength (line ++ [c]) + byteLength before := by
      simp only [byteLength_append, byteLength]
      omega
    rw [List.cons_append, cutLines_cons hrest] at h
    rw [hpos]
    by_cases hc : c = '\n'
    · -- the line ends here, and the next one starts at or before the offset
      rw [if_pos hc] at h
      cases h
      obtain ⟨start', more, hseek, hstart⟩ :=
        ih [] (start + byteLength (line ++ [c])) (number + 1) hrest
      have hfollow : follow line (c :: before) = follow [] before := by simp [follow, hc]
      rw [hfollow]
      refine ⟨start', more, ?_, hstart⟩
      rw [Line.place, seek, if_pos (Nat.le_add_right _ _)]
      refine hseek.trans ?_
      rw [hc, List.count_cons_self, Nat.add_right_comm, Nat.add_assoc]
    · rw [if_neg hc] at h
      cases h
      obtain ⟨start', more, hseek, hstart⟩ := ih (line ++ [c]) start number hrest
      have hfollow : follow line (c :: before) = follow (line ++ [c]) before := by
        simp [follow, hc]
      rw [hfollow, List.count_cons_of_ne hc]
      rw [List.append_assoc, List.singleton_append] at hseek
      exact ⟨start', more, hseek, hstart⟩

/-- Line and column of an offset between two characters. -/
theorem position_eq {path text : String} {before after : List Char}
    (h : text.toList = before ++ after) :
    (ofText path text).position (byteLength before) =
      ⟨before.count '\n' + 1, (follow [] before).length + 1⟩ := by
  obtain ⟨first, lines, hlines⟩ := exists_cutLines (before ++ after)
  obtain ⟨start, more, hseek, hstart⟩ := seek_place before [] 0 1 hlines
  have hplace : (ofText path text).lines =
      ⟨0, first⟩ :: Line.place (0 + byteLength first) lines := by
    rw [ofText, h, hlines]
    rfl
  simp only [List.nil_append, byteLength, Nat.zero_add] at hseek hstart hplace
  have hcolumn := charsFrom_append 0 (follow [] before) more
  have hoffset : byteLength before - start = byteLength (follow [] before) := by omega
  unfold position
  rw [hplace]
  simp only [hseek, hoffset, columnIn, charsIn, hcolumn]
  simp [Nat.add_comm]

end SourceFile

def Boundary (text : List Char) (pos : Nat) : Prop :=
  ∃ before after, text = before ++ after ∧ pos = byteLength before

theorem CutAt.boundary {text : List Char} {span : Span} {taken : List Char}
    (h : CutAt text span taken) : Boundary text span.start := by
  obtain ⟨before, after, htext, rfl⟩ := h
  exact ⟨before, taken ++ after, by rw [htext, List.append_assoc], rfl⟩

theorem exists_append_of_byteLength_le {a b c d : List Char} (h : a ++ b = c ++ d)
    (hle : byteLength a ≤ byteLength c) : ∃ e, c = a ++ e := by
  rcases List.append_eq_append_iff.mp h with ⟨e, hc, -⟩ | ⟨e, ha, -⟩
  · exact ⟨e, hc⟩
  · have hlen := length_le_byteLength e
    rw [ha, byteLength_append] at hle
    have hnil : e = [] := List.length_eq_zero_iff.mp (by omega)
    exact ⟨[], by simp [ha, hnil]⟩

theorem SourceFile.position_mono {path text : String} {p q : Nat}
    (hp : Boundary text.toList p) (hq : Boundary text.toList q) (h : p ≤ q) :
    (ofText path text).position p ≤ (ofText path text).position q := by
  obtain ⟨a, b, hab, rfl⟩ := hp
  obtain ⟨c, d, hcd, rfl⟩ := hq
  obtain ⟨e, rfl⟩ := exists_append_of_byteLength_le (hab.symm.trans hcd) h
  rw [position_eq hab, position_eq hcd]
  by_cases hmem : '\n' ∈ e
  · left
    have hcount := List.count_pos_iff.mpr hmem
    simp only [List.count_append]
    omega
  · right
    have hcount := List.count_eq_zero.mpr hmem
    rw [follow_append, follow_of_not_mem _ hmem]
    simp only [List.count_append, List.length_append]
    omega

end C1Lang
