import C1Lang.Proofs.Source.Position
import Mathlib.Data.List.GetD
import Mathlib.Data.List.Induction

/-!
# Looking up lines

The line of an offset can be looked up in the table of line starts, by halving (`lookUp_eq`). The
place that is found is that of the last start up to the offset, because the table is increasing.
So lines and columns count what stands before an offset, and they tell the characters of a text
apart in their order (`position_exact`).
-/

namespace C1Lang

instance : LT Position where
  lt a b := a.line < b.line ∨ a.line = b.line ∧ a.column < b.column

def startsBehind (pos : Nat) : List Char → List Nat
  | [] => []
  | c :: cs =>
    if c = '\n' then (pos + 1) :: startsBehind (pos + 1) cs
    else startsBehind (pos + c.utf8Size) cs

theorem startsBehind_bounds {pos start : Nat} {cs : List Char} (h : start ∈ startsBehind pos cs) :
    pos < start ∧ start ≤ pos + byteLength cs := by
  have hline : ('\n' : Char).utf8Size = 1 := by decide
  induction cs generalizing pos with
  | nil => cases h
  | cons c cs ih =>
    have hpos := c.utf8Size_pos
    rw [byteLength]
    by_cases hc : c = '\n'
    · rw [startsBehind, if_pos hc] at h
      rw [hc, hline]
      rcases List.mem_cons.mp h with rfl | h
      · omega
      · have hrest := ih h
        omega
    · rw [startsBehind, if_neg hc] at h
      have hrest := ih h
      omega

theorem startsBehind_increasing (pos : Nat) (cs : List Char) :
    (startsBehind pos cs).Pairwise (· < ·) := by
  induction cs generalizing pos with
  | nil => exact List.Pairwise.nil
  | cons c cs ih =>
    by_cases hc : c = '\n'
    · rw [startsBehind, if_pos hc]
      exact List.pairwise_cons.mpr ⟨fun start hs => (startsBehind_bounds hs).1, ih _⟩
    · rw [startsBehind, if_neg hc]
      exact ih _

theorem starts_place {cs first : List Char} {lines : List (List Char)} (pos : Nat)
    (h : cutLines cs = first :: lines) :
    (Line.place (pos + byteLength first) lines).map Line.start = startsBehind pos cs := by
  have hline : ('\n' : Char).utf8Size = 1 := by decide
  induction cs generalizing pos first lines with
  | nil =>
    cases h
    rfl
  | cons c cs ih =>
    obtain ⟨line, rest, hrest⟩ := exists_cutLines cs
    rw [cutLines_cons hrest] at h
    by_cases hc : c = '\n'
    · rw [if_pos hc] at h
      cases h
      rw [startsBehind, if_pos hc, Line.place, List.map_cons, hc]
      simp only [byteLength, hline, Nat.add_zero, ih (pos + 1) hrest]
    · rw [if_neg hc] at h
      cases h
      rw [startsBehind, if_neg hc, ← ih _ hrest, byteLength, Nat.add_assoc]

/-- The last place from `lo` on, and before `hi`, at which the table has an entry up to `pos`. -/
def lastUpTo (starts : List Nat) (pos lo hi : Nat) (hhi : hi ≤ starts.length) : Nat :=
  if h : lo + 1 < hi then
    have hmid : (lo + hi) / 2 < starts.length := by omega
    if starts[(lo + hi) / 2] ≤ pos then lastUpTo starts pos ((lo + hi) / 2) hi hhi
    else lastUpTo starts pos lo ((lo + hi) / 2) (by omega)
  else lo
termination_by hi - lo

structure LastUpTo (starts : List Nat) (pos place : Nat) : Prop where
  lt : place < starts.length
  le : starts.getD place 0 ≤ pos
  later : ∀ i, place < i → i < starts.length → pos < starts.getD i 0

theorem getD_lt_getD {starts : List Nat} (h : starts.Pairwise (· < ·)) {i j : Nat} (hij : i < j)
    (hj : j < starts.length) : starts.getD i 0 < starts.getD j 0 := by
  rw [List.getD_eq_getElem _ _ (Nat.lt_trans hij hj), List.getD_eq_getElem _ _ hj]
  exact List.pairwise_iff_getElem.mp h i j _ _ hij

/-- Halving keeps an entry up to `pos` at its lower end, and larger ones from its upper end on. -/
theorem lastUpTo_spec {starts : List Nat} (hs : starts.Pairwise (· < ·)) {pos lo hi : Nat}
    (hhi : hi ≤ starts.length) (hlt : lo < hi) (hlo : starts.getD lo 0 ≤ pos)
    (hlater : ∀ i, hi ≤ i → i < starts.length → pos < starts.getD i 0) :
    LastUpTo starts pos (lastUpTo starts pos lo hi hhi) := by
  fun_induction lastUpTo starts pos lo hi hhi with
  | case1 lo hi hhi h hmid hle ih =>
    rw [← List.getD_eq_getElem _ 0 hmid] at hle
    exact ih (by omega) hle hlater
  | case2 lo hi hhi h hmid hgt ih =>
    rw [← List.getD_eq_getElem _ 0 hmid] at hgt
    apply ih (by omega) hlo
    intro i hge hlen
    by_cases heq : i = (lo + hi) / 2
    · rw [heq]
      omega
    · have hstep := getD_lt_getD hs (show (lo + hi) / 2 < i by omega) hlen
      omega
  | case3 lo hi hhi h =>
    exact ⟨by omega, hlo, fun i hi hlen => hlater i (by omega) hlen⟩

theorem LastUpTo.unique {starts : List Nat} {pos i j : Nat} (hi : LastUpTo starts pos i)
    (hj : LastUpTo starts pos j) : i = j := by
  rcases Nat.lt_trichotomy i j with h | h | h
  · have hlater := hi.later j h hj.lt
    have hle := hj.le
    omega
  · exact h
  · have hlater := hj.later i h hi.lt
    have hle := hi.le
    omega

section Characters

variable (k : Nat) (cs : List Char) (n : Nat)

theorem charsFrom_add (m : Nat) :
    charsFrom (k + m) cs n = (charsFrom m cs n).map (k + ·) := by
  induction cs generalizing m n with
  | nil => cases n <;> rfl
  | cons c cs ih =>
    cases n with
    | zero => rfl
    | succ n =>
      rw [charsFrom, charsFrom]
      by_cases hc : c.utf8Size ≤ n + 1
      · rw [if_pos hc, if_pos hc, Nat.add_assoc, ih]
      · rw [if_neg hc, if_neg hc]
        rfl

theorem charsFrom_behind (before : List Char) :
    charsFrom k (before ++ cs) (byteLength before + n) =
      charsFrom (k + before.length) cs n := by
  induction before generalizing k with
  | nil => simp [byteLength]
  | cons c before ih =>
    have hpos := c.utf8Size_pos
    obtain ⟨m, hm⟩ : ∃ m, byteLength (c :: before) + n = m + 1 :=
      ⟨c.utf8Size + byteLength before + n - 1, by simp only [byteLength]; omega⟩
    have hc : c.utf8Size ≤ m + 1 := by simp only [byteLength] at hm; omega
    have hrest : m + 1 - c.utf8Size = byteLength before + n := by
      simp only [byteLength] at hm
      omega
    rw [hm, List.cons_append, charsFrom, if_pos hc, hrest, ih, List.length_cons]
    congr 1
    omega

theorem charsFrom_inside (rest : List Char) (h : n ≤ byteLength cs) :
    charsFrom k (cs ++ rest) n = charsFrom k cs n := by
  induction cs generalizing k n with
  | nil =>
    have hn : n = 0 := Nat.le_zero.mp h
    rw [hn, charsFrom, charsFrom]
  | cons c cs ih =>
    cases n with
    | zero => rfl
    | succ n =>
      rw [byteLength] at h
      rw [List.cons_append, charsFrom, charsFrom]
      by_cases hc : c.utf8Size ≤ n + 1
      · rw [if_pos hc, if_pos hc]
        exact ih _ _ (by omega)
      · rw [if_neg hc, if_neg hc]

theorem charsFrom_end (h : byteLength cs ≤ n) : charsFrom k cs n = some (k + cs.length) := by
  induction cs generalizing k n with
  | nil => cases n <;> rfl
  | cons c cs ih =>
    have hpos := c.utf8Size_pos
    rw [byteLength] at h
    cases n with
    | zero => omega
    | succ n =>
      rw [charsFrom, if_pos (by omega), ih _ _ (by omega), List.length_cons]
      congr 1
      omega

theorem charsFrom_le {m : Nat} (h : charsFrom k cs n = some m) : m ≤ k + n := by
  induction cs generalizing k n with
  | nil =>
    cases n <;> cases h <;> omega
  | cons c cs ih =>
    have hpos := c.utf8Size_pos
    cases n with
    | zero =>
      cases h
      omega
    | succ n =>
      rw [charsFrom] at h
      by_cases hc : c.utf8Size ≤ n + 1
      · rw [if_pos hc] at h
        have hrest := ih _ _ h
        omega
      · rw [if_neg hc] at h
        cases h

end Characters

theorem startsBehind_length (pos : Nat) (cs : List Char) :
    (startsBehind pos cs).length = cs.count '\n' := by
  induction cs generalizing pos with
  | nil => rfl
  | cons c cs ih =>
    by_cases hc : c = '\n'
    · rw [startsBehind, if_pos hc, List.length_cons, ih, hc, List.count_cons_self]
    · rw [startsBehind, if_neg hc, ih, List.count_cons_of_ne hc]

theorem cutLines_flatten (cs : List Char) : (cutLines cs).flatten = cs := by
  induction cs with
  | nil => rfl
  | cons c cs ih =>
    obtain ⟨line, lines, hcs⟩ := exists_cutLines cs
    rw [hcs] at ih
    rw [cutLines_cons hcs]
    by_cases hc : c = '\n'
    · rw [if_pos hc, List.flatten_cons, ih]
      rfl
    · rw [if_neg hc, ← ih]
      rfl

theorem exists_of_place {lines : List (List Char)} {start i : Nat} {line : Line}
    (h : (Line.place start lines)[i]? = some line) :
    ∃ before after, lines.flatten = before ++ (line.chars ++ after) ∧
      line.start = start + byteLength before ∧
      (after = [] ∨ ∃ next, (Line.place start lines)[i + 1]? = some next ∧
        next.start = line.start + byteLength line.chars) := by
  induction lines generalizing start i with
  | nil => cases h
  | cons cs lines ih =>
    cases i with
    | zero =>
      cases h
      refine ⟨[], lines.flatten, rfl, rfl, ?_⟩
      cases lines with
      | nil => exact .inl rfl
      | cons next lines => exact .inr ⟨_, rfl, rfl⟩
    | succ i =>
      obtain ⟨before, after, hflat, hstart, hnext⟩ := ih h
      refine ⟨cs ++ before, after, ?_, ?_, hnext⟩
      · rw [List.flatten_cons, hflat, List.append_assoc]
      · rw [hstart, byteLength_append, Nat.add_assoc]

namespace SourceFile

/-- Line and column of an offset, by the table of line starts and by what stands in the text between
the start of the line and the offset: characters, or bytes when the offset is inside of one. -/
def lookUp (f : SourceFile) (pos : Nat) : Position :=
  let place := lastUpTo f.lineStarts pos 0 f.lineStarts.length (Nat.le_refl _)
  let start := f.lineStarts.getD place 0
  let stop := min pos (byteLength f.text.toList)
  match charsIn f.text.toList start, charsIn f.text.toList stop with
  | some i, some j => ⟨place + 1, j - i + 1⟩
  | _, _ => ⟨place + 1, stop - start + 1⟩

theorem lineStarts_eq (path text : String) :
    (ofText path text).lineStarts = 0 :: startsBehind 0 text.toList := by
  obtain ⟨first, lines, hlines⟩ := exists_cutLines text.toList
  have hstarts := starts_place 0 hlines
  rw [← hstarts]
  unfold lineStarts ofText
  rw [hlines]
  rfl

theorem lineStarts_increasing (path text : String) :
    (ofText path text).lineStarts.Pairwise (· < ·) := by
  rw [lineStarts_eq]
  exact List.pairwise_cons.mpr ⟨fun start hs => (startsBehind_bounds hs).1,
    startsBehind_increasing 0 text.toList⟩

theorem lastUpTo_lineStarts (path text : String) (pos : Nat) :
    LastUpTo (ofText path text).lineStarts pos
      (lastUpTo (ofText path text).lineStarts pos 0 (ofText path text).lineStarts.length
        (Nat.le_refl _)) := by
  apply lastUpTo_spec (lineStarts_increasing path text)
  · rw [lineStarts_eq]
    exact Nat.succ_pos _
  · rw [lineStarts_eq]
    exact Nat.zero_le _
  · intro i hi hlt
    omega

theorem seek_spec (pos number : Nat) (current : Line) (rest : List Line) :
    ∃ i line, seek pos number current rest = (number + i, line) ∧
      (current :: rest)[i]? = some line ∧ (i = 0 ∨ line.start ≤ pos) ∧
      ∀ next, (current :: rest)[i + 1]? = some next → pos < next.start := by
  induction rest generalizing number current with
  | nil => exact ⟨0, current, rfl, rfl, .inl rfl, nofun⟩
  | cons next rest ih =>
    rw [seek]
    by_cases hle : next.start ≤ pos
    · rw [if_pos hle]
      obtain ⟨i, line, hseek, hline, hstart, hlater⟩ := ih (number + 1) next
      refine ⟨i + 1, line, ?_, hline, .inr ?_, hlater⟩
      · rw [hseek, Nat.add_assoc, Nat.add_comm 1]
      · rcases hstart with rfl | hstart
        · cases hline
          exact hle
        · exact hstart
    · rw [if_neg hle]
      refine ⟨0, current, rfl, rfl, .inl rfl, ?_⟩
      rintro _ ⟨⟩
      omega

theorem getElem?_lineStarts {f : SourceFile} {i : Nat} {line : Line}
    (h : f.lines[i]? = some line) : f.lineStarts[i]? = some line.start := by
  rw [lineStarts, List.getElem?_map, h]
  rfl

theorem exists_line (path text : String) (pos : Nat) :
    ∃ (i : Nat) (line : Line) (before after : List Char),
      LastUpTo (ofText path text).lineStarts pos i ∧
      (ofText path text).lines[i]? = some line ∧
      (ofText path text).lineStarts.getD i 0 = line.start ∧
      (ofText path text).position pos = ⟨i + 1, columnIn line.chars (pos - line.start)⟩ ∧
      text.toList = before ++ (line.chars ++ after) ∧ line.start = byteLength before ∧
      (after = [] ∨ pos < line.start + byteLength line.chars) := by
  obtain ⟨first, rest, hcut⟩ := exists_cutLines text.toList
  have hlines : (ofText path text).lines =
      ⟨0, first⟩ :: Line.place (0 + byteLength first) rest := by
    rw [ofText, hcut]
    rfl
  obtain ⟨i, line, hseek, hline, hle, hlater⟩ :=
    seek_spec pos 1 ⟨0, first⟩ (Line.place (0 + byteLength first) rest)
  have hplaced : (Line.place 0 (first :: rest))[i]? = some line := hline
  obtain ⟨before, after, hflat, hstart, hnext⟩ := exists_of_place hplaced
  rw [← hlines] at hline hlater
  have hi := getElem?_lineStarts hline
  obtain ⟨hlt, hget⟩ := List.getElem?_eq_some_iff.mp hi
  have hentry : (ofText path text).lineStarts.getD i 0 = line.start := by
    rw [List.getD_eq_getElem _ _ hlt, hget]
  refine ⟨i, line, before, after, ⟨hlt, ?_, ?_⟩, hline, hentry, ?_, ?_, by omega, ?_⟩
  · rw [hentry]
    rcases hle with rfl | hle
    · rw [hlines] at hline
      cases hline
      exact Nat.zero_le pos
    · exact hle
  · intro j hj hlen
    -- the next start is behind the offset, and so are the starts after it
    have hlen' : i + 1 < (ofText path text).lines.length := by
      rw [lineStarts, List.length_map] at hlen
      omega
    have hafter := hlater _ (List.getElem?_eq_getElem hlen')
    have hsecond : (ofText path text).lineStarts.getD (i + 1) 0 =
        (ofText path text).lines[i + 1].start := by
      rw [List.getD_eq_getElem?_getD,
        getElem?_lineStarts (List.getElem?_eq_getElem hlen'), Option.getD_some]
    by_cases heq : j = i + 1
    · rw [heq, hsecond]
      exact hafter
    · have hstep := getD_lt_getD (lineStarts_increasing path text) (show i + 1 < j by omega) hlen
      omega
  · unfold position
    rw [hlines]
    simp only [hseek, Nat.add_comm 1]
  · rw [← cutLines_flatten text.toList, hcut, hflat]
  · rcases hnext with hafter | ⟨next, hnext, hbegin⟩
    · exact .inl hafter
    · refine .inr ?_
      rw [← hbegin]
      rw [hlines] at hlater
      exact hlater next hnext

theorem columnIn_min (cs : List Char) (n : Nat) :
    columnIn cs (min n (byteLength cs)) = columnIn cs n := by
  by_cases hn : n ≤ byteLength cs
  · rw [Nat.min_eq_left hn]
  · have hend : byteLength cs ≤ n := by omega
    rw [Nat.min_eq_right hend, columnIn, columnIn, charsIn, charsIn,
      charsFrom_end 0 cs n hend, charsFrom_end 0 cs _ (Nat.le_refl _)]
    rfl

theorem lookUp_eq (path text : String) (pos : Nat) :
    (ofText path text).lookUp pos = (ofText path text).position pos := by
  obtain ⟨i, line, before, after, hlast, -, hentry, hposition, htext, hstart, hinside⟩ :=
    exists_line path text pos
  have hplace := LastUpTo.unique (lastUpTo_lineStarts path text pos) hlast
  have hle := hlast.le
  have hsize : byteLength text.toList =
      line.start + byteLength line.chars + byteLength after := by
    rw [htext, byteLength_append, byteLength_append, hstart, Nat.add_assoc]
  -- the bytes of the line in front of the offset
  have hstop : min pos (byteLength text.toList) =
      byteLength before + min (pos - line.start) (byteLength line.chars) := by
    rcases hinside with rfl | hinside
    · rw [byteLength] at hsize
      omega
    · omega
  have hfrom : charsIn text.toList line.start = some before.length := by
    have hchars := charsFrom_append 0 before (line.chars ++ after)
    rwa [← htext, ← hstart, Nat.zero_add] at hchars
  have hto : charsIn text.toList (min pos (byteLength text.toList)) =
      (charsIn line.chars (min (pos - line.start) (byteLength line.chars))).map
        (before.length + ·) := by
    rw [hstop, htext, charsIn, charsFrom_behind,
      charsFrom_inside _ _ _ _ (Nat.min_le_right ..), Nat.zero_add]
    exact charsFrom_add before.length line.chars _ 0
  have hown : (ofText path text).text = text := rfl
  rw [hposition, ← columnIn_min, lookUp, hown]
  simp only [hplace, hentry, hfrom, hto]
  unfold columnIn
  cases hcount : charsIn line.chars (min (pos - line.start) (byteLength line.chars)) with
  | none =>
    simp only [Option.map_none, Option.getD_none]
    rw [hstop, hstart, Nat.add_sub_cancel_left]
  | some m =>
    simp only [Option.map_some, Option.getD_some, Nat.add_sub_cancel_left]

theorem follow_length (before : List Char) :
    (follow [] before).length = (before.reverse.takeWhile (· ≠ '\n')).length := by
  induction before using List.reverseRecOn with
  | nil => rfl
  | append_singleton before c ih =>
    rw [follow_append, List.reverse_append, List.reverse_singleton, List.singleton_append]
    by_cases hc : c = '\n'
    · simp [follow, hc]
    · have hstep : follow (follow [] before) [c] = follow [] before ++ [c] := by
        simp [follow, hc]
      rw [hstep, List.length_append, ih, List.takeWhile_cons_of_pos (by simpa using hc)]
      rfl

theorem position_strictMono {path text : String} {p q : Nat} (hp : Boundary text.toList p)
    (hq : Boundary text.toList q) (h : p < q) :
    (ofText path text).position p < (ofText path text).position q := by
  obtain ⟨a, b, hab, rfl⟩ := hp
  obtain ⟨c, d, hcd, rfl⟩ := hq
  obtain ⟨e, rfl⟩ := exists_append_of_byteLength_le (hab.symm.trans hcd) (Nat.le_of_lt h)
  have he : e ≠ [] := by
    rintro rfl
    rw [List.append_nil] at h
    exact Nat.lt_irrefl _ h
  have hpos := List.length_pos_iff.mpr he
  rw [position_eq hab, position_eq hcd]
  by_cases hmem : '\n' ∈ e
  · left
    have hcount := List.count_pos_iff.mpr hmem
    simp only [List.count_append]
    omega
  · right
    have hcount := List.count_eq_zero.mpr hmem
    rw [follow_append, follow_of_not_mem _ hmem]
    simp only [List.count_append, List.length_append]
    omega

theorem getD_lineStarts_le (path text : String) (i : Nat) :
    (ofText path text).lineStarts.getD i 0 ≤ byteLength text.toList := by
  rw [lineStarts_eq, List.getD_eq_getElem?_getD]
  cases hi : (0 :: startsBehind 0 text.toList)[i]? with
  | none => exact Nat.zero_le _
  | some start =>
    rw [Option.getD_some]
    rcases List.mem_cons.mp (List.mem_of_getElem? hi) with rfl | hmem
    · exact Nat.zero_le _
    · have hbounds := startsBehind_bounds hmem
      omega

theorem position_of_le (path text : String) {pos : Nat} (h : byteLength text.toList ≤ pos) :
    (ofText path text).position pos = (ofText path text).position (byteLength text.toList) := by
  have hend : LastUpTo (ofText path text).lineStarts (byteLength text.toList)
      (lastUpTo (ofText path text).lineStarts pos 0 (ofText path text).lineStarts.length
        (Nat.le_refl _)) := by
    have hlast := lastUpTo_lineStarts path text pos
    refine ⟨hlast.lt, getD_lineStarts_le path text _, fun i hi hlt => ?_⟩
    have hlater := hlast.later i hi hlt
    omega
  have hplace := hend.unique (lastUpTo_lineStarts path text (byteLength text.toList))
  have hown : (ofText path text).text = text := rfl
  rw [← lookUp_eq, ← lookUp_eq, lookUp, lookUp, hplace, hown, Nat.min_eq_right h, Nat.min_self]

theorem columnIn_le (cs : List Char) (n : Nat) : columnIn cs n ≤ byteLength cs + 1 := by
  rw [← columnIn_min, columnIn]
  have hmin := Nat.min_le_right n (byteLength cs)
  cases hcount : charsIn cs (min n (byteLength cs)) with
  | none => exact Nat.succ_le_succ hmin
  | some m =>
    have hm := charsFrom_le _ _ _ hcount
    rw [Option.getD_some]
    omega

theorem position_le (path text : String) (pos : Nat) :
    ((ofText path text).position pos).line ≤ byteLength text.toList + 1 ∧
    ((ofText path text).position pos).column ≤ byteLength text.toList + 1 := by
  obtain ⟨i, line, before, after, hlast, -, -, hposition, htext, -, -⟩ :=
    exists_line path text pos
  rw [hposition]
  constructor
  · have hi := hlast.lt
    rw [lineStarts_eq, List.length_cons, startsBehind_length] at hi
    have hcount := List.count_le_length (a := '\n') (l := text.toList)
    have hlength := length_le_byteLength text.toList
    dsimp only
    omega
  · have hcolumn := columnIn_le line.chars (pos - line.start)
    rw [htext, byteLength_append, byteLength_append]
    dsimp only
    omega

theorem position_lt {path text : String} (hbytes : byteLength text.toList + 1 < 0x100000000)
    (pos : Nat) :
    ((ofText path text).position pos).line < 0x100000000 ∧
    ((ofText path text).position pos).column < 0x100000000 :=
  ⟨Nat.lt_of_le_of_lt (position_le path text pos).1 hbytes,
    Nat.lt_of_le_of_lt (position_le path text pos).2 hbytes⟩

/-- An offset between characters has the line and the column that are counted off the text in front
of it, so that later offsets have later positions; behind the end of the text stands its end. The
table of line starts gives the same for every offset. No line or column is above the number of bytes
plus one, so that 32 bits are enough for them in a text of less than 2 ^ 32 - 1 bytes. -/
theorem position_exact (path text : String) :
    let f := ofText path text
    (∀ before after, text.toList = before ++ after →
      f.position (byteLength before) =
        ⟨1 + before.count '\n', 1 + (before.reverse.takeWhile (· ≠ '\n')).length⟩) ∧
    (∀ p q, Boundary text.toList p → Boundary text.toList q → p < q →
      f.position p < f.position q) ∧
    (∀ p, byteLength text.toList ≤ p → f.position p = f.position (byteLength text.toList)) ∧
    (∀ p, f.lookUp p = f.position p) ∧
    (∀ p, (f.position p).line ≤ byteLength text.toList + 1 ∧
      (f.position p).column ≤ byteLength text.toList + 1) ∧
    (byteLength text.toList + 1 < 0x100000000 →
      ∀ p, (f.position p).line < 0x100000000 ∧ (f.position p).column < 0x100000000) := by
  refine ⟨fun before after h => ?_, fun p q hp hq => position_strictMono hp hq,
    fun p => position_of_le path text, lookUp_eq path text, position_le path text,
    fun hbytes => position_lt hbytes⟩
  rw [position_eq h, follow_length, Nat.add_comm 1, Nat.add_comm 1]

theorem position_exact_accent :
    let text := "é\nab\r\n"
    let f := ofText "t.c1" text
    text.toList = "é".toList ++ "\nab\r\n".toList ∧ byteLength "é".toList = 2 ∧
    f.position 2 = ⟨1, 2⟩ ∧ Boundary text.toList 2 ∧ Boundary text.toList 3 ∧
    f.position 2 < f.position 3 ∧ byteLength text.toList ≤ 9 ∧ f.position 9 = ⟨3, 1⟩ ∧
    f.lookUp 1 = ⟨1, 2⟩ ∧ byteLength text.toList + 1 < 0x100000000 ∧
    (f.position 5).line < 0x100000000 := by
  intro text f
  obtain ⟨hcount, hmono, hend, htable, -, hfits⟩ := position_exact "t.c1" text
  have htwo : Boundary text.toList 2 :=
    ⟨"é".toList, "\nab\r\n".toList, by decide, by decide⟩
  have hthree : Boundary text.toList 3 :=
    ⟨"é\n".toList, "ab\r\n".toList, by decide, by decide⟩
  have hsize : byteLength text.toList = 7 := by decide
  refine ⟨by decide, by decide, ?_, htwo, hthree, hmono 2 3 htwo hthree (by omega), by omega, ?_,
    ?_, by omega, (hfits (by omega) 5).1⟩
  · exact hcount "é".toList "\nab\r\n".toList (by decide)
  · have hlast := hcount text.toList [] (List.append_nil _).symm
    rw [hend 9 (by omega), hlast]
    decide
  · rw [htable]
    decide

end SourceFile

end C1Lang
