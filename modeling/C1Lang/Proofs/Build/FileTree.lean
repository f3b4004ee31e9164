import C1Lang.Build.FileTree

/-!
# Reading what was written

A file that was written is found again under the same path, since what is on the way to it is
still there: only a place that is no directory was changed.
-/

namespace C1Lang.FileTree

theorem lookup_insert_self {t : FileTree} {at_ : Location} (h : at_.isGiven = false) (e : Entry) :
    (t.insert at_ e).lookup at_ = some e := by
  have hnone : (t.entries.filter (·.1 != at_)).lookup at_ = none := by
    rw [List.lookup_eq_none_iff]
    intro x hx
    have hne : x.1 ≠ at_ := by simpa using (List.mem_filter.mp hx).2
    exact bne_iff_ne.mpr (Ne.symm hne)
  simp [lookup, h, insert, List.lookup_append, hnone]

theorem lookup_insert_of_ne {t : FileTree} {at_ other : Location} (h : other ≠ at_) (e : Entry) :
    (t.insert at_ e).lookup other = t.lookup other := by
  have hbeq : (other == at_) = false := beq_eq_false_iff_ne.mpr h
  have hentries : (t.entries.filter (·.1 != at_)).lookup other = t.entries.lookup other := by
    induction t.entries with
    | nil => rfl
    | cons x rest ih =>
      obtain ⟨place, entry⟩ := x
      by_cases hp : place = at_
      · simp [hp, List.lookup_cons, hbeq, ih]
      · simp only [List.filter_cons, bne_iff_ne, ne_eq, hp, not_false_eq_true, if_true,
          List.lookup_cons, ih]
  have hlast : List.lookup other [(at_, e)] = none := by simp [List.lookup_cons, hbeq]
  simp only [lookup, insert, List.lookup_append, hentries, hlast, Option.or_none]

/-- The way to a place stays as it is when something is put in a place that is no directory. -/
theorem follow_insert {t : FileTree} {at_ : Location} (h : t.lookup at_ ≠ some .directory)
    (e : Entry) (ps : List String) {start last : Location} (hf : t.follow start ps = .ok last) :
    (t.insert at_ e).follow start ps = .ok last := by
  induction ps generalizing start with
  | nil => exact hf
  | cons piece rest ih =>
    have hstart : (t.insert at_ e).enter start piece = t.enter start piece := by
      by_cases hs : start = at_
      · subst hs
        cases hl : t.lookup start with
        | none => simp [follow, enter, hl, bind, Except.bind] at hf
        | some found =>
          cases found with
          | directory => exact absurd hl h
          | file content => simp [follow, enter, hl, bind, Except.bind] at hf
      · simp only [enter, lookup_insert_of_ne hs]
    unfold follow at hf ⊢
    rw [hstart]
    cases hent : t.enter start piece with
    | error x => rw [hent] at hf; cases hf
    | ok u =>
      rw [hent] at hf
      exact ih hf

theorem readText_writeText {t t' : FileTree} {path content : String}
    (h : t.writeText path content = .ok t') : t'.readText path = .ok content := by
  unfold writeText at h
  cases hp : pieces path with
  | error x => simp [hp, bind, Except.bind] at h
  | ok ps =>
    cases hf : t.follow (origin path) ps with
    | error x => simp [hp, hf, bind, Except.bind] at h
    | ok at_ =>
      simp only [hp, hf, bind, Except.bind] at h
      have hnot : t.lookup at_ ≠ some .directory := by
        intro hd
        simp [hd] at h
      have hgiven : at_.isGiven = false := by
        cases hg : at_.isGiven with
        | false => rfl
        | true => exact absurd (by simp [lookup, hg]) hnot
      obtain rfl : t.insert at_ (.file (.text content)) = t' := by
        split at h
        · cases h
        · exact Except.ok.inj h
      have hfollow := follow_insert hnot (.file (.text content)) ps hf
      have hself := lookup_insert_self (t := t) hgiven (.file (.text content))
      simp [readText, find, hp, hfollow, hself, bind, Except.bind]

end C1Lang.FileTree
