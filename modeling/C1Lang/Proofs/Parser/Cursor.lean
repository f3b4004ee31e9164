import C1Lang.Proofs.Parser.Soundness
import Mathlib.Logic.Function.Iterate

/-!
# Places among comments

A reader of tokens need not take the comments out: a `Cursor` stays in the whole list and steps over
them, when it starts, when it goes on, when it looks ahead and when it looks back. What it shows is
what the parser sees of the tokens behind it (`Cursor.Valid.stands`).
-/

namespace C1Lang.Parser

def uncommented (ts : List Token) : List Token := ts.filter (!·.kind.isComment)

structure Cursor where
  tokens : List Token
  index : Nat

namespace Cursor

def commentAt (tokens : List Token) (i : Nat) : Bool := tokens[i]?.any (·.kind.isComment)

/-- The first place from `i` on without a comment; the last place of the list at the latest. -/
def settle (tokens : List Token) (i : Nat) : Nat :=
  if i + 1 < tokens.length ∧ commentAt tokens i = true then settle tokens (i + 1) else i
termination_by tokens.length - i

def ahead (tokens : List Token) : Nat → Nat → Nat
  | 0, i => i
  | n + 1, i =>
    if i + 1 < tokens.length then
      ahead tokens (if commentAt tokens (i + 1) then n + 1 else n) (i + 1)
    else i
termination_by _ i => tokens.length - i

def back (tokens : List Token) : Nat → Nat
  | 0 => 0
  | i + 1 => if commentAt tokens (i + 1) then back tokens i else i + 1

/-- A list of tokens with an end marker, at the place of its last token if it had none. -/
def closed (ts : List Token) : List Token :=
  match ts.getLast? with
  | some t => if t.kind = .eof then ts else ts ++ [⟨.eof, "", t.span⟩]
  | none => [⟨.eof, "", ⟨0, 0⟩⟩]

def ofTokens (ts : List Token) : Cursor := ⟨closed ts, settle (closed ts) 0⟩

def peek (c : Cursor) : Token := c.tokens.getD (min c.index (c.tokens.length - 1)) default

def peekNth (c : Cursor) (n : Nat) : Token := c.tokens.getD (ahead c.tokens n c.index) default

def previous (c : Cursor) : Token := c.tokens.getD (back c.tokens (c.index - 1)) default

def bump (c : Cursor) : Cursor :=
  let next := if c.index + 1 < c.tokens.length then c.index + 1 else c.index
  { c with index := settle c.tokens next }

def unread (c : Cursor) : List Token := c.tokens.drop c.index

/-- The place is one of the list and not that of a comment, and the list ends in an end marker. -/
structure Valid (c : Cursor) : Prop where
  lt : c.index < c.tokens.length
  here : commentAt c.tokens c.index = false
  closed : ∃ front e, c.tokens = front ++ [e] ∧ e.kind = .eof

section Places

variable {tokens : List Token} {i : Nat}

theorem settle_spec (hi : i < tokens.length)
    (hlast : commentAt tokens (tokens.length - 1) = false) :
    i ≤ settle tokens i ∧ settle tokens i < tokens.length ∧
    commentAt tokens (settle tokens i) = false ∧
    ∀ k, i ≤ k → k < settle tokens i → commentAt tokens k = true := by
  induction i using settle.induct tokens with
  | case1 i h ih =>
    rw [settle, if_pos h]
    obtain ⟨hle, hlt, hhere, hpassed⟩ := ih h.1
    refine ⟨by omega, hlt, hhere, fun k hk hk' => ?_⟩
    rcases Nat.eq_or_lt_of_le hk with rfl | hk
    · exact h.2
    · exact hpassed k hk hk'
  | case2 i h =>
    rw [settle, if_neg h]
    refine ⟨Nat.le_refl _, hi, ?_, fun k hk hk' => absurd hk (by omega)⟩
    by_cases hnext : i + 1 < tokens.length
    · exact Bool.eq_false_iff.mpr fun hc => h ⟨hnext, hc⟩
    · rwa [show i = tokens.length - 1 by omega]

theorem uncommented_drop (hi : i < tokens.length) :
    uncommented (tokens.drop i) = if commentAt tokens i then uncommented (tokens.drop (i + 1))
      else tokens.getD i default :: uncommented (tokens.drop (i + 1)) := by
  rw [List.drop_eq_getElem_cons hi, uncommented, List.filter_cons]
  simp only [commentAt, List.getElem?_eq_getElem hi, Option.any_some, List.getD_eq_getElem?_getD,
    Option.getD_some, uncommented]
  cases tokens[i].kind.isComment <;> rfl

theorem uncommented_settle (tokens : List Token) (i : Nat) :
    uncommented (tokens.drop (settle tokens i)) = uncommented (tokens.drop i) := by
  induction i using settle.induct tokens with
  | case1 i h ih =>
    rw [settle, if_pos h, ih, uncommented_drop (i := i) (by omega), if_pos h.2]
  | case2 i h => rw [settle, if_neg h]

theorem ahead_settle (hi : i < tokens.length)
    (hlast : commentAt tokens (tokens.length - 1) = false) (n : Nat) :
    ahead tokens (if commentAt tokens i then n + 1 else n) i =
      ahead tokens n (settle tokens i) := by
  induction i using settle.induct tokens with
  | case1 i h ih =>
    rw [if_pos h.2, ahead, if_pos h.1, ih h.1, settle.eq_def tokens i, if_pos h]
  | case2 i h =>
    have hhere := (settle_spec hi hlast).2.2.1
    rw [settle, if_neg h] at hhere ⊢
    rw [hhere, if_neg Bool.false_ne_true]

theorem ahead_end (hi : ¬ i + 1 < tokens.length) (n : Nat) : ahead tokens n i = i := by
  cases n with
  | zero => rw [ahead]
  | succ n => rw [ahead, if_neg hi]

theorem back_eq {m : Nat} (hm : i ≤ m) (hhere : commentAt tokens i = false)
    (hpassed : ∀ k, i < k → k ≤ m → commentAt tokens k = true) : back tokens m = i := by
  induction m with
  | zero => exact (Nat.le_zero.mp hm).symm
  | succ m ih =>
    rw [back]
    rcases Nat.eq_or_lt_of_le hm with rfl | hlt
    · rw [hhere]
      rfl
    · rw [hpassed (m + 1) hlt (Nat.le_refl _), if_pos rfl]
      exact ih (by omega) fun k hk hk' => hpassed k hk (by omega)

end Places

def shown (c : Cursor) : List Token := uncommented c.unread

theorem bump_end {c : Cursor} (hend : ¬ c.index + 1 < c.tokens.length) : c.bump = c := by
  rw [Cursor.bump, if_neg hend, settle, if_neg fun hc => hend hc.1]

namespace Valid

variable {c : Cursor} (h : c.Valid)

include h

theorem last : commentAt c.tokens (c.tokens.length - 1) = false := by
  obtain ⟨front, e, hclosed, he⟩ := h.closed
  simp [commentAt, hclosed, he, TokenKind.isComment]

theorem peek_eq : c.peek = c.tokens.getD c.index default := by
  have hlt := h.lt
  rw [peek, Nat.min_eq_left (by omega)]

theorem bump : c.bump.Valid := by
  have hlt := h.lt
  have hnext : (if c.index + 1 < c.tokens.length then c.index + 1 else c.index) <
      c.tokens.length := by
    split <;> omega
  obtain ⟨-, hlt', hhere, -⟩ := settle_spec hnext h.last
  exact ⟨hlt', hhere, h.closed⟩

theorem shown_eq : c.shown = c.peek :: uncommented (c.tokens.drop (c.index + 1)) := by
  rw [shown, unread, uncommented_drop h.lt, h.here, if_neg Bool.false_ne_true, h.peek_eq]

/-- One step: the next token has been read, and it is the one before the place. -/
theorem step (hnext : c.index + 1 < c.tokens.length) :
    c.shown = c.peek :: c.bump.shown ∧ c.bump.previous = c.peek := by
  obtain ⟨hle, hlt, -, hpassed⟩ := settle_spec hnext h.last
  have hindex : c.bump.index = settle c.tokens (c.index + 1) := by rw [Cursor.bump, if_pos hnext]
  have hback : back c.tokens (c.bump.index - 1) = c.index :=
    back_eq (by omega) h.here fun k hk hk' => hpassed k hk (by omega)
  refine ⟨?_, ?_⟩
  · rw [h.shown_eq, shown, unread, hindex]
    exact congrArg (c.peek :: ·) (uncommented_settle c.tokens (c.index + 1)).symm
  · rw [h.peek_eq, previous]
    exact congrArg (c.tokens.getD · default) hback

theorem shown_end (hend : ¬ c.index + 1 < c.tokens.length) : c.shown = [c.peek] := by
  rw [h.shown_eq, List.drop_eq_nil_of_le (by omega)]
  rfl

theorem peekNth_eq (n : Nat) : c.peekNth n = (Cursor.bump^[n] c).peek := by
  induction n generalizing c with
  | zero => rw [peekNth, ahead, Function.iterate_zero, id, h.peek_eq]
  | succ n ih =>
    rw [Function.iterate_succ_apply, ← ih h.bump]
    by_cases hnext : c.index + 1 < c.tokens.length
    · rw [peekNth, ahead, if_pos hnext, ahead_settle hnext h.last, peekNth, Cursor.bump,
        if_pos hnext]
    · -- At the last place neither the cursor nor the look ahead goes on.
      rw [bump_end hnext, peekNth, peekNth, ahead_end hnext, ahead_end hnext]

theorem iterate (k : Nat) : (Cursor.bump^[k] c).Valid := by
  induction k generalizing c with
  | zero => exact h
  | succ k ih => exact ih h.bump

/-- A run: after `k` steps `k` tokens have been read, and the last of them is the one before the
place. -/
theorem run {k : Nat} (hk : k < c.shown.length) :
    (Cursor.bump^[k] c).shown = c.shown.drop k ∧
    (0 < k → c.shown[k - 1]? = some (Cursor.bump^[k] c).previous) := by
  induction k with
  | zero => exact ⟨rfl, nofun⟩
  | succ k ih =>
    obtain ⟨hshown, -⟩ := ih (by omega)
    have hk' := h.iterate k
    rw [Function.iterate_succ_apply']
    -- More than one token is shown, so this is not the last place.
    have hnext : (Cursor.bump^[k] c).index + 1 < (Cursor.bump^[k] c).tokens.length := by
      refine Nat.lt_of_not_le fun hend => ?_
      have hone := congrArg List.length (hshown.symm.trans (hk'.shown_end (by omega)))
      rw [List.length_drop, List.length_singleton] at hone
      omega
    obtain ⟨hcons, hprevious⟩ := hk'.step hnext
    rw [hshown] at hcons
    refine ⟨?_, fun _ => ?_⟩
    · rw [← List.drop_drop, hcons]
      rfl
    · rw [hprevious, Nat.add_sub_cancel, ← List.head?_drop, hcons]
      rfl

theorem shown_peek : c.shown.head? = some c.peek := by
  rw [h.shown_eq]
  rfl

end Valid

theorem closed_last (ts : List Token) : ∃ front e, closed ts = front ++ [e] ∧ e.kind = .eof := by
  unfold closed
  split
  · next t ht =>
    split
    · next hk =>
      obtain ⟨front, rfl⟩ := List.getLast?_eq_some_iff.mp ht
      exact ⟨front, t, rfl, hk⟩
    · exact ⟨ts, _, rfl, rfl⟩
  · exact ⟨[], _, rfl, rfl⟩

theorem closed_eq {front : List Token} {e : Token} (he : e.kind = .eof) :
    closed (front ++ [e]) = front ++ [e] := by
  rw [closed, List.getLast?_concat]
  exact if_pos he

theorem ofTokens_valid (ts : List Token) : (ofTokens ts).Valid := by
  obtain ⟨front, e, hclosed, he⟩ := closed_last ts
  have hlast : commentAt (closed ts) ((closed ts).length - 1) = false := by
    simp [commentAt, hclosed, he, TokenKind.isComment]
  obtain ⟨-, hlt, hhere, -⟩ := settle_spec (i := 0) (by simp [hclosed]) hlast
  exact ⟨hlt, hhere, front, e, hclosed, he⟩

theorem shown_ofTokens (ts : List Token) : (ofTokens ts).shown = uncommented (closed ts) := by
  rw [shown, unread, ofTokens, uncommented_settle, List.drop_zero]

end Cursor

theorem uncommented_append (ts us : List Token) :
    uncommented (ts ++ us) = uncommented ts ++ uncommented us := List.filter_append _ _

theorem uncommented_cons {t : Token} (h : t.kind.isComment = false) (ts : List Token) :
    uncommented (t :: ts) = t :: uncommented ts := List.filter_cons_of_pos (by simp [h])

theorem uncommented_idem (ts : List Token) : uncommented (uncommented ts) = uncommented ts :=
  List.filter_eq_self.mpr fun _ ht => (List.mem_filter.mp ht).2

theorem State.ofTokens_closed {before after : List Token} {e : Token}
    (hbefore : ∀ t ∈ before, t.kind ≠ .eof) (he : e.kind = .eof) :
    State.ofTokens (before ++ e :: after) = { rest := uncommented before, stop := e.span } := by
  have hb : ∀ t ∈ before, (t.kind != .eof) = true := by simpa using hbefore
  have he' : (e.kind != .eof) = false := by simp [he]
  simp [State.ofTokens, List.takeWhile_append_of_pos hb, List.dropWhile_append_of_pos hb, he',
    uncommented]

theorem exists_eof {ts : List Token} (h : ∃ t ∈ ts, t.kind = .eof) :
    ∃ before e after, ts = before ++ e :: after ∧ (∀ t ∈ before, t.kind ≠ .eof) ∧
      e.kind = .eof := by
  obtain ⟨t, ht, hk⟩ := h
  have hfound : (ts.find? (·.kind == .eof)).isSome = true :=
    List.find?_isSome.mpr ⟨t, ht, by simp [hk]⟩
  obtain ⟨e, he⟩ := Option.isSome_iff_exists.mp hfound
  obtain ⟨hk, before, after, heq, hbefore⟩ := List.find?_eq_some_iff_append.mp he
  exact ⟨before, e, after, heq, by simpa using hbefore, by simpa using hk⟩

theorem State.ofTokens_uncommented {ts : List Token} (h : ∃ t ∈ ts, t.kind = .eof) :
    State.ofTokens (uncommented ts) = State.ofTokens ts := by
  obtain ⟨before, e, after, rfl, hbefore, he⟩ := exists_eof h
  have hkeep : e.kind.isComment = false := by rw [he]; rfl
  have hbefore' : ∀ t ∈ uncommented before, t.kind ≠ .eof := fun t ht =>
    hbefore t (List.mem_filter.mp ht).1
  rw [uncommented_append, uncommented_cons hkeep, ofTokens_closed hbefore he,
    ofTokens_closed hbefore' he, uncommented_idem]

theorem State.ofTokens_cons {t : Token} (hk : t.kind.isComment = false) (ts : List Token)
    (h : t.kind = .eof ∨ ∃ u ∈ ts, u.kind = .eof) :
    (State.ofTokens (t :: ts)).kind = t.kind ∧ (State.ofTokens (t :: ts)).span = t.span ∧
    (t.kind ≠ .eof → State.ofTokens (t :: ts) =
      { State.ofTokens ts with rest := t :: (State.ofTokens ts).rest }) := by
  by_cases he : t.kind = .eof
  · have heq : State.ofTokens ([] ++ t :: ts) = _ := State.ofTokens_closed nofun he
    rw [List.nil_append] at heq
    rw [heq]
    exact ⟨he.symm, rfl, fun hne => absurd he hne⟩
  · obtain ⟨before, e, after, rfl, hbefore, he'⟩ := exists_eof (h.resolve_left he)
    have hall : ∀ u ∈ t :: before, u.kind ≠ .eof := List.forall_mem_cons.mpr ⟨he, hbefore⟩
    rw [← List.cons_append, ofTokens_closed hall he', ofTokens_closed hbefore he',
      uncommented_cons hk]
    exact ⟨rfl, rfl, fun _ => rfl⟩

namespace Cursor

/-- What the parser sees of the tokens behind the cursor is what the cursor shows, and the parser
goes on as the cursor does. A token that has been read is the one before the place. -/
structure Stands (c : Cursor) (s : State) : Prop where
  kind : s.kind = c.peek.kind
  span : s.span = c.peek.span
  second : c.peek.kind ≠ .eof → peekSecond s = .ok (c.peekNth 1).kind s
  advance : c.peek.kind ≠ .eof → Parser.advance s = .ok () (State.ofTokens c.bump.unread)
  previous : c.peek.kind ≠ .eof → c.bump.previous = c.peek

theorem Valid.exists_eof {c : Cursor} (h : c.Valid) : ∃ u ∈ c.unread, u.kind = .eof := by
  obtain ⟨front, e, hclosed, he⟩ := h.closed
  have hlt := h.lt
  rw [hclosed, List.length_append, List.length_singleton] at hlt
  refine ⟨e, ?_, he⟩
  rw [unread, hclosed, List.drop_append_of_le_length (by omega)]
  simp

theorem Valid.state_eq {c : Cursor} (h : c.Valid) :
    State.ofTokens c.unread = State.ofTokens c.shown :=
  (State.ofTokens_uncommented h.exists_eof).symm

theorem Valid.peek_isComment {c : Cursor} (h : c.Valid) : c.peek.kind.isComment = false := by
  have hhere := h.here
  rw [h.peek_eq]
  simpa [commentAt, List.getD_eq_getElem?_getD, List.getElem?_eq_getElem h.lt] using hhere

theorem Valid.exists_shown_eof {c : Cursor} (h : c.Valid) : ∃ u ∈ c.shown, u.kind = .eof := by
  obtain ⟨u, hu, he⟩ := h.exists_eof
  have hkeep : u.kind.isComment = false := by rw [he]; rfl
  exact ⟨u, List.mem_filter.mpr ⟨hu, by simp [hkeep]⟩, he⟩

theorem Valid.peek_end {c : Cursor} (h : c.Valid) (hend : ¬ c.index + 1 < c.tokens.length) :
    c.peek.kind = .eof := by
  obtain ⟨u, hu, he⟩ := h.exists_shown_eof
  rw [h.shown_end hend, List.mem_singleton] at hu
  rw [← hu, he]

theorem Valid.state_cons {c : Cursor} (h : c.Valid) :
    (State.ofTokens c.unread).kind = c.peek.kind ∧ (State.ofTokens c.unread).span = c.peek.span ∧
    (c.peek.kind ≠ .eof → State.ofTokens c.unread =
      { State.ofTokens c.bump.unread with
        rest := c.peek :: (State.ofTokens c.bump.unread).rest }) := by
  rw [h.state_eq, h.bump.state_eq]
  by_cases hnext : c.index + 1 < c.tokens.length
  · rw [(h.step hnext).1]
    exact State.ofTokens_cons h.peek_isComment _ (.inr h.bump.exists_shown_eof)
  · -- At the last place there is only the end marker.
    have hpeek := h.peek_end hnext
    obtain ⟨hkind, hspan, -⟩ := State.ofTokens_cons h.peek_isComment [] (.inl hpeek)
    rw [h.shown_end hnext]
    exact ⟨hkind, hspan, fun hne => absurd hpeek hne⟩

theorem Valid.stands {c : Cursor} (h : c.Valid) : c.Stands (State.ofTokens c.unread) := by
  obtain ⟨hkind, hspan, hcons⟩ := h.state_cons
  refine ⟨hkind, hspan, fun hne => ?_, fun hne => ?_, fun hne => ?_⟩
  · rw [peekSecond_eq, h.peekNth_eq 1, Function.iterate_one, ← h.bump.state_cons.1, State.kind_eq,
      hcons hne]
    rfl
  · rw [advance_eq (congrArg State.rest (hcons hne)), hcons hne]
  · exact (h.step (not_imp_comm.mp h.peek_end hne)).2

theorem Valid.index_lt_bump {c : Cursor} (h : c.Valid) (hne : c.peek.kind ≠ .eof) :
    c.index < c.bump.index := by
  have hnext : c.index + 1 < c.tokens.length := not_imp_comm.mp h.peek_end hne
  rw [Cursor.bump, if_pos hnext]
  exact (settle_spec hnext h.last).1

theorem state_closed (ts : List Token) : State.ofTokens (closed ts) = State.ofTokens ts := by
  by_cases heof : ∃ t ∈ ts, t.kind = .eof
  · obtain ⟨before, e, after, rfl, hbefore, he⟩ := Parser.exists_eof heof
    have hadd : ∃ more, closed (before ++ e :: after) = before ++ e :: (after ++ more) := by
      unfold closed
      split
      · split
        · exact ⟨[], by rw [List.append_nil]⟩
        · exact ⟨_, by rw [List.append_assoc, List.cons_append]⟩
      · exact absurd ‹_› (by simp)
    obtain ⟨more, hadd⟩ := hadd
    rw [hadd, State.ofTokens_closed hbefore he, State.ofTokens_closed hbefore he]
  · have hnone : ∀ t ∈ ts, t.kind ≠ .eof := fun t ht hk => heof ⟨t, ht, hk⟩
    have hall : ts.takeWhile (·.kind != .eof) = ts :=
      List.takeWhile_eq_self_iff.mpr fun t ht => by simpa using hnone t ht
    have hend : ts.dropWhile (·.kind != .eof) = [] :=
      List.dropWhile_eq_nil_iff.mpr fun t ht => by simpa using hnone t ht
    have hstate : State.ofTokens ts =
        { rest := uncommented ts, stop := (ts.getLast?.map Token.span).getD ⟨0, 0⟩ } := by
      rw [State.ofTokens, hall, hend]
      rfl
    rw [hstate]
    unfold closed
    split
    · next t ht =>
      rw [if_neg (hnone t (List.mem_of_getLast? ht)), State.ofTokens_closed hnone rfl, ht]
      rfl
    · next ht =>
      obtain rfl := List.getLast?_eq_none_iff.mp ht
      rfl

theorem state_ofTokens (ts : List Token) :
    State.ofTokens (ofTokens ts).unread = State.ofTokens ts := by
  obtain ⟨front, e, hclosed, he⟩ := closed_last ts
  rw [(ofTokens_valid ts).state_eq, shown_ofTokens,
    State.ofTokens_uncommented ⟨e, by simp [hclosed], he⟩, state_closed]

/-- Two cursors that show the same: so they do after each step, ahead and behind, and the parser
sees the same of what is left. -/
theorem Valid.alike {c d : Cursor} (hc : c.Valid) (hd : d.Valid) (heq : c.shown = d.shown)
    {k n : Nat} (hkn : k + n < c.shown.length) :
    State.ofTokens (Cursor.bump^[k] c).unread = State.ofTokens (Cursor.bump^[k] d).unread ∧
    (Cursor.bump^[k] c).peekNth n = (Cursor.bump^[k] d).peekNth n ∧
    (0 < k → (Cursor.bump^[k] c).previous = (Cursor.bump^[k] d).previous) := by
  have hkn' : k + n < d.shown.length := heq ▸ hkn
  obtain ⟨hshown, hprevious⟩ := hc.run (k := k) (by omega)
  obtain ⟨hshown', hprevious'⟩ := hd.run (k := k) (by omega)
  refine ⟨?_, ?_, fun hk => ?_⟩
  · rw [(hc.iterate k).state_eq, (hd.iterate k).state_eq, hshown, hshown', heq]
  · rw [(hc.iterate k).peekNth_eq, (hd.iterate k).peekNth_eq, ← Function.iterate_add_apply,
      ← Function.iterate_add_apply]
    refine Option.some_inj.mp ?_
    rw [← (hc.iterate _).shown_peek, ← (hd.iterate _).shown_peek, (hc.run (by omega)).1,
      (hd.run (by omega)).1, heq]
  · refine Option.some_inj.mp ?_
    rw [← hprevious hk, ← hprevious' hk, heq]

end Cursor

end C1Lang.Parser
