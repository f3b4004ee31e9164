import C1Lang.Proofs.Token.Slices
import Mathlib.Data.List.TakeWhile

/-!
# What a scan looks at

A scan looks at one character behind what it takes, and there a line feed stops it like the end of
the text does (`scan_local`). So what stands behind a line feed is scanned by itself, unless a
comment was open (`items_append_newline`).
-/

namespace C1Lang.Lexer

open Number (isDigit isHexDigit)

theorem span_append {p : Char → Bool} {cs rest : List Char} (hall : ∀ c ∈ cs, p c = true)
    (hstop : ∀ c ∈ rest.head?, p c = false) :
    (cs ++ rest).takeWhile p = cs ∧ (cs ++ rest).dropWhile p = rest := by
  rw [List.takeWhile_append_of_pos hall, List.dropWhile_append_of_pos hall]
  cases rest with
  | nil => simp
  | cons c rest => simp [hstop c (by simp)]

/-- `rest'` starts like `rest`, or with a line feed, or it is the end of the text. -/
def Follows (rest rest' : List Char) : Prop :=
  ∀ c ∈ rest'.head?, c = '\n' ∨ c ∈ rest.head?

namespace Follows

theorem refl (rest : List Char) : Follows rest rest := fun _ h => .inr h

theorem nil (rest : List Char) : Follows rest [] := by simp [Follows]

theorem append_newline (rest cs : List Char) : Follows rest (rest ++ '\n' :: cs) := by
  cases rest <;> simp [Follows]

variable {rest rest' : List Char}

theorem prepend (h : Follows rest rest') (used : List Char) :
    Follows (used ++ rest) (used ++ rest') := by
  cases used with
  | nil => exact h
  | cons c used => simp [Follows]

theorem stops (h : Follows rest rest') {p : Char → Bool} (hn : p '\n' = false)
    (hr : ∀ c ∈ rest.head?, p c = false) : ∀ c ∈ rest'.head?, p c = false := by
  intro c hc
  rcases h c hc with rfl | hc
  · exact hn
  · exact hr c hc

theorem ne_cons (h : Follows rest rest') {d : Char} (hd : d ≠ '\n')
    (hr : ∀ cs, rest = d :: cs → False) : ∀ cs, rest' = d :: cs → False := by
  rintro cs rfl
  rcases h d (by simp) with hnewline | hmem
  · exact hd hnewline
  · cases rest with
    | nil => cases hmem
    | cons c rest =>
      obtain rfl : c = d := by simpa using hmem
      exact hr rest rfl

theorem takeWhile {p : Char → Bool} (hn : p '\n' = false) {cs : List Char}
    (h : Follows (cs.dropWhile p) rest') :
    (cs.takeWhile p ++ rest').takeWhile p = cs.takeWhile p ∧
    (cs.takeWhile p ++ rest').dropWhile p = rest' := by
  refine span_append (fun c hc => List.mem_takeWhile_imp hc) (h.stops hn fun c hc => ?_)
  have hnot := List.head?_dropWhile_not p cs
  rw [Option.mem_def.mp hc] at hnot
  exact hnot

end Follows

/-- Whatever follows what was left, the scanner does what it does on `cs`. -/
def Local (scanner : List Char → Piece) (cs : List Char) : Prop :=
  ∃ used, cs = used ++ (scanner cs).rest ∧ ∀ rest', Follows (scanner cs).rest rest' →
    scanner (used ++ rest') = { scanner cs with rest := rest' }

theorem lineComment_local (cs : List Char) : Local lineComment cs := by
  refine ⟨cs.takeWhile (· != '\n'), List.takeWhile_append_dropWhile.symm, fun rest' h => ?_⟩
  obtain ⟨htake, hdrop⟩ := Follows.takeWhile (by decide) h
  simp only [lineComment, htake, hdrop]

theorem splitComment_body_ne_nil {cs body rest : List Char}
    (h : splitComment cs = some (body, rest)) : body ≠ [] := by
  cases cs with
  | nil => cases h
  | cons c cs =>
    unfold splitComment at h
    split at h
    · cases h
      simp
    · obtain ⟨_, -, heq⟩ := Option.map_eq_some_iff.mp h
      cases heq
      simp

theorem splitComment_local {cs body rest : List Char} (h : splitComment cs = some (body, rest))
    (rest' : List Char) : splitComment (body ++ rest') = some (body, rest') := by
  induction cs generalizing body with
  | nil => simp [splitComment] at h
  | cons c cs ih =>
    unfold splitComment at h
    split at h
    · cases h
      rfl
    · next hopen =>
      obtain ⟨⟨inner, _⟩, hinner, heq⟩ := Option.map_eq_some_iff.mp h
      cases heq
      have happend := splitComment_append hinner
      have hrest := ih hinner
      cases inner with
      | nil => exact absurd rfl (splitComment_body_ne_nil hinner)
      | cons d inner =>
        have hclosed : ∀ after, c = '*' → d :: (inner ++ rest') = '/' :: after → False := by
          rintro after rfl heq
          cases heq
          exact hopen _ rfl happend.symm
        rw [List.cons_append, List.cons_append, splitComment.eq_3 _ _ hclosed]
        rw [List.cons_append] at hrest
        rw [hrest]
        rfl

theorem blockComment_local {cs : List Char}
    (h : (blockComment cs).outcome ≠ .problem .unterminatedComment) : Local blockComment cs := by
  unfold blockComment at h
  split at h
  · next body rest hsplit =>
    have hrest : (blockComment cs).rest = rest := by simp only [blockComment, hsplit]
    refine ⟨body, by rw [hrest, splitComment_append hsplit], fun rest' _ => ?_⟩
    simp only [blockComment, hsplit, splitComment_local hsplit rest']
  · exact absurd rfl h

theorem word_local (c : Char) (cs : List Char) : Local (word c) cs := by
  refine ⟨cs.takeWhile isWordChar, List.takeWhile_append_dropWhile.symm, fun rest' h => ?_⟩
  obtain ⟨htake, hdrop⟩ := Follows.takeWhile (by decide) h
  simp only [word, htake, hdrop]

theorem integer_rest (kind : TokenKind) (taken rest : List Char) :
    (integer kind taken rest).rest = rest := by
  unfold integer
  split <;> rfl

theorem integer_local (kind : TokenKind) (taken rest rest' : List Char) :
    integer kind taken rest' = { integer kind taken rest with rest := rest' } := by
  unfold integer
  split <;> rfl

theorem hexadecimal_local (x : Char) (cs : List Char) : Local (hexadecimal x) cs := by
  have hrest : (hexadecimal x cs).rest = cs.dropWhile isHexDigit := by
    unfold hexadecimal
    dsimp only
    split
    · rfl
    · exact integer_rest _ _ _
  refine ⟨cs.takeWhile isHexDigit, ?_, fun rest' h => ?_⟩
  · rw [hrest, List.takeWhile_append_dropWhile]
  · rw [hrest] at h
    obtain ⟨htake, hdrop⟩ := Follows.takeWhile (by decide) h
    unfold hexadecimal
    simp only [htake, hdrop]
    split
    · rfl
    · exact integer_local _ _ _ _

theorem fraction_local {cs : List Char} (rest' : List Char) (h : Follows (fraction cs).2 rest') :
    fraction ((fraction cs).1 ++ rest') = ((fraction cs).1, rest') := by
  unfold fraction at h
  split at h
  · next cs =>
    obtain ⟨htake, hdrop⟩ := Follows.takeWhile (by decide) h
    simp only [fraction, List.cons_append, htake, hdrop]
  · next hpoint =>
    simp only [fraction.eq_2 cs hpoint, List.nil_append]
    exact fraction.eq_2 _ (h.ne_cons (by decide) hpoint)

theorem exponentSign_local {cs : List Char} (rest' : List Char)
    (h : Follows (exponentSign cs).2 rest') :
    exponentSign ((exponentSign cs).1 ++ rest') = ((exponentSign cs).1, rest') := by
  unfold exponentSign at h
  split at h
  · rfl
  · rfl
  · next hplus hminus =>
    simp only [exponentSign.eq_3 cs hplus hminus, List.nil_append]
    exact exponentSign.eq_3 _ (h.ne_cons (by decide) hplus) (h.ne_cons (by decide) hminus)

theorem exponent_ends {cs : List Char} (he : ∀ e ∈ cs.head?, (e == 'e' || e == 'E') = false)
    (isFloat : Bool) (taken : List Char) :
    exponent isFloat taken cs =
      if isFloat then ⟨.token .float, taken, cs⟩ else integer .int taken cs := by
  cases cs with
  | nil => rfl
  | cons e cs => simp [exponent, he e rfl]

def marked (taken : List Char) (e : Char) (sign digits rest : List Char) : Piece :=
  ⟨if digits.isEmpty then .problem .malformedNumber else .token .float,
    taken ++ e :: (sign ++ digits), rest⟩

theorem exponent_marked {e : Char} (he : (e == 'e' || e == 'E') = true) (isFloat : Bool)
    (taken : List Char) {cs sign after : List Char} (hs : exponentSign cs = (sign, after)) :
    exponent isFloat taken (e :: cs) =
      marked taken e sign (after.takeWhile isDigit) (after.dropWhile isDigit) := by
  by_cases hdigits : (after.takeWhile isDigit).isEmpty = true
  · have htake := List.isEmpty_iff.mp hdigits
    have hsplit := List.takeWhile_append_dropWhile (p := isDigit) (l := after)
    rw [htake, List.nil_append] at hsplit
    simp [exponent, he, hs, marked, htake, hsplit]
  · simp [exponent, he, hs, marked, hdigits]

theorem exponent_local (isFloat : Bool) (taken cs : List Char) :
    Local (exponent isFloat taken) cs := by
  by_cases hends : ∀ e ∈ cs.head?, (e == 'e' || e == 'E') = false
  · have heq := exponent_ends hends isFloat taken
    have hrest : (exponent isFloat taken cs).rest = cs := by
      rw [heq]
      split
      · rfl
      · exact integer_rest _ _ _
    refine ⟨[], by rw [hrest, List.nil_append], fun rest' h => ?_⟩
    rw [hrest] at h
    rw [List.nil_append, heq, exponent_ends (h.stops (by decide) hends)]
    split
    · rfl
    · exact integer_local _ _ _ _
  · cases cs with
    | nil => simp at hends
    | cons e cs =>
      have he : (e == 'e' || e == 'E') = true := by
        simpa only [List.head?_cons, Option.mem_some_iff, forall_eq', Bool.not_eq_false] using hends
      obtain ⟨sign, after, hs⟩ : ∃ sign after, exponentSign cs = (sign, after) := ⟨_, _, rfl⟩
      have happend := exponentSign_append cs
      have hsign := @exponentSign_local cs
      rw [hs] at happend hsign
      have heq := exponent_marked he isFloat taken hs
      refine ⟨e :: (sign ++ after.takeWhile isDigit), ?_, fun rest' h => ?_⟩
      · rw [heq, marked, List.cons_append, List.append_assoc, List.takeWhile_append_dropWhile,
          happend]
      · rw [heq] at h ⊢
        obtain ⟨htake, hdrop⟩ := Follows.takeWhile (by decide) h
        have hafter : Follows after (after.takeWhile isDigit ++ rest') := by
          have hprepend := Follows.prepend h (after.takeWhile isDigit)
          rwa [marked, List.takeWhile_append_dropWhile] at hprepend
        rw [List.cons_append, List.append_assoc,
          exponent_marked he isFloat taken (hsign _ hafter), htake, hdrop]
        rfl

theorem decimal_local (c : Char) (cs : List Char) :
    ∃ more, cs = cs.takeWhile isDigit ++ more ++ (decimal c cs).rest ∧
      ∀ rest', Follows (decimal c cs).rest rest' →
        decimal c (cs.takeWhile isDigit ++ more ++ rest') =
          { decimal c cs with rest := rest' } := by
  have hcs := List.takeWhile_append_dropWhile (p := isDigit) (l := cs)
  have hdigit : isDigit '\n' = false := by decide
  generalize hwhole : cs.takeWhile isDigit = whole at hcs ⊢
  generalize hafter : cs.dropWhile isDigit = after at hcs
  -- What stands behind the digits starts as it did before.
  have hdigits : ∀ after', Follows after after' →
      (whole ++ after').takeWhile isDigit = whole ∧
      (whole ++ after').dropWhile isDigit = after' := by
    intro after' h
    subst hwhole hafter
    exact Follows.takeWhile hdigit h
  by_cases hpoint : (c == '.') = true
  · have heq : ∀ after', Follows after after' →
        decimal c (whole ++ after') = exponent true (c :: whole) after' := by
      intro after' h
      simp only [decimal, hdigits after' h, hpoint, if_true]
    obtain ⟨used, hused, hlocal⟩ := exponent_local true (c :: whole) after
    have hself := heq after (.refl _)
    rw [hcs] at hself
    rw [← hself] at hused hlocal
    refine ⟨used, by rw [List.append_assoc, ← hused, hcs], fun rest' h => ?_⟩
    rw [List.append_assoc, heq _ ?_, hlocal rest' h]
    conv => arg 1; rw [hused]
    exact h.prepend used
  · obtain ⟨point, tail, hp⟩ : ∃ point tail, fraction after = (point, tail) := ⟨_, _, rfl⟩
    have hfraction := @fraction_local after
    have happend := fraction_append after
    rw [hp] at hfraction happend
    have heq : ∀ tail', Follows tail tail' → decimal c (whole ++ (point ++ tail')) =
        exponent (!point.isEmpty) (c :: (whole ++ point)) tail' := by
      intro tail' h
      have h' := h.prepend point
      rw [happend] at h'
      simp only [decimal, hdigits _ h', hpoint, hfraction tail' h]
      rfl
    obtain ⟨used, hused, hlocal⟩ :=
      exponent_local (!point.isEmpty) (c :: (whole ++ point)) tail
    have hself := heq tail (.refl _)
    rw [happend, hcs] at hself
    rw [← hself] at hused hlocal
    refine ⟨point ++ used, ?_, fun rest' h => ?_⟩
    · rw [List.append_assoc, List.append_assoc, ← hused, happend, hcs]
    · rw [List.append_assoc, List.append_assoc, heq _ ?_, hlocal rest' h]
      conv => arg 1; rw [hused]
      exact h.prepend used

theorem number_decimal {c : Char} {cs : List Char} (hx : c = '0' → ∀ rest, cs = 'x' :: rest → False)
    (hX : c = '0' → ∀ rest, cs = 'X' :: rest → False) {cs' : List Char} (h : Follows cs cs') :
    number c cs' = decimal c cs' :=
  number.eq_3 c cs' (fun rest hc => h.ne_cons (by decide) (hx hc) rest)
    (fun rest hc => h.ne_cons (by decide) (hX hc) rest)

theorem number_local (c : Char) (cs : List Char) : Local (number c) cs := by
  by_cases hx : c = '0' ∧ ∃ rest, cs = 'x' :: rest
  · obtain ⟨rfl, rest, rfl⟩ := hx
    obtain ⟨used, hused, hlocal⟩ := hexadecimal_local 'x' rest
    exact ⟨'x' :: used, congrArg (List.cons 'x') hused, hlocal⟩
  by_cases hX : c = '0' ∧ ∃ rest, cs = 'X' :: rest
  · obtain ⟨rfl, rest, rfl⟩ := hX
    obtain ⟨used, hused, hlocal⟩ := hexadecimal_local 'X' rest
    exact ⟨'X' :: used, congrArg (List.cons 'X') hused, hlocal⟩
  have hnumber : ∀ {cs'}, Follows cs cs' → number c cs' = decimal c cs' :=
    number_decimal (fun hc rest h => hx ⟨hc, rest, h⟩) (fun hc rest h => hX ⟨hc, rest, h⟩)
  obtain ⟨more, hcs, hlocal⟩ := decimal_local c cs
  rw [← hnumber (.refl cs)] at hcs hlocal
  refine ⟨cs.takeWhile isDigit ++ more, hcs, fun rest' h => ?_⟩
  have h' := h.prepend (cs.takeWhile isDigit ++ more)
  rw [← hcs] at h'
  rw [hnumber h', hlocal rest' h]

theorem comparison_local (c : Char) (alone : Outcome) (doubled : TokenKind) (cs : List Char) :
    Local (comparison c alone doubled) cs := by
  by_cases hequal : ∃ rest, cs = '=' :: rest
  · obtain ⟨rest, rfl⟩ := hequal
    exact ⟨['='], rfl, fun _ _ => rfl⟩
  · have hends : ∀ rest, cs = '=' :: rest → False := fun rest h => hequal ⟨rest, h⟩
    have heq := comparison.eq_2 c alone doubled cs hends
    rw [Local, heq]
    exact ⟨[], rfl, fun rest' h => comparison.eq_2 _ _ _ _ (h.ne_cons (by decide) hends)⟩

theorem slash_local {cs : List Char}
    (h : (slash cs).outcome ≠ .problem .unterminatedComment) : Local slash cs := by
  by_cases hline : ∃ rest, cs = '/' :: rest
  · obtain ⟨rest, rfl⟩ := hline
    obtain ⟨used, hused, hlocal⟩ := lineComment_local rest
    exact ⟨'/' :: used, congrArg (List.cons '/') hused, hlocal⟩
  by_cases hblock : ∃ rest, cs = '*' :: rest
  · obtain ⟨rest, rfl⟩ := hblock
    obtain ⟨used, hused, hlocal⟩ := blockComment_local h
    exact ⟨'*' :: used, congrArg (List.cons '*') hused, hlocal⟩
  have hline' : ∀ rest, cs = '/' :: rest → False := fun rest h => hline ⟨rest, h⟩
  have hblock' : ∀ rest, cs = '*' :: rest → False := fun rest h => hblock ⟨rest, h⟩
  rw [Local, slash.eq_3 cs hline' hblock']
  exact ⟨[], rfl, fun rest' h => slash.eq_3 _ (h.ne_cons (by decide) hline')
    (h.ne_cons (by decide) hblock')⟩

theorem startsNumber_of_follows {c : Char} {cs cs' : List Char} (h : Follows cs cs')
    (hn : startsNumber c cs = false) : startsNumber c cs' = false := by
  have hany : ∀ ds : List Char, ds.head?.any isDigit = false ↔ ∀ d ∈ ds.head?, isDigit d = false :=
    fun ds => by cases ds <;> simp
  simp only [startsNumber, Bool.or_eq_false_iff, Bool.and_eq_false_iff, hany] at hn ⊢
  exact ⟨hn.1, hn.2.imp id (h.stops (by decide))⟩

theorem startsNumber_local {c : Char} {cs : List Char} (hn : startsNumber c cs = true) :
    ∃ used, cs = used ++ (number c cs).rest ∧ ∀ rest', Follows (number c cs).rest rest' →
      startsNumber c (used ++ rest') = true ∧
      number c (used ++ rest') = { number c cs with rest := rest' } := by
  by_cases hdigit : isDigit c = true
  · obtain ⟨used, hused, hlocal⟩ := number_local c cs
    exact ⟨used, hused, fun rest' h => ⟨by simp [startsNumber, hdigit], hlocal rest' h⟩⟩
  · obtain ⟨rfl, d, rest, rfl, hd⟩ : c = '.' ∧ ∃ d rest, cs = d :: rest ∧ isDigit d = true := by
      cases cs <;> simp_all [startsNumber]
    have hdecimal : ∀ cs', number '.' cs' = decimal '.' cs' := fun cs' =>
      number.eq_3 _ _ (fun _ h => absurd h (by decide)) (fun _ h => absurd h (by decide))
    obtain ⟨more, hcs, hlocal⟩ := decimal_local '.' (d :: rest)
    rw [hdecimal]
    refine ⟨_, hcs, fun rest' h => ⟨?_, ?_⟩⟩
    · simp [startsNumber, hd]
    · rw [hdecimal]
      exact hlocal rest' h

theorem scan_local {c : Char} {cs : List Char}
    (h : (scan c cs).outcome ≠ .problem .unterminatedComment) : Local (scan c) cs := by
  unfold scan at h
  unfold Local scan
  split at h
  · exact ⟨[], rfl, fun _ _ => rfl⟩
  · exact comparison_local ..
  by_cases hslash : c = '/'
  · simp only [if_pos hslash] at h ⊢
    exact slash_local h
  by_cases hblank : isBlank c = true
  · simp only [if_neg hslash, if_pos hblank]
    exact ⟨[], rfl, fun _ _ => rfl⟩
  by_cases hn : startsNumber c cs = true
  · simp only [if_neg hslash, if_neg hblank, if_pos hn]
    obtain ⟨used, hused, hlocal⟩ := startsNumber_local hn
    refine ⟨used, hused, fun rest' h => ?_⟩
    obtain ⟨hn', heq⟩ := hlocal rest' h
    rw [if_pos hn', heq]
  · have hn' : ∀ cs', Follows cs cs' → ¬ startsNumber c cs' = true := fun cs' h => by
      rw [startsNumber_of_follows h (Bool.eq_false_iff.mpr hn)]
      decide
    simp only [if_neg hslash, if_neg hblank, if_neg hn]
    by_cases hletter : isLetter c = true
    · simp only [if_pos hletter]
      obtain ⟨used, hused, hlocal⟩ := word_local c cs
      refine ⟨used, hused, fun rest' h => ?_⟩
      rw [if_neg (hn' _ ?_), hlocal rest' h]
      conv => arg 1; rw [hused]
      exact h.prepend used
    · simp only [if_neg hletter]
      refine ⟨[], rfl, fun rest' h => ?_⟩
      rw [List.nil_append, if_neg (hn' rest' h)]

/-- A scan takes the same wherever what it took is followed by nothing else that it would take. -/
theorem scan_taken {c : Char} {cs : List Char}
    (h : (scan c cs).outcome ≠ .problem .unterminatedComment) :
    ∃ used, (scan c cs).taken = c :: used ∧ cs = used ++ (scan c cs).rest ∧
      ∀ rest', Follows (scan c cs).rest rest' →
        scan c (used ++ rest') = { scan c cs with rest := rest' } := by
  obtain ⟨used, hused, hlocal⟩ := scan_local h
  have happend : (scan c cs).taken ++ (scan c cs).rest = c :: used ++ (scan c cs).rest := by
    rw [scan_append, List.cons_append, ← hused]
  exact ⟨used, List.append_cancel_right happend, hused, hlocal⟩

def Item.shift (n : Nat) : Item → Item
  | .token t => .token (t.shift n)
  | .problem d => .problem (d.shift n)

theorem items_shift (n pos : Nat) (cs : List Char) :
    items (pos + n) cs = (items pos cs).map (Item.shift n) := by
  induction pos, cs using items.induct with
  | case1 => simp [items]
  | case2 pos c cs ih =>
    rw [items, items, List.map_append, ← ih, Nat.add_right_comm]
    congr 1
    unfold Piece.items
    split <;> simp [Item.shift, Token.shift, Diagnostic.shift, Span.shift, Nat.add_right_comm]

def Closed (found : List Item) : Prop :=
  ∀ d ∈ found.filterMap Item.diagnostic?, d.problem ≠ .unterminatedComment

theorem Closed.append {found more : List Item} (h : Closed (found ++ more)) :
    Closed found ∧ Closed more := by
  simp only [Closed, List.filterMap_append, List.mem_append] at h
  exact ⟨fun d hd => h d (.inl hd), fun d hd => h d (.inr hd)⟩

theorem Piece.closed {pos : Nat} {p : Piece} (h : Closed (p.items pos)) :
    p.outcome ≠ .problem .unterminatedComment := by
  intro hp
  exact h ⟨.unterminatedComment, ⟨pos, pos + byteLength p.taken⟩⟩
    (by simp [Piece.items, hp, Item.diagnostic?]) rfl

theorem items_newline (pos : Nat) (cs : List Char) :
    items pos ('\n' :: cs) = items (pos + 1) cs := by
  rw [items]
  rfl

theorem items_append_newline (pos : Nat) (cs ds : List Char) (h : Closed (items pos cs)) :
    items pos (cs ++ '\n' :: ds) = items pos cs ++ items (pos + byteLength cs + 1) ds := by
  induction pos, cs using items.induct with
  | case1 pos =>
    rw [List.nil_append, items_newline, items]
    rfl
  | case2 pos c cs ih =>
    rw [items] at h
    obtain ⟨hpiece, hrest⟩ := h.append
    obtain ⟨used, htaken, hused, hlocal⟩ := scan_taken (Piece.closed hpiece)
    have hscan : scan c (cs ++ '\n' :: ds) =
        { scan c cs with rest := (scan c cs).rest ++ '\n' :: ds } := by
      conv => lhs; rw [hused, List.append_assoc]
      exact hlocal _ (.append_newline _ _)
    have hlen : byteLength (c :: cs) =
        byteLength (scan c cs).taken + byteLength (scan c cs).rest := by
      rw [← byteLength_append, scan_append]
    rw [List.cons_append, items, hscan, items, List.append_assoc, hlen, ← Nat.add_assoc]
    exact congrArg _ (ih hrest)

theorem exists_scan {pos : Nat} {cs : List Char} {t : Token} (h : Item.token t ∈ items pos cs) :
    ∃ c rest, (scan c rest).outcome = .token t.kind ∧
      t.lexeme = String.ofList (scan c rest).taken := by
  induction pos, cs using items.induct with
  | case1 => simp [items] at h
  | case2 pos c cs ih =>
    rw [items] at h
    rcases List.mem_append.mp h with h | h
    · refine ⟨c, cs, ?_⟩
      unfold Piece.items at h
      split at h
      · cases h
      · next kind hkind =>
        cases List.mem_singleton.mp h
        exact ⟨hkind, rfl⟩
      · cases List.mem_singleton.mp h
    · exact ih h

theorem exists_scan_of_token {text : String} {t : Token} (h : t ∈ (lex text).tokens.dropLast) :
    ∃ c rest, (scan c rest).outcome = .token t.kind ∧
      t.lexeme = String.ofList (scan c rest).taken := by
  simp only [lex, lexChars, List.map_append, List.map_singleton, List.dropLast_concat] at h
  obtain ⟨u, hu, rfl⟩ := List.mem_map.mp h
  obtain ⟨item, hitem, heq⟩ := List.mem_filterMap.mp hu
  cases item with
  | token v =>
    cases heq
    exact exists_scan (t := u) hitem
  | problem d => cases heq

end C1Lang.Lexer
