import C1Lang.Proofs.Parser.Stored
import C1Lang.Token.Lexer

/-!
# Comments are not read

The parser works on the tokens without their comments, so a list and the list without its comments
are the same to it (`parse_without_comments`). So they are to a parser that stays in the whole list
and steps over the comments.
-/

namespace C1Lang

open C1Lang.Parser

/-- A list of tokens with an end marker is parsed like the list without its comments: what is read
and reported, where the parts stand and which names are mentioned is the same. So is what a cursor
shows that steps over the comments, at every place, ahead of it and behind it, and the parser that
reads with the cursor finds in both lists what is parsed. -/
theorem parse_without_comments (front : List Token) {e : Token} (he : e.kind = .eof) :
    let ts := front ++ [e]
    let bare := uncommented ts
    parse bare = parse ts ∧
    (parse bare).program?.map Program.arena = (parse ts).program?.map Program.arena ∧
    (∀ us ∈ [ts, bare], ∃ roots st,
      Storing.program (.ofTokens us) = .ok roots st ∧ Storing.Found (parse ts) roots st) ∧
    ∀ k n, k + n < bare.length →
      let c := Cursor.bump^[k] (Cursor.ofTokens ts)
      let d := Cursor.bump^[k] (Cursor.ofTokens bare)
      c.Stands (State.ofTokens c.unread) ∧ State.ofTokens c.unread = State.ofTokens d.unread ∧
      c.peekNth n = d.peekNth n ∧ (0 < k → c.previous = d.previous) := by
  intro ts bare
  have hstate : State.ofTokens bare = State.ofTokens ts :=
    State.ofTokens_uncommented ⟨e, by simp [ts], he⟩
  have hparse : parse bare = parse ts := by rw [parse, parse, hstate]
  have hbare : bare = uncommented front ++ [e] := by
    have hkeep : e.kind.isComment = false := by rw [he]; rfl
    exact (uncommented_append front [e]).trans (congrArg _ (uncommented_cons hkeep []))
  have hrun := Storing.program_run bare
  rw [hparse] at hrun
  have hruns : ∀ us ∈ [ts, bare], ∃ roots st,
      Storing.program (.ofTokens us) = .ok roots st ∧ Storing.Found (parse ts) roots st := by
    simp only [List.forall_mem_cons]
    exact ⟨Storing.program_run ts, hrun, List.forall_mem_nil _⟩
  refine ⟨hparse, by rw [hparse], hruns, fun k n hkn => ?_⟩
  have hc : (Cursor.ofTokens ts).shown = bare := by
    rw [Cursor.shown_ofTokens, Cursor.closed_eq he]
  have hd : (Cursor.ofTokens bare).shown = bare := by
    rw [Cursor.shown_ofTokens, hbare, Cursor.closed_eq he, ← hbare, uncommented_idem]
  exact ⟨((Cursor.ofTokens_valid ts).iterate k).stands,
    (Cursor.ofTokens_valid ts).alike (Cursor.ofTokens_valid bare) (hc.trans hd.symm)
      (by rwa [hc])⟩

theorem parse_without_comments_call :
    let front := (lex "void f() { g /* a */ (); }").tokens.dropLast
    let e : Token := ⟨.eof, "", ⟨26, 26⟩⟩
    let ts := front ++ [e]
    let bare := uncommented ts
    let c := Cursor.bump^[5] (Cursor.ofTokens ts)
    let d := Cursor.bump^[5] (Cursor.ofTokens bare)
    ts = (lex "void f() { g /* a */ (); }").tokens ∧ bare ≠ ts ∧ 5 + 1 < bare.length ∧
    (c.peek.kind = .identifier ∧ (c.peekNth 1).kind = .leftParen ∧ c.previous.kind = .leftBrace) ∧
    parse bare = parse ts ∧ c.Stands (State.ofTokens c.unread) ∧
    State.ofTokens c.unread = State.ofTokens d.unread ∧ c.peekNth 1 = d.peekNth 1 ∧
    c.previous = d.previous := by
  intro front e ts bare c d
  have hlength : 5 + 1 < bare.length := by decide +kernel
  obtain ⟨hparse, -, -, hplaces⟩ := parse_without_comments front (rfl : e.kind = .eof)
  obtain ⟨hstands, hstate, hahead, hprevious⟩ := hplaces 5 1 hlength
  exact ⟨by decide +kernel, by decide +kernel, hlength, by decide +kernel, hparse, hstands, hstate,
    hahead, hprevious (by decide)⟩

end C1Lang
