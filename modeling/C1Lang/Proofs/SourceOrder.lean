import C1Lang.Proofs.FrontEnd
import C1Lang.Proofs.Lower.Diagnostics
import C1Lang.Proofs.Parser.Reports
import C1Lang.Proofs.Source.LineTable
import C1Lang.Proofs.Token.Coverage
import C1Lang.Proofs.Token.Lines

/-!
# Diagnostics in the order of the text

Whichever stage ends the way of a text, what is reported starts between characters and in the order
of the text: the lexer goes from left to right, the parser reports at tokens that it has reached,
and lowering at the sites of the program, which stand in the tokens one behind the other. So the
lines and columns are in order too.
-/

namespace C1Lang

open C1Lang.Parser

def Following (text : String) (ds : List Diagnostic) : Prop :=
  ds.Pairwise (fun d e => d.span.start ≤ e.span.start) ∧
    ∀ d ∈ ds, Boundary text.toList d.span.start

section Short

variable {text : String} (hbytes : byteLength text.toList < 0x100000000)

include hbytes

theorem lex_tokens_rising : Rising (lex text).tokens := by
  refine (lex_tokens_apart hbytes).imp_of_mem fun {t u} ht _ hapart => ?_
  exact Nat.le_trans (lex_tokens_cut hbytes t ht).start_le_stop hapart

theorem lex_tokens_boundary {t : Token} (ht : t ∈ (lex text).tokens) :
    Boundary text.toList t.span.start :=
  (lex_tokens_cut hbytes t ht).boundary

theorem starts_lex_sublist : (State.ofTokens (lex text).tokens).starts.Sublist
    ((lex text).tokens.map (·.span.start)) := by
  have hkinds := (Lexer.items_cover 0 text.toList).kind_ne_eof
  rw [lex_tokens_eq hbytes]
  generalize (Lexer.items 0 text.toList).filterMap Lexer.Item.token? = front at hkinds
  have hfront : ∀ t ∈ front, (t.kind != .eof) = true := by simpa using hkinds
  simp only [State.starts, State.ofTokens, List.takeWhile_append_of_pos hfront,
    List.dropWhile_append_of_pos hfront, List.map_append]
  simpa using List.filter_sublist.map _

theorem lex_following : Following text (lex text).diagnostics := by
  refine ⟨(lex_diagnostics_apart hbytes).imp_of_mem fun {d e} hd _ hapart => ?_, fun d hd => ?_⟩
  · obtain ⟨taken, hcut⟩ := lex_diagnostics_cut hbytes d hd
    exact Nat.le_trans hcut.start_le_stop hapart
  · obtain ⟨taken, hcut⟩ := lex_diagnostics_cut hbytes d hd
    exact hcut.boundary

theorem parse_following : Following text (parse (lex text).tokens).diagnostics := by
  have hstarts := starts_lex_sublist hbytes
  obtain ⟨hsorted, hwithin⟩ := parse_located (lex text).tokens
    ((List.pairwise_map.mpr (lex_tokens_rising hbytes)).sublist hstarts)
  refine ⟨hsorted, fun d hd => ?_⟩
  obtain ⟨t, ht, hstart⟩ := List.mem_map.mp (hstarts.subset (hwithin d hd))
  rw [← hstart]
  exact lex_tokens_boundary hbytes ht

theorem lower_following {name : String} {p : Program} {l : Lowered}
    (hp : (parse (lex text).tokens).program? = some p) (hl : lower name p = .ok l) :
    Following text l.diagnostics := by
  have hsignificant : (significant (lex text).tokens).Sublist (lex text).tokens :=
    List.filter_sublist.trans (List.takeWhile_sublist _)
  have hrising : Rising (significant (lex text).tokens) :=
    (lex_tokens_rising hbytes).sublist hsignificant
  obtain ⟨hsorted, hwithin⟩ :=
    ((derives_of_parse hp).spread hrising).picked hrising (lower_picks hl)
  refine ⟨by simpa only [List.pairwise_map] using hsorted, fun d hd => ?_⟩
  obtain ⟨t, ht, hstart⟩ := hwithin d.span (List.mem_map_of_mem hd)
  rw [hstart]
  exact lex_tokens_boundary hbytes (hsignificant.subset ht)

theorem compile_following {path : String} {verify : Bool} {c : Compiled}
    (h : compile path text verify = .ok c) : Following text c.diagnostics := by
  unfold compile Progress.ofText at h
  dsimp only at h
  split at h
  · split at h
    · cases h
      exact parse_following hbytes
    · next p hp =>
      cases hl : lower (moduleName path) p with
      | error f =>
        rw [hl] at h
        cases h
      | ok l =>
        rw [hl] at h
        cases h
        exact lower_following hbytes hp hl
  · cases h
    exact lex_following hbytes

end Short

/-- Compiling a text of less than 2 ^ 32 bytes gives its diagnostics in the order of the text: where
they start, no offset is before that of an earlier one, and so no line and column. The lines and
columns fit into 32 bits too, unless the text has 2 ^ 32 - 1 bytes. -/
theorem compile_diagnostics_ordered (path text : String) (verify : Bool)
    (hbytes : byteLength text.toList < 0x100000000) :
    let position := (SourceFile.ofText path text).position
    ∃ c, compile path text verify = .ok c ∧
      c.diagnostics.Pairwise (fun d e => d.span.start ≤ e.span.start) ∧
      c.diagnostics.Pairwise (fun d e => position d.span.start ≤ position e.span.start) ∧
      (byteLength text.toList + 1 < 0x100000000 → ∀ d ∈ c.diagnostics,
        (position d.span.start).line < 0x100000000 ∧
        (position d.span.start).column < 0x100000000) := by
  obtain ⟨c, hc⟩ := compile_total path text verify
  obtain ⟨hsorted, hboundary⟩ := compile_following hbytes hc
  refine ⟨c, hc, hsorted, hsorted.imp_of_mem fun {d e} hd he hle => ?_,
    fun hfits d _ => SourceFile.position_lt hfits d.span.start⟩
  exact SourceFile.position_mono (hboundary d hd) (hboundary e he) hle

theorem compile_diagnostics_ordered_accent :
    let text := "int é;\nint y = $;"
    byteLength text.toList < 0x100000000 ∧
    ∃ c, compile "a.c1" text true = .ok c ∧
      c.diagnostics.map (·.span.start) = [4, 16] ∧
      c.diagnostics.Pairwise (fun d e => d.span.start ≤ e.span.start) := by
  have hbytes : byteLength "int é;\nint y = $;".toList < 0x100000000 := by decide +kernel
  obtain ⟨c, hc, hsorted, -⟩ :=
    compile_diagnostics_ordered "a.c1" "int é;\nint y = $;" true hbytes
  refine ⟨hbytes, c, hc, ?_, hsorted⟩
  have hstarts : (compile "a.c1" "int é;\nint y = $;" true).map
      (·.diagnostics.map (·.span.start)) = .ok [4, 16] := by decide +kernel
  rw [hc] at hstarts
  exact Except.ok.inj hstarts

/-- The second error stands behind the byte 2 ^ 32, and is placed in front of the first one. -/
theorem compile_diagnostics_disordered :
    ∃ c, compile "a.c1" (farApart "int ;" "int;") true = .ok c ∧
      c.diagnostics.map (·.span.start) = [4, 3] ∧
      ¬ c.diagnostics.Pairwise fun d e => d.span.start ≤ e.span.start := by
  have hlex := lex_farApart (a := "int ;") (by decide) (by decide +kernel) "int;"
  obtain ⟨c, hc⟩ := compile_total "a.c1" (farApart "int ;" "int;") true
  have hstarts : (compile "a.c1" (farApart "int ;" "int;") true).map
      (·.diagnostics.map (·.span.start)) = .ok [4, 3] := by
    unfold compile Progress.ofText
    rw [hlex]
    decide +kernel
  rw [hc] at hstarts
  have hstarts : c.diagnostics.map (·.span.start) = [4, 3] := Except.ok.inj hstarts
  refine ⟨c, hc, hstarts, fun hsorted => ?_⟩
  have hsorted : (c.diagnostics.map (·.span.start)).Pairwise (· ≤ ·) :=
    List.pairwise_map.mpr hsorted
  rw [hstarts] at hsorted
  exact absurd hsorted (by decide)

end C1Lang
