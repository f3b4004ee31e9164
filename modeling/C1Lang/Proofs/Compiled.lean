import C1Lang.Compiled
import C1Lang.Proofs.Lower.Module
import C1Lang.Proofs.Parser.Soundness

/-!
# Compiling a text

The lexer and the parser report errors only, and a module that was lowered has no defects. So it
makes no difference whether the verifier is asked, and a module comes out exactly when no error
was reported.
-/

namespace C1Lang

namespace Lexer

def Piece.Blames (p : Piece) : Prop :=
  ∀ problem, p.outcome = .problem problem → problem.severity = .error

theorem integer_blames (kind : TokenKind) (taken rest : List Char) :
    (integer kind taken rest).Blames := by
  unfold integer
  split <;> intro _ h <;> cases h
  rfl

theorem exponent_blames (isFloat : Bool) (taken cs : List Char) :
    (exponent isFloat taken cs).Blames := by
  unfold exponent
  split
  · split
    · dsimp only
      split <;> intro _ h <;> cases h
      rfl
    · split
      · intro _ h
        cases h
      · exact integer_blames _ _ _
  · split
    · intro _ h
      cases h
    · exact integer_blames _ _ _

theorem number_blames (c : Char) (cs : List Char) : (number c cs).Blames := by
  have hex : ∀ x cs, (hexadecimal x cs).Blames := by
    intro x cs
    unfold hexadecimal
    dsimp only
    split
    · intro _ h
      cases h
      rfl
    · exact integer_blames _ _ _
  unfold number
  split
  · exact hex _ _
  · exact hex _ _
  · unfold decimal
    dsimp only
    split <;> exact exponent_blames _ _ _

theorem slash_blames (cs : List Char) : (slash cs).Blames := by
  unfold slash
  split
  · intro _ h
    cases h
  · unfold blockComment
    split <;> intro _ h <;> cases h
    rfl
  · intro _ h
    cases h

theorem comparison?_blames {c : Char} {alone : Outcome} {doubled : TokenKind}
    (h : comparison? c = some (alone, doubled)) (cs : List Char) :
    (comparison c alone doubled cs).Blames := by
  unfold comparison? at h
  unfold comparison
  split at h <;> cases h <;> split <;> intro _ h <;> cases h
  rfl

theorem scan_blames (c : Char) (cs : List Char) : (scan c cs).Blames := by
  unfold scan
  split
  · intro _ hc
    cases hc
  · next h => exact comparison?_blames h cs
  · split
    · exact slash_blames cs
    · split
      · intro _ hc
        cases hc
      · split
        · exact number_blames c cs
        · split
          · intro _ hc
            cases hc
          · intro _ hc
            cases hc
            rfl

theorem items_isError (pos : Nat) (cs : List Char) :
    ∀ d ∈ (items pos cs).filterMap Item.diagnostic?, d.isError = true := by
  induction pos, cs using items.induct with
  | case1 => simp [items]
  | case2 pos c cs ih =>
    rw [items, List.filterMap_append]
    intro d hd
    rcases List.mem_append.mp hd with hd | hd
    · have hb := scan_blames c cs
      unfold Piece.items at hd
      split at hd
      · cases hd
      · cases hd
      · next problem hp =>
        obtain rfl := List.mem_singleton.mp hd
        simp [Diagnostic.isError, hb problem hp]
    · exact ih d hd

end Lexer

theorem lex_isError (text : String) : ∀ d ∈ (lex text).diagnostics, d.isError = true :=
  List.forall_mem_map.mpr fun d hd => Lexer.items_isError 0 text.toList d hd

theorem Lowered.compiled_eq {l : Lowered} (h : l.module.defects = []) (verify : Bool) :
    l.compiled verify = ⟨if l.valid then some l.module else none, l.diagnostics, []⟩ := by
  unfold Lowered.compiled
  cases verify <;> simp [h]

theorem Diagnostic.valid_iff (ds : List Diagnostic) :
    Diagnostic.valid ds = true ↔ ∀ d ∈ ds, d.isError = false := by
  simp [Diagnostic.valid]

theorem Progress.ofText_cases (name text : String) :
    (∃ l, Progress.ofText name text = .ok (.lowered l) ∧ l.module.Sound) ∨
    ∃ ds d, (Progress.ofText name text = .ok (.badTokens ds) ∨
      Progress.ofText name text = .ok (.badProgram ds)) ∧ d ∈ ds ∧ d.isError = true := by
  unfold Progress.ofText
  dsimp only
  split
  · split
    · next hp =>
      have hne : (parse (lex text).tokens).diagnostics ≠ [] := by
        intro h
        simp [Parsed.program?, h] at hp
      obtain ⟨d, hd⟩ := List.exists_mem_of_ne_nil _ hne
      exact .inr ⟨_, d, .inr rfl, hd, parse_isError _ d hd⟩
    · next p _ =>
      obtain ⟨l, hl, hs, -⟩ := lower_judged name p
      exact .inl ⟨l, by rw [hl]; rfl, hs⟩
  · next hne =>
    obtain ⟨d, hd⟩ := List.exists_mem_of_ne_nil _ (by simpa using hne)
    exact .inr ⟨_, d, .inl rfl, hd, lex_isError text d hd⟩

/-- Every module that lowering produces passes the verifier, also when errors were reported. So
compiling gives the same result with and without verification, and a module exactly when no
error was reported. -/
theorem compile_verified :
    (∀ (name : String) (p : Program), ∃ l, lower name p = .ok l ∧ l.module.defects = [] ∧
      l.module.Sound) ∧
    ∀ path text : String, ∃ c, compile path text true = .ok c ∧ compile path text false = .ok c ∧
      c.defects = [] ∧ (c.module?.isSome = true ↔ ∀ d ∈ c.diagnostics, d.isError = false) := by
  refine ⟨fun name p => ?_, fun path text => ?_⟩
  · obtain ⟨l, hl, hs, -⟩ := lower_judged name p
    exact ⟨l, hl, hs.defects_eq_nil, hs⟩
  · unfold compile
    obtain ⟨l, hl, hs⟩ | ⟨ds, d, hp, hd, he⟩ := Progress.ofText_cases (moduleName path) text
    · simp only [hl, Except.map, Lowered.compiled_eq hs.defects_eq_nil]
      refine ⟨_, rfl, rfl, rfl, ?_⟩
      rw [← Diagnostic.valid_iff]
      show _ ↔ l.valid = true
      cases l.valid <;> simp
    · have hbad : ¬ ∀ x ∈ ds, x.isError = false := fun h => by simp [h d hd] at he
      refine ⟨⟨none, ds, []⟩, ?_, ?_, rfl, by simpa using hbad⟩
      · rcases hp with hp | hp <;> rw [hp] <;> rfl
      · rcases hp with hp | hp <;> rw [hp] <;> rfl

end C1Lang
