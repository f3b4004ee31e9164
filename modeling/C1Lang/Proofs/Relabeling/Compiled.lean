import Mathlib.Data.List.Forall2
import Mathlib.Data.List.TakeWhile
import Mathlib.SetTheory.Cardinal.Arithmetic
import C1Lang.Proofs.Compiled
import C1Lang.Proofs.Relabeling.Lower
import C1Lang.Proofs.Relabeling.Parser

/-!
# What a text means

Two texts with the same significant tokens, up to their names and wherever these stand, are
compiled to the same module up to its names. Both are compared with one list of tokens that all
stand in the same place. A renaming that is told apart on the names of the text only is first
extended to all names; that the others do not matter follows from relabeling too, since exchanging
two names that a text does not hold leaves its module as it is (`compileTokens_names`).
-/

namespace C1Lang

def identifiers (ts : List Token) : Set String :=
  { x | ∃ t ∈ significant ts, t.kind = .identifier ∧ t.lexeme = x }

theorem identifiers_finite (ts : List Token) : (identifiers ts).Finite := by
  refine ((significant ts).map Token.lexeme).toFinset.finite_toSet.subset ?_
  rintro x ⟨t, ht, -, rfl⟩
  simpa using ⟨t, ht, rfl⟩

def Token.Renamed (ρ : String → String) (t t' : Token) : Prop :=
  t'.kind = t.kind ∧ t'.lexeme = if t.kind = .identifier then ρ t.lexeme else t.lexeme

instance (ρ : String → String) (t t' : Token) : Decidable (Token.Renamed ρ t t') :=
  inferInstanceAs (Decidable (_ ∧ _))

def compileTokens (name : String) (ts : List Token) (verify : Bool) :
    Except Lower.Fault Compiled :=
  match (parse ts).program? with
  | none => .ok ⟨none, (parse ts).diagnostics, []⟩
  | some p => (lower name p).map (·.compiled verify)

theorem compile_eq_compileTokens {text : String} (h : (lex text).diagnostics = [])
    (path : String) (verify : Bool) :
    compile path text verify = compileTokens (moduleName path) (lex text).tokens verify := by
  unfold compile compileTokens Progress.ofText
  simp only [h, List.isEmpty_nil, if_true]
  cases (parse (lex text).tokens).program? with
  | none => rfl
  | some p =>
    dsimp only
    cases lower (moduleName path) p <;> rfl

theorem compileTokens_ok (name : String) (ts : List Token) (verify : Bool) :
    ∃ c, compileTokens name ts verify = .ok c := by
  unfold compileTokens
  cases (parse ts).program? with
  | none => exact ⟨_, rfl⟩
  | some p =>
    obtain ⟨l, hl, -⟩ := lower_judged name p
    exact ⟨l.compiled verify, by simp [hl, Except.map]⟩

namespace Relabeling

def compiled (T : Relabeling) (c : Compiled) : Compiled :=
  ⟨c.module?.map (·.rename T.name), c.diagnostics.map T.diagnostic, c.defects⟩

theorem parsed_program? (T : Relabeling) (p : Parsed) :
    (T.parsed p).program? = p.program?.map T.program := by
  obtain ⟨program, symbols, diagnostics⟩ := p
  cases diagnostics <;> rfl

theorem lowered_valid (T : Relabeling) (l : Lowered) : (T.lowered l).valid = l.valid := by
  simp [Lowered.valid, Diagnostic.valid, lowered, Function.comp_def]

end Relabeling

theorem compileTokens_relabeled {T : Relabeling} {ts ts' : List Token}
    (h : Parser.State.ofTokens ts' = T.reader (Parser.State.ofTokens ts)) (name : String)
    (verify : Bool) :
    compileTokens name ts' verify = (compileTokens name ts verify).map T.compiled := by
  unfold compileTokens
  rw [parse_relabeled h, T.parsed_program?]
  cases (parse ts).program? with
  | none => rfl
  | some p =>
    obtain ⟨l, hl, hs, -⟩ := lower_judged name p
    obtain ⟨l', hl', hs', -⟩ := lower_judged name (T.program p)
    obtain rfl : l' = T.lowered l := by
      have heq := lower_relabeled T name p
      rw [hl, hl'] at heq
      exact Except.ok.inj heq
    dsimp only [Option.map_some]
    rw [hl, hl']
    simp only [Except.map, Lowered.compiled_eq hs.defects_eq_nil,
      Lowered.compiled_eq hs'.defects_eq_nil, T.lowered_valid, Relabeling.compiled]
    cases l.valid <;> rfl

/-- Every name in the module is one of the tokens. -/
theorem compileTokens_names {name : String} {ts : List Token} {verify : Bool} {c : Compiled}
    {m : IR.Module} (hc : compileTokens name ts verify = .ok c) (hm : c.module? = some m) :
    ∀ x ∈ m.names, x ∈ identifiers ts := by
  intro x hx
  by_contra hout
  -- a name that is neither in the tokens nor in the module; the two can be exchanged
  obtain ⟨y, hy⟩ := ((identifiers_finite ts).union m.names.toFinset.finite_toSet).exists_notMem
  obtain ⟨hyts, hym⟩ : y ∉ identifiers ts ∧ y ∉ m.names := by simpa using hy
  let T : Relabeling := ⟨Equiv.swap x y, id, (Equiv.swap x y).injective, fun _ _ => rfl⟩
  have htoken : ∀ t ∈ significant ts, T.token t = t := by
    intro t ht
    by_cases hk : t.kind = .identifier
    · have hswap : Equiv.swap x y t.lexeme = t.lexeme := by
        apply Equiv.swap_apply_of_ne_of_ne
        · rintro rfl
          exact hout ⟨t, ht, hk, rfl⟩
        · rintro rfl
          exact hyts ⟨t, ht, hk, rfl⟩
      obtain ⟨kind, lexeme, span⟩ := t
      simp only [Relabeling.token, T, id, hswap, ite_self]
    · simp [Relabeling.token, hk, T]
  have hread : Parser.State.ofTokens ts = T.reader (Parser.State.ofTokens ts) := by
    have hrest : (significant ts).map T.token = significant ts := by
      simpa using List.map_congr_left htoken
    simp only [Relabeling.reader]
    rw [show (Parser.State.ofTokens ts).rest = significant ts from rfl, hrest]
    rfl
  have hsame := compileTokens_relabeled hread name verify
  rw [hc] at hsame
  have hrename : m = m.rename T.name := by
    have hcc : c = T.compiled c := Except.ok.inj hsame
    have hmm := congrArg Compiled.module? hcc
    simpa [Relabeling.compiled, hm] using hmm
  have hnames : m.names = m.names.map T.name := by
    rw [← IR.Module.names_rename, ← hrename]
  apply hym
  rw [hnames]
  exact List.mem_map.mpr ⟨x, hx, Equiv.swap_apply_left x y⟩

theorem ofTokens_placeless {ρ : String → String} (hρ : Function.Injective ρ) (ts : List Token) :
    Parser.State.ofTokens ((significant ts).map (Relabeling.placeless ρ hρ).token) =
      (Relabeling.placeless ρ hρ).reader (Parser.State.ofTokens ts) := by
  have hkind : ∀ t ∈ (significant ts).map (Relabeling.placeless ρ hρ).token,
      t.kind ≠ .eof ∧ t.kind.isComment = false ∧ t.span = ⟨0, 0⟩ := by
    intro t ht
    obtain ⟨u, hu, rfl⟩ := List.mem_map.mp ht
    have hcomment : (!u.kind.isComment) = true := (List.mem_filter.mp hu).2
    exact ⟨Parser.State.ofTokens_ne_eof ts u hu, by simpa using hcomment, rfl⟩
  generalize hus : (significant ts).map (Relabeling.placeless ρ hρ).token = us at hkind
  have htake : us.takeWhile (·.kind != .eof) = us := by
    rw [List.takeWhile_eq_self_iff]
    exact fun t ht => by simpa using (hkind t ht).1
  have hdrop : us.dropWhile (·.kind != .eof) = [] := by
    rw [List.dropWhile_eq_nil_iff]
    exact fun t ht => by simpa using (hkind t ht).1
  have hfilter : us.filter (!·.kind.isComment) = us := by
    rw [List.filter_eq_self]
    exact fun t ht => by simpa using (hkind t ht).2.1
  have hstop : (us.getLast?.map Token.span).getD ⟨0, 0⟩ = ⟨0, 0⟩ := by
    cases hlast : us.getLast? with
    | none => rfl
    | some t => exact (hkind t (List.mem_of_getLast? hlast)).2.2
  simp only [Parser.State.ofTokens, htake, hdrop, hfilter, hstop]
  rw [← hus]
  rfl

theorem map_placeless_eq {ρ σ : String → String} (hσ : Function.Injective σ)
    {ts ts' : List Token} (h : List.Forall₂ (Token.Renamed ρ) ts ts')
    (hsame : ∀ t ∈ ts, t.kind = .identifier → σ t.lexeme = ρ t.lexeme) :
    ts.map (Relabeling.placeless σ hσ).token =
      ts'.map (Relabeling.placeless id Function.injective_id).token := by
  induction h with
  | nil => rfl
  | @cons t t' ts ts' ht _ ih =>
    obtain ⟨hkind, hlexeme⟩ := ht
    have hhead : (Relabeling.placeless σ hσ).token t =
        (Relabeling.placeless id Function.injective_id).token t' := by
      by_cases hk : t.kind = .identifier
      · have hname := hsame t List.mem_cons_self hk
        simp [Relabeling.token, Relabeling.placeless, hkind, hlexeme, hk, hname]
      · simp [Relabeling.token, Relabeling.placeless, hkind, hlexeme, hk]
    rw [List.map_cons, List.map_cons, hhead, ih fun u hu => hsame u (List.mem_cons_of_mem _ hu)]

/-- A renaming of finitely many names, as one of all names. -/
theorem exists_injective_extension {ρ : String → String} {names : Set String}
    (hfin : names.Finite) (hρ : Set.InjOn ρ names) :
    ∃ σ : String → String, Function.Injective σ ∧ ∀ x ∈ names, σ x = ρ x := by
  obtain ⟨σ, hσ⟩ := Cardinal.extend_function_of_lt
    ⟨fun x : names => ρ x, fun x y h => Subtype.ext (hρ x.2 y.2 h)⟩
    (hfin.lt_aleph0.trans_le (Cardinal.aleph0_le_mk String)) ⟨Equiv.refl _⟩
  exact ⟨σ, σ.injective, fun x hx => hσ ⟨x, hx⟩⟩

/-- Two texts without lexical errors whose significant tokens agree in kind and, up to a renaming
that tells the names of the first text apart, in lexeme, are compiled to the same codes and to the
same module up to the renaming, or both to none. -/
theorem compile_renamed {text text' : String} {ρ : String → String}
    (hl : (lex text).diagnostics = []) (hl' : (lex text').diagnostics = [])
    (hρ : Set.InjOn ρ (identifiers (lex text).tokens))
    (ht : List.Forall₂ (Token.Renamed ρ) (significant (lex text).tokens)
      (significant (lex text').tokens)) (path : String) (verify : Bool) :
    ∃ c c', compile path text verify = .ok c ∧ compile path text' verify = .ok c' ∧
      c'.diagnostics.map (·.problem.code) = c.diagnostics.map (·.problem.code) ∧
      c'.defects = c.defects ∧ c'.module? = c.module?.map (·.rename ρ) := by
  obtain ⟨σ, hinj, hσ⟩ := exists_injective_extension (identifiers_finite _) hρ
  let T := Relabeling.placeless σ hinj
  let T' := Relabeling.placeless id Function.injective_id
  have hmeet : (significant (lex text).tokens).map T.token =
      (significant (lex text').tokens).map T'.token :=
    map_placeless_eq hinj ht fun t hmem hk => hσ t.lexeme ⟨t, hmem, hk, rfl⟩
  obtain ⟨c, hc⟩ := compileTokens_ok (moduleName path) (lex text).tokens verify
  obtain ⟨c', hc'⟩ := compileTokens_ok (moduleName path) (lex text').tokens verify
  have hsame : T.compiled c = T'.compiled c' := by
    have h := compileTokens_relabeled (ofTokens_placeless hinj (lex text).tokens)
      (moduleName path) verify
    have h' := compileTokens_relabeled (ofTokens_placeless Function.injective_id
      (lex text').tokens) (moduleName path) verify
    rw [hmeet, h', hc, hc'] at h
    exact (Except.ok.inj h).symm
  refine ⟨c, c', compile_eq_compileTokens hl path verify ▸ hc,
    compile_eq_compileTokens hl' path verify ▸ hc', ?_, ?_, ?_⟩
  · have hds := congrArg Compiled.diagnostics hsame
    rw [← T.codes_map c.diagnostics, ← T'.codes_map c'.diagnostics]
    exact congrArg (List.map (·.problem.code)) hds.symm
  · exact (congrArg Compiled.defects hsame).symm
  · have hm := congrArg Compiled.module? hsame
    have hid : c'.module?.map (·.rename T'.name) = c'.module? := by
      cases c'.module? with
      | none => rfl
      | some m => exact congrArg some m.rename_id
    rw [show (T'.compiled c').module? = c'.module?.map (·.rename T'.name) from rfl, hid] at hm
    rw [← hm]
    cases hcm : c.module? with
    | none => simp [Relabeling.compiled, hcm]
    | some m =>
      have hnames := compileTokens_names hc hcm
      simp only [Relabeling.compiled, hcm, Option.map_some]
      exact congrArg some (IR.Module.rename_congr fun x hx => hσ x (hnames x hx))

theorem compile_renamed_counter :
    let text := "int n = 1;\nvoid f() \x7b n = 2; \x7d"
    let text' := "/* counter */ int v_n = 1; void v_f() \x7b v_n = 2; \x7d // end"
    ∃ c c', compile "a.c1" text true = .ok c ∧ compile "a.c1" text' true = .ok c' ∧
      c.module?.isSome = true ∧ c'.module? = c.module?.map (·.rename ("v_" ++ ·)) := by
  intro text text'
  have hinj : Function.Injective fun x : String => "v_" ++ x := fun x y h => by simpa using h
  obtain ⟨c, c', hc, hc', -, -, hm⟩ := @compile_renamed text text' _
    (by decide +kernel) (by decide +kernel) hinj.injOn (by decide +kernel) "a.c1" true
  have hsome : (compile "a.c1" text true).toOption.any (·.module?.isSome) = true := by
    decide +kernel
  rw [hc] at hsome
  exact ⟨c, c', hc, hc', by simpa [Except.toOption] using hsome, hm⟩

end C1Lang
