import C1Lang.Proofs.Parser.Bookkeeping
import C1Lang.Proofs.Token.Spelling

/-!
# The names in a program

A program that was parsed has the names that its identifiers spell, one for one and in their order
(`Grammar.Derives.names`), so that each of them is a word.
-/

namespace C1Lang

def lexemes (ts : List Token) : List String :=
  (ts.filter (·.kind = .identifier)).map Token.lexeme

theorem lexemes_cons {t : Token} {ts : List Token} (h : t.kind = .identifier) :
    lexemes (t :: ts) = t.lexeme :: lexemes ts := by
  simp [lexemes, h]

theorem lexemes_skip {t : Token} {ts : List Token} (h : t.kind ≠ .identifier) :
    lexemes (t :: ts) = lexemes ts := by
  simp [lexemes, h]

namespace Grammar

theorem ne_identifier {α : Type} {table : TokenKind → Option α}
    (hnone : table .identifier = none) {kind : TokenKind} {x : α} (h : table kind = some x) :
    kind ≠ .identifier := by
  rintro rfl
  rw [hnone] at h
  cases h

theorem Literal.kind {t : Token} {v : Value} (h : Literal t v) : t.kind ≠ .identifier := by
  cases h <;> simp_all

variable {ts rest : List Token}

theorem Expression.names {level : Level} {e : Expr} {k : Nat} (h : Expression level ts e k rest) :
    lexemes ts = e.names ++ lexemes rest := by
  induction h with
  | term _ ih => exact ih
  | factor _ ih => exact ih
  | add _ ht _ hl hr =>
    rw [hl, lexemes_skip (ne_identifier rfl ht), hr, Expr.names, List.append_assoc]
  | mul _ ht _ hl hr =>
    rw [hl, lexemes_skip (ne_identifier rfl ht), hr, Expr.names, List.append_assoc]
  | signed ht _ ih => rw [lexemes_skip (ne_identifier rfl ht), ih, Expr.names]
  | smallest ht hu =>
    rw [lexemes_skip (by simp [ht]), lexemes_skip (by simp [hu.1]), Expr.names,
      List.nil_append]
  | parens ht _ hu ih =>
    rw [lexemes_skip (by simp [ht]), ih, lexemes_skip (by simp [hu])]
  | literal hv => rw [lexemes_skip hv.kind, Expr.names, List.nil_append]
  | name ht => rw [lexemes_cons ht, Expr.names, List.singleton_append]
  | element ht hu _ hv ih =>
    rw [lexemes_cons ht, lexemes_skip (by simp [hu]), ih,
      lexemes_skip (by simp [hv]), Expr.names, List.cons_append]

theorem Whole.names {e : Expr} (h : Whole ts e rest) :
    lexemes ts = e.names ++ lexemes rest := by
  obtain ⟨k, -, h⟩ := h
  exact h.names

theorem Test.names {c : Condition} (h : Test ts c rest) :
    lexemes ts = c.names ++ lexemes rest := by
  cases h with
  | mk ht hl hu hr hv =>
    rw [lexemes_skip (by simp [ht]), hl.names, lexemes_skip (ne_identifier rfl hu),
      hr.names, lexemes_skip (by simp [hv]), Condition.names, List.append_assoc]

theorem Target.names {p : Place} (h : Target ts p rest) :
    lexemes ts = p.names ++ lexemes rest := by
  unfold Place.names
  cases h with
  | name ht => rw [lexemes_cons ht, Place.toExpr, Expr.names, List.singleton_append]
  | element ht hu hi hv =>
    rw [lexemes_cons ht, lexemes_skip (by simp [hu]), hi.names,
      lexemes_skip (by simp [hv]), Place.toExpr, Expr.names, List.cons_append]

theorem Elements.names {es : List Expr} (h : Elements ts es rest) :
    lexemes ts = es.flatMap Expr.names ++ lexemes rest := by
  induction h with
  | done => rfl
  | comma ht => rw [lexemes_skip (by simp [ht]), List.flatMap_nil, List.nil_append]
  | more ht he _ ih =>
    rw [lexemes_skip (by simp [ht]), he.names, ih, List.flatMap_cons, List.append_assoc]

theorem Braces.names {es : List Expr} {z : Token} (h : Braces ts es z rest) :
    lexemes ts = es.flatMap Expr.names ++ lexemes rest := by
  cases h with
  | empty ht hu =>
    rw [lexemes_skip (by simp [ht]), lexemes_skip (by simp [hu]), List.flatMap_nil,
      List.nil_append]
  | elements ht he hes hu =>
    rw [lexemes_skip (by simp [ht]), he.names, hes.names, lexemes_skip (by simp [hu]),
      List.flatMap_cons, List.append_assoc]

theorem Declarator.names {kind : Kind} {constant : Bool} {v : Variable}
    (h : Declarator kind constant ts v rest) :
    lexemes ts = v.names ++ lexemes rest := by
  cases h with
  | scalar _ ht => simp [lexemes_cons ht, Variable.names]
  | scalarValue ht hu he =>
    rw [lexemes_cons ht, lexemes_skip (by simp [hu]), he.names]
    simp [Variable.names]
  | array _ ht hu hn hv =>
    rw [lexemes_cons ht, lexemes_skip (by simp [hu]), hn.names,
      lexemes_skip (by simp [hv])]
    simp [Variable.names, Extent.names, Extent.length]
  | arrayValue ht hu hn hv hw hes =>
    rw [lexemes_cons ht, lexemes_skip (by simp [hu]), hn.names,
      lexemes_skip (by simp [hv]), lexemes_skip (by simp [hw]), hes.names]
    simp [Variable.names, Extent.names, Extent.length]
  | openArray ht hu hv hw hes =>
    rw [lexemes_cons ht, lexemes_skip (by simp [hu]), lexemes_skip (by simp [hv]),
      lexemes_skip (by simp [hw]), hes.names]
    simp [Variable.names, Extent.names, Extent.length, Expr.names]

theorem Declarators.names {kind : Kind} {constant : Bool} {vs : List Variable}
    (h : Declarators kind constant ts vs rest) :
    lexemes ts = vs.flatMap Variable.names ++ lexemes rest := by
  induction h with
  | done => rfl
  | more ht hv _ ih =>
    rw [lexemes_skip (by simp [ht]), hv.names, ih, List.flatMap_cons, List.append_assoc]

theorem Variables.names {vs : List Variable} (h : Variables ts vs rest) :
    lexemes ts = vs.flatMap Variable.names ++ lexemes rest := by
  cases h with
  | plain ht hv hvs hu =>
    rw [lexemes_skip (ne_identifier rfl ht), hv.names, hvs.names,
      lexemes_skip (by simp [hu]), List.flatMap_cons, List.append_assoc]
  | constant hw ht hv hvs hu =>
    rw [lexemes_skip (by simp [hw]), lexemes_skip (ne_identifier rfl ht), hv.names,
      hvs.names, lexemes_skip (by simp [hu]), List.flatMap_cons, List.append_assoc]

mutual

theorem Statement.names : {ts rest : List Token} → {st : Stmt} → Statement ts st rest →
    lexemes ts = st.names ++ lexemes rest
  | _, _, _, .block ht hbody hu => by
    rw [lexemes_skip (by simp [ht]), hbody.names, lexemes_skip (by simp [hu]), Stmt.names]
  | _, _, _, .branch ht htest hbody => by
    rw [lexemes_skip (by simp [ht]), htest.names, hbody.names, Stmt.names, List.append_assoc]
  | _, _, _, .branchElse ht htest hbody _ hu hother => by
    rw [lexemes_skip (by simp [ht]), htest.names, hbody.names, lexemes_skip (by simp [hu]),
      hother.names, Stmt.names, List.append_assoc, List.append_assoc]
  | _, _, _, .loop ht htest hbody => by
    rw [lexemes_skip (by simp [ht]), htest.names, hbody.names, Stmt.names, List.append_assoc]
  | _, _, _, .empty ht => by
    rw [lexemes_skip (by simp [ht]), Stmt.names, List.nil_append]
  | _, _, _, .call ht hu hv hw => by
    rw [lexemes_cons ht, lexemes_skip (by simp [hu]), lexemes_skip (by simp [hv]),
      lexemes_skip (by simp [hw]), Stmt.names, List.singleton_append]
  | _, _, _, .assign htarget ht hvalue hu => by
    rw [htarget.names, lexemes_skip (by simp [ht]), hvalue.names,
      lexemes_skip (by simp [hu]), Stmt.names, List.append_assoc]

theorem Items.names : {ts rest : List Token} → {body : List Stmt} → Items ts body rest →
    lexemes ts = Stmt.allNames body ++ lexemes rest
  | _, _, _, .done => rfl
  | _, _, _, .declare hvs hbody => by
    rw [hvs.names, hbody.names, Stmt.allNames_append, Stmt.allNames_declare, List.append_assoc]
  | _, _, _, .statement hst hbody => by
    rw [hst.names, hbody.names, Stmt.allNames, List.append_assoc]

end

/-- A program mentions what its identifiers spell, in the order of the source. -/
theorem Derives.names {p : Program} (h : Derives ts p) : p.names = lexemes ts := by
  induction h with
  | done => rfl
  | function ht hname hu hv hw hbody hx _ ih =>
    rw [lexemes_skip (by simp [ht]), lexemes_cons hname, lexemes_skip (by simp [hu]),
      lexemes_skip (by simp [hv]), lexemes_skip (by simp [hw]), hbody.names,
      lexemes_skip (by simp [hx]), ← ih]
    rfl
  | globals hvs _ ih =>
    rw [hvs.names, ← ih]
    simp [Program.names, List.flatMap_map, Declaration.names]

end Grammar

theorem parse_names {text : String} {p : Program}
    (hp : (parse (lex text).tokens).program? = some p) : ∀ x ∈ p.names, NameText x.toList := by
  rw [(derives_of_parse hp).names]
  refine List.forall_mem_map.mpr fun t ht => ?_
  obtain ⟨ht, hkind⟩ := List.mem_filter.mp ht
  have hlexed : t ∈ (lex text).tokens :=
    (List.takeWhile_sublist _).subset (List.mem_filter.mp ht).1
  have hspelled := lex_spelled text t hlexed
  rw [of_decide_eq_true hkind] at hspelled
  exact hspelled.1

end C1Lang
