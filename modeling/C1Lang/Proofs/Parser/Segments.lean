import Mathlib.Data.List.Forall2
import C1Lang.Proofs.Parser.Reports

/-!
# Statements up to a semicolon

A segment ends in its only semicolon and holds no block. However wrong it is, what is read of it
does not depend on what follows, and recovery from an error in it goes on right behind the
semicolon. So the segments of a function body are read one by one, as if each stood alone
(`parse_segments`).
-/

namespace C1Lang

def TokenKind.isPlain : TokenKind → Bool
  | leftBrace | rightBrace | semicolon | intType | floatType | constKeyword | ifKeyword
  | elseKeyword | whileKeyword | lineComment | blockComment | eof => false
  | _ => true

namespace Parser

def leads : List (List TokenKind) :=
  [[], [.constKeyword], [.intType], [.floatType], [.constKeyword, .intType],
    [.constKeyword, .floatType]]

/-- Tokens that end in their only semicolon, with no braces, comments or keywords of statements
among them, and words of declarations only in front. -/
def Segment (ts : List Token) : Prop :=
  ∃ lead body stop, ts = lead ++ (body ++ [stop]) ∧ lead.map (·.kind) ∈ leads ∧
    (∀ t ∈ body, t.kind.isPlain = true) ∧ stop.kind = .semicolon

/-- Both readers are before the same semicolon, with the same tokens in front of it. -/
def Before (after after' : List Token) (s t : State) : Prop :=
  ∃ body stop, (∀ a ∈ body, a.kind.isPlain = true) ∧ stop.kind = .semicolon ∧
    s.rest = body ++ stop :: after ∧ t.rest = body ++ stop :: after'

def Behind (after after' : List Token) (s t : State) : Prop := s.rest = after ∧ t.rest = after'

theorem segment_window (after after' : List Token) :
    Window (Before after after') (Behind after after') := by
  refine ⟨fun {s t} h => .inr ?_⟩
  obtain ⟨body, stop, hbody, hstop, hs, ht⟩ := h
  cases body with
  | nil =>
    exact ⟨stop, after, after', hs, ht, fun hne => absurd hstop hne, fun _ _ _ => ⟨rfl, rfl⟩⟩
  | cons a body =>
    obtain ⟨ha, hbody⟩ := List.forall_mem_cons.mp hbody
    refine ⟨a, body ++ stop :: after, body ++ stop :: after', hs, ht, ?_, ?_⟩
    · exact fun _ _ _ => ⟨body, stop, hbody, hstop, rfl, rfl⟩
    · intro hk
      rw [hk] at ha
      cases ha

section Item

variable {after after' : List Token} {s t : State}

theorem Before.kind (h : Before after after' s t) :
    s.kind = .semicolon ∨ s.kind.isPlain = true := by
  obtain ⟨body, stop, hbody, hstop, hs, -⟩ := h
  rw [s.kind_eq, hs]
  cases body with
  | nil => exact .inl hstop
  | cons a body => exact .inr (hbody a List.mem_cons_self)

theorem statementAt_agrees (n m : Nat) {k : Nat} {seen : List Token}
    (h : Before after after' s t) :
    Agrees (Before after after') (Behind after after') k k seen (statementAt (n + 1))
      (statementAt (m + 1)) s t := by
  have w := segment_window after after'
  have hkind := h.kind
  refine .peek_bind w h ?_
  generalize hk : s.kind = kind at hkind
  cases kind
  case leftBrace | ifKeyword | whileKeyword => simp [TokenKind.isPlain] at hkind
  case semicolon => exact (semicolon_agrees w h).map fun _ _ _ => trivial
  case identifier =>
    obtain ⟨a, rest, rest', hak, ha⟩ := w.shares h (by simp [hk])
    have hsecond := w.kind (ha.on (by simp [hak, hk]) s.symbols t.symbols)
    have hs : peekSecond s = .ok (headKind rest) s := by
      rw [peekSecond_eq, ha.left]
      rfl
    have ht : peekSecond t = .ok (headKind rest) t := by
      rw [peekSecond_eq, ha.right]
      rw [State.kind_eq, State.kind_eq] at hsecond
      exact congrArg (EStateM.Result.ok · t) hsecond
    refine .of_step (bind_ok hs) (bind_ok ht) (.refl s) (.refl t) rfl ?_
    split
    · exact call_agrees w h
    · exact assignment_agrees w h
  all_goals exact .fail w h

theorem lead_cases {lead : List Token} (h : lead.map (·.kind) ∈ leads) :
    lead = [] ∨ (∃ c, c.kind = .constKeyword ∧ lead = [c]) ∨
    (∃ b base, kindOf? b.kind = some base ∧ lead = [b]) ∨
    ∃ c b base, c.kind = .constKeyword ∧ kindOf? b.kind = some base ∧ lead = [c, b] := by
  simp only [leads, List.mem_cons, List.map_eq_nil_iff, List.map_eq_cons_iff, List.not_mem_nil,
    or_false] at h
  rcases h with rfl | ⟨c, _, rfl, hc, rfl⟩ | ⟨b, _, rfl, hb, rfl⟩ | ⟨b, _, rfl, hb, rfl⟩ |
    ⟨c, _, rfl, hc, b, _, rfl, hb, rfl⟩ | ⟨c, _, rfl, hc, b, _, rfl, hb, rfl⟩
  · exact .inl rfl
  · exact .inr (.inl ⟨c, hc, rfl⟩)
  · exact .inr (.inr (.inl ⟨b, .int, by rw [hb]; rfl, rfl⟩))
  · exact .inr (.inr (.inl ⟨b, .float, by rw [hb]; rfl, rfl⟩))
  · exact .inr (.inr (.inr ⟨c, b, .int, hc, by rw [hb]; rfl, rfl⟩))
  · exact .inr (.inr (.inr ⟨c, b, .float, hc, by rw [hb]; rfl, rfl⟩))

theorem accept_cons {s : State} {a : Token} {rest : List Token} (hs : s.rest = a :: rest)
    (kind : TokenKind) :
    accept kind s = if a.kind = kind then .ok true { s with rest } else .ok false s := by
  have haccept := accept?_cons hs kind
  split
  · next hk =>
    rw [if_pos hk] at haccept
    exact bind_ok haccept
  · next hk =>
    rw [if_neg hk] at haccept
    exact bind_ok haccept

theorem typedNames_eq {start : Span} {constant : Bool} {s : State} {b : Token} {base : Kind}
    {rest : List Token} (hs : s.rest = b :: rest) (hb : kindOf? b.kind = some base) :
    typedNames start constant s = declaredNames start constant base { s with rest } := by
  have hk : s.kind = b.kind := by rw [s.kind_eq, hs]; rfl
  unfold typedNames
  rw [bind_ok (peek_eq s), hk, hb]
  exact bind_ok (advance_eq hs)

theorem variableDeclaration_segment {lead body : List Token} {stop : Token} (hne : lead ≠ [])
    (hlead : lead.map (·.kind) ∈ leads) (hbody : ∀ a ∈ body, a.kind.isPlain = true)
    (hstop : stop.kind = .semicolon) (hs : s.rest = lead ++ (body ++ stop :: after))
    (ht : t.rest = lead ++ (body ++ stop :: after')) {k : Nat} :
    Agrees (Before after after') (Behind after after') k k [] variableDeclaration
      variableDeclaration s t := by
  have w := segment_window after after'
  have hbefore : ∀ symbols symbols', Before after after'
      { s with rest := body ++ stop :: after, symbols }
      { t with rest := body ++ stop :: after', symbols := symbols' } :=
    fun _ _ => ⟨body, stop, hbody, hstop, rfl, rfl⟩
  have hspan : ∀ (u : State) (a : Token) (rest : List Token), u.rest = a :: rest →
      u.span = a.span := by
    intro u a rest hu
    rw [State.span, hu]
  rw [variableDeclaration_eq]
  refine .get_bind ?_
  obtain rfl | ⟨c, hc, rfl⟩ | ⟨b, base, hb, rfl⟩ | ⟨c, b, base, hc, hb, rfl⟩ := lead_cases hlead
  · exact absurd rfl hne
  · rw [hspan s c _ hs, hspan t c _ ht]
    have hs' := accept_cons hs .constKeyword
    have ht' := accept_cons ht .constKeyword
    rw [if_pos hc] at hs' ht'
    refine .of_step (bind_ok hs') (bind_ok ht') (.one hs _) (.one ht _)
      (openBraces_one (by rw [hc]; rfl)) ?_
    exact typedNames_agrees w true (hbefore _ _) fun b _ _ => ⟨c, by simp, rfl⟩
  · rw [hspan s b _ hs, hspan t b _ ht]
    have hne : b.kind ≠ .constKeyword := by
      intro hk
      rw [hk] at hb
      cases hb
    have hs' := accept_cons hs .constKeyword
    have ht' := accept_cons ht .constKeyword
    rw [if_neg hne] at hs' ht'
    refine .of_step ((bind_ok hs').trans (typedNames_eq hs hb))
      ((bind_ok ht').trans (typedNames_eq ht hb)) (.one hs _) (.one ht _)
      (openBraces_one (kindOf?_plain hb k).2) ?_
    exact declaredNames_agrees w false base (hbefore _ _) (by simp)
  · rw [hspan s c _ hs, hspan t c _ ht]
    have hs' := accept_cons hs .constKeyword
    have ht' := accept_cons ht .constKeyword
    rw [if_pos hc] at hs' ht'
    have hk : openBraces k [c, b] = some k := by
      rw [openBraces_cons, hc]
      exact openBraces_one (kindOf?_plain hb k).2
    refine .of_step ((bind_ok hs').trans (typedNames_eq rfl hb))
      ((bind_ok ht').trans (typedNames_eq rfl hb)) ⟨hs, rfl, rfl⟩ ⟨ht, rfl, rfl⟩ hk ?_
    exact declaredNames_agrees w true base (hbefore _ _) (by simp)

theorem kindOf?_startsVariable {kind : TokenKind} {base : Kind} (h : kindOf? kind = some base) :
    kind.startsVariable = true := by
  cases kind <;> first | rfl | cases h

theorem lead_startsVariable {lead rest : List Token} (hne : lead ≠ [])
    (hlead : lead.map (·.kind) ∈ leads) (hs : s.rest = lead ++ rest) :
    s.kind.startsVariable = true := by
  rw [s.kind_eq, hs]
  obtain rfl | ⟨c, hc, rfl⟩ | ⟨b, base, hb, rfl⟩ | ⟨c, b, base, hc, hb, rfl⟩ := lead_cases hlead
  · exact absurd rfl hne
  · simp [headKind, hc, TokenKind.startsVariable]
  · exact kindOf?_startsVariable hb
  · simp [headKind, hc, TokenKind.startsVariable]

theorem blockItem_variables (statement : Parser Stmt) (h : s.kind.startsVariable = true) :
    blockItem statement s = (do return (← variableDeclaration).map Stmt.declare) s := by
  unfold blockItem
  rw [bind_ok (peek_eq s), if_pos h]

theorem blockItem_statement (statement : Parser Stmt) (h : s.kind.startsVariable = false) :
    blockItem statement s = (do return [← statement]) s := by
  unfold blockItem
  rw [bind_ok (peek_eq s), if_neg (by simp [h])]

theorem Before.startsVariable (h : Before after after' s t) : s.kind.startsVariable = false := by
  rcases h.kind with hk | hk
  · rw [hk]
    rfl
  · generalize s.kind = kind at hk
    cases kind <;> first | rfl | cases hk

theorem blockItem_segment (n m : Nat) {seg : List Token} (h : Segment seg)
    (hs : s.rest = seg ++ after) (ht : t.rest = seg ++ after') :
    Agrees (Before after after') (Behind after after') 0 0 [] (blockItem (statementAt (n + 1)))
      (blockItem (statementAt (m + 1))) s t := by
  obtain ⟨lead, body, stop, rfl, hlead, hbody, hstop⟩ := h
  simp only [List.append_assoc, List.singleton_append] at hs ht
  by_cases hne : lead = []
  · subst hne
    have hR : Before after after' s t := ⟨body, stop, hbody, hstop, hs, ht⟩
    have hvariable := hR.startsVariable
    have hvariable' : t.kind.startsVariable = false := by
      rw [(segment_window after after').kind hR]
      exact hvariable
    refine .of_step (blockItem_statement _ hvariable) (blockItem_statement _ hvariable') (.refl s)
      (.refl t) rfl ?_
    exact (statementAt_agrees n m hR).map fun _ _ _ => trivial
  · refine .of_step (blockItem_variables _ (lead_startsVariable hne hlead hs))
      (blockItem_variables _ (lead_startsVariable hne hlead ht)) (.refl s) (.refl t) rfl ?_
    exact (variableDeclaration_segment hne hlead hbody hstop hs ht).map fun _ _ _ => trivial

theorem skipStatement_segment {body : List Token} {stop : Token}
    (hbody : ∀ a ∈ body, a.kind.isPlain = true) (hstop : stop.kind = .semicolon) :
    skipStatement (body ++ stop :: after) = after := by
  induction body with
  | nil => simp [skipStatement, hstop, TokenKind.startsStatement]
  | cons a body ih =>
    obtain ⟨ha, hbody⟩ := List.forall_mem_cons.mp hbody
    rw [List.cons_append, skipStatement, ih hbody]
    generalize a.kind = kind at ha
    cases kind <;> first | rfl | cases ha

theorem blockItem_semicolon (n : Nat) {stop : Token} (hstop : stop.kind = .semicolon)
    (hs : s.rest = stop :: after) :
    ∃ found s', blockItem (statementAt (n + 1)) s = .ok found s' := by
  have hk : s.kind = .semicolon := by
    rw [s.kind_eq, hs]
    exact hstop
  have hstatement : statementAt (n + 1) s = .ok (.empty stop.span) { s with rest := after } := by
    rw [statementAt, bind_ok (peek_eq s), hk]
    exact bind_ok (expect_eq hs hstop)
  rw [blockItem_statement _ (by rw [hk]; rfl)]
  exact ⟨_, _, bind_ok hstatement⟩

theorem recoverStatement_segment {s' t' : State} {d : Diagnostic} (n : Nat)
    (h : Before after after' s' t') (hused : s'.rest <:+ s.rest)
    (hs : blockItem (statementAt (n + 1)) s = .error d s') :
    (recoverStatement s (s'.record d)).rest = after := by
  obtain ⟨body, stop, hbody, hstop, hrest, -⟩ := h
  have hrecord : (s'.record d).rest = s'.rest := rfl
  simp only [recoverStatement, hrecord, hrest]
  split
  · next hdrop =>
    -- nothing was read, so there is more than the semicolon
    cases body with
    | nil =>
      have hlen : after.length + 1 = s.rest.length := by
        have hboth := (Bool.and_eq_true _ _).mp hdrop
        simpa using hboth.1
      have heq : s'.rest = s.rest := hused.eq_of_length (by rw [hrest, ← hlen]; rfl)
      obtain ⟨found, s'', hok⟩ := blockItem_semicolon n hstop (heq ▸ hrest)
      rw [hok] at hs
      cases hs
    | cons a body =>
      exact skipStatement_segment (List.forall_mem_cons.mp hbody).2 hstop
  · exact skipStatement_segment hbody hstop

end Item

/-- What comes of the tokens of a block, whatever follows them. -/
def Handled (ts : List Token) (found : List Stmt) (ds : List Diagnostic) : Prop :=
  ∀ n s after, s.rest = ts ++ after → ∃ symbols,
    orRecover (blockItem (statementAt (n + 1))) [] recoverStatement s =
      .ok found { s with rest := after, symbols, diagnostics := s.diagnostics ++ ds }

theorem Segment.handled {seg : List Token} (h : Segment seg) :
    ∃ found ds, ds.length ≤ 1 ∧ Handled seg found ds := by
  have hrun : ∀ n s after, s.rest = seg ++ after →
      Agrees (Before after []) (Behind after []) 0 0 [] (blockItem (statementAt (n + 1)))
        (blockItem (statementAt 1)) s { rest := seg, stop := ⟨0, 0⟩ } :=
    fun n s after hs => blockItem_segment n 0 h hs (by simp)
  cases hseg : blockItem (statementAt 1) { rest := seg, stop := ⟨0, 0⟩ } with
  | ok found t' =>
    refine ⟨found, [], by simp, fun n s after hs => ?_⟩
    obtain ⟨s', used, hok, hrest, hus, -⟩ := (hrun n s after hs).ok_left hseg
    refine ⟨s'.symbols, ?_⟩
    rw [orRecover, hok, List.append_nil, ← hrest.1, ← hus.diagnostics, ← hus.stop]
  | error d t' =>
    refine ⟨[], [d], by simp, fun n s after hs => ?_⟩
    obtain ⟨s', used, -, herror, hR, hus, -⟩ := (hrun n s after hs).error_left hseg
    refine ⟨s'.symbols, ?_⟩
    have hrest := recoverStatement_segment n hR ⟨used, hus.rest.symm⟩ herror
    rw [orRecover, herror, ← hus.diagnostics, ← hus.stop]
    exact congrArg (fun rest => EStateM.Result.ok [] { s'.record d with rest }) hrest

theorem Segment.kind {seg : List Token} (h : Segment seg) {a : Token} (ha : a ∈ seg) :
    a.kind.isPlain = true ∨ a.kind = .semicolon ∨ a.kind.startsVariable = true := by
  obtain ⟨lead, body, stop, rfl, hlead, hbody, hstop⟩ := h
  rcases List.mem_append.mp ha with ha | ha
  · refine .inr (.inr ?_)
    obtain rfl | ⟨c, hc, rfl⟩ | ⟨b, base, hb, rfl⟩ | ⟨c, b, base, hc, hb, rfl⟩ := lead_cases hlead
    · cases ha
    · obtain rfl := List.mem_singleton.mp ha
      rw [hc]
      rfl
    · obtain rfl := List.mem_singleton.mp ha
      exact kindOf?_startsVariable hb
    · rcases List.mem_cons.mp ha with rfl | ha
      · rw [hc]
        rfl
      · obtain rfl := List.mem_singleton.mp ha
        exact kindOf?_startsVariable hb
  · rcases List.mem_append.mp ha with ha | ha
    · exact .inl (hbody a ha)
    · obtain rfl := List.mem_singleton.mp ha
      exact .inr (.inl hstop)

theorem Segment.inner {seg : List Token} (h : Segment seg) {a : Token} (ha : a ∈ seg) :
    a.kind.isComment = false ∧ a.kind ≠ .eof ∧ a.kind ≠ .rightBrace := by
  have hkind := h.kind ha
  generalize a.kind = kind at hkind
  cases kind <;> simp_all [TokenKind.isPlain, TokenKind.startsVariable, TokenKind.isComment]

theorem Segment.exists_cons {seg : List Token} (h : Segment seg) :
    ∃ a rest, seg = a :: rest := by
  obtain ⟨lead, body, stop, rfl, -⟩ := h
  cases lead with
  | nil =>
    cases body with
    | nil => exact ⟨_, _, rfl⟩
    | cons a body => exact ⟨_, _, rfl⟩
  | cons a lead => exact ⟨_, _, rfl⟩

def Filled (ts : List Token) (body : List Stmt) (ds : List Diagnostic) : Prop :=
  ∀ n fuel s close after, s.rest = ts ++ close :: after → close.kind = .rightBrace →
    ts.length < fuel → ∃ symbols, blockItems (statementAt (n + 1)) fuel s =
      .ok body { s with rest := close :: after, symbols, diagnostics := s.diagnostics ++ ds }

theorem Filled.nil : Filled [] [] [] := by
  intro n fuel s close after hs hclose hfuel
  obtain ⟨fuel, rfl⟩ := Nat.exists_eq_add_one_of_ne_zero (Nat.ne_zero_of_lt hfuel)
  have hk : s.kind = .rightBrace := by
    rw [s.kind_eq, hs]
    exact hclose
  refine ⟨s.symbols, ?_⟩
  rw [blockItems_end (.inl hk), List.append_nil, ← List.nil_append (close :: after), ← hs]

theorem Filled.append {seg ts : List Token} {found body : List Stmt} {ds es : List Diagnostic}
    (hseg : Segment seg) (h : Handled seg found ds) (k : Filled ts body es) :
    Filled (seg ++ ts) (found ++ body) (ds ++ es) := by
  intro n fuel s close after hs hclose hfuel
  obtain ⟨fuel, rfl⟩ := Nat.exists_eq_add_one_of_ne_zero (Nat.ne_zero_of_lt hfuel)
  obtain ⟨a, rest, rfl⟩ := hseg.exists_cons
  obtain ⟨-, heof, hbrace⟩ := hseg.inner List.mem_cons_self
  have hend : ¬ AtEnd s := by
    rw [AtEnd, s.kind_eq, hs]
    exact not_or.mpr ⟨hbrace, heof⟩
  have hlen : ts.length < fuel := by
    simp only [List.length_append, List.length_cons] at hfuel
    omega
  rw [List.append_assoc] at hs
  obtain ⟨symbols, hitem⟩ := h n s _ hs
  obtain ⟨symbols', hrest⟩ := k n fuel
    { s with rest := ts ++ close :: after, symbols, diagnostics := s.diagnostics ++ ds } close after
    rfl hclose hlen
  refine ⟨symbols', ?_⟩
  obtain ⟨found', s', hor, -, -, heq⟩ := blockItems_item (statementAt_costs (n + 1)) hend
  rw [hitem] at hor
  cases hor
  rw [heq, bind_ok hrest, ← List.append_assoc]
  rfl

theorem Segment.filled {seg : List Token} (h : Segment seg) :
    ∃ found : List Stmt × List Diagnostic, Filled seg found.1 found.2 ∧ found.2.length ≤ 1 ∧
      Handled seg found.1 found.2 := by
  obtain ⟨body, ds, hds, hhandled⟩ := h.handled
  have hone : Filled seg body ds := by
    simpa using Filled.append h hhandled .nil
  exact ⟨(body, ds), hone, hds, hhandled⟩

/-- What comes of the segments one by one comes of them all. -/
theorem filled_segments {segs : List (List Token)} (h : ∀ seg ∈ segs, Segment seg) :
    ∃ found : List (List Stmt × List Diagnostic),
      List.Forall₂ (fun seg r => Segment seg ∧ Filled seg r.1 r.2) segs found ∧
      Filled segs.flatten (found.flatMap (·.1)) (found.flatMap (·.2)) := by
  induction segs with
  | nil => exact ⟨[], .nil, .nil⟩
  | cons seg segs ih =>
    obtain ⟨hseg, hsegs⟩ := List.forall_mem_cons.mp h
    obtain ⟨found, hall, hfilled⟩ := ih hsegs
    obtain ⟨r, hone, -, hhandled⟩ := hseg.filled
    exact ⟨r :: found, .cons ⟨hseg, hone⟩ hall, .append hseg hhandled hfilled⟩

theorem forall₂_quiet {P : List Token → List Stmt × List Diagnostic → Prop}
    {segs : List (List Token)} {found : List (List Stmt × List Diagnostic)}
    (h : List.Forall₂ P segs found) (hquiet : found.flatMap (·.2) = []) :
    List.Forall₂ (fun seg r => P seg r ∧ r.2 = []) segs found := by
  induction h with
  | nil => exact .nil
  | cons hseg _ ih =>
    rw [List.flatMap_cons, List.append_eq_nil_iff] at hquiet
    exact .cons ⟨hseg, hquiet.1⟩ (ih hquiet.2)

theorem State.ofTokens_rest {ts : List Token}
    (h : ∀ t ∈ ts, t.kind.isComment = false ∧ t.kind ≠ .eof) : (State.ofTokens ts).rest = ts := by
  have hbefore : ts.takeWhile (·.kind != .eof) = ts := by
    have heof : ∀ t ∈ ts, (t.kind != .eof) = true := fun t ht => by simpa using (h t ht).2
    have htake := @List.takeWhile_append_of_pos Token (·.kind != .eof) ts [] heof
    simpa using htake
  unfold ofTokens
  dsimp only
  rw [hbefore]
  exact List.filter_eq_self.mpr fun t ht => by simpa using (h t ht).1

end Parser

theorem Parsed.program?_eq {p : Parsed} (h : p.diagnostics = []) : p.program? = some p.program := by
  simp [Parsed.program?, h]

section Program

variable {opening ts : List Token} {close : Token} (ho : Parser.Opens opening)
  (hclose : close.kind = .rightBrace)

include ho hclose

open C1Lang.Parser in
theorem parse_filled {body : List Stmt} {ds : List Diagnostic}
    (hts : ∀ t ∈ ts, t.kind.isComment = false ∧ t.kind ≠ .eof) (h : Filled ts body ds) :
    ∃ f : FunctionDef, f.body = body ∧
      (parse (opening ++ ts ++ [close])).program = [.function f] ∧
      (parse (opening ++ ts ++ [close])).diagnostics = ds := by
  have hrest : (State.ofTokens (opening ++ ts ++ [close])).rest = opening ++ (ts ++ [close]) := by
    rw [← List.append_assoc]
    refine State.ofTokens_rest fun t ht => ?_
    rcases List.mem_append.mp ht with ht | ht
    · rcases List.mem_append.mp ht with ht | ht
      · exact ho.inner ht
      · exact hts t ht
    · obtain rfl := List.mem_singleton.mp ht
      rw [hclose]
      exact ⟨rfl, by decide⟩
  obtain ⟨r, brace, symbols, hbrace, hsignature⟩ := ho.signature hrest
  obtain ⟨build, hbody, hfunction⟩ := function_opens hsignature rfl hbrace
  obtain ⟨symbols', hitems⟩ := h (ts ++ [close]).length (ts ++ [close]).length
    { State.ofTokens (opening ++ ts ++ [close]) with rest := ts ++ [close], symbols } close [] rfl
    hclose (by simp)
  rw [bind_ok hitems, bind_ok (expect_eq rfl hclose)] at hfunction
  -- the end marker stands for the place at which the tokens end
  have hend : Level { State.ofTokens (opening ++ ts ++ [close]) with
        rest := [], symbols := symbols', diagnostics := ds }
      (State.ofTokens [⟨.eof, "", (State.ofTokens (opening ++ ts ++ [close])).stop⟩]) := ⟨rfl, rfl⟩
  obtain ⟨hprogram, hdiagnostics⟩ := parse_function (ho.kind hrest) hfunction hend
  have hnone : ∀ span, (parse [⟨.eof, "", span⟩]).program = [] ∧
      (parse [⟨.eof, "", span⟩]).diagnostics = [] := fun span => ⟨rfl, rfl⟩
  refine ⟨build body close, hbody _ _, ?_, ?_⟩
  · rw [hprogram, (hnone _).1]
  · rw [hdiagnostics, (hnone _).2, List.append_nil]
    rfl

end Program

open C1Lang.Parser in
/-- The segments of a function body are read as if each stood alone: the diagnostics are those of
the segments, at most one for each, and when there are none, the statements are theirs. -/
theorem parse_segments {opening : List Token} {segs : List (List Token)} {close : Token}
    (ho : Opens opening) (hclose : close.kind = .rightBrace) (hsegs : ∀ seg ∈ segs, Segment seg) :
    (parse (opening ++ segs.flatten ++ [close])).diagnostics =
      segs.flatMap (fun seg => (parse (opening ++ seg ++ [close])).diagnostics) ∧
    (∀ seg ∈ segs, (parse (opening ++ seg ++ [close])).diagnostics.length ≤ 1) ∧
    ((parse (opening ++ segs.flatten ++ [close])).diagnostics = [] →
      ∃ (f : FunctionDef) (bodies : List (List Stmt)),
        (parse (opening ++ segs.flatten ++ [close])).program? = some [.function f] ∧
        f.body = bodies.flatten ∧
        List.Forall₂ (fun seg body => ∃ g : FunctionDef, g.body = body ∧
          (parse (opening ++ seg ++ [close])).program? = some [.function g]) segs bodies) := by
  obtain ⟨found, hall, hfilled⟩ := filled_segments hsegs
  have hinner : ∀ seg, Segment seg → ∀ t ∈ seg, t.kind.isComment = false ∧ t.kind ≠ .eof :=
    fun seg hseg t ht => ⟨(hseg.inner ht).1, (hseg.inner ht).2.1⟩
  have halone := hall.imp fun seg r h => parse_filled ho hclose (hinner seg h.1) h.2
  have hflat : ∀ t ∈ segs.flatten, t.kind.isComment = false ∧ t.kind ≠ .eof := by
    intro t ht
    obtain ⟨seg, hseg, ht⟩ := List.mem_flatten.mp ht
    exact hinner seg (hsegs seg hseg) t ht
  obtain ⟨f, hf, hprogram, hdiagnostics⟩ := parse_filled ho hclose hflat hfilled
  refine ⟨?_, fun seg hseg => ?_, fun hquiet => ?_⟩
  · have hmap : segs.map (fun seg => (parse (opening ++ seg ++ [close])).diagnostics) =
        found.map (·.2) := by
      rw [← List.forall₂_eq_eq_eq, List.forall₂_map_left_iff, List.forall₂_map_right_iff]
      exact halone.imp fun seg r ⟨g, _, _, h⟩ => h
    rw [hdiagnostics, List.flatMap_def, List.flatMap_def, hmap]
  · obtain ⟨r, hr, hlen, -⟩ := (hsegs seg hseg).filled
    obtain ⟨g, -, -, hds⟩ := parse_filled ho hclose (hinner seg (hsegs seg hseg)) hr
    rw [hds]
    exact hlen
  · rw [hdiagnostics] at hquiet
    refine ⟨f, found.map (·.1), ?_, by rw [hf, List.flatMap_def], ?_⟩
    · rw [Parsed.program?_eq (hdiagnostics.trans hquiet), hprogram]
    · rw [List.forall₂_map_right_iff]
      refine (forall₂_quiet halone hquiet).imp fun seg r h => ?_
      obtain ⟨⟨g, hg, hp, hds⟩, hnil⟩ := h
      exact ⟨g, hg, by rw [Parsed.program?_eq (hds.trans hnil), hp]⟩

/-- `void f ( ) { x = ; int y , z ; }`: one mistake, and the declaration behind it is read. -/
theorem parse_segments_mistake :
    let token kind lexeme start stop : Token := ⟨kind, lexeme, ⟨start, stop⟩⟩
    let opening := [token .voidKeyword "void" 0 4, token .identifier "f" 5 6,
      token .leftParen "(" 7 8, token .rightParen ")" 9 10, token .leftBrace "\x7b" 11 12]
    let wrong := [token .identifier "x" 13 14, token .equal "=" 15 16, token .semicolon ";" 17 18]
    let names := [token .intType "int" 19 22, token .identifier "y" 23 24, token .comma "," 25 26,
      token .identifier "z" 27 28, token .semicolon ";" 29 30]
    let close := token .rightBrace "\x7d" 31 32
    Parser.Opens opening ∧ (∀ seg ∈ [wrong, names], Parser.Segment seg) ∧
    (parse (opening ++ [wrong, names].flatten ++ [close])).diagnostics =
      (parse (opening ++ wrong ++ [close])).diagnostics ∧
    (parse (opening ++ wrong ++ [close])).diagnostics = [⟨.expectedExpression, ⟨17, 18⟩⟩] := by
  intro token opening wrong names close
  have ho : Parser.Opens opening := rfl
  have hsegs : ∀ seg ∈ [wrong, names], Parser.Segment seg := by
    intro seg hseg
    rcases List.mem_cons.mp hseg with rfl | hseg
    · exact ⟨[], wrong.dropLast, token .semicolon ";" 17 18, rfl, by decide, by decide, rfl⟩
    · obtain rfl := List.mem_singleton.mp hseg
      exact ⟨names.take 1, (names.drop 1).dropLast, token .semicolon ";" 29 30, rfl, by decide,
        by decide, rfl⟩
  have hclose : close.kind = .rightBrace := rfl
  have h := (parse_segments ho hclose hsegs).1
  have hnames : (parse (opening ++ names ++ [close])).diagnostics = [] := by decide +kernel
  refine ⟨ho, hsegs, ?_, by decide +kernel⟩
  rw [h, List.flatMap_cons, List.flatMap_cons, hnames]
  rfl

end C1Lang
