import C1Lang.Proofs.Parser.Reports

/-!
# Errors inside of a function

Recovery inside of a block stops at the next brace that closes one and does not count those that
open one. So a function whose braces are balanced is never left behind its own closing brace, but
it can be left at an earlier one: that happens exactly when a statement was given up, from its
first token to where reading went on, with a brace open (`function_contained`).
-/

namespace C1Lang.Parser

def State.upTo (s s' : State) : List Token := s.rest.take (s.rest.length - s'.rest.length)

/-- The tokens of each item of a block that was given up, from its first one to where reading went
on. Inside of its statements `inside` gives them. -/
def itemsLost (statement : Parser Stmt) (inside : State → List (List Token)) :
    Nat → State → List (List Token)
  | 0, _ => []
  | fuel + 1, s =>
    if s.kind = .rightBrace ∨ s.kind = .eof then []
    else
      (if s.kind.startsVariable then [] else inside s) ++
        match blockItem statement s with
        | .ok _ s' => itemsLost statement inside fuel s'
        | .error d s' =>
          let next := recoverStatement s (s'.record d)
          s.upTo next :: itemsLost statement inside fuel next

def blockLost (statement : Parser Stmt) (inside : State → List (List Token)) (s : State) :
    List (List Token) :=
  match expect .leftBrace s with
  | .ok _ s' => itemsLost statement inside s'.rest.length s'
  | .error _ _ => []

def heading (keyword : TokenKind) : Parser (Token × Condition) := do
  let first ← expect keyword
  let test ← parenthesized
  return (first, test)

def branchLost (statement : Parser Stmt) (inside : State → List (List Token)) (s : State) :
    List (List Token) :=
  match heading .ifKeyword s with
  | .error _ _ => []
  | .ok _ s' => inside s' ++
    match (statement >>= fun _ => accept .elseKeyword) s' with
    | .ok true s'' => inside s''
    | _ => []

def loopLost (inside : State → List (List Token)) (s : State) : List (List Token) :=
  match heading .whileKeyword s with
  | .error _ _ => []
  | .ok _ s' => inside s'

def statementLost : Nat → State → List (List Token)
  | 0, _ => []
  | fuel + 1, s =>
    match s.kind with
    | .leftBrace => blockLost (statementAt fuel) (statementLost fuel) s
    | .ifKeyword => branchLost (statementAt fuel) (statementLost fuel) s
    | .whileKeyword => loopLost (statementLost fuel) s
    | _ => []

def functionLost (s : State) : List (List Token) :=
  match signature s with
  | .ok _ s' => blockLost (statementAt s'.rest.length) (statementLost s'.rest.length) s'
  | .error _ _ => []

def Balanced (ts : List Token) : Prop := openBraces 0 ts = some 0

instance (ts : List Token) : Decidable (Balanced ts) := inferInstanceAs (Decidable (_ = _))

theorem nest_add {kind : TokenKind} {c c' : Nat} (h : nest kind c = some c') (d : Nat) :
    nest kind (d + c) = some (d + c') := by
  cases kind
  case rightBrace =>
    cases c with
    | zero => cases h
    | succ c =>
      cases h
      rfl
  all_goals
    cases h
    rfl

theorem openBraces_add {c c' : Nat} {ts : List Token} (h : openBraces c ts = some c') (d : Nat) :
    openBraces (d + c) ts = some (d + c') := by
  induction ts generalizing c with
  | nil =>
    cases h
    rfl
  | cons t ts ih =>
    rw [openBraces_cons] at h ⊢
    obtain ⟨c₁, hn, hts⟩ := Option.bind_eq_some_iff.mp h
    rw [nest_add hn]
    exact ih hts

theorem openBraces_of_ne {ts : List Token} (h : ∀ t ∈ ts, t.kind ≠ .rightBrace) (c : Nat) :
    ∃ c', openBraces c ts = some c' := by
  induction ts generalizing c with
  | nil => exact ⟨c, rfl⟩
  | cons t ts ih =>
    obtain ⟨ht, hts⟩ := List.forall_mem_cons.mp h
    have hn : ∃ c', nest t.kind c = some c' := by
      generalize t.kind = kind at ht
      cases kind <;> first | exact ⟨_, rfl⟩ | exact absurd rfl ht
    obtain ⟨c', hn⟩ := hn
    rw [openBraces_cons, hn]
    exact ih hts c'

/-- The tokens read from `s` to `s'` close no brace that they have not opened, and `k` of those
that they have opened stay open. -/
def Opened (k : Nat) (s s' : State) : Prop :=
  ∃ used, s.rest = used ++ s'.rest ∧ openBraces 0 used = some k

theorem Opened.refl (s : State) : Opened 0 s s := ⟨[], rfl, rfl⟩

theorem Opened.trans {j k : Nat} {s s' s'' : State} (h : Opened j s s') (h' : Opened k s' s'') :
    Opened (j + k) s s'' := by
  obtain ⟨used, hs, hj⟩ := h
  obtain ⟨more, hs', hk⟩ := h'
  refine ⟨used ++ more, by rw [hs, hs', List.append_assoc], ?_⟩
  rw [openBraces_append hj]
  exact openBraces_add hk j

theorem Opened.upTo {k : Nat} {s s' : State} (h : Opened k s s') :
    openBraces 0 (s.upTo s') = some k := by
  obtain ⟨used, hs, hk⟩ := h
  rw [State.upTo, hs]
  simpa using hk

/-- If the parser stops, no brace was left open but in a lost item; if it gives a result, a brace
was left open exactly when one was in a lost item. -/
def Skips {α : Type} (lost : List (List Token)) (p : Parser α) (s : State) : Prop :=
  match p s with
  | .ok _ s' => ∃ k, Opened k s s' ∧ (k = 0 ↔ ∀ ts ∈ lost, Balanced ts)
  | .error _ s' => ∃ k, Opened k s s' ∧ (k = 0 → ∀ ts ∈ lost, Balanced ts)

namespace Skips

variable {α β : Type} {p : Parser α} {s s' : State} {lost lost' : List (List Token)}

theorem of_agrees {done : α → List Token → Prop} (h : Agrees Level Level 0 0 [] p p s s done) :
    Skips [] p s := by
  unfold Agrees at h
  split at h
  · next a s' b t' hs ht =>
    obtain ⟨-, -, used, hus, -, hk, -⟩ := h
    unfold Skips
    rw [hs]
    exact ⟨0, ⟨used, hus.rest, hk⟩, by simp⟩
  · next d s' e t' hs ht =>
    obtain ⟨-, -, used, k, hus, -, hk, -⟩ := h
    unfold Skips
    rw [hs]
    exact ⟨k, ⟨used, hus.rest, hk⟩, by simp⟩
  · exact h.elim

theorem pure {a : α} : Skips [] (Pure.pure a : Parser α) s := ⟨0, .refl s, by simp⟩

theorem of_eq {q : Parser α} (h : p s = q s) (hq : Skips lost q s) : Skips lost p s := by
  unfold Skips at hq ⊢
  rw [h]
  exact hq

theorem bind {f : α → Parser β} (h : Skips lost p s)
    (hf : ∀ a s', p s = .ok a s' → Skips lost' (f a) s')
    (herror : ∀ d s', p s = .error d s' → lost' = []) : Skips (lost ++ lost') (p >>= f) s := by
  unfold Skips at h
  cases hp : p s with
  | ok a s' =>
    rw [hp] at h
    obtain ⟨j, hj, hjl⟩ := h
    have hnext := hf a s' hp
    unfold Skips at hnext ⊢
    rw [bind_ok hp]
    cases hq : f a s' with
    | ok b s'' =>
      rw [hq] at hnext
      obtain ⟨k, hk, hkl⟩ := hnext
      refine ⟨j + k, hj.trans hk, ?_⟩
      rw [List.forall_mem_append, ← hjl, ← hkl]
      omega
    | error d s'' =>
      rw [hq] at hnext
      obtain ⟨k, hk, hkl⟩ := hnext
      refine ⟨j + k, hj.trans hk, fun h => ?_⟩
      rw [List.forall_mem_append]
      exact ⟨hjl.mp (by omega), hkl (by omega)⟩
  | error d s' =>
    rw [hp] at h
    rw [herror d s' hp, List.append_nil]
    unfold Skips
    rw [bind_error hp]
    exact h

theorem map (h : Skips lost p s) (f : α → β) :
    Skips lost (p >>= fun a => Pure.pure (f a)) s := by
  rw [← List.append_nil lost]
  exact h.bind (fun _ _ _ => .pure) fun _ _ _ => rfl

theorem bind_ok {f : α → Parser β} {a : α} (h : Skips lost p s) (hp : p s = .ok a s')
    (hf : Skips lost' (f a) s') : Skips (lost ++ lost') (p >>= f) s := by
  refine h.bind (fun b s'' hp' => ?_) fun d s'' hp' => ?_
  · rw [hp] at hp'
    cases hp'
    exact hf
  · rw [hp] at hp'
    cases hp'

theorem after {f : α → Parser β} {a : α} (h : Skips [] p s) (hp : p s = .ok a s')
    (hf : Skips lost (f a) s') : Skips lost (p >>= f) s := by
  rw [← List.nil_append lost]
  exact h.bind_ok hp hf

theorem bind_error {f : α → Parser β} {d : Diagnostic} (h : Skips lost p s)
    (hp : p s = .error d s') : Skips lost (p >>= f) s := by
  rw [← List.append_nil lost]
  refine h.bind (fun b s'' hp' => ?_) fun _ _ _ => rfl
  rw [hp] at hp'
  cases hp'

end Skips

theorem fail_skips {α : Type} (problem : Problem) (s : State) :
    Skips [] (fail problem : Parser α) s := by
  have hagrees : Agrees Level Level 0 0 [] (fail problem : Parser α) (fail problem) s s
      fun _ _ => True := .fail level_window (.refl s)
  exact .of_agrees hagrees

theorem variableDeclaration_skips (s : State) : Skips [] variableDeclaration s :=
  .of_agrees (variableDeclaration_agrees level_window (.refl s))

theorem heading_skips {keyword : TokenKind} (hne : keyword ≠ .semicolon)
    (hn : nest keyword 0 = some 0) (s : State) : Skips [] (heading keyword) s := by
  have hagrees : Agrees Level Level 0 0 [] (heading keyword) (heading keyword) s s
      fun _ _ => True := by
    refine (expect_agrees level_window (.refl s) hne hn).bind fun _ s₁ t₁ _ h₁ _ => ?_
    exact (parenthesized_agrees level_window h₁).map fun _ _ _ => trivial
  exact .of_agrees hagrees

theorem skipStatement_passes (ts : List Token) :
    ∃ skipped, ts = skipped ++ skipStatement ts ∧ ∀ t ∈ skipped, t.kind ≠ .rightBrace := by
  obtain ⟨skipped, hskipped, hend⟩ := skipStatement_resumes ts
  have hne : ∀ t ∈ skipped, t.kind ≠ .rightBrace := by
    intro t ht hk
    have hstop := (hskipped t ht).1
    rw [resumesStatement, hk] at hstop
    cases hstop
  rcases hend with ⟨hts, hrest⟩ | ⟨t, us, hts, ⟨-, hrest⟩ | ⟨hk, hrest⟩⟩
  · exact ⟨skipped, by rw [hrest, hts, List.append_nil], hne⟩
  · exact ⟨skipped, by rw [hrest, hts], hne⟩
  · refine ⟨skipped ++ [t], by rw [hrest, hts, List.append_assoc]; rfl, fun u hu => ?_⟩
    rcases List.mem_append.mp hu with hu | hu
    · exact hne u hu
    · obtain rfl := List.mem_singleton.mp hu
      rw [hk]
      decide

theorem recoverStatement_passes (before after : State) :
    ∃ skipped, after.rest = skipped ++ (recoverStatement before after).rest ∧
      ∀ t ∈ skipped, t.kind ≠ .rightBrace := by
  unfold recoverStatement
  dsimp only
  split
  · next hdrop =>
    obtain ⟨skipped, hskipped, hne⟩ := skipStatement_passes (after.rest.drop 1)
    cases hrest : after.rest with
    | nil => exact ⟨[], rfl, by simp⟩
    | cons t us =>
      rw [hrest] at hskipped
      refine ⟨t :: skipped, congrArg (t :: ·) hskipped, List.forall_mem_cons.mpr ⟨?_, hne⟩⟩
      have hk := ((Bool.and_eq_true _ _).mp hdrop).2
      rw [after.kind_eq, hrest] at hk
      simpa [headKind] using hk
  · exact skipStatement_passes after.rest

theorem recoverStatement_opened (s s' : State) (d : Diagnostic) :
    ∃ k, Opened k s' (recoverStatement s (s'.record d)) := by
  obtain ⟨skipped, hrest, hne⟩ := recoverStatement_passes s (s'.record d)
  obtain ⟨k, hk⟩ := openBraces_of_ne hne 0
  exact ⟨k, skipped, hrest, hk⟩

theorem blockItems_next (statement : Parser Stmt) {s : State} (h : ¬ AtEnd s) (fuel : Nat) :
    blockItems statement (fuel + 1) s =
      (orRecover (blockItem statement) [] recoverStatement >>= fun found => do
        return found ++ (← blockItems statement fuel)) s := by
  obtain ⟨hb, he⟩ := not_or.mp h
  rw [blockItems, C1Lang.bind_ok (peek_eq s)]
  refine congrFun ?_ s
  split
  · next hk => exact absurd hk hb
  · next hk => exact absurd hk he
  · rfl

theorem accept_skips (s : State) : Skips [] (accept .elseKeyword) s :=
  .of_agrees (accept_agrees level_window (.refl s) (by decide) rfl)

theorem branch_eq (statement : Parser Stmt) :
    branch statement = heading .ifKeyword >>= fun r => do
      let body ← statement
      if ← accept .elseKeyword then
        let other ← statement
        return .branchElse r.2 body other (r.1.span.merge other.span)
      else return .branch r.2 body (r.1.span.merge body.span) := by
  simp only [branch, heading, bind_assoc, pure_bind]

theorem loop_eq (statement : Parser Stmt) :
    loop statement = heading .whileKeyword >>= fun r => do
      let body ← statement
      return .loop r.2 body (r.1.span.merge body.span) := by
  simp only [loop, heading, bind_assoc, pure_bind]

section Statement

variable {statement : Parser Stmt} {inside : State → List (List Token)}
  (hst : ∀ s, Skips (inside s) statement s)

include hst

theorem blockItem_skips (s : State) :
    Skips (if s.kind.startsVariable then [] else inside s) (blockItem statement) s := by
  have hpeek : blockItem statement s = _ := bind_ok (peek_eq s)
  refine .of_eq hpeek ?_
  split
  · exact (variableDeclaration_skips s).map _
  · exact (hst s).map _

theorem givenUp_skips {s s' : State} {d : Diagnostic} (h : blockItem statement s = .error d s') :
    Skips ((if s.kind.startsVariable then [] else inside s) ++
      [s.upTo (recoverStatement s (s'.record d))])
      (orRecover (blockItem statement) [] recoverStatement) s := by
  have hitem := blockItem_skips hst s
  unfold Skips at hitem
  rw [h] at hitem
  obtain ⟨j, hj, hlost⟩ := hitem
  obtain ⟨m, hm⟩ := recoverStatement_opened s s' d
  have hopened := hj.trans hm
  have hstretch := hopened.upTo
  unfold Skips orRecover
  rw [h]
  refine ⟨j + m, hopened, ?_⟩
  rw [List.forall_mem_append]
  constructor
  · intro hzero
    refine ⟨hlost (by omega), fun ts hts => ?_⟩
    obtain rfl := List.mem_singleton.mp hts
    rw [Balanced, hstretch, hzero]
  · intro hall
    have hbalanced := hall.2 _ (List.mem_singleton_self _)
    rw [Balanced, hstretch] at hbalanced
    exact Option.some.inj hbalanced

theorem blockItems_skips (fuel : Nat) (s : State) :
    Skips (itemsLost statement inside fuel s) (blockItems statement fuel) s := by
  induction fuel generalizing s with
  | zero => exact .pure
  | succ fuel ih =>
    rw [itemsLost]
    split
    · next hend => exact .of_eq (blockItems_end hend fuel) .pure
    · next hend =>
      refine .of_eq (blockItems_next statement hend fuel) ?_
      cases hrun : blockItem statement s with
      | ok found s' =>
        have hor : orRecover (blockItem statement) [] recoverStatement s = .ok found s' := by
          rw [orRecover, hrun]
        have hitem : Skips (if s.kind.startsVariable then [] else inside s)
            (orRecover (blockItem statement) [] recoverStatement) s :=
          .of_eq (hor.trans hrun.symm) (blockItem_skips hst s)
        exact hitem.bind_ok hor ((ih s').map _)
      | error d s' =>
        have hor : orRecover (blockItem statement) [] recoverStatement s =
            .ok [] (recoverStatement s (s'.record d)) := by rw [orRecover, hrun]
        dsimp only
        rw [List.append_cons]
        exact (givenUp_skips hst hrun).bind_ok hor ((ih _).map _)

theorem block_skips (s : State) : Skips (blockLost statement inside s) (block statement) s := by
  unfold blockLost
  obtain ⟨t, ts, hs, ht, hopen⟩ | ⟨d, hopen⟩ := expect_cases .leftBrace s
  · have hitems := blockItems_skips hst ts.length { s with rest := ts }
    have hblock : block statement s = (blockItems statement ts.length >>= fun body => do
        return (body, t.span.merge (← expect .rightBrace).span)) { s with rest := ts } :=
      bind_ok hopen
    have hstart : Opened 1 s { s with rest := ts } :=
      ⟨[t], hs, openBraces_one (by rw [ht]; rfl)⟩
    rw [hopen]
    unfold Skips at hitems ⊢
    rw [hblock]
    cases hrun : blockItems statement ts.length { s with rest := ts } with
    | error d s₁ =>
      rw [hrun] at hitems
      obtain ⟨k, hk, -⟩ := hitems
      rw [C1Lang.bind_error hrun]
      exact ⟨1 + k, hstart.trans hk, by omega⟩
    | ok body s₁ =>
      rw [hrun] at hitems
      obtain ⟨k, hk, hlost⟩ := hitems
      rw [C1Lang.bind_ok hrun]
      obtain ⟨u, us, hs₁, hu, hclose⟩ | ⟨d, hclose⟩ := expect_cases .rightBrace s₁
      · rw [C1Lang.bind_ok hclose]
        obtain ⟨used, hused, hcount⟩ := hstart.trans hk
        refine ⟨k, ⟨used ++ [u], ?_, ?_⟩, hlost⟩
        · rw [hused, hs₁, List.append_assoc]
          rfl
        · rw [openBraces_append hcount, Nat.add_comm]
          exact openBraces_one (by rw [hu]; rfl)
      · rw [C1Lang.bind_error hclose]
        exact ⟨1 + k, hstart.trans hk, by omega⟩
  · rw [hopen]
    unfold Skips
    rw [show block statement s = .error d s from C1Lang.bind_error hopen]
    exact ⟨0, .refl s, by simp⟩

theorem branch_skips (s : State) : Skips (branchLost statement inside s) (branch statement) s := by
  have hheading : Skips [] (heading .ifKeyword) s := heading_skips (by decide) rfl s
  rw [branch_eq]
  unfold branchLost
  cases hrun : heading .ifKeyword s with
  | error d s' => exact hheading.bind_error hrun
  | ok r s₁ =>
    dsimp only
    refine hheading.after hrun ?_
    cases hbody : statement s₁ with
    | error d s' =>
      rw [C1Lang.bind_error hbody, List.append_nil]
      exact (hst s₁).bind_error hbody
    | ok body s₂ =>
      rw [C1Lang.bind_ok hbody]
      refine (hst s₁).bind_ok hbody ?_
      cases helse : accept .elseKeyword s₂ with
      | error d s' => exact (accept_skips s₂).bind_error helse
      | ok b s₃ =>
        cases b with
        | false => exact (accept_skips s₂).after helse .pure
        | true => exact (accept_skips s₂).after helse ((hst s₃).map _)

theorem loop_skips (s : State) : Skips (loopLost inside s) (loop statement) s := by
  have hheading : Skips [] (heading .whileKeyword) s := heading_skips (by decide) rfl s
  rw [loop_eq]
  unfold loopLost
  cases hrun : heading .whileKeyword s with
  | error d s' => exact hheading.bind_error hrun
  | ok r s' => exact hheading.after hrun ((hst s').map _)

end Statement

theorem statementAt_skips (fuel : Nat) (s : State) :
    Skips (statementLost fuel s) (statementAt fuel) s := by
  induction fuel generalizing s with
  | zero => exact fail_skips .expectedStatement s
  | succ fuel ih =>
    have hpeek : statementAt (fuel + 1) s = _ := bind_ok (peek_eq s)
    refine .of_eq hpeek ?_
    rw [statementLost]
    generalize s.kind = kind
    cases kind
    case leftBrace => exact (block_skips ih s).map _
    case ifKeyword => exact branch_skips ih s
    case whileKeyword => exact loop_skips ih s
    case semicolon =>
      exact (Skips.of_agrees (semicolon_agrees level_window (.refl s))).map _
    case identifier =>
      refine .of_eq (bind_ok (peekSecond_eq s)) ?_
      dsimp only
      split
      · exact .of_agrees (call_agrees level_window (.refl s))
      · exact .of_agrees (assignment_agrees level_window (.refl s))
    all_goals exact fail_skips .expectedStatement s

theorem Opened.of_balanced {k : Nat} {body after : List Token} {close : Token} {s s' : State}
    (hs : s.rest = body ++ close :: after) (hbody : Balanced body)
    (hclose : close.kind = .rightBrace) (h : Opened k s s') :
    ∃ left, s'.rest = left ++ close :: after ∧ ∃ used, body = used ++ left ∧
      openBraces 0 used = some k := by
  obtain ⟨used, hused, hk⟩ := h
  rw [hs] at hused
  rcases List.append_eq_append_iff.mp hused with ⟨more, rfl, hmore⟩ | ⟨left, rfl, hleft⟩
  · cases more with
    | nil => exact ⟨[], hmore.symm, body, by simp, by simpa using hk⟩
    | cons t more =>
      -- behind the body no brace is open that its closing brace could close
      obtain ⟨rfl, -⟩ := List.cons_eq_cons.mp hmore
      rw [openBraces_append hbody, openBraces_cons, hclose] at hk
      cases hk
  · exact ⟨left, hleft, used, rfl, hk⟩

theorem Balanced.filter {ts : List Token} (h : Balanced ts) :
    Balanced (ts.filter (!·.kind.isComment)) := by
  have hfilter : ∀ (c : Nat) (ts : List Token),
      openBraces c (ts.filter (!·.kind.isComment)) = openBraces c ts := by
    intro c ts
    induction ts generalizing c with
    | nil => rfl
    | cons t ts ih =>
      cases hc : t.kind.isComment with
      | false =>
        rw [List.filter_cons_of_pos (by simp [hc]), openBraces_cons, openBraces_cons]
        exact congrArg _ (funext fun c => ih c)
      | true =>
        have hn : nest t.kind c = some c := by
          generalize t.kind = kind at hc
          cases kind <;> first | rfl | cases hc
        rw [List.filter_cons_of_neg (by simp [hc]), openBraces_cons, hn]
        exact ih c
  exact (hfilter 0 ts).trans h

theorem significant_append {before : List Token} (h : ∀ t ∈ before, t.kind ≠ .eof)
    (after : List Token) :
    significant (before ++ after) = before.filter (!·.kind.isComment) ++ significant after := by
  have hb : ∀ t ∈ before, (t.kind != .eof) = true := by simpa using h
  rw [significant, List.takeWhile_append_of_pos hb, List.filter_append]
  rfl

theorem State.ofTokens_stop {before after : List Token} (h : ∀ t ∈ before, t.kind ≠ .eof)
    (hne : after ≠ []) : (State.ofTokens (before ++ after)).stop = (State.ofTokens after).stop := by
  have hb : ∀ t ∈ before, (t.kind != .eof) = true := by simpa using h
  unfold ofTokens
  dsimp only
  rw [List.dropWhile_append_of_pos hb, List.getLast?_append, List.getLast?_eq_some_getLast hne]
  rfl

theorem parse_eof (span : Span) :
    (parse [⟨.eof, "", span⟩]).program = [] ∧ (parse [⟨.eof, "", span⟩]).diagnostics = [] :=
  ⟨rfl, rfl⟩

theorem exists_cut {ts before after : List Token} {t : Token}
    (h : ts.filter (!·.kind.isComment) = before ++ t :: after) :
    ∃ read unread, ts = read ++ t :: unread ∧ unread.filter (!·.kind.isComment) = after := by
  obtain ⟨l₁, l₂, rfl, -, h₂⟩ := List.filter_eq_append_iff.mp h
  obtain ⟨l₃, l₄, rfl, -, -, h₄⟩ := List.filter_eq_cons_iff.mp h₂
  exact ⟨l₁ ++ l₃, l₄, by rw [List.append_assoc], h₄⟩

theorem functionLost_opens {s s' : State} {r : Token × Token} {brace : Token} {ts : List Token}
    (h : signature s = .ok r s') (hs' : s'.rest = brace :: ts) (hbrace : brace.kind = .leftBrace) :
    functionLost s = itemsLost (statementAt (ts.length + 1)) (statementLost (ts.length + 1))
      ts.length { s' with rest := ts } := by
  rw [functionLost, h]
  dsimp only
  rw [blockLost, expect_eq hs' hbrace, hs']
  rfl

theorem exists_brace {k : Nat} {used left : List Token} (close : Token)
    (hbalanced : Balanced (used ++ left)) (hk : openBraces 0 used = some k) :
    ∃ brace unread, left ++ [close] = brace :: unread ∧
      (brace.kind = .rightBrace → (unread = [] ↔ k = 0)) := by
  rw [Balanced, openBraces_append hk] at hbalanced
  cases left with
  | nil => exact ⟨close, [], rfl, fun _ => ⟨fun _ => Option.some.inj hbalanced, fun _ => rfl⟩⟩
  | cons brace more =>
    refine ⟨brace, more ++ [close], rfl, fun hbrace => ⟨by simp, fun hzero => ?_⟩⟩
    rw [openBraces_cons, hbrace, hzero] at hbalanced
    cases hbalanced

section Function

variable {ts after : List Token} {close : Token} {s : State} (hts : Balanced ts)
  (hclose : close.kind = .rightBrace) (heof : ∀ t ∈ s.rest, t.kind ≠ .eof)

include hts hclose heof

theorem blockItems_closes (n : Nat) (hs : s.rest = ts ++ close :: after) :
    ∃ body s' used brace unread, blockItems (statementAt n) s.rest.length s = .ok body s' ∧
      ts ++ [close] = used ++ brace :: unread ∧ brace.kind = .rightBrace ∧
      s'.rest = brace :: (unread ++ after) ∧ s'.stop = s.stop ∧
      (unread = [] ↔ ∀ lost ∈ itemsLost (statementAt n) (statementLost n) s.rest.length s,
        Balanced lost) := by
  obtain ⟨body, s', hitems, ha, -, hend⟩ :=
    blockItems_affords (statementAt_costs n) s.rest.length s
  have hskips := blockItems_skips (statementAt_skips n) s.rest.length s
  have hreports := blockItems_reports (statementAt_reports n) s.rest.length (.refl s)
  unfold Skips at hskips
  unfold Reports at hreports
  rw [hitems] at hskips hreports
  obtain ⟨k, hk, hlost⟩ := hskips
  obtain ⟨-, read, ds, hpasses, -⟩ := hreports
  obtain ⟨left, hleft, used, rfl, hcount⟩ := hk.of_balanced hs hts hclose
  obtain ⟨brace, unread, hcut, hown⟩ := exists_brace close hts hcount
  have hnext : s'.rest = brace :: (unread ++ after) := by
    rw [hleft, ← List.cons_append, ← hcut, List.append_assoc]
    rfl
  have hbrace : brace.kind = .rightBrace := by
    have hkind := hend (Nat.le_refl _)
    have hne := heof brace (ha.rest.subset (hnext ▸ List.mem_cons_self))
    rw [AtEnd, s'.kind_eq, hnext] at hkind
    exact hkind.resolve_right hne
  refine ⟨body, s', used, brace, unread, hitems, ?_, hbrace, hnext, hpasses.stop, ?_⟩
  · rw [List.append_assoc, hcut]
  · rw [← hlost]
    exact hown hbrace

theorem function_closes {opening : List Token} (ho : Opens opening)
    (hs : s.rest = opening ++ (ts ++ close :: after)) :
    ∃ f s' used brace unread, function s = .ok f s' ∧ ts ++ [close] = used ++ brace :: unread ∧
      brace.kind = .rightBrace ∧ s'.rest = unread ++ after ∧ s'.stop = s.stop ∧
      (unread = [] ↔ ∀ lost ∈ functionLost s, Balanced lost) := by
  obtain ⟨r, left, symbols, hleft, hsignature⟩ := ho.signature hs
  obtain ⟨build, -, hfunction⟩ := function_opens hsignature rfl hleft
  have hlost := functionLost_opens hsignature rfl hleft
  have heof' : ∀ t ∈ ts ++ close :: after, t.kind ≠ .eof :=
    fun t ht => heof t (hs ▸ List.mem_append_right _ ht)
  obtain ⟨body, s', used, brace, unread, hitems, hcut, hbrace, hnext, hstop, hown⟩ :=
    blockItems_closes (s := { s with rest := ts ++ close :: after, symbols }) hts hclose heof'
      ((ts ++ close :: after).length + 1) rfl
  refine ⟨build body brace, { s' with rest := unread ++ after }, used, brace, unread, ?_, hcut,
    hbrace, rfl, hstop, ?_⟩
  · rw [hfunction]
    exact (bind_ok hitems).trans (bind_ok (expect_eq hnext hbrace))
  · rw [hlost]
    exact hown

end Function

theorem parse_behind {before after : List Token} {f : FunctionDef} {s : State}
    (hk : (State.ofTokens (before ++ after)).kind = .voidKeyword)
    (hf : function (State.ofTokens (before ++ after)) = .ok f s)
    (hbefore : ∀ t ∈ before, t.kind ≠ .eof) (hs : s.rest = significant after)
    (hstop : s.stop = (State.ofTokens (before ++ after)).stop) :
    (parse (before ++ after)).diagnostics = s.diagnostics ++ (parse after).diagnostics := by
  by_cases hnil : after = []
  · -- nothing is left, so it makes no difference where the end is
    have hend : Level s (State.ofTokens [⟨.eof, "", s.stop⟩]) := by
      rw [hnil] at hs
      exact ⟨hs.symm, rfl⟩
    rw [(parse_function hk hf hend).2, (parse_eof s.stop).2, hnil]
    rfl
  · have hstop' := hstop.trans (State.ofTokens_stop hbefore hnil)
    exact (parse_function hk hf ⟨hs.symm, hstop'.symm⟩).2

end C1Lang.Parser

namespace C1Lang

open C1Lang.Parser

/-- A function whose body is balanced is read, whatever is wrong in it. It ends at its closing
brace when every item that was given up is balanced, and at an earlier one otherwise; and what
follows is parsed as if it stood alone. -/
theorem function_contained {opening body after : List Token} {close : Token}
    (ho : Opens opening) (hbody : Balanced body) (heof : ∀ t ∈ body, t.kind ≠ .eof)
    (hclose : close.kind = .rightBrace) :
    let whole := opening ++ body ++ close :: after
    ∃ f s read brace unread, function (State.ofTokens whole) = .ok f s ∧
      body ++ [close] = read ++ brace :: unread ∧ brace.kind = .rightBrace ∧
      s.rest = significant (unread ++ after) ∧
      (parse whole).diagnostics = s.diagnostics ++ (parse (unread ++ after)).diagnostics ∧
      (unread = [] ↔ ∀ lost ∈ functionLost (State.ofTokens whole), Balanced lost) := by
  intro whole
  have hkeep : close.kind.isComment = false := by rw [hclose]; rfl
  have hread : ∀ t ∈ opening ++ (body ++ [close]), t.kind ≠ .eof := by
    intro t ht
    rcases List.mem_append.mp ht with ht | ht
    · exact (ho.inner ht).2
    · rcases List.mem_append.mp ht with ht | ht
      · exact heof t ht
      · obtain rfl := List.mem_singleton.mp ht
        simp [hclose]
  have hopening : opening.filter (!·.kind.isComment) = opening :=
    List.filter_eq_self.mpr fun t ht => by simpa using (ho.inner ht).1
  have hbody' : (body ++ [close]).filter (!·.kind.isComment) =
      body.filter (!·.kind.isComment) ++ [close] := by
    simp [hkeep]
  have hwhole : whole = opening ++ (body ++ [close]) ++ after := by simp [whole]
  have hrest : (State.ofTokens whole).rest =
      opening ++ (body.filter (!·.kind.isComment) ++ close :: significant after) := by
    have hsignificant := significant_append hread after
    rw [← hwhole, List.filter_append, hopening, hbody'] at hsignificant
    exact hsignificant.trans (by simp)
  obtain ⟨f, s, used, brace, unread, hf, hcut, hbrace, hs, hstop, hown⟩ :=
    function_closes hbody.filter hclose (State.ofTokens_ne_eof whole) ho hrest
  obtain ⟨read, unread', hcut', rfl⟩ := exists_cut (hbody'.trans hcut)
  have hbefore : ∀ t ∈ unread', t.kind ≠ .eof := by
    intro t ht
    refine hread t (List.mem_append_right _ ?_)
    rw [hcut']
    exact List.mem_append_right _ (List.mem_cons_of_mem _ ht)
  have hs' : s.rest = significant (unread' ++ after) := by
    rw [hs, significant_append hbefore]
  have hsplit : whole = opening ++ (read ++ [brace]) ++ (unread' ++ after) := by
    rw [hwhole, hcut']
    simp
  refine ⟨f, s, read, brace, unread', hf, hcut', hbrace, hs', ?_, ?_⟩
  · have hk := ho.kind hrest
    rw [hsplit] at hf hstop hk ⊢
    refine parse_behind hk hf (fun t ht => hread t ?_) hs' hstop
    rw [hcut', ← List.singleton_append, ← List.append_assoc, ← List.append_assoc]
    rw [← List.append_assoc] at ht
    exact List.mem_append_left _ ht
  · rw [← hown]
    refine ⟨fun h => by rw [h]; rfl, fun h => ?_⟩
    -- the last token of all is the closing brace, which is no comment
    rcases List.eq_nil_or_concat unread' with hnil | ⟨most, last, rfl⟩
    · exact hnil
    · rw [List.concat_eq_append, ← List.cons_append, ← List.append_assoc] at hcut'
      have hlast : close = last := by simpa using (List.append_inj' hcut' rfl).2
      rw [← hlast, List.concat_eq_append, List.filter_append] at h
      simp [hkeep] at h

/-- `void f ( ) { { x = ; } } int y ;`: the assignment is given up, and the function ends at its
own brace. -/
theorem function_contained_block :
    let token kind lexeme start stop : Token := ⟨kind, lexeme, ⟨start, stop⟩⟩
    let opening := [token .voidKeyword "void" 0 4, token .identifier "f" 5 6,
      token .leftParen "(" 7 8, token .rightParen ")" 9 10, token .leftBrace "\x7b" 11 12]
    let wrong := [token .identifier "x" 15 16, token .equal "=" 17 18, token .semicolon ";" 19 20]
    let body := token .leftBrace "\x7b" 13 14 :: wrong ++ [token .rightBrace "\x7d" 21 22]
    let close := token .rightBrace "\x7d" 23 24
    let after := [token .intType "int" 25 28, token .identifier "y" 29 30,
      token .semicolon ";" 31 32]
    let whole := opening ++ body ++ close :: after
    Opens opening ∧ Balanced body ∧ (∀ t ∈ body, t.kind ≠ .eof) ∧ close.kind = .rightBrace ∧
    functionLost (State.ofTokens whole) = [wrong] ∧
    ∃ f s, function (State.ofTokens whole) = .ok f s ∧ s.rest = after ∧
      (parse whole).diagnostics = s.diagnostics ++ (parse after).diagnostics := by
  intro token opening wrong body close after whole
  have ho : Opens opening := rfl
  have hbody : Balanced body := by decide
  have heof : ∀ t ∈ body, t.kind ≠ .eof := by decide
  have hlost : functionLost (State.ofTokens whole) = [wrong] := by decide +kernel
  refine ⟨ho, hbody, heof, rfl, hlost, ?_⟩
  obtain ⟨f, s, read, brace, unread, hf, -, -, hrest, hds, hown⟩ :=
    @function_contained opening body after close ho hbody heof rfl
  have hnil : unread = [] := hown.mpr (by rw [hlost]; decide)
  rw [hnil] at hrest hds
  exact ⟨f, s, hf, hrest, hds⟩

/-- `void f ( ) { while ( ) { x = 1 ; } } int y ;` ends at the brace of the loop, since recovery
passed the brace that opens it. -/
theorem function_left_early :
    let token kind lexeme start stop : Token := ⟨kind, lexeme, ⟨start, stop⟩⟩
    let opening := [token .voidKeyword "void" 0 4, token .identifier "f" 5 6,
      token .leftParen "(" 7 8, token .rightParen ")" 9 10, token .leftBrace "\x7b" 11 12]
    let body := [token .whileKeyword "while" 13 18, token .leftParen "(" 19 20,
      token .rightParen ")" 21 22, token .leftBrace "\x7b" 23 24, token .identifier "x" 25 26,
      token .equal "=" 27 28, token .int "1" 29 30, token .semicolon ";" 31 32,
      token .rightBrace "\x7d" 33 34]
    let close := token .rightBrace "\x7d" 35 36
    let after := [token .intType "int" 37 40, token .identifier "y" 41 42,
      token .semicolon ";" 43 44]
    let whole := opening ++ body ++ close :: after
    Opens opening ∧ Balanced body ∧ (∀ t ∈ body, t.kind ≠ .eof) ∧ close.kind = .rightBrace ∧
    ¬ ∃ f s, function (State.ofTokens whole) = .ok f s ∧ s.rest = significant after ∧
      (parse whole).diagnostics = s.diagnostics ++ (parse after).diagnostics := by
  intro token opening body close after whole
  refine ⟨rfl, by decide, by decide, rfl, ?_⟩
  rintro ⟨f, s, hf, hrest, -⟩
  have hleft : (match function (State.ofTokens whole) with
      | .ok _ s => s.rest.length
      | .error _ _ => 0) = 4 := by decide +kernel
  rw [hf] at hleft
  dsimp only at hleft
  rw [hrest] at hleft
  exact absurd hleft (by decide)

end C1Lang
