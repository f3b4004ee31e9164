import C1Lang.Proofs.Lower.Stores

/-!
# The declarations that lowering comes to

Lowering the body of a function comes to its declarations one after the other (`ComesTo`), through
blocks, branches and loops. What holds as long as stores go into variables in scope that are not
constant is kept by all that lies between two declarations (`Stable`, `stmts_keeps`). In
particular slots are never given back, so each slot is allocated by one declaration
(`ComesTo.unique`).
-/

namespace C1Lang

namespace Lower

open IR

def branchEntry (test : Lower Operand) : Lower Nat := do
  let c ← test
  let thenBlock ← newBlock
  let next ← newBlock
  terminate (.branch c thenBlock next)
  switchTo thenBlock
  return next

def branchElseEntry (test : Lower Operand) : Lower (Nat × Nat) := do
  let c ← test
  let thenBlock ← newBlock
  let elseBlock ← newBlock
  let next ← newBlock
  terminate (.branch c thenBlock elseBlock)
  switchTo thenBlock
  return (elseBlock, next)

def loopEntry (test : Lower Operand) : Lower (Nat × Nat) := do
  let testBlock ← newBlock
  let bodyBlock ← newBlock
  let next ← newBlock
  terminate (.goto testBlock)
  switchTo testBlock
  let c ← test
  terminate (.branch c bodyBlock next)
  switchTo bodyBlock
  return (testBlock, next)

def part (body : Lower Unit) (target next : Nat) : Lower Unit := do
  recording body ()
  terminate (.goto target)
  switchTo next

theorem recording_cases {α : Type} (step : Lower α) (default : α) (s : State) :
    (∃ a s', recording step default s = .ok a s') ∨
      ∃ x s', recording step default s = .error (.fault x) s' := by
  unfold recording
  split
  · exact .inl ⟨_, _, rfl⟩
  · next hne =>
    cases hstep : step s with
    | ok a s' => exact .inl ⟨a, s', rfl⟩
    | error stop s' =>
      cases stop with
      | fault x => exact .inr ⟨x, s', rfl⟩
      | problem d => exact absurd hstep (hne d s')

theorem branch_eq (test : Lower Operand) (body : Lower Unit) :
    branch test body = branchEntry test >>= fun next => part body next next := by
  simp only [branch, branchEntry, part, bind_assoc, pure_bind]

theorem branchElse_eq (test : Lower Operand) (body other : Lower Unit) :
    branchElse test body other = branchElseEntry test >>= fun blocks =>
      part body blocks.2 blocks.1 >>= fun _ => part other blocks.2 blocks.2 := by
  simp only [branchElse, branchElseEntry, part, bind_assoc, pure_bind]

theorem loop_eq (test : Lower Operand) (body : Lower Unit) :
    loop test body = loopEntry test >>= fun blocks => part body blocks.1 blocks.2 := by
  simp only [loop, loopEntry, part, bind_assoc, pure_bind]

/-- Lowering the statements from a state comes to the declaration of the variable, and lowers it
from `s₁` to `s₂`. -/
inductive ComesTo (ctx : Context) (v : Variable) (s₁ s₂ : State) : List Stmt → State → Prop
  | declare {rest : List Stmt} : recording (variableDeclaration ctx v) () s₁ = .ok () s₂ →
      ComesTo ctx v s₁ s₂ (.declare v :: rest) s₁
  | later {st : Stmt} {rest : List Stmt} {s s' : State} :
      recording (stmt ctx st) () s = .ok () s' → ComesTo ctx v s₁ s₂ rest s' →
      ComesTo ctx v s₁ s₂ (st :: rest) s
  | block {body rest : List Stmt} {span : Span} {s : State} :
      ComesTo ctx v s₁ s₂ body { s with scopes := s.scopes.enter .block } →
      ComesTo ctx v s₁ s₂ (.block body span :: rest) s
  | branch {c : Condition} {st : Stmt} {span : Span} {rest : List Stmt} {s s' : State}
      {next : Nat} : branchEntry (test ctx c) s = .ok next s' → ComesTo ctx v s₁ s₂ [st] s' →
      ComesTo ctx v s₁ s₂ (.branch c st span :: rest) s
  | thenPart {c : Condition} {st other : Stmt} {span : Span} {rest : List Stmt} {s s' : State}
      {blocks : Nat × Nat} : branchElseEntry (test ctx c) s = .ok blocks s' →
      ComesTo ctx v s₁ s₂ [st] s' → ComesTo ctx v s₁ s₂ (.branchElse c st other span :: rest) s
  | elsePart {c : Condition} {st other : Stmt} {span : Span} {rest : List Stmt}
      {s s' s'' : State} {blocks : Nat × Nat} :
      branchElseEntry (test ctx c) s = .ok blocks s' →
      part (stmt ctx st) blocks.2 blocks.1 s' = .ok () s'' → ComesTo ctx v s₁ s₂ [other] s'' →
      ComesTo ctx v s₁ s₂ (.branchElse c st other span :: rest) s
  | loop {c : Condition} {st : Stmt} {span : Span} {rest : List Stmt} {s s' : State}
      {blocks : Nat × Nat} : loopEntry (test ctx c) s = .ok blocks s' →
      ComesTo ctx v s₁ s₂ [st] s' → ComesTo ctx v s₁ s₂ (.loop c st span :: rest) s

theorem ComesTo.head {ctx : Context} {v : Variable} {s₁ s₂ s : State} {st : Stmt}
    (h : ComesTo ctx v s₁ s₂ [st] s) (rest : List Stmt) : ComesTo ctx v s₁ s₂ (st :: rest) s := by
  cases h with
  | declare h => exact .declare h
  | later _ h => cases h
  | block h => exact .block h
  | branch he h => exact .branch he h
  | thenPart he h => exact .thenPart he h
  | elsePart he hp h => exact .elsePart he hp h
  | loop he h => exact .loop he h

section Entries

variable {W : Storage → Prop} {ctx : Context}

theorem branchEntry_keeping (c : Condition) :
    Keeping (Writes W) (branchEntry (test ctx c)) := by
  refine (test_keeping ctx c).bind fun o => ?_
  refine newBlock_keeping.bind fun thenBlock => newBlock_keeping.bind fun next => ?_
  exact (terminate_keeping _).bind fun _ => (switchTo_keeping _).bind fun _ => .pure next

theorem branchElseEntry_keeping (c : Condition) :
    Keeping (Writes W) (branchElseEntry (test ctx c)) := by
  refine (test_keeping ctx c).bind fun o => ?_
  refine newBlock_keeping.bind fun thenBlock => newBlock_keeping.bind fun elseBlock => ?_
  refine newBlock_keeping.bind fun next => ?_
  exact (terminate_keeping _).bind fun _ => (switchTo_keeping _).bind fun _ => .pure _

theorem loopEntry_keeping (c : Condition) : Keeping (Writes W) (loopEntry (test ctx c)) := by
  refine newBlock_keeping.bind fun testBlock => newBlock_keeping.bind fun bodyBlock => ?_
  refine newBlock_keeping.bind fun next => ?_
  refine (terminate_keeping _).bind fun _ => (switchTo_keeping _).bind fun _ => ?_
  refine (test_keeping ctx c).bind fun o => ?_
  exact (terminate_keeping _).bind fun _ => (switchTo_keeping _).bind fun _ => .pure _

theorem leave_keeping (target next : Nat) :
    Keeping (Writes W) (terminate (.goto target) >>= fun _ => switchTo next) :=
  (terminate_keeping _).bind fun _ => switchTo_keeping next

end Entries

/-- The relation holds along what stores only into variables in scope that are not constant, and
along what only leaves variables out of scope. -/
structure Stable (R : State → State → Prop) : Prop where
  writes : ∀ s s', Writes s.Assignable s s' → R s s'
  scopes : ∀ s scopes, (∀ x, Scopes.Binds scopes x → s.scopes.Binds x) → R s { s with scopes }

section Statements

variable {R : State → State → Prop} [IsPreorder State R] {ctx : Context} {s : State}

omit [IsPreorder State R] in
theorem Stable.keeping {α : Type} {step : Lower α} (hR : Stable R)
    (h : ∀ W, Keeping (Writes W) step) : Keeping R step :=
  fun s => (h s.Assignable s).mono (hR.writes s) fun _ _ _ h => h

theorem part_keeps (hR : Stable R) {body : Lower Unit} (target next : Nat)
    (h : Keeps R (recording body ()) s fun _ _ => True) :
    Keeps R (part body target next) s fun _ _ => True :=
  h.bind fun _ s' _ _ _ => hR.keeping (fun _ => leave_keeping target next) s'

theorem Stable.recording {α : Type} {step : Lower α} (hR : Stable R)
    (h : Keeps R step s fun _ _ => True) (a : α) :
    Keeps R (Lower.recording step a) s fun _ _ => True :=
  h.recording fun s' d hs => trans_of R hs (hR.writes s' _ (.record s' d))

mutual

theorem stmt_keeps (hR : Stable R) : (st : Stmt) → ∀ s,
    (∀ v s₁ s₂, ComesTo ctx v s₁ s₂ [st] s → R s₁ s₂) →
      Keeps R (recording (stmt ctx st) ()) s fun _ _ => True
  | .declare v => by
    intro s hd
    unfold stmt
    rcases recording_cases (variableDeclaration ctx v) () s with ⟨_, s', hrun⟩ | ⟨x, s', hrun⟩
    · exact .of_eq hrun (hd v s s' (.declare hrun)) trivial
    · exact .of_fault hrun
  | .assign target value _ => by
    intro s _
    unfold stmt
    exact hR.recording ((assignment_writes ctx target value).mono (hR.writes s) fun _ _ _ h => h) ()
  | .call name span => by
    intro s _
    unfold stmt
    exact hR.recording (hR.keeping (fun _ => call_keeping name span) s) ()
  | .block body _ => by
    intro s hd
    unfold stmt
    apply hR.recording
    refine .bind_eq rfl ((stmts_keeps hR body _ ?_).bind ?_) fun s' h => ?_
    · exact fun v s₁ s₂ h => hd v s₁ s₂ (.block h)
    · exact fun _ s' _ _ _ => ⟨hR.scopes s' _ fun x => Scopes.binds_exit, trivial⟩
    · exact trans_of R (hR.scopes s _ fun x => Scopes.binds_enter) h
  | .branch c st _ => by
    intro s hd
    unfold stmt
    rw [branch_eq]
    refine hR.recording ((hR.keeping (fun _ => branchEntry_keeping c) s).bind ?_) ()
    intro next s' he _ _
    exact part_keeps hR _ _ (stmt_keeps hR st s' fun v s₁ s₂ h => hd v s₁ s₂ (.branch he h))
  | .branchElse c st other _ => by
    intro s hd
    unfold stmt
    rw [branchElse_eq]
    refine hR.recording ((hR.keeping (fun _ => branchElseEntry_keeping c) s).bind ?_) ()
    intro blocks s' he _ _
    refine (part_keeps hR _ _ (stmt_keeps hR st s' ?_)).bind fun _ s'' hp _ _ => ?_
    · exact fun v s₁ s₂ h => hd v s₁ s₂ (.thenPart he h)
    · apply part_keeps hR _ _ (stmt_keeps hR other s'' ?_)
      exact fun v s₁ s₂ h => hd v s₁ s₂ (.elsePart he hp h)
  | .loop c st _ => by
    intro s hd
    unfold stmt
    rw [loop_eq]
    refine hR.recording ((hR.keeping (fun _ => loopEntry_keeping c) s).bind ?_) ()
    intro blocks s' he _ _
    exact part_keeps hR _ _ (stmt_keeps hR st s' fun v s₁ s₂ h => hd v s₁ s₂ (.loop he h))
  | .empty _ => by
    intro s _
    unfold stmt
    exact hR.recording (.pure trivial) ()

theorem stmts_keeps (hR : Stable R) : (body : List Stmt) → ∀ s,
    (∀ v s₁ s₂, ComesTo ctx v s₁ s₂ body s → R s₁ s₂) →
      Keeps R (stmts ctx body) s fun _ _ => True
  | [] => by
    intro s _
    unfold stmts
    exact .pure trivial
  | st :: rest => by
    intro s hd
    unfold stmts
    refine (stmt_keeps hR st s fun v s₁ s₂ h => hd v s₁ s₂ (h.head rest)).bind ?_
    intro _ s' heq _ _
    exact stmts_keeps hR rest s' fun v s₁ s₂ h => hd v s₁ s₂ (.later heq h)

end

end Statements

theorem localVariable_recorded {ctx : Context} (hc : ctx.inGlobalScope = false) {v : Variable}
    {s s' : State} (h : recording (variableDeclaration ctx v) () s = .ok () s') :
    Writes s.Assignable s s' ∨ Allocates v s s' := by
  have hkeeps := localVariable_keeps (s := s) ctx hc v
  unfold Keeps at hkeeps
  unfold recording at h
  split at h
  · next d s₁ hrun =>
    rw [hrun] at hkeeps
    cases h
    rcases hkeeps with hw | ha
    · exact .inl (hw.trans (.record s₁ d))
    · exact .inr (ha.writes (.record s₁ d))
  · rw [h] at hkeeps
    exact hkeeps.1

theorem ComesTo.run {ctx : Context} {v : Variable} {s₁ s₂ s : State} {body : List Stmt}
    (h : ComesTo ctx v s₁ s₂ body s) :
    recording (variableDeclaration ctx v) () s₁ = .ok () s₂ := by
  induction h with
  | declare h => exact h
  | later _ _ ih | block _ ih | branch _ _ ih | thenPart _ _ ih | elsePart _ _ _ ih
    | loop _ _ ih => exact ih

/-- No slot is given back, and no instruction is taken back. -/
structure Kept (s s' : State) : Prop where
  slots : s.slots ≤ s'.slots
  code : ∀ id position i, s.At id position i → s'.At id position i

instance : IsPreorder State Kept where
  refl s := ⟨Nat.le_refl s.slots, fun _ _ _ h => h⟩
  trans _ _ _ h k := ⟨Nat.le_trans h.slots k.slots, fun id position i hi =>
    k.code id position i (h.code id position i hi)⟩

theorem Writes.remains {W : Storage → Prop} {s s' : State} (h : Writes W s s') : Kept s s' :=
  ⟨Nat.le_of_eq h.slots.symm, h.kept⟩

theorem Allocates.remains {v : Variable} {s s' : State} (h : Allocates v s s') : Kept s s' :=
  ⟨h.slots ▸ Nat.le_succ _, h.kept⟩

theorem Kept.scopes (s : State) (scopes : Scopes) : Kept s { s with scopes } :=
  ⟨Nat.le_refl _, fun _ _ _ h => h⟩

theorem kept_stable : Stable Kept :=
  ⟨fun _ _ hw => hw.remains, fun s scopes _ => .scopes s scopes⟩

theorem kept_entry {α : Type} {step : Lower α} {s s' : State} {a : α}
    (h : ∀ W, Keeping (Writes W) step) (hs : step s = .ok a s') : Kept s s' :=
  (kept_stable.keeping h s).of_ok hs

section Order

variable {ctx : Context} {v v' : Variable} {s₁ s₂ s₁' s₂' s s' : State} {body : List Stmt}

theorem ComesTo.remains (hc : ctx.inGlobalScope = false) (h : ComesTo ctx v s₁ s₂ body s) :
    Kept s₁ s₂ := by
  rcases localVariable_recorded hc h.run with hw | ha
  · exact hw.remains
  · exact ha.remains

theorem stmt_kept (hc : ctx.inGlobalScope = false) (st : Stmt) (s : State) :
    Keeps Kept (recording (stmt ctx st) ()) s fun _ _ => True :=
  stmt_keeps kept_stable st s fun _ _ _ h => h.remains hc

theorem stmts_kept (hc : ctx.inGlobalScope = false) (body : List Stmt) (s : State) :
    Keeps Kept (stmts ctx body) s fun _ _ => True :=
  stmts_keeps kept_stable body s fun _ _ _ h => h.remains hc

theorem part_kept (hc : ctx.inGlobalScope = false) (st : Stmt) (target next : Nat)
    (s : State) : Keeps Kept (part (stmt ctx st) target next) s fun _ _ => True :=
  part_keeps kept_stable target next (stmt_kept hc st s)

theorem ComesTo.kept_before (hc : ctx.inGlobalScope = false) (h : ComesTo ctx v s₁ s₂ body s) :
    Kept s s₁ := by
  induction h with
  | declare _ => exact refl_of Kept _
  | later heq _ ih => exact trans_of Kept ((stmt_kept hc _ _).of_ok heq) ih
  | block _ ih => exact trans_of Kept (.scopes _ _) ih
  | branch he _ ih =>
    exact trans_of Kept (kept_entry (fun _ => branchEntry_keeping _) he) ih
  | thenPart he _ ih =>
    exact trans_of Kept (kept_entry (fun _ => branchElseEntry_keeping _) he) ih
  | elsePart he hp _ ih =>
    have hpart := (part_kept hc _ _ _ _).of_ok hp
    exact trans_of Kept (kept_entry (fun _ => branchElseEntry_keeping _) he)
      (trans_of Kept hpart ih)
  | loop he _ ih => exact trans_of Kept (kept_entry (fun _ => loopEntry_keeping _) he) ih

theorem stmts_singleton (ctx : Context) (st : Stmt) :
    stmts ctx [st] = recording (stmt ctx st) () := by
  simp [stmts]

theorem part_kept_after {t : State} {st : Stmt} (target next : Nat)
    (h : Keeps (fun _ => Kept t) (stmts ctx [st]) s fun _ _ => True) :
    Keeps (fun _ => Kept t) (part (stmt ctx st) target next) s fun _ _ => True := by
  rw [stmts_singleton] at h
  refine h.bind_trans (fun _ s' _ _ _ => ?_) fun _ _ => trans_of Kept
  exact kept_stable.keeping (fun _ => leave_keeping target next) s'

theorem ComesTo.kept_after (hc : ctx.inGlobalScope = false) (h : ComesTo ctx v s₁ s₂ body s) :
    Keeps (fun _ => Kept s₂) (stmts ctx body) s fun _ _ => True := by
  have hrest : ∀ {st : Stmt} {rest : List Stmt} {s : State},
      Keeps (fun _ => Kept s₂) (stmt ctx st) s (fun _ _ => True) →
        Keeps (fun _ => Kept s₂) (stmts ctx (st :: rest)) s fun _ _ => True := by
    intro st rest s hst
    unfold stmts
    refine (hst.recording fun s' d hs => ?_).bind_trans (fun _ s' _ _ _ => ?_)
      fun _ _ => trans_of Kept
    · exact ⟨hs.slots, hs.code⟩
    · exact stmts_kept hc rest s'
  induction h with
  | declare hrun =>
    unfold stmts stmt
    exact .bind_eq hrun (stmts_kept hc _ _) fun _ h => h
  | later heq _ ih =>
    unfold stmts
    exact .bind_eq heq ih fun _ h => h
  | block _ ih =>
    apply hrest
    unfold stmt
    refine .bind_eq rfl (ih.bind_trans (fun _ s' _ _ _ => ?_) fun _ _ => trans_of Kept)
      fun _ h => h
    exact ⟨.scopes s' _, trivial⟩
  | branch he _ ih =>
    apply hrest
    unfold stmt
    rw [branch_eq]
    exact .bind_eq he (part_kept_after _ _ ih) fun _ h => h
  | thenPart he _ ih =>
    apply hrest
    unfold stmt
    rw [branchElse_eq]
    refine .bind_eq he ((part_kept_after _ _ ih).bind_trans (fun _ s' _ _ _ => ?_)
      fun _ _ => trans_of Kept) fun _ h => h
    exact part_kept hc _ _ _ s'
  | elsePart he hp _ ih =>
    apply hrest
    unfold stmt
    rw [branchElse_eq]
    refine .bind_eq he (R := fun _ => Kept s₂) ?_ fun _ h => h
    exact .bind_eq hp (part_kept_after _ _ ih) fun _ h => h
  | loop he _ ih =>
    apply hrest
    unfold stmt
    rw [loop_eq]
    exact .bind_eq he (part_kept_after _ _ ih) fun _ h => h

theorem ComesTo.head_or_later {st : Stmt} {rest : List Stmt}
    (h : ComesTo ctx v s₁ s₂ (st :: rest) s) : ComesTo ctx v s₁ s₂ [st] s ∨
      ∃ s', recording (stmt ctx st) () s = .ok () s' ∧ ComesTo ctx v s₁ s₂ rest s' := by
  cases h with
  | declare h => exact .inl (.declare h)
  | later heq h => exact .inr ⟨_, heq, h⟩
  | block h => exact .inl (.block h)
  | branch he h => exact .inl (.branch he h)
  | thenPart he h => exact .inl (.thenPart he h)
  | elsePart he hp h => exact .inl (.elsePart he hp h)
  | loop he h => exact .inl (.loop he h)

theorem ComesTo.before (hc : ctx.inGlobalScope = false) {st : Stmt} {rest : List Stmt}
    (h : ComesTo ctx v s₁ s₂ [st] s) (heq : recording (stmt ctx st) () s = .ok () s')
    (h' : ComesTo ctx v' s₁' s₂' rest s') : Kept s₂ s₁' := by
  have hhead := h.kept_after hc
  rw [stmts_singleton] at hhead
  exact trans_of Kept (hhead.of_ok heq) (h'.kept_before hc)

theorem ComesTo.before_part (hc : ctx.inGlobalScope = false) {st other : Stmt} {target next : Nat}
    (h : ComesTo ctx v s₁ s₂ [st] s) (hp : part (stmt ctx st) target next s = .ok () s')
    (h' : ComesTo ctx v' s₁' s₂' [other] s') : Kept s₂ s₁' :=
  trans_of Kept ((part_kept_after target next (h.kept_after hc)).of_ok hp) (h'.kept_before hc)

theorem ComesTo.unique (hc : ctx.inGlobalScope = false) (h : ComesTo ctx v s₁ s₂ body s)
    (h' : ComesTo ctx v' s₁' s₂' body s) (hs : s₁'.slots = s₁.slots)
    (hlt : s₁.slots < s₂.slots) (hlt' : s₁'.slots < s₂'.slots) :
    v' = v ∧ s₁' = s₁ ∧ s₂' = s₂ := by
  -- neither of the two can come before the other, as both find the same number of slots
  have hbefore : ¬ Kept s₂ s₁' := fun h => by
    have := h.slots
    omega
  have hafter : ¬ Kept s₂' s₁ := fun h => by
    have := h.slots
    omega
  induction h with
  | declare hrun =>
    cases h' with
    | declare hrun' =>
      rw [hrun] at hrun'
      cases hrun'
      exact ⟨rfl, rfl, rfl⟩
    | later heq h' => exact absurd (before hc (.declare hrun) heq h') hbefore
  | later heq h ih =>
    rcases h'.head_or_later with h' | ⟨s', heq', h'⟩
    · exact absurd (before hc h' heq h) hafter
    · rw [heq] at heq'
      cases heq'
      exact ih h'
  | block h ih =>
    cases h' with
    | block h' => exact ih h'
    | later heq h' => exact absurd (before hc (.block h) heq h') hbefore
  | branch he h ih =>
    cases h' with
    | branch he' h' =>
      rw [he] at he'
      cases he'
      exact ih h'
    | later heq h' => exact absurd (before hc (.branch he h) heq h') hbefore
  | thenPart he h ih =>
    cases h' with
    | thenPart he' h' =>
      rw [he] at he'
      cases he'
      exact ih h'
    | elsePart he' hp' h' =>
      rw [he] at he'
      cases he'
      exact absurd (before_part hc h hp' h') hbefore
    | later heq h' => exact absurd (before hc (.thenPart he h) heq h') hbefore
  | elsePart he hp h ih =>
    cases h' with
    | thenPart he' h' =>
      rw [he] at he'
      cases he'
      exact absurd (before_part hc h' hp h) hafter
    | elsePart he' hp' h' =>
      rw [he] at he'
      cases he'
      rw [hp] at hp'
      cases hp'
      exact ih h'
    | later heq h' => exact absurd (before hc (.elsePart he hp h) heq h') hbefore
  | loop he h ih =>
    cases h' with
    | loop he' h' =>
      rw [he] at he'
      cases he'
      exact ih h'
    | later heq h' => exact absurd (before hc (.loop he h) heq h') hbefore

end Order

end Lower

end C1Lang
