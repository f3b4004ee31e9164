import C1Lang.Proofs.Lower.Rollback
import C1Lang.Proofs.Lower.Walk
import C1Lang.Proofs.Parser.Soundness

/-!
# Scopes around statements

Lowering a statement leaves the scopes as they were, whether it succeeds or stops: blocks and
functions leave the scopes that they enter, also when something in them stops. A declaration adds
its own name to the innermost scope, and nothing else; one in a function does so before its
initializers are looked at, so that the name stays when they stop it (`scopes_disciplined`).
-/

namespace C1Lang

structure Scopes.Grown (σ τ : Scopes) (added : List (String × Binding)) : Prop where
  depth : τ.depth = σ.depth
  below : τ.all.tail = σ.all.tail
  current : τ.current = { σ.current with bindings := added ++ σ.current.bindings }

theorem Scopes.Grown.refl (σ : Scopes) : σ.Grown σ [] := ⟨rfl, rfl, rfl⟩

theorem Scopes.grown_declare (σ : Scopes) (name : String) (x : Binding) :
    σ.Grown (σ.declare name x) [(name, x)] := by
  obtain ⟨inner, outer⟩ := σ
  cases inner with
  | nil => exact ⟨rfl, rfl, rfl⟩
  | cons scope rest => exact ⟨rfl, rfl, rfl⟩

/-- A local variable gets its name when its innermost scope does not know the name, and its length
is one. -/
structure Variable.Admitted (v : Variable) (σ : Scopes) : Prop where
  fresh : σ.lookupCurrent v.name = none
  sized : v.Sized

namespace Stmt

def parts : Stmt → List Stmt
  | .block body _ => body
  | .branch _ body _ | .loop _ body _ => [body]
  | .branchElse _ body other _ => [body, other]
  | .declare _ | .assign _ _ _ | .call _ _ | .empty _ => []

def declared? : Stmt → Option Variable
  | .declare v => some v
  | .assign _ _ _ | .call _ _ | .block _ _ | .branch _ _ _ | .branchElse _ _ _ _ | .loop _ _ _
  | .empty _ => none

mutual

def Plain : Stmt → Prop
  | .block body _ => AllPlain body
  | .branch _ body _ | .loop _ body _ => body.declared? = none ∧ body.Plain
  | .branchElse _ body other _ =>
    (body.declared? = none ∧ body.Plain) ∧ other.declared? = none ∧ other.Plain
  | .declare _ | .assign _ _ _ | .call _ _ | .empty _ => True

def AllPlain : List Stmt → Prop
  | [] => True
  | st :: rest => st.Plain ∧ AllPlain rest

end

theorem AllPlain.plain {body : List Stmt} (h : AllPlain body) : ∀ st ∈ body, st.Plain := by
  induction body with
  | nil => exact fun _ hst => nomatch hst
  | cons first rest ih =>
    rw [AllPlain] at h
    exact List.forall_mem_cons.mpr ⟨h.1, ih h.2⟩

theorem Plain.parts {st : Stmt} (h : st.Plain) : ∀ part ∈ st.parts, part.Plain := by
  cases st with
  | block body => exact AllPlain.plain (by rwa [Plain] at h)
  | branch _ body | loop _ body =>
    rw [Plain] at h
    simpa [Stmt.parts] using h.2
  | branchElse _ body other =>
    rw [Plain] at h
    simpa [Stmt.parts] using ⟨h.1.2, h.2.2⟩
  | _ => simp [Stmt.parts]

theorem allPlain_declare (vs : List Variable) {body : List Stmt} (h : AllPlain body) :
    AllPlain (vs.map .declare ++ body) := by
  induction vs with
  | nil => exact h
  | cons v vs ih =>
    rw [List.map_cons, List.cons_append, AllPlain, Plain]
    exact ⟨trivial, ih⟩

end Stmt

inductive Program.Contains (p : Program) : Stmt → Prop
  | top {f : FunctionDef} {st : Stmt} : .function f ∈ p → st ∈ f.body → Contains p st
  | part {outer st : Stmt} : Contains p outer → st ∈ outer.parts → Contains p st

namespace Grammar

mutual

theorem Statement.plain : {ts rest : List Token} → {st : Stmt} → Statement ts st rest →
    st.declared? = none ∧ st.Plain
  | _, _, _, .block _ hbody _ => by
    rw [Stmt.Plain]
    exact ⟨rfl, hbody.plain⟩
  | _, _, _, .branch _ _ hbody => by
    rw [Stmt.Plain]
    exact ⟨rfl, hbody.plain⟩
  | _, _, _, .branchElse _ _ hbody _ _ hother => by
    rw [Stmt.Plain]
    exact ⟨rfl, hbody.plain, hother.plain⟩
  | _, _, _, .loop _ _ hbody => by
    rw [Stmt.Plain]
    exact ⟨rfl, hbody.plain⟩
  | _, _, _, .empty _ => by
    rw [Stmt.Plain]
    exact ⟨rfl, trivial⟩
  | _, _, _, .call _ _ _ _ => by
    rw [Stmt.Plain]
    exact ⟨rfl, trivial⟩
  | _, _, _, .assign _ _ _ _ => by
    rw [Stmt.Plain]
    exact ⟨rfl, trivial⟩

theorem Items.plain : {ts rest : List Token} → {body : List Stmt} → Items ts body rest →
    Stmt.AllPlain body
  | _, _, _, .done => by
    rw [Stmt.AllPlain]
    trivial
  | _, _, _, .declare _ hbody => Stmt.allPlain_declare _ hbody.plain
  | _, _, _, .statement hst hbody => by
    rw [Stmt.AllPlain]
    exact ⟨hst.plain.2, hbody.plain⟩

end

theorem Derives.plain {ts : List Token} {p : Program} (h : Derives ts p) :
    ∀ f, .function f ∈ p → Stmt.AllPlain f.body := by
  induction h with
  | done => exact fun _ hf => nomatch hf
  | function _ _ _ _ _ hbody _ _ ih =>
    intro f hf
    rcases List.mem_cons.mp hf with heq | hf
    · cases heq
      exact hbody.plain
    · exact ih f hf
  | globals _ _ ih =>
    intro f hf
    rcases List.mem_append.mp hf with hf | hf
    · obtain ⟨v, -, heq⟩ := List.mem_map.mp hf
      cases heq
    · exact ih f hf

theorem Derives.contains_plain {ts : List Token} {p : Program} (h : Derives ts p) {st : Stmt}
    (hst : p.Contains st) : st.Plain := by
  induction hst with
  | top hf hst => exact (h.plain _ hf).plain _ hst
  | part _ hpart ih => exact ih.parts _ hpart

end Grammar

namespace Lower

inductive Item
  | outer (d : Declaration)
  | inner (st : Stmt)

namespace Item

def lower : Item → Lower Unit
  | outer d => declaration d
  | inner st => stmt .inFunction st

def isLocal : Item → Bool
  | outer _ => false
  | inner _ => true

def declared? : Item → Option Variable
  | outer (.function _) => none
  | outer (.global v) => some v
  | inner st => st.declared?

def In (p : Program) : Item → Prop
  | outer d => d ∈ p
  | inner st => p.Contains st

/-- What lowering the item makes of the scopes. A declaration that stops has added its name if it
is one in a function that got as far as its initializers. -/
def Scoping (x : Item) (succeeded : Bool) (σ τ : Scopes) : Prop :=
  match x.declared? with
  | none => σ.Grown τ [] ∧ ∀ name, τ.lookup name = σ.lookup name
  | some v => ∃ added, σ.Grown τ added ∧
      (added = [] ∨ ∃ storage, added = [(v.name, v.binding storage)]) ∧
      (added ≠ [] ↔ succeeded = true ∨ x.isLocal = true ∧ v.Admitted σ)

def Disciplined (x : Item) (s : State) : Prop :=
  Ends x.lower s (fun _ s' => x.Scoping true s.scopes s'.scopes)
    (fun s' => x.Scoping false s.scopes s'.scopes)

end Item

inductive Visits (st : Stmt) (t : State) : List Stmt → State → Prop
  | here {rest : List Stmt} : Visits st t (st :: rest) t
  | later {first : Stmt} {rest : List Stmt} {s s' : State} :
      recording (stmt .inFunction first) () s = .ok () s' → Visits st t rest s' →
      Visits st t (first :: rest) s
  | block {body rest : List Stmt} {span : Span} {s : State} :
      Visits st t body { s with scopes := s.scopes.enter .block } →
      Visits st t (.block body span :: rest) s
  | branch {c : Condition} {body : Stmt} {span : Span} {rest : List Stmt} {s s' : State}
      {next : Nat} : branchEntry (test .inFunction c) s = .ok next s' → Visits st t [body] s' →
      Visits st t (.branch c body span :: rest) s
  | thenPart {c : Condition} {body other : Stmt} {span : Span} {rest : List Stmt} {s s' : State}
      {blocks : Nat × Nat} : branchElseEntry (test .inFunction c) s = .ok blocks s' →
      Visits st t [body] s' → Visits st t (.branchElse c body other span :: rest) s
  | elsePart {c : Condition} {body other : Stmt} {span : Span} {rest : List Stmt}
      {s s' s'' : State} {blocks : Nat × Nat} :
      branchElseEntry (test .inFunction c) s = .ok blocks s' →
      part (stmt .inFunction body) blocks.2 blocks.1 s' = .ok () s'' → Visits st t [other] s'' →
      Visits st t (.branchElse c body other span :: rest) s
  | loop {c : Condition} {body : Stmt} {span : Span} {rest : List Stmt} {s s' : State}
      {blocks : Nat × Nat} : loopEntry (test .inFunction c) s = .ok blocks s' →
      Visits st t [body] s' → Visits st t (.loop c body span :: rest) s

inductive Encounters (name : String) (p : Program) : Item → State → Prop
  | outer {before after : Program} {d : Declaration} {s : State} : p = before ++ d :: after →
      declarations before { module := { name } } = .ok () s → Encounters name p (.outer d) s
  | inner {f : FunctionDef} {st : Stmt} {s t : State} : Encounters name p (.outer (.function f)) s →
      s.functions.lookup f.name = none → s.scopes.lookupGlobal f.name = none →
      Visits st t f.body (s.opening f) → Encounters name p (.inner st) t

def Reachable (isLocal : Bool) (s : State) : Prop :=
  ∃ name p x, Encounters name p x s ∧ x.isLocal = isLocal

section Steps

def SameScopes (s s' : State) : Prop := s'.scopes = s.scopes

instance : IsPreorder State SameScopes where
  refl _ := rfl
  trans _ _ _ h k := Eq.trans k h

def SameOuter (s s' : State) : Prop :=
  s.scopes.inner ≠ [] → s'.scopes.inner ≠ [] ∧ s'.scopes.exit = s.scopes.exit

instance : IsPreorder State SameOuter where
  refl _ h := ⟨h, rfl⟩
  trans _ _ _ h k hi := ⟨(k (h hi).1).1, (k (h hi).1).2.trans (h hi).2⟩

theorem SameScopes.outer {s s' : State} (h : SameScopes s s') : SameOuter s s' := by
  intro hi
  rw [h]
  exact ⟨hi, rfl⟩

theorem Keeping.scopes {α : Type} {W : Storage → Prop} {step : Lower α}
    (h : Keeping (Writes W) step) : Keeping SameScopes step :=
  fun s => (h s).mono (fun _ hw => hw.scopes) fun _ _ _ h => h

variable {s : State}

theorem stmts_cases (ctx : Context) (body : List Stmt) (s : State) :
    (∃ s', stmts ctx body s = .ok () s') ∨
      ∃ x s', stmts ctx body s = .error (.fault x) s' := by
  induction body generalizing s with
  | nil =>
    unfold stmts
    exact .inl ⟨s, rfl⟩
  | cons st rest ih =>
    unfold stmts
    rcases recording_cases (stmt ctx st) () s with ⟨_, s', heq⟩ | ⟨x, s', heq⟩
    · rw [bind_ok heq]
      exact ih s'
    · rw [bind_error heq]
      exact .inr ⟨x, s', rfl⟩

theorem part_scopes {body : Lower Unit} (h : Keeping SameScopes body) (target next : Nat) :
    Keeping SameScopes (part body target next) := by
  intro s
  refine ((h s).recording fun _ _ h => h).bind fun _ s' _ _ _ => ?_
  exact (leave_keeping (W := fun _ => False) target next).scopes s'

def Named (v : Variable) (s s' : State) : Prop :=
  s'.scopes = s.scopes.declare v.name (v.binding (.slot s.slots))

theorem allocate_scopes {v : Variable} {ty : IR.Ty} {next : Nat → Lower Unit}
    (hn : s.scopes.lookupCurrent v.name = none) (h : ∀ slot, Keeping SameScopes (next slot)) :
    Keeps (Named v) (newSlot v.name ty >>= fun slot => bind v (.slot slot) >>= fun _ => next slot)
      s fun _ _ => True := by
  cases hs : s.builder with
  | none =>
    have hnew : newSlot v.name ty s = .error (.fault .noOpenFunction) s := by
      simp [newSlot, onBuilder, hs]
    exact .of_fault (bind_error hnew)
  | some b =>
    have hslots : s.slots = b.locals.size := by simp [State.slots, hs]
    have hn' : (s.building (b.addLocal v.name ty).2).scopes.lookupCurrent v.name = none := hn
    refine .bind_eq (R := fun _ => Named v s) (newSlot_eq hs v.name ty) ?_ fun _ h => h
    refine .bind_eq (bind_eq hn' _) (h _ _) fun s' heq => ?_
    unfold Named
    rw [hslots]
    exact heq

def Introduces (v : Variable) (s s' : State) : Prop :=
  v.Admitted s.scopes ∧ Named v s s' ∨ ¬ v.Admitted s.scopes ∧ SameScopes s s'

/-- A declaration in a function adds its name as soon as it has passed the checks, and succeeds
only then. -/
theorem localVariable_scopes (v : Variable) (s : State) :
    Keeps (Introduces v) (variableDeclaration .inFunction v) s
      fun _ _ => v.Admitted s.scopes := by
  apply Keeps.get_bind
  cases hn : s.scopes.lookupCurrent v.name with
  | some x =>
    refine .inr ⟨fun h => ?_, rfl⟩
    rw [h.fresh] at hn
    cases hn
  | none =>
    have hadmitted : ∀ {step : Lower Unit}, v.Sized → Keeps (Named v) step s (fun _ _ => True) →
        Keeps (Introduces v) step s fun _ _ => v.Admitted s.scopes :=
      fun hv h => h.mono (fun _ heq => .inl ⟨⟨hn, hv⟩, heq⟩) fun _ _ _ _ => ⟨hn, hv⟩
    cases hv : v.extent with
    | none =>
      refine hadmitted (by simp [Variable.Sized, hv]) (allocate_scopes hn fun slot => ?_)
      split
      · exact .pure _
      · exact (initialize_keeping _ slot v.kind _).scopes
    | some extent =>
      have hlength := arrayLength_cases .inFunction v extent.length s
      rcases hlength with ⟨n, heq, hs⟩ | ⟨d, heq, hs⟩
      · refine .bind_eq heq (hadmitted ?_ (allocate_scopes hn fun slot => ?_)) fun _ h => h
        · simpa [Variable.Sized, hv] using ⟨n, hs⟩
        · apply Keeping.ite (.pure _)
          exact (storeElements_keeping (W := (· = .slot slot)) rfl _ _ _ _ _).scopes
      · refine .of_problem (bind_error heq) (.inr ⟨fun h => ?_, rfl⟩)
        obtain ⟨n, hn⟩ := h.sized extent hv
        exact hs n hn

theorem localVariable_outer (v : Variable) (s : State) :
    Keeps SameOuter (variableDeclaration .inFunction v) s fun _ _ => True := by
  refine (localVariable_scopes v s).mono (fun s' h => ?_) fun _ _ _ _ => trivial
  rcases h with ⟨-, h⟩ | ⟨-, h⟩
  · intro hi
    rw [h]
    exact ⟨Scopes.declare_inner_ne_nil hi _ _, Scopes.exit_declare hi _ _⟩
  · exact h.outer

mutual

theorem stmt_scopes : (st : Stmt) → st.declared? = none ∧ st.Plain →
    Keeping SameScopes (stmt .inFunction st)
  | .declare v, h => nomatch h.1
  | .assign target value _, _ => by
    intro s
    unfold stmt
    exact (assignment_writes _ target value).mono (fun _ h => h.scopes) fun _ _ _ h => h
  | .call name span, _ => by
    unfold stmt
    exact (call_keeping (W := fun _ => False) name span).scopes
  | .block body _, h => by
    rw [Stmt.Plain] at h
    intro s
    unfold stmt
    rcases stmts_cases .inFunction body { s with scopes := s.scopes.enter .block } with
      ⟨s', heq⟩ | ⟨x, s', heq⟩
    · have hout := (stmts_scopes body h.2 _).of_ok heq (List.cons_ne_nil _ _)
      exact .of_eq ((bind_ok rfl).trans (bind_ok heq)) hout.2 trivial
    · exact .of_fault ((bind_ok rfl).trans (bind_error heq))
  | .branch c body _, h => by
    rw [Stmt.Plain] at h
    unfold stmt
    rw [branch_eq]
    refine (branchEntry_keeping (W := fun _ => False) c).scopes.bind fun next => ?_
    exact part_scopes (stmt_scopes body h.2) next next
  | .branchElse c body other _, h => by
    rw [Stmt.Plain] at h
    unfold stmt
    rw [branchElse_eq]
    refine (branchElseEntry_keeping (W := fun _ => False) c).scopes.bind fun blocks => ?_
    refine (part_scopes (stmt_scopes body h.2.1) _ _).bind fun _ => ?_
    exact part_scopes (stmt_scopes other h.2.2) _ _
  | .loop c body _, h => by
    rw [Stmt.Plain] at h
    unfold stmt
    rw [loop_eq]
    refine (loopEntry_keeping (W := fun _ => False) c).scopes.bind fun blocks => ?_
    exact part_scopes (stmt_scopes body h.2) _ _
  | .empty _, _ => by
    unfold stmt
    exact .pure ()

theorem stmts_scopes : (body : List Stmt) → Stmt.AllPlain body →
    Keeping SameOuter (stmts .inFunction body)
  | [], _ => by
    unfold stmts
    exact .pure ()
  | st :: rest, h => by
    rw [Stmt.AllPlain] at h
    have hst : Keeping SameOuter (stmt .inFunction st) := by
      cases hd : st.declared? with
      | none =>
        intro s
        exact (stmt_scopes st ⟨hd, h.1⟩ s).mono (fun _ h => h.outer) fun _ _ _ h => h
      | some v =>
        cases st <;> cases hd
        intro s
        unfold stmt
        exact localVariable_outer v s
    intro s
    unfold stmts
    refine ((hst s).recording fun _ _ h => h).bind fun _ s' _ _ _ => ?_
    exact stmts_scopes rest h.2 s'

end

end Steps

section Reached

open IR IR.Builder

variable {s s' t : State} {b : Builder} {c : Condition} {st : Stmt}

theorem Ends.of_ok {α : Type} {step : Lower α} {done : α → State → Prop}
    {stopped : State → Prop} {a : α} (h : Ends step s done stopped) (hs : step s = .ok a s') :
    done a s' := by
  unfold Ends at h
  rwa [hs] at h

def Building (s : State) : Prop := s.scopes.inner ≠ [] ∧ ∃ b, Ready s b

theorem Proceeds.building {waiting : List Nat} {b' : Builder}
    (h : Proceeds s b waiting s' b') : Building s' := ⟨h.inner, b', h.ready⟩

theorem branchEntry_ends (c : Condition) (h : Building s) :
    Ends (branchEntry (test .inFunction c)) s (fun _ => Building) fun _ => False := by
  obtain ⟨hi, b, hr⟩ := h
  refine (test_tests .inFunction c s b hr hi _).bind (fun o s₁ hdone => ?_) fun _ h => h
  obtain ⟨b₁, hp, -, -, ho, -⟩ := hdone
  have hopen := hp.ready.opened
  refine .bind_eq (newBlock_eq hp.ready.builder) (.bind_eq (newBlock_eq rfl) ?_)
  refine .bind_eq (terminate_eq rfl hopen.create.create _) (.bind_eq (switchTo_eq rfl _) ?_)
  rw [createBlock_size]
  exact .pure (hp.fork hr.opened ho).building

def Forked (s : State) (blocks : Nat × Nat) (s' : State) : Prop :=
  ∃ b b', b.Open ∧ Proceeds s b [blocks.2, blocks.1] s' b' ∧ blocks.2 ≠ blocks.1 ∧
    Linked b'.blocks b.current blocks.1

theorem branchElseEntry_ends (c : Condition) (h : Building s) :
    Ends (branchElseEntry (test .inFunction c)) s (Forked s) fun _ => False := by
  obtain ⟨hi, b, hr⟩ := h
  refine (test_tests .inFunction c s b hr hi _).bind (fun o s₁ hdone => ?_) fun _ h => h
  obtain ⟨b₁, hp, -, -, ho, -⟩ := hdone
  have hopen := hp.ready.opened
  refine .bind_eq (newBlock_eq hp.ready.builder) (.bind_eq (newBlock_eq rfl) ?_)
  refine .bind_eq (newBlock_eq rfl) (.bind_eq (terminate_eq rfl hopen.create.create.create _) ?_)
  refine .bind_eq (switchTo_eq rfl _) (.pure ?_)
  simp only [createBlock_size]
  refine ⟨b, forkElse b₁ o, hr.opened, (hp.forkElse hr.opened ho :), by simp, ?_⟩
  exact (hp.three hr.opened).linked hr.opened (.branch o b₁.blocks.size (b₁.blocks.size + 1))
    b₁.blocks.size (List.mem_cons_of_mem _ List.mem_cons_self)

theorem loopEntry_ends (c : Condition) (h : Building s) :
    Ends (loopEntry (test .inFunction c)) s (fun _ => Building) fun _ => False := by
  obtain ⟨hi, b, hr⟩ := h
  have hp := ((Emits.refl hr).proceeds hr hi).enterLoop hr.opened
  have hopen := hr.opened.create.create.create
  refine .bind_eq (newBlock_eq hr.builder) (.bind_eq (newBlock_eq rfl) ?_)
  refine .bind_eq (newBlock_eq rfl) (.bind_eq (terminate_eq rfl hopen _) ?_)
  refine .bind_eq (switchTo_eq rfl _) ?_
  refine (test_tests .inFunction c _ _ hp.ready hp.inner _).bind ?_ fun _ h => h
  intro o s₁ hdone
  obtain ⟨b₁, hp₁, -, -, ho, -⟩ := hdone
  refine .bind_eq (terminate_eq hp₁.ready.builder hp₁.ready.opened _) ?_
  refine .bind_eq (switchTo_eq rfl _) (.pure ?_)
  simp only [createBlock_size]
  have hp₂ := hp.trans hr.opened hp₁
  exact (hp₂.branch hr.opened ho (erase_second _) (by simp) List.mem_cons_self).building

theorem stmt_building (st : Stmt) (h : Building s)
    (hs : recording (stmt .inFunction st) () s = .ok () s') : Building s' := by
  obtain ⟨hi, b, hr⟩ := h
  have hends := (stmt_advances .inFunction rfl st).recording hr hi fun _ => False
  obtain ⟨_, s₁, heq, b₁, hp, -⟩ := hends.exists_ok
  rw [hs] at heq
  cases heq
  exact hp.building

theorem part_building (st : Stmt) {blocks : Nat × Nat} {s'' : State} (h : Forked s blocks s')
    (hs : part (stmt .inFunction st) blocks.2 blocks.1 s' = .ok () s'') : Building s'' := by
  obtain ⟨b, b', hb, hp, hne, hl⟩ := h
  have hends := (stmt_advances .inFunction rfl st).recording hp.ready hp.inner fun _ => False
  obtain ⟨_, s₁, heq, b₁, hp₁, -⟩ := hends.exists_ok
  have hp₂ := hp.trans hb hp₁
  have hrun : part (stmt .inFunction st) blocks.2 blocks.1 s' =
      .ok () (s₁.building (b₁.leave (.goto blocks.2) blocks.1)) :=
    (bind_ok heq).trans (leave_eq _ _ hp₁.ready.builder hp₁.ready.opened)
  rw [hs] at hrun
  cases hrun
  have hl₂ := hl.mono (hp₁.built.within hp.ready.opened)
  have hw : [blocks.2, blocks.1].erase blocks.1 = [blocks.2] := by simp [hne]
  exact (hp₂.goto hb _ hw (by simp) (hp₂.lt hb List.mem_cons_self)
    ⟨_, List.mem_cons_self, .refl⟩ (.inr hl₂)).building

theorem Visits.building {body : List Stmt} (h : Visits st t body s) (hs : Building s) :
    Building t := by
  induction h with
  | here => exact hs
  | later heq _ ih => exact ih (stmt_building _ hs heq)
  | block _ ih =>
    obtain ⟨hi, b, hr⟩ := hs
    exact ih ⟨List.cons_ne_nil _ _, b, hr.builder, hr.opened, hr.fits.enter _, hr.callees⟩
  | branch heq _ ih => 
    exact ih ((branchEntry_ends _ hs).of_ok heq)
  | thenPart heq _ ih =>
    obtain ⟨b, b', -, hp, -⟩ := (branchElseEntry_ends _ hs).of_ok heq
    exact ih hp.building
  | elsePart heq hpart _ ih =>
    have hforked := (branchElseEntry_ends _ hs).of_ok heq
    exact ih (part_building _ hforked hpart)
  | loop heq _ ih => exact ih ((loopEntry_ends _ hs).of_ok heq)

theorem Encounters.settled {name : String} {p : Program} {d : Declaration}
    (h : Encounters name p (.outer d) s) : Settled s := by
  cases h with
  | outer hp hs =>
    obtain ⟨s', heq, hsettled, -⟩ := declarations_settled name _
    rw [hs] at heq
    cases heq
    exact hsettled

theorem Reachable.settled (h : Reachable false s) : Settled s := by
  obtain ⟨name, p, x, hx, hlocal⟩ := h
  cases x with
  | outer d => exact hx.settled
  | inner st => cases hlocal

theorem Reachable.building (h : Reachable true s) : Building s := by
  obtain ⟨name, p, x, hx, hlocal⟩ := h
  cases hx with
  | outer => cases hlocal
  | inner hf _ _ hvisits =>
    have hs := hf.settled
    exact hvisits.building ⟨List.cons_ne_nil _ _, _, opening_ready hs.fits hs.callees⟩

end Reached

section Discipline

variable {s : State}

theorem Keeps.ends {α : Type} {R : State → State → Prop} {step : Lower α}
    {done done' : α → State → Prop} {stopped : State → Prop} (h : Keeps R step s done)
    (k : Ends step s done' stopped) :
    Ends step s (fun a s' => R s s' ∧ done a s') (R s) := by
  unfold Keeps at h
  unfold Ends at k ⊢
  split at k
  · next heq =>
    rw [heq] at h
    exact h
  · next heq =>
    rw [heq] at h
    exact ⟨k.1, h⟩
  · exact k.elim

theorem Item.scoping_same {x : Item} {σ : Scopes} (hx : x.declared? = none) (succeeded : Bool) :
    x.Scoping succeeded σ σ := by
  unfold Item.Scoping
  rw [hx]
  exact ⟨.refl σ, fun _ => rfl⟩

theorem Item.scoping_refused {x : Item} {v : Variable} {σ : Scopes} (hx : x.declared? = some v)
    (h : ¬ (x.isLocal = true ∧ v.Admitted σ)) : x.Scoping false σ σ := by
  unfold Item.Scoping
  rw [hx]
  exact ⟨[], .refl σ, .inl rfl, by simpa using h⟩

theorem Item.scoping_declared {x : Item} {v : Variable} {σ : Scopes} {succeeded : Bool}
    (storage : Storage) (hx : x.declared? = some v)
    (h : succeeded = true ∨ x.isLocal = true ∧ v.Admitted σ) :
    x.Scoping succeeded σ (σ.declare v.name (v.binding storage)) := by
  unfold Item.Scoping
  rw [hx]
  refine ⟨_, σ.grown_declare v.name (v.binding storage), .inr ⟨storage, rfl⟩, ?_⟩
  exact iff_of_true (List.cons_ne_nil _ _) h

theorem function_disciplined (f : FunctionDef) (h : Settled s) :
    (Item.outer (.function f)).Disciplined s := by
  have hsame : ∀ ok, (Item.outer (.function f)).Scoping ok s.scopes s.scopes :=
    Item.scoping_same rfl
  unfold Item.Disciplined
  cases hf : s.functions.lookup f.name with
  | some previous =>
    refine Ends.get_bind ?_
    rw [hf]
    exact .report rfl (hsame false)
  | none =>
    cases hg : s.scopes.lookupGlobal f.name with
    | some global =>
      refine Ends.get_bind ?_
      rw [hf, hg]
      exact .report rfl (hsame false)
    | none =>
      obtain ⟨s', b, heq, hp, -⟩ := body_ends f h
      refine function_ends hf hg (.of_eq heq ⟨b, hp, ?_⟩)
      have hout : s'.scopes.exit = s.scopes := hp.outer
      show Item.Scoping _ true s.scopes s'.scopes.exit
      rw [hout]
      exact hsame true

theorem global_disciplined (v : Variable) : (Item.outer (.global v)).Disciplined s := by
  have hrefused : (Item.outer (.global v)).Scoping false s.scopes s.scopes :=
    Item.scoping_refused rfl fun h => nomatch h.1
  unfold Item.Disciplined
  cases hn : s.scopes.lookupCurrent v.name with
  | some previous =>
    refine Ends.get_bind ?_
    rw [hn]
    exact .report rfl hrefused
  | none =>
    cases hf : s.functions.lookup v.name with
    | some f =>
      refine Ends.get_bind ?_
      rw [hn, hf]
      exact .report rfl hrefused
    | none =>
      refine (globalVariable_ends hn hf).mono ?_ ?_
      · intro _ s' hdone
        obtain ⟨-, s₁, g, ⟨ds, rfl, -⟩, -, rfl⟩ := hdone
        exact Item.scoping_declared _ rfl (.inl rfl)
      · intro s' hdone
        obtain ⟨-, ds, rfl, -⟩ := hdone
        exact hrefused

theorem stmt_disciplined {st : Stmt} (hplain : st.Plain) (h : Building s) :
    (Item.inner st).Disciplined s := by
  obtain ⟨hi, b, hr⟩ := h
  have hends := stmt_advances .inFunction rfl st s b hr hi
  unfold Item.Disciplined
  cases hd : st.declared? with
  | none =>
    have hsame : ∀ ok, (Item.inner st).Scoping ok s.scopes s.scopes := Item.scoping_same hd
    refine ((stmt_scopes st ⟨hd, hplain⟩ s).ends hends).mono (fun _ s' h => ?_) fun s' h => ?_
    · rw [h.1]
      exact hsame true
    · rw [h]
      exact hsame false
  | some v =>
    have hst : stmt .inFunction st = variableDeclaration .inFunction v := by
      cases st <;> cases hd
      rw [stmt]
    have hx : (Item.inner st).declared? = some v := hd
    rw [hst] at hends
    show Ends (stmt .inFunction st) s _ _
    rw [hst]
    refine ((localVariable_scopes v s).ends hends).mono (fun _ s' h => ?_) fun s' h => ?_
    · obtain ⟨⟨-, hnamed⟩ | ⟨hn, -⟩, ha⟩ := h
      · rw [hnamed]
        exact Item.scoping_declared _ hx (.inl rfl)
      · exact absurd ha hn
    · rcases h with ⟨ha, hnamed⟩ | ⟨hn, hsame⟩
      · rw [hnamed]
        exact Item.scoping_declared _ hx (.inr ⟨rfl, ha⟩)
      · rw [hsame]
        exact Item.scoping_refused hx fun ha => hn ha.2

end Discipline

end Lower

open Lower in
/-- In a program that was parsed, lowering a declaration or a statement, from whatever state that
lowering can come to, leaves all scopes as they were, except that a declaration adds its own name
to the innermost one. It does so if it succeeds, and also if it stops although it is a local one
whose name is new and whose length is one. Behind anything else, a block among them, every name
means what it meant before. -/
theorem scopes_disciplined {ts : List Token} {p : Program} (hp : (parse ts).program? = some p)
    {x : Item} (hx : x.In p) {s : State} (hs : Reachable x.isLocal s) : x.Disciplined s := by
  cases x with
  | outer d =>
    cases d with
    | function f => exact function_disciplined f hs.settled
    | global v => exact global_disciplined v
  | inner st =>
    exact stmt_disciplined ((derives_of_parse hp).contains_plain hx) hs.building

/-- `void f() { int x = y; }` -/
def unread : List Token :=
  [⟨.voidKeyword, "void", ⟨0, 4⟩⟩, ⟨.identifier, "f", ⟨5, 6⟩⟩, ⟨.leftParen, "(", ⟨6, 7⟩⟩,
    ⟨.rightParen, ")", ⟨7, 8⟩⟩, ⟨.leftBrace, "\x7b", ⟨9, 10⟩⟩, ⟨.intType, "int", ⟨11, 14⟩⟩,
    ⟨.identifier, "x", ⟨15, 16⟩⟩, ⟨.equal, "=", ⟨17, 18⟩⟩, ⟨.identifier, "y", ⟨19, 20⟩⟩,
    ⟨.semicolon, ";", ⟨20, 21⟩⟩, ⟨.rightBrace, "\x7d", ⟨22, 23⟩⟩]

open Lower in
theorem scopes_disciplined_unread : ∃ f v s, (parse unread).program? = some [.function f] ∧
    f.body = [.declare v] ∧ Reachable true s ∧ (Item.inner (.declare v)).Disciplined s ∧
    ∃ d s', stmt .inFunction (.declare v) s = .error d s' ∧
      s.scopes.lookup "x" = none ∧ (s'.scopes.lookup "x").isSome = true := by
  let v : Variable := ⟨"x", ⟨15, 16⟩, .int, false, none, [.name "y" ⟨19, 20⟩], ⟨15, 20⟩⟩
  let f : FunctionDef := ⟨"f", ⟨5, 6⟩, [.declare v], ⟨9, 23⟩, ⟨0, 23⟩⟩
  have hp : (parse unread).program? = some [.function f] := rfl
  have hf : Encounters "a" [.function f] (.outer (.function f)) _ :=
    .outer (List.nil_append _).symm rfl
  have hs : Reachable true (State.opening { module := { name := "a" } } f) :=
    ⟨_, _, .inner _, .inner hf rfl rfl .here, rfl⟩
  have hx : (Item.inner (.declare v)).In [.function f] :=
    .top List.mem_cons_self List.mem_cons_self
  exact ⟨f, v, _, hp, rfl, hs, scopes_disciplined hp hx hs, _, _, rfl, rfl, rfl⟩

end C1Lang
