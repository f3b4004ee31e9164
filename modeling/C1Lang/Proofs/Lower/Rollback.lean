import C1Lang.Proofs.Lower.Functions
import C1Lang.Proofs.Relabeling.Lower

/-!
# Declarations that stop

A declaration that stops has changed nothing but the diagnostics, to which it added warnings about
lossy constants and then the error. Lowering does not look at the diagnostics, so that every later
declaration goes on as if the one that stopped had not been there: the declarations that were
accepted are lowered to the same module by themselves (`lower_accepted`).
-/

namespace C1Lang

namespace Lower

structure Visit where
  declaration : Declaration
  before : State
  error? : Option Diagnostic
  after : State

namespace Visit

def added (v : Visit) : List Diagnostic :=
  v.after.diagnostics.drop v.before.diagnostics.length

def accepted (v : Visit) : Bool := v.error?.isNone

end Visit

def visits : Program → State → List Visit
  | [], _ => []
  | d :: rest, s =>
    match declaration d s with
    | .ok _ s' => ⟨d, s, none, s'⟩ :: visits rest s'
    | .error (.problem e) s' => ⟨d, s, some e, s'.record e⟩ :: visits rest (s'.record e)
    | .error (.fault _) _ => []

def acceptedOnly (vs : List Visit) : Program := (vs.filter Visit.accepted).map Visit.declaration

/-- Nothing but diagnostics was added: warnings about lossy constants, and then the error. -/
def RolledBack (s s' : State) (e : Diagnostic) : Prop :=
  e.isError = true ∧ ∃ warnings, (∀ w ∈ warnings, w.problem.code = "C0050" ∧ w.isError = false) ∧
    s' = { s with diagnostics := s.diagnostics ++ warnings ++ [e] }

theorem code_of_not_isError {d : Diagnostic} (h : d.isError = false) :
    d.problem.code = "C0050" := by
  obtain ⟨p, s⟩ := d
  cases p <;> first | rfl | cases h

theorem Warned.rolledBack {s s' : State} {e : Diagnostic} (h : Warned s s')
    (he : e.isError = true) : RolledBack s (s'.record e) e := by
  obtain ⟨ds, rfl, hds⟩ := h
  exact ⟨he, ds, fun w hw => ⟨code_of_not_isError (hds w hw), hds w hw⟩, rfl⟩

theorem declaration_warned {s : State} (d : Declaration) (h : Settled s) :
    Ends (declaration d) s (fun _ s' => Settled s' ∧ s'.module.name = s.module.name)
      (Warned s) := by
  cases d with
  | function f =>
    cases hf : s.functions.lookup f.name with
    | some previous =>
      refine Ends.get_bind ?_
      rw [hf]
      exact .report rfl (.refl s)
    | none =>
      cases hg : s.scopes.lookupGlobal f.name with
      | some global =>
        refine Ends.get_bind ?_
        rw [hf, hg]
        exact .report rfl (.refl s)
      | none =>
        obtain ⟨s', b, heq, hp, -⟩ := body_ends f h
        have hname : (s'.closing s.module.functions.size b).module.name = s.module.name := by
          show s'.module.name = s.module.name
          rw [hp.module]
          rfl
        exact function_ends hf hg (.of_eq heq ⟨b, hp, h.closing hf hg hp, hname⟩)
  | global v =>
    cases hn : s.scopes.lookupCurrent v.name with
    | some previous =>
      refine Ends.get_bind ?_
      rw [hn]
      exact .report rfl (.refl s)
    | none =>
      cases hf : s.functions.lookup v.name with
      | some f =>
        refine Ends.get_bind ?_
        rw [hn, hf]
        exact .report rfl (.refl s)
      | none =>
        refine (globalVariable_ends hn hf).mono ?_ (fun _ hdone => hdone.2)
        intro _ s' hdone
        obtain ⟨-, s₁, g, hw, hg, rfl⟩ := hdone
        have hs₁ := hw.settled h
        rw [h.lookupCurrent] at hn
        obtain ⟨ds, rfl, -⟩ := hw
        exact ⟨hs₁.withGlobal hf hn hg, rfl⟩

def State.reporting (s : State) (ds : List Diagnostic) : State := { s with diagnostics := ds }

theorem declaration_reporting {d : Declaration} {s s' : State}
    (h : declaration d s = .ok () s') :
    ∃ added, s'.diagnostics = s.diagnostics ++ added ∧
      ∀ ds, declaration d (s.reporting ds) = .ok () (s'.reporting (ds ++ added)) := by
  have hrun : ∀ ds, declaration d (s.reporting ds) =
      mapOutcome Relabeling.same.stop (Relabeling.same.state ds) id
        (declaration d (s.reporting [])) := by
    intro ds
    have hd : Relabeling.same.Lowers ds id (declaration d)
        (declaration (Relabeling.same.declaration d)) := declaration_lowers d
    rw [Relabeling.same_declaration] at hd
    have hs := hd (s.reporting [])
    unfold Mirrors at hs
    rwa [Relabeling.same_state, State.reporting, List.append_nil] at hs
  have hself := hrun s.diagnostics
  rw [show s.reporting s.diagnostics = s from rfl, h] at hself
  cases hbare : declaration d (s.reporting []) with
  | error stop u =>
    rw [hbare] at hself
    cases hself
  | ok a u =>
    rw [hbare, mapOutcome, Relabeling.same_state] at hself
    obtain rfl : s' = { u with diagnostics := s.diagnostics ++ u.diagnostics } := by
      injection hself
    refine ⟨u.diagnostics, rfl, fun ds => ?_⟩
    rw [hrun ds, hbare, mapOutcome, Relabeling.same_state]
    rfl

theorem visits_accepted {d : Declaration} {s s' : State} (h : declaration d s = .ok () s')
    (rest : Program) : visits (d :: rest) s = ⟨d, s, none, s'⟩ :: visits rest s' := by
  rw [visits, h]

theorem visits_stopped {d : Declaration} {s s' : State} {e : Diagnostic}
    (h : declaration d s = .error (.problem e) s') (rest : Program) :
    visits (d :: rest) s = ⟨d, s, some e, s'.record e⟩ :: visits rest (s'.record e) := by
  rw [visits, h]

structure Visited (p : Program) (s : State) (vs : List Visit) : Prop where
  declarations : vs.map Visit.declaration = p
  rolledBack : ∀ v ∈ vs, ∀ e, v.error? = some e → RolledBack v.before v.after e
  run : ∃ s', Lower.declarations p s = .ok () s' ∧
    s'.diagnostics = s.diagnostics ++ vs.flatMap Visit.added ∧
    ∀ ds, Lower.declarations (acceptedOnly vs) (s.reporting ds) =
      .ok () (s'.reporting (ds ++ (vs.filter Visit.accepted).flatMap Visit.added))

theorem Visited.accept {d : Declaration} {rest : Program} {s s₁ : State}
    (hstep : declaration d s = .ok () s₁) (h : Visited rest s₁ (visits rest s₁)) :
    Visited (d :: rest) s (visits (d :: rest) s) := by
  rw [visits_accepted hstep]
  obtain ⟨s', hrun, hds, hkept⟩ := h.run
  obtain ⟨added, hadded, hother⟩ := declaration_reporting hstep
  have hnew : (⟨d, s, none, s₁⟩ : Visit).added = added := by
    simp [Visit.added, hadded]
  have hrecording : ∀ {t t' : State}, declaration d t = .ok () t' →
      recording (declaration d) () t = .ok () t' := by
    intro t t' ht
    rw [recording, ht]
  refine ⟨?_, ?_, s', ?_, ?_, fun ds => ?_⟩
  · rw [List.map_cons, h.declarations]
  · intro v hv e he
    rcases List.mem_cons.mp hv with rfl | hv
    · cases he
    · exact h.rolledBack v hv e he
  · exact (bind_ok (hrecording hstep)).trans hrun
  · rw [hds, hadded, List.flatMap_cons, hnew, List.append_assoc]
  · have hfirst := hrecording (hother ds)
    have hrest := hkept (ds ++ added)
    rw [List.append_assoc] at hrest
    exact (bind_ok hfirst).trans (hnew ▸ hrest)

theorem Visited.stop {d : Declaration} {rest : Program} {s s₁ : State} {e : Diagnostic}
    (hstep : declaration d s = .error (.problem e) s₁) (hback : RolledBack s (s₁.record e) e)
    (h : Visited rest (s₁.record e) (visits rest (s₁.record e))) :
    Visited (d :: rest) s (visits (d :: rest) s) := by
  rw [visits_stopped hstep]
  obtain ⟨s', hrun, hds, hkept⟩ := h.run
  have hrecording : recording (declaration d) () s = .ok () (s₁.record e) := by
    rw [recording, hstep]
  refine ⟨?_, ?_, s', ?_, ?_, fun ds => ?_⟩
  · rw [List.map_cons, h.declarations]
  · intro v hv e' he
    rcases List.mem_cons.mp hv with rfl | hv
    · cases he
      exact hback
    · exact h.rolledBack v hv e' he
  · exact (bind_ok hrecording).trans hrun
  · obtain ⟨-, warnings, -, hs₁⟩ := hback
    have hnew : (s₁.record e).diagnostics =
        s.diagnostics ++ (⟨d, s, some e, s₁.record e⟩ : Visit).added := by
      simp [Visit.added, hs₁]
    rw [hds, hnew, List.flatMap_cons, List.append_assoc]
  · obtain ⟨-, warnings, -, hs₁⟩ := hback
    have hsame : s.reporting ds = (s₁.record e).reporting ds := by rw [hs₁]; rfl
    rw [hsame]
    exact hkept ds

theorem visits_visited (p : Program) {s : State} (h : Settled s) : Visited p s (visits p s) := by
  induction p generalizing s with
  | nil => exact ⟨rfl, by simp [visits], s, rfl, by simp [visits], fun ds => by simp [visits]; rfl⟩
  | cons d rest ih =>
    have hd := declaration_warned d h
    unfold Ends at hd
    split at hd
    · next hstep => exact .accept hstep (ih hd.1)
    · next hstep =>
      obtain ⟨he, hw⟩ := hd
      exact .stop hstep (hw.rolledBack he) (ih ((hw.settled h).record _))
    · exact hd.elim

theorem declarations_name (p : Program) {s s' : State} (h : Settled s)
    (hrun : declarations p s = .ok () s') : s'.module.name = s.module.name := by
  induction p generalizing s with
  | nil =>
    cases hrun
    rfl
  | cons d rest ih =>
    have hd : Ends (recording (declaration d) ()) s
        (fun _ s₁ => Settled s₁ ∧ s₁.module.name = s.module.name) fun _ => False := by
      refine (declaration_warned d h).recording fun s₁ e _ hw => ⟨(hw.settled h).record e, ?_⟩
      obtain ⟨ds, rfl, -⟩ := hw
      rfl
    obtain ⟨_, s₁, hs₁, hsettled, hname⟩ := hd.exists_ok
    obtain ⟨_, _, heq, hrest⟩ := bind_eq_ok hrun
    rw [hs₁] at heq
    cases heq
    exact (ih hsettled hrest).trans hname

end Lower

theorem lower_name {name : String} {p : Program} {l : Lowered} (h : lower name p = .ok l) :
    l.module.name = name := by
  obtain ⟨s, hs, -⟩ := Lower.declarations_settled name p
  rw [lower, hs] at h
  cases h
  exact Lower.declarations_name p (Lower.settled_start name) hs

/-- Every declaration that stops leaves the module, the scopes, the table of functions and the
builder as they were, and adds warnings about lossy constants followed by its error. So the
declarations that are accepted are lowered to the same module by themselves, with their own
diagnostics. -/
theorem lower_accepted (name : String) (p : Program) :
    let vs := Lower.visits p { module := { name } }
    vs.map Lower.Visit.declaration = p ∧
    (∀ v ∈ vs, ∀ e, v.error? = some e → Lower.RolledBack v.before v.after e) ∧
    ∃ l, lower name p = .ok l ∧ l.diagnostics = vs.flatMap Lower.Visit.added ∧
      lower name (Lower.acceptedOnly vs) =
        .ok ⟨l.module, (vs.filter Lower.Visit.accepted).flatMap Lower.Visit.added⟩ := by
  intro vs
  have hvisited : Lower.Visited p { module := { name } } vs :=
    Lower.visits_visited p (Lower.settled_start name)
  obtain ⟨s, hrun, hds, hkept⟩ := hvisited.run
  refine ⟨hvisited.declarations, hvisited.rolledBack, ⟨s.module, s.diagnostics⟩,
    by rw [lower, hrun], hds, ?_⟩
  have hstart : Lower.declarations (Lower.acceptedOnly vs) { module := { name } } = _ := hkept []
  rw [lower, hstart]
  rfl

/-- `int a = 1; int a = 2; void a() {} void f() {}` -/
def clash : Program :=
  let zero : Span := ⟨0, 0⟩
  let one (n : Int32) : Declaration :=
    .global ⟨"a", zero, .int, false, none, [.literal (.int n) zero], zero⟩
  let empty (name : String) : Declaration := .function ⟨name, zero, [], zero, zero⟩
  [one 1, one 2, empty "a", empty "f"]

theorem clash_accepted :
    let vs := Lower.visits clash { module := { name := "clash" } }
    vs.map Lower.Visit.accepted = [true, false, false, true] ∧
    (∀ v ∈ vs, ∀ e, v.error? = some e → Lower.RolledBack v.before v.after e) ∧
    ∃ l, lower "clash" clash = .ok l ∧ l.diagnostics.length = 2 ∧
      lower "clash" (Lower.acceptedOnly vs) = .ok ⟨l.module, []⟩ := by
  intro vs
  obtain ⟨-, hback, l, hl, hds, hkept⟩ := lower_accepted "clash" clash
  have hall : (vs.flatMap Lower.Visit.added).length = 2 := by decide +kernel
  have hnone : (vs.filter Lower.Visit.accepted).flatMap Lower.Visit.added = [] := by
    decide +kernel
  exact ⟨by decide +kernel, hback, l, hl, hds ▸ hall, hnone ▸ hkept⟩

end C1Lang
