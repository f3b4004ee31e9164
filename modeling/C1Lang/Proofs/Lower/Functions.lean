import C1Lang.Proofs.IR.Assignment
import C1Lang.Proofs.IR.Flow
import C1Lang.Proofs.Lower.Module

/-!
# The functions of a program

Every function of the module comes from one definition of the program, met in the run with its name
free (`Defines`), and is what lowering the body has built (`declarations_define`). Nothing is asked
of the program: a body in which errors are found is built in the same way. So every function is
structured, its blocks are those that its branches and loops need, and no block was written to
after it was ended (`lower_structured`); every temporary has one write, and is used after it in its
block (`lower_single_assignment`).
-/

namespace C1Lang

namespace Lower

open IR

structure Fills (s : State) (d : FunctionDef) (b : Builder) : Prop where
  function : s.functions.lookup d.name = none
  global : s.scopes.lookupGlobal d.name = none
  body : ∃ s', stmts .inFunction d.body (s.opening d) = .ok () s' ∧ s'.builder = some b

def Defines (name : String) (p : Program) (d : FunctionDef) (b : Builder) : Prop :=
  ∃ before after s, p = before ++ .function d :: after ∧
    declarations before { module := { name } } = .ok () s ∧ Fills s d b

theorem body_ends {s : State} (d : FunctionDef) (h : Settled s) :
    ∃ s' b, stmts .inFunction d.body (s.opening d) = .ok () s' ∧
      Proceeds (s.opening d) (Builder.start d.name) [] s' b ∧
      b.blocks.size = 1 + Stmt.allBlocks d.body := by
  have hr := opening_ready (f := d) h.fits h.callees
  have hends := stmts_ends .inFunction rfl d.body _ _ hr (List.cons_ne_nil _ _) fun _ => False
  obtain ⟨_, s', heq, b, hp, hsize, -⟩ := hends.exists_ok
  exact ⟨s', b, heq, hp, hsize⟩

theorem Fills.built {s : State} {d : FunctionDef} {b : Builder} (hb : Fills s d b)
    (h : Settled s) : Built (s.opening d).module (Builder.start d.name) [] b ∧
      b.blocks.size = 1 + Stmt.allBlocks d.body := by
  obtain ⟨s', heq, hs'⟩ := hb.body
  obtain ⟨s₁, b₁, heq₁, hp, hsize⟩ := body_ends d h
  -- from one state the body is lowered in one way only
  rw [heq] at heq₁
  cases heq₁
  rw [hp.ready.builder] at hs'
  cases hs'
  exact ⟨hp.built, hsize⟩

theorem function_fills {s : State} (d : FunctionDef) (h : Settled s) :
    Ends (declaration (.function d)) s
      (fun _ s' => ∃ b, Fills s d b ∧
        s'.module.functions = s.module.functions.push (b.leave .ret b.current).finish)
      (fun s' => s'.module.functions = s.module.functions) := by
  cases hf : s.functions.lookup d.name with
  | some previous =>
    refine Ends.get_bind ?_
    rw [hf]
    exact .report rfl rfl
  | none =>
    cases hg : s.scopes.lookupGlobal d.name with
    | some global =>
      refine Ends.get_bind ?_
      rw [hf, hg]
      exact .report rfl rfl
    | none =>
      obtain ⟨s', b, heq, hp, -⟩ := body_ends d h
      refine function_ends hf hg (.of_eq heq ⟨b, hp, b, ⟨hf, hg, s', heq, hp.ready.builder⟩, ?_⟩)
      have hmodule : s'.module = (s.module.declare d.name).2 := hp.module
      simp only [State.closing, hmodule, Module.functions_define_declare]

theorem global_keeps {s : State} (v : Variable) :
    Ends (declaration (.global v)) s
      (fun _ s' => s'.module.functions = s.module.functions)
      (fun s' => s'.module.functions = s.module.functions) := by
  cases hn : s.scopes.lookupCurrent v.name with
  | some previous =>
    refine Ends.get_bind ?_
    rw [hn]
    exact .report rfl rfl
  | none =>
    cases hf : s.functions.lookup v.name with
    | some f =>
      refine Ends.get_bind ?_
      rw [hn, hf]
      exact .report rfl rfl
    | none =>
      refine (globalVariable_ends hn hf).mono ?_ ?_
      · intro _ s' hdone
        obtain ⟨-, s₁, g, ⟨ds, rfl, -⟩, -, rfl⟩ := hdone
        rfl
      · intro s' hdone
        obtain ⟨-, ds, rfl, -⟩ := hdone
        rfl

def Contributes (d : Declaration) (s s' : State) : Prop :=
  s'.module.functions = s.module.functions ∨ ∃ f b, d = .function f ∧ Fills s f b ∧
    s'.module.functions = s.module.functions.push (b.leave .ret b.current).finish

theorem declaration_contributes {s : State} (d : Declaration) (h : Settled s) :
    ∃ s', recording (declaration d) () s = .ok () s' ∧ Settled s' ∧ Contributes d s s' := by
  have hkeeps : Ends (declaration d) s (fun _ => Contributes d s)
      (fun s' => s'.module.functions = s.module.functions) := by
    cases d with
    | function f =>
      refine (function_fills f h).mono ?_ (fun _ h => h)
      intro _ s' hdone
      obtain ⟨b, hb, hpush⟩ := hdone
      exact .inr ⟨f, b, rfl, hb, hpush⟩
    | global v => exact (global_keeps v).mono (fun _ _ h => .inl h) (fun _ h => h)
  have hends : Ends (recording (declaration d) ()) s
      (fun _ s' => Declares d s s' ∧ Contributes d s s') fun _ => False := by
    refine ((declaration_ends d h).and hkeeps).recording ?_
    intro s' e he hdone
    obtain ⟨⟨hs, hle, hn⟩, hsame⟩ := hdone
    refine ⟨⟨hs.record e, .inr ⟨?_, hn⟩⟩, .inl hsame⟩
    rw [State.errors_record _ he]
    exact Nat.lt_succ_of_le hle
  obtain ⟨_, s', heq, hd, hc⟩ := hends.exists_ok
  exact ⟨s', heq, hd.1, hc⟩

theorem declarations_snoc {before : Program} {d : Declaration} {s₀ s s' : State}
    (h : declarations before s₀ = .ok () s) (hd : recording (declaration d) () s = .ok () s') :
    declarations (before ++ [d]) s₀ = .ok () s' := by
  induction before generalizing s₀ with
  | nil =>
    cases h
    exact bind_ok hd
  | cons e rest ih =>
    obtain ⟨_, s₁, hs₁, hrest⟩ := bind_eq_ok h
    exact (bind_ok hs₁).trans (ih hrest)

def Accounted (name : String) (p : Program) (s : State) : Prop :=
  ∀ f ∈ s.module.functions, ∃ d b, Defines name p d b ∧ f = (b.leave .ret b.current).finish

theorem Accounted.contributes {name : String} {before after : Program} {d : Declaration}
    {s s' : State} (h : Accounted name (before ++ d :: after) s)
    (hs : declarations before { module := { name } } = .ok () s) (hc : Contributes d s s') :
    Accounted name (before ++ d :: after) s' := by
  intro f hf
  rcases hc with hsame | ⟨e, b, rfl, hb, hpush⟩
  · exact h f (hsame ▸ hf)
  · rw [hpush] at hf
    rcases Array.mem_push.mp hf with hf | rfl
    · exact h f hf
    · exact ⟨e, b, ⟨before, after, s, rfl, hs, hb⟩, rfl⟩

theorem declarations_define {name : String} (before rest : Program) {s : State}
    (hs : declarations before { module := { name } } = .ok () s) (h : Settled s)
    (ha : Accounted name (before ++ rest) s) :
    ∃ s', declarations rest s = .ok () s' ∧ Settled s' ∧ Accounted name (before ++ rest) s' := by
  induction rest generalizing before s with
  | nil => exact ⟨s, rfl, h, ha⟩
  | cons d rest ih =>
    obtain ⟨s₁, heq, hs₁, hc⟩ := declaration_contributes d h
    -- the program stays the same: what was lowered grows by the declaration
    have hsplit : before ++ d :: rest = before ++ [d] ++ rest := by simp
    have ha₁ := ha.contributes hs hc
    rw [hsplit] at ha₁ ⊢
    obtain ⟨s₂, heq₂, hs₂, ha₂⟩ := ih (before ++ [d]) (declarations_snoc hs heq) hs₁ ha₁
    exact ⟨s₂, (bind_ok heq).trans heq₂, hs₂, ha₂⟩

theorem declarations_settled (name : String) (p : Program) :
    ∃ s, declarations p { module := { name } } = .ok () s ∧ Settled s ∧ Accounted name p s :=
  declarations_define [] p rfl (settled_start name) fun f hf => by simp at hf

theorem Defines.built {name : String} {p : Program} {d : FunctionDef} {b : Builder}
    (h : Defines name p d b) : ∃ m, Built m (Builder.start d.name) [] b ∧
      b.blocks.size = 1 + Stmt.allBlocks d.body := by
  obtain ⟨before, after, s, -, hs, hb⟩ := h
  obtain ⟨s', hs', hsettled, -⟩ := declarations_settled name before
  rw [hs] at hs'
  cases hs'
  exact ⟨_, hb.built hsettled⟩

end Lower

theorem lower_defines (name : String) (p : Program) :
    ∃ l, lower name p = .ok l ∧ ∀ f ∈ l.module.functions,
      ∃ d b, Lower.Defines name p d b ∧ f = (b.leave .ret b.current).finish := by
  obtain ⟨s, hs, -, ha⟩ := Lower.declarations_settled name p
  exact ⟨⟨s.module, s.diagnostics⟩, by rw [lower, hs], ha⟩

/-- Whatever a program holds, every function of its module comes from a definition of the program.
No block of it was written to after it had been ended, one block returns, every block is reached
from the first one and leads to that one, and there are as many as branches and loops need. -/
theorem lower_structured (name : String) (p : Program) :
    ∃ l, lower name p = .ok l ∧ ∀ f ∈ l.module.functions, f.defined = true ∧
      ∃ d body b, Lower.Defines name p d body ∧ body.terminate? .ret = some b ∧ f = b.finish ∧
        b.rewrites = 0 ∧ f.Structured ∧ f.blocks.size = 1 + Stmt.allBlocks d.body := by
  obtain ⟨l, hl, hall⟩ := lower_defines name p
  refine ⟨l, hl, fun f hf => ?_⟩
  obtain ⟨d, body, hd, rfl⟩ := hall f hf
  obtain ⟨m, hb, hsize⟩ := hd.built
  have hstart := IR.Builder.start_open d.name
  have hopen := (hb.frame hstart).opened
  have hrewrites : (body.leave .ret body.current).rewrites = 0 :=
    (IR.Builder.leave_rewrites hopen _ _).trans (hb.rewrites hstart)
  have hblocks : (body.leave .ret body.current).finish.blocks.size = body.blocks.size :=
    IR.Builder.leave_size body .ret body.current
  exact ⟨rfl, d, body, _, hd, IR.Builder.terminate?_of_lt hopen.lt _, rfl, hrewrites,
    hb.structured, hblocks.trans hsize⟩

def tangle : FunctionDef :=
  let zero : Span := ⟨0, 0⟩
  let one : Expr := .literal (.int 1) zero
  let less : Condition := ⟨.lt, one, .literal (.int 2) zero, zero⟩
  { name := "main", nameSpan := zero, bodySpan := zero, span := zero
    body := [.branchElse ⟨.lt, one, .name "x" zero, zero⟩ (.loop less (.empty zero) zero)
      (.branch less (.empty zero) zero) zero] }

theorem tangle_lowered {l : Lowered} (hl : lower "tangle" [.function tangle] = .ok l) :
    l.valid = false ∧ ∃ f ∈ l.module.functions, 0 < f.temps.size := by
  have h : (lower "tangle" [.function tangle]).toOption.any (fun l =>
      !l.valid && l.module.functions.any (0 < ·.temps.size)) = true := by decide +kernel
  rw [hl] at h
  obtain ⟨hv, i, hi, hpos⟩ : l.valid = false ∧
      ∃ (i : Nat) (hi : i < l.module.functions.size), 0 < (l.module.functions[i]).temps.size := by
    simpa [Except.toOption] using h
  exact ⟨hv, _, Array.getElem_mem hi, hpos⟩

theorem tangle_structured : ∃ l, lower "tangle" [.function tangle] = .ok l ∧ l.valid = false ∧
    ∃ f ∈ l.module.functions, f.Structured ∧ f.blocks.size = 9 := by
  obtain ⟨l, hl, hall⟩ := lower_structured "tangle" [.function tangle]
  obtain ⟨hv, f, hf, -⟩ := tangle_lowered hl
  obtain ⟨-, d, _, _, ⟨before, after, _, hp, -⟩, -, -, -, hs, hsize⟩ := hall f hf
  obtain rfl : d = tangle := by
    cases before with
    | nil => cases hp; rfl
    | cons _ _ => simp at hp
  exact ⟨l, hl, hv, f, hf, hs, hsize⟩

/-- Whatever a program holds, in every function of its module each temporary is written by exactly
one instruction and used after it in its block, so that it was written before on every path. -/
theorem lower_single_assignment (name : String) (p : Program) :
    ∃ l, lower name p = .ok l ∧ ∀ f ∈ l.module.functions, f.defined = true ∧
      f.Assigned ∧ f.LocalUses ∧ f.ReadsWritten := by
  obtain ⟨l, hl, hall⟩ := lower_defines name p
  refine ⟨l, hl, fun f hf => ?_⟩
  obtain ⟨d, body, hd, rfl⟩ := hall f hf
  obtain ⟨m, hb, -⟩ := hd.built
  have huses := hb.finish_sound.localUses
  exact ⟨rfl, hb.finish_assigned, huses, huses.readsWritten⟩

theorem tangle_assigned : ∃ l, lower "tangle" [.function tangle] = .ok l ∧ l.valid = false ∧
    ∃ f ∈ l.module.functions, 0 < f.temps.size ∧ f.Assigned ∧ f.LocalUses ∧ f.ReadsWritten := by
  obtain ⟨l, hl, hall⟩ := lower_single_assignment "tangle" [.function tangle]
  obtain ⟨hv, f, hf, hpos⟩ := tangle_lowered hl
  obtain ⟨-, ha, hu, hr⟩ := hall f hf
  exact ⟨l, hl, hv, f, hf, hpos, ha, hu, hr⟩

end C1Lang
