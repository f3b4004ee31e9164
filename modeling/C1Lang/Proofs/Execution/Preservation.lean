import C1Lang.Proofs.Execution.Statement
import C1Lang.Proofs.Lower.Module

/-!
# Lowering preserves what programs do

Each function of a correct program is in the module, with code that calls functions of the program
only (`Assembles.implements`). So calls are followed, by induction on the fuel (`answers`). The
machine has one end at most and goes on while the program has not come to its end, so the two
come to the same end, or to none (`lower_preserves`).
-/

namespace C1Lang

namespace Lower

open IR IR.Builder Execution

/-- The code of a function is in the module, under the number of the entry `x`, and knows functions
of the table only. -/
structure Implements (m : Module) (table : List (String × FunctionRecord))
    (x : String × FunctionRecord) (globals : List (String × Site)) (f : FunctionDef) : Prop where
  name : f.name = x.1
  code : ∃ (functions : List (String × FunctionRecord)) (σ σ' : Scopes) (b : Builder),
    GeneratesAll functions (σ.enter .function) (start f.name) f.body σ' b ∧
    (∀ y ∈ functions, y ∈ table) ∧
    Pictures ⟨[[], globals], 0⟩ (σ.enter .function) (start f.name) ∧
    m.functions[x.2.id]? = some (b.leave .ret b.current).finish

theorem append_getElem? (m : Module) (name : String) (b : Builder) (id : Nat) :
    (append m name b).functions[id]? = if id = m.functions.size then
      some (b.leave .ret b.current).finish else m.functions[id]? := by
  simp only [append, Module.define, Module.declare, Array.getElem?_setIfInBounds,
    Array.getElem?_push, Array.size_push]
  by_cases hid : id = m.functions.size
  · simp [hid]
  · simp [hid, Ne.symm hid]

/-- The table holds the functions that were known before, and those of the declarations `p`, which
are new and whose code is in the module. -/
structure Covers (m : Module) (functions : List (String × FunctionRecord))
    (globals : List (String × Site)) (p : List Declaration)
    (table : List (String × FunctionRecord)) : Prop where
  known : ∀ x ∈ functions, x ∈ table
  new : ∀ x ∈ table, x ∈ functions ∨ x.1 ∉ functions.map Prod.fst ∧
    ∃ g f, definition? x.1 globals p = some (g, f) ∧ Implements m table x g f
  all : ∀ f, .function f ∈ p → ∃ r, (f.name, r) ∈ table

theorem Covers.function {m m' : Module} {functions table : List (String × FunctionRecord)}
    {globals : List (String × Site)} {f : FunctionDef} {rest : List Declaration}
    (h : Covers m' (functionEntry m f :: functions) globals rest table)
    (hf : functions.lookup f.name = none)
    (hx : Implements m' table (functionEntry m f) globals f) :
    Covers m' functions globals (.function f :: rest) table := by
  refine ⟨fun x hx => h.known x (List.mem_cons_of_mem _ hx), fun x hmem => ?_, fun f' hf' => ?_⟩
  · rcases h.new x hmem with hold | ⟨hnew, g, f', hdef, hx'⟩
    · rcases List.mem_cons.mp hold with rfl | hold
      · exact .inr ⟨lookup_eq_none.mp hf, globals, f, if_pos rfl, hx⟩
      · exact .inl hold
    · rw [List.map_cons, List.mem_cons, not_or] at hnew
      refine .inr ⟨hnew.2, g, f', ?_, hx'⟩
      have hne : f.name ≠ x.1 := Ne.symm hnew.1
      rw [definition?, if_neg hne]
      exact hdef
  · rcases List.mem_cons.mp hf' with hf' | hf'
    · cases hf'
      exact ⟨_, h.known _ List.mem_cons_self⟩
    · exact h.all f' hf'

theorem Covers.global {m : Module} {functions table : List (String × FunctionRecord)}
    {globals : List (String × Site)} {v : Variable} {rest : List Declaration}
    (h : Covers m functions
      ((v.name, ⟨.global globals.length, v.isArray, v.kind⟩) :: globals) rest table) :
    Covers m functions globals (.global v :: rest) table := by
  refine ⟨h.known, h.new, fun f hf => ?_⟩
  rcases List.mem_cons.mp hf with hf | hf
  · cases hf
  · exact h.all f hf

theorem Assembles.implements {functions : List (String × FunctionRecord)} {σ : Scopes}
    {m m' : Module} {p : List Declaration} (h : Assembles functions σ m p m')
    (hi : σ.inner = []) (globals : List (String × Site))
    (hg : globals = σ.global.view Binding.site) (hlen : globals.length = m.globals.size) :
    (∀ id < m.functions.size, m'.functions[id]? = m.functions[id]?) ∧
      ∃ table, Covers m' functions globals p table := by
  induction h generalizing globals with
  | nil =>
    exact ⟨fun _ _ => rfl, _, fun _ hx => hx, fun _ hx => .inl hx, fun f hf => by cases hf⟩
  | @cons functions functions' σ σ' m m₁ m' d rest hadds hrest ih =>
    cases hadds with
    | @function f σ' b hf hn hbody =>
      obtain ⟨hkeep, table, hcovers⟩ := ih hi globals hg hlen
      have hsize : (append m f.name b).functions.size = m.functions.size + 1 := by
        simp [append, Module.define, Module.declare]
      have hE : Pictures ⟨[[], globals], 0⟩ (σ.enter .function) (start f.name) := by
        refine ⟨?_, rfl⟩
        simp [hg, Scopes.view, Scopes.all, Scopes.enter, hi, Scope.view]
      refine ⟨fun id hid => ?_, table, hcovers.function hf ⟨rfl, _, σ, σ', b, hbody,
        hcovers.known, hE, ?_⟩⟩
      · rw [hkeep id (by omega), append_getElem?, if_neg (by omega)]
      · show m'.functions[m.functions.size]? = _
        rw [hkeep _ (by omega), append_getElem?, if_pos rfl]
    | @global v g hf hn hc hd =>
      obtain ⟨hinner, hbindings⟩ :=
        declare_global hi v.name (v.binding (.global m.globals.size))
      have hglobals : (v.name, ⟨.global globals.length, v.isArray, v.kind⟩) :: globals =
          (σ.declare v.name (v.binding (.global m.globals.size))).global.view Binding.site := by
        rw [Scope.view, hbindings, hlen, hg]
        rfl
      obtain ⟨hkeep, table, hcovers⟩ := ih hinner _ hglobals (by simp [hlen, Module.addGlobal])
      exact ⟨hkeep, table, hcovers.global⟩

theorem Implements.follows {p : Program} {m : Module} {n : Nat}
    {table : List (String × FunctionRecord)} {x : String × FunctionRecord}
    {globals : List (String × Site)} {f : FunctionDef} (h : Implements m table x globals f)
    (hdef : definition? x.1 [] p = some (globals, f)) (hcall : Answers m n (p.run n) table)
    (M : Memory) (K : List (Point × Memory)) :
    ∃ F, m.functions[x.2.id]? = some F ∧ F.defined = true ∧ F.name = x.1 ∧
      Follows m n (.enter F M K) (p.run (n + 1) x.1 M) fun M' c =>
        step m c = exit c .ret ∧ c.store.globals = M' ∧ c.callers = K := by
  obtain ⟨functions, σ, σ', b, hbody, hsub, hE, hget⟩ := h.code
  have hstart := Builder.start_open f.name
  have hb := hbody.extends hstart
  have hblank : (b.leave .ret b.current).finish.blank =
      (blockVariables f.body).map Execution.blank := hbody.blank
  have hrun : p.run (n + 1) x.1 M = do
      let s ← execAll (p.run n) n ⟨[[], globals], 0⟩ f.body
        ⟨M, (b.leave .ret b.current).finish.blank⟩
      return s.globals := by
    rw [Program.run, hdef, hblank]
  have hcall' : Answers m n (p.run n) functions := fun y hy => hcall y (hsub y hy)
  refine ⟨_, hget, rfl, hb.name.trans h.name, ?_⟩
  rw [hrun]
  refine (hbody.follows hcall' hstart (within_leave hb.opened _ _) _ hE _ (fun _ => rfl)
    fun _ => none).bind fun s c hc => .pure ?_
  obtain ⟨-, T, rfl⟩ := hc
  exact ⟨step_leave hb.opened (.refl _) (by simp), rfl, rfl⟩

theorem answers {p : Program} {m : Module} {table : List (String × FunctionRecord)}
    (h : ∀ x ∈ table, ∃ g f, definition? x.1 [] p = some (g, f) ∧ Implements m table x g f)
    (n : Nat) : Answers m n (p.run n) table := by
  induction n with
  | zero => exact fun _ _ _ _ => .zero
  | succ n ih =>
    intro x hx c hstep
    obtain ⟨g, f, hdef, himpl⟩ := h x hx
    obtain ⟨F, hget, hdefined, -, hfollows⟩ := himpl.follows hdef ih c.store.globals
      ((c.advance.point, c.store.locals) :: c.callers)
    have hperform : perform m c (.call x.2.id) = .ok (.enter F c.store.globals
        ((c.advance.point, c.store.locals) :: c.callers)) := by
      simp only [perform, hget, hdefined, if_pos]
    rw [hperform] at hstep
    refine .of_step hstep (hfollows.after fun M c' hc' => ?_)
    obtain ⟨hret, rfl, hcallers⟩ := hc'
    refine ⟨_, .one ?_, rfl⟩
    simp only [hret, exit, hcallers]
    rfl

end Lower

open IR Execution

theorem IR.Module.functionByName?_eq {m : Module} (h : m.functionNames.Nodup) {id : Nat}
    {F : Function} (hget : m.functions[id]? = some F) : m.functionByName? F.name = some id := by
  obtain ⟨hlt, hF⟩ := Array.getElem?_eq_some_iff.mp hget
  refine Array.findIdx?_eq_some_iff_getElem.mpr ⟨hlt, by simp [hF], fun j hj => ?_⟩
  have hlen : m.functionNames.length = m.functions.size := by simp [functionNames]
  have hne := List.pairwise_iff_getElem.mp h j id (by omega) (by omega) hj
  simpa [functionNames, hF] using hne

theorem Execution.run_iff_steps {m : Module} {c : Config} {run : Nat → Except Halt Memory}
    (hzero : run 0 = .error .exhausted)
    (h : ∀ n, Follows m n c (run (n + 1)) fun M c' => step m c' = .ok (.inr M))
    {r : Except Halt Memory} (hr : r ≠ .error .exhausted) :
    (∃ n, run n = r) ↔ ∃ n, steps m n c = r := by
  have hends : ∀ n, run (n + 1) ≠ .error .exhausted → ∃ k, steps m k c = run (n + 1) := by
    intro n hn
    have hfollows := h n
    unfold Follows at hfollows
    split at hfollows
    · next M hM =>
      obtain ⟨c', hs, hd⟩ := hfollows
      exact steps_of_steps (n := 1) hs (by simp only [steps, hd, hM])
    · next ht =>
      obtain ⟨c', hs, hd⟩ := hfollows
      exact steps_of_steps (n := 1) hs (by simp only [steps, hd, ht])
    · next he => exact absurd he hn
    · exact hfollows.elim
  constructor
  · intro hex
    obtain ⟨n, rfl⟩ := hex
    cases n with
    | zero => exact absurd hzero hr
    | succ n => exact hends n hr
  · intro hex
    obtain ⟨n, hn⟩ := hex
    refine ⟨n + 1, ?_⟩
    by_cases he : run (n + 1) = .error .exhausted
    · have hfollows := h n
      rw [he] at hfollows
      exact absurd (hn.symm.trans (Alive.exhausted hfollows)) hr
    · obtain ⟨k, hk⟩ := hends n he
      exact steps_unique hk hn he hr

namespace Lower

variable {p : Program} {m : Module} {table : List (String × FunctionRecord)}
  {x : String × FunctionRecord} {globals : List (String × Site)} {f : FunctionDef}

theorem Implements.run_iff (h : Implements m table x globals f)
    (hdef : definition? x.1 [] p = some (globals, f))
    (htable : ∀ x ∈ table, ∃ g f, definition? x.1 [] p = some (g, f) ∧ Implements m table x g f)
    (hnames : m.functionNames.Nodup) (M : Memory) {r : Except Halt Memory}
    (hr : r ≠ .error .exhausted) :
    (∃ n, p.run n x.1 M = r) ↔ ∃ n, m.run n x.1 M = r := by
  have hfollows := fun n => h.follows hdef (answers htable n) M []
  obtain ⟨F, hget, hdefined, hname, -⟩ := hfollows 0
  have hid : m.functionByName? x.1 = some x.2.id := by
    rw [← hname]
    exact IR.Module.functionByName?_eq hnames hget
  have hrun : ∀ n, m.run n x.1 M = steps m n (.enter F M []) := by
    intro n
    simp only [IR.Module.run, hid, Option.bind_some, hget, hdefined, if_pos]
  simp only [hrun]
  refine run_iff_steps rfl (fun n => ?_) hr
  obtain ⟨F', hget', -, -, hF⟩ := hfollows n
  cases hget.symm.trans hget'
  refine hF.mono fun M' c hc => ?_
  obtain ⟨hret, rfl, hcallers⟩ := hc
  simp only [hret, exit, hcallers]

theorem Implements.run_ne_stuck (h : Implements m table x globals f)
    (hdef : definition? x.1 [] p = some (globals, f))
    (htable : ∀ x ∈ table, ∃ g f, definition? x.1 [] p = some (g, f) ∧ Implements m table x g f)
    (n : Nat) (M : Memory) : p.run n x.1 M ≠ .error .stuck := by
  intro hn
  cases n with
  | zero => cases hn
  | succ n =>
    obtain ⟨F, -, -, -, hF⟩ := h.follows hdef (answers htable n) M []
    rw [hn] at hF
    exact hF

end Lower

/-- A function of a correct program and its code come to the same end on the same global variables:
both return, with the same global variables, or both trap, or neither comes to an end. Neither
gets stuck. -/
theorem lower_preserves (name : String) (p : Program) (l : Lowered)
    (hl : lower name p = .ok l) (hv : l.valid = true) (f : FunctionDef)
    (hf : .function f ∈ p) (M : Memory) :
    (∀ M', (∃ n, p.run n f.name M = .ok M') ↔ ∃ n, l.module.run n f.name M = .ok M') ∧
    ((∃ n, p.run n f.name M = .error .trap) ↔
      ∃ n, l.module.run n f.name M = .error .trap) ∧
    ∀ n, p.run n f.name M ≠ .error .stuck ∧ l.module.run n f.name M ≠ .error .stuck := by
  obtain ⟨l', hl', hsound, hjudged⟩ := lower_judged name p
  rw [hl] at hl'
  cases hl'
  obtain ⟨-, hasm⟩ : l.valid = true ∧ Lower.Assembles [] {} { name } p l.module := by
    rcases hjudged with h | ⟨hn, -⟩
    · exact h
    · rw [hv] at hn
      cases hn
  obtain ⟨-, table, hcovers⟩ := hasm.implements rfl [] rfl rfl
  have htable : ∀ x ∈ table, ∃ g f, definition? x.1 [] p = some (g, f) ∧
      Lower.Implements l.module table x g f := by
    intro x hx
    rcases hcovers.new x hx with h | ⟨-, h⟩
    · cases h
    · exact h
  obtain ⟨r, hr⟩ := hcovers.all f hf
  obtain ⟨g, f', hdef, himpl⟩ := htable _ hr
  have hstuck := fun n => himpl.run_ne_stuck hdef htable n M
  refine ⟨fun M' => himpl.run_iff hdef htable hsound.functions M (by simp),
    himpl.run_iff hdef htable hsound.functions M (by simp), fun n => ⟨hstuck n, fun hn => ?_⟩⟩
  obtain ⟨k, hk⟩ := (himpl.run_iff hdef htable hsound.functions M (by simp)).mpr ⟨n, hn⟩
  exact hstuck k hk

def counting : FunctionDef :=
  { name := "count", nameSpan := ⟨0, 0⟩, bodySpan := ⟨0, 0⟩, span := ⟨0, 0⟩
    body := [.loop ⟨.lt, .name "n" ⟨0, 0⟩, .literal (.int 3) ⟨0, 0⟩, ⟨0, 0⟩⟩
      (.assign (.name "n" ⟨0, 0⟩)
        (.binary .add (.name "n" ⟨0, 0⟩) (.literal (.int 1) ⟨0, 0⟩) ⟨0, 0⟩) ⟨0, 0⟩) ⟨0, 0⟩] }

def counter : Program :=
  [.global ⟨"n", ⟨0, 0⟩, .int, false, none, [], ⟨0, 0⟩⟩, .function counting]

theorem counter_valid : ∃ l, lower "counter" counter = .ok l ∧ l.valid = true := by
  have h : (lower "counter" counter).toOption.any Lowered.valid = true := by decide +kernel
  cases hl : lower "counter" counter with
  | ok l => exact ⟨l, rfl, by simpa [hl, Except.toOption] using h⟩
  | error e => simp [hl, Except.toOption] at h

theorem counter_preserved : ∃ l, lower "counter" counter = .ok l ∧ l.valid = true ∧
    ∃ n, l.module.run n "count" [[.int 0]] = .ok [[.int 3]] := by
  obtain ⟨l, hl, hv⟩ := counter_valid
  have h := lower_preserves "counter" counter l hl hv counting (by simp [counter]) [[.int 0]]
  exact ⟨l, hl, hv, (h.1 [[.int 3]]).mp ⟨5, rfl⟩⟩

end C1Lang
