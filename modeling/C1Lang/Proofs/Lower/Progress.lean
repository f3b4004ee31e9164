import C1Lang.Proofs.Lower.Emission

/-!
# Progress of lowering

Lowering a function body builds code from the current block on, declares names in the innermost
scope and records diagnostics (`Proceeds`). Branches and loops create blocks, which wait until
they are entered.
-/

namespace C1Lang

theorem Scopes.Fits.declare {m : IR.Module} {f : IR.Function} {s : Scopes} {x : Binding}
    (h : s.Fits m f) (name : String) (hx : x.Fits m f) : (s.declare name x).Fits m f := by
  obtain ⟨inner, outer⟩ := s
  cases inner with
  | nil =>
    intro scope hs y hy
    obtain rfl : scope = _ := List.mem_singleton.mp hs
    rcases List.mem_cons.mp hy with rfl | hy
    · exact hx
    · exact h outer (by simp [all]) y hy
  | cons first rest =>
    intro scope hs y hy
    rcases List.mem_cons.mp hs with rfl | hs
    · rcases List.mem_cons.mp hy with rfl | hy
      · exact hx
      · exact h first (by simp [all]) y hy
    · exact h scope (List.mem_cons_of_mem _ hs) y hy

theorem Scopes.Fits.enter {m : IR.Module} {f : IR.Function} {s : Scopes} (h : s.Fits m f)
    (kind : ScopeKind) : (s.enter kind).Fits m f := by
  intro scope hs x hx
  rcases List.mem_cons.mp hs with rfl | hs
  · cases hx
  · exact h scope hs x hx

theorem Scopes.Fits.exit {m : IR.Module} {f : IR.Function} {s : Scopes} (h : s.Fits m f) :
    s.exit.Fits m f := by
  intro scope hs x hx
  refine h scope ?_ x hx
  rcases List.mem_append.mp hs with hs | hs
  · exact List.mem_append_left _ (List.mem_of_mem_drop hs)
  · exact List.mem_append_right _ hs

namespace Lower

open IR IR.Builder

theorem bind_eq {s : State} {v : Variable} (h : s.scopes.lookupCurrent v.name = none)
    (storage : Storage) :
    Lower.bind v storage s =
      .ok () { s with scopes := s.scopes.declare v.name (v.binding storage) } := by
  have hd := Scopes.declare?_eq h (v.binding storage)
  unfold Lower.bind
  rw [get_bind]
  simp only [Variable.binding] at hd
  rw [hd]
  rfl

def State.errors (s : State) : Nat := s.diagnostics.countP Diagnostic.isError

theorem State.errors_record (s : State) {d : Diagnostic} (h : d.isError = true) :
    (s.record d).errors = s.errors + 1 := by
  simp [State.errors, State.record, h]

/-- From `s` to `s'` code was built, names were declared in the innermost scope, and diagnostics
were recorded. The blocks `waiting` were created and not entered yet. -/
structure Proceeds (s : State) (b : Builder) (waiting : List Nat) (s' : State) (b' : Builder) :
    Prop where
  module : s'.module = s.module
  functions : s'.functions = s.functions
  built : Built s.module b waiting b'
  ready : Ready s' b'
  inner : s'.scopes.inner ≠ []
  outer : s'.scopes.exit = s.scopes.exit
  errors : s.errors ≤ s'.errors

def Proceeded (s : State) (b : Builder) (s' : State) : Prop :=
  ∃ b', Proceeds s b [] s' b' ∧ b'.blocks.size = b.blocks.size

theorem Proceeds.trans {s s' s'' : State} {b b' b'' : Builder} {waiting : List Nat}
    (hb : b.Open) (h : Proceeds s b waiting s' b') (k : Proceeds s' b' [] s'' b'') :
    Proceeds s b waiting s'' b'' := by
  have hbuilt : Built s.module b ([] ++ waiting) b'' := h.built.trans hb (h.module ▸ k.built)
  exact ⟨k.module.trans h.module, k.functions.trans h.functions, hbuilt, k.ready, k.inner,
    k.outer.trans h.outer, Nat.le_trans h.errors k.errors⟩

theorem Proceeded.of {s s' s'' : State} {b b' : Builder} (hb : b.Open)
    (h : Proceeds s b [] s' b') (hsize : b'.blocks.size = b.blocks.size)
    (k : Proceeded s' b' s'') : Proceeded s b s'' := by
  obtain ⟨b'', k, hsize'⟩ := k
  exact ⟨b'', h.trans hb k, hsize'.trans hsize⟩

theorem Ready.record {s : State} {b : Builder} (h : Ready s b) (d : Diagnostic) :
    Ready (s.record d) b :=
  ⟨h.builder, h.opened, h.fits, h.callees⟩

theorem Proceeds.record {s s' : State} {b b' : Builder} {waiting : List Nat}
    (h : Proceeds s b waiting s' b') (d : Diagnostic) :
    Proceeds s b waiting (s'.record d) b' := by
  refine ⟨h.module, h.functions, h.built, h.ready.record d, h.inner, h.outer, ?_⟩
  refine Nat.le_trans h.errors ?_
  simp [State.errors, State.record]

theorem Proceeds.advance {s s' : State} {b b' b'' : Builder} {waiting more : List Nat}
    (hb : b.Open) (h : Proceeds s b waiting s' b') (k : Built s.module b more b'')
    (hw : b'.finish.Within b''.finish) : Proceeds s b more (s'.building b'') b'' :=
  ⟨h.module, h.functions, k,
    ⟨rfl, (k.frame hb).opened, h.ready.fits.mono (.refl _) hw, h.ready.callees⟩,
    h.inner, h.outer, h.errors⟩

theorem Proceeds.create {s s' : State} {b b' : Builder} {waiting : List Nat} (hb : b.Open)
    (h : Proceeds s b waiting s' b') :
    Proceeds s b (b'.blocks.size :: waiting) (s'.building b'.createBlock.2) b'.createBlock.2 :=
  h.advance hb h.built.create (within_createBlock b')

theorem Proceeds.leave {s s' : State} {b b' : Builder} {waiting : List Nat} {t : Terminator}
    {next : Nat} (hb : b.Open) (h : Proceeds s b waiting s' b') (hn : next ∈ waiting)
    (ht : t.Sound s.module b'.finish b'.code)
    (hd : ∃ target ∈ t.successors, ∃ id ∈ waiting, Linked b'.blocks target id)
    (hl : next ∈ t.successors ∨ Linked b'.blocks b.current next) :
    Proceeds s b (waiting.erase next) (s'.building (b'.leave t next)) (b'.leave t next) :=
  h.advance hb (h.built.leave hn ht hd hl) (within_leave h.ready.opened t next)

theorem Emits.proceeds {s s' : State} {b b' : Builder} (h : Emits s b s' b') (hr : Ready s b)
    (hi : s.scopes.inner ≠ []) : Proceeds s b [] s' b' := by
  have hr' := h.ready hr
  obtain ⟨rfl, hb, -⟩ := h
  exact ⟨rfl, rfl, hb, hr', hi, rfl, Nat.le_refl _⟩

theorem Emitted.proceeded {s s' : State} {b : Builder} (h : Emitted s b s') (hr : Ready s b)
    (hi : s.scopes.inner ≠ []) : Proceeded s b s' := by
  obtain ⟨b', h⟩ := h
  exact ⟨b', h.proceeds hr hi, h.appends.size⟩

theorem leave_ends {s : State} {b : Builder} {t : Terminator} {block : Nat}
    {next : Lower Unit} {done : Unit → State → Prop} {stopped : State → Prop}
    (hs : s.builder = some b) (hb : b.Open)
    (h : Ends next (s.building (b.leave t block)) done stopped) :
    Ends (terminate t >>= fun _ => switchTo block >>= fun _ => next) s done stopped := by
  refine .bind_eq (terminate_eq hs hb t) ?_
  exact .bind_eq (switchTo_eq (State.building_builder _ _) block) h

theorem leave_eq {s : State} {b : Builder} (t : Terminator) (block : Nat)
    (hs : s.builder = some b) (hb : b.Open) :
    (terminate t >>= fun _ => switchTo block) s = .ok () (s.building (b.leave t block)) := by
  rw [bind_ok (terminate_eq hs hb t), switchTo_eq (State.building_builder _ _)]
  rfl

theorem newBlocks_ends {s : State} {b : Builder} {next : Nat → Nat → Lower Unit}
    {done : Unit → State → Prop} {stopped : State → Prop} (hs : s.builder = some b)
    (h : Ends (next b.blocks.size (b.blocks.size + 1))
      (s.building b.createBlock.2.createBlock.2) done stopped) :
    Ends (newBlock >>= fun i => newBlock >>= fun j => next i j) s done stopped := by
  refine .bind_eq (newBlock_eq hs) (.bind_eq (newBlock_eq (State.building_builder _ _)) ?_)
  rw [createBlock_size]
  exact h

theorem branch_ends {condition : Lower Operand} {body : Lower Unit} {s : State}
    {done : Unit → State → Prop} {stopped : State → Prop}
    (h : Ends condition s (fun c s₁ => ∃ b₁, Ready s₁ b₁ ∧
      Ends (recording body ()) (s₁.building (fork b₁ c)) (fun _ s₂ => ∃ b₂, Ready s₂ b₂ ∧
        done () (s₂.building (b₂.leave (.goto (b₁.blocks.size + 1)) (b₁.blocks.size + 1))))
        stopped) stopped) :
    Ends (branch condition body) s done stopped := by
  refine h.bind ?_ (fun _ h => h)
  intro c s₁ hend
  obtain ⟨b₁, hr₁, hbody⟩ := hend
  refine newBlocks_ends hr₁.builder (leave_ends rfl hr₁.opened.create.create ?_)
  refine hbody.bind ?_ (fun _ h => h)
  intro _ s₂ hend
  obtain ⟨b₂, hr₂, hdone⟩ := hend
  exact .of_eq (leave_eq _ _ hr₂.builder hr₂.opened) hdone

theorem branchElse_ends {condition : Lower Operand} {body other : Lower Unit} {s : State}
    {done : Unit → State → Prop} {stopped : State → Prop}
    (h : Ends condition s (fun c s₁ => ∃ b₁, Ready s₁ b₁ ∧
      Ends (recording body ()) (s₁.building (forkElse b₁ c)) (fun _ s₂ => ∃ b₂, Ready s₂ b₂ ∧
        Ends (recording other ())
          (s₂.building (b₂.leave (.goto (b₁.blocks.size + 2)) (b₁.blocks.size + 1)))
          (fun _ s₃ => ∃ b₃, Ready s₃ b₃ ∧
            done () (s₃.building (b₃.leave (.goto (b₁.blocks.size + 2)) (b₁.blocks.size + 2))))
          stopped) stopped) stopped) :
    Ends (branchElse condition body other) s done stopped := by
  refine h.bind ?_ (fun _ h => h)
  intro c s₁ hend
  obtain ⟨b₁, hr₁, hbody⟩ := hend
  refine newBlocks_ends hr₁.builder (.bind_eq (newBlock_eq (State.building_builder _ _)) ?_)
  refine leave_ends rfl hr₁.opened.create.create.create (hbody.bind ?_ (fun _ h => h))
  simp only [createBlock_size]
  intro _ s₂ hend
  obtain ⟨b₂, hr₂, hother⟩ := hend
  refine leave_ends hr₂.builder hr₂.opened (hother.bind ?_ (fun _ h => h))
  intro _ s₃ hend
  obtain ⟨b₃, hr₃, hdone⟩ := hend
  exact .of_eq (leave_eq _ _ hr₃.builder hr₃.opened) hdone

theorem loop_ends {condition : Lower Operand} {body : Lower Unit} {s : State} {b : Builder}
    {done : Unit → State → Prop} {stopped : State → Prop} (hr : Ready s b)
    (h : Ends condition (s.building (enterLoop b)) (fun c s₁ => ∃ b₁, Ready s₁ b₁ ∧
      Ends (recording body ())
        (s₁.building (b₁.leave (.branch c (b.blocks.size + 1) (b.blocks.size + 2))
          (b.blocks.size + 1)))
        (fun _ s₂ => ∃ b₂, Ready s₂ b₂ ∧
          done () (s₂.building (b₂.leave (.goto b.blocks.size) (b.blocks.size + 2))))
        stopped) stopped) :
    Ends (loop condition body) s done stopped := by
  refine newBlocks_ends hr.builder (.bind_eq (newBlock_eq (State.building_builder _ _)) ?_)
  simp only [createBlock_size]
  refine leave_ends rfl hr.opened.create.create.create (h.bind ?_ (fun _ h => h))
  intro c s₁ hend
  obtain ⟨b₁, hr₁, hbody⟩ := hend
  refine leave_ends hr₁.builder hr₁.opened (hbody.bind ?_ (fun _ h => h))
  intro _ s₂ hend
  obtain ⟨b₂, hr₂, hdone⟩ := hend
  exact .of_eq (leave_eq _ _ hr₂.builder hr₂.opened) hdone

theorem Proceeds.linked {s s' : State} {b b' : Builder} {waiting : List Nat} {id : Nat}
    (hb : b.Open) (h : Proceeds s b waiting s' b') (t : Terminator) (next : Nat)
    (hid : id ∈ t.successors) : Linked (b'.leave t next).blocks b.current id := by
  obtain ⟨c, hc, ht⟩ := h.ready.opened
  have hedge : Edge (b'.leave t next).blocks b'.current id := by
    refine ⟨{ c with terminator := t }, ?_, hid⟩
    rw [leave_getElem?, if_pos rfl, hc, Option.map_some]
  exact .tail (((h.built.frame hb).linked _ (.inl rfl)).mono
    (within_leave h.ready.opened t next)) hedge

theorem Proceeds.lt {s s' : State} {b b' : Builder} {waiting : List Nat} {id : Nat} (hb : b.Open)
    (h : Proceeds s b waiting s' b') (hid : id ∈ waiting) : id < b'.blocks.size := by
  obtain ⟨-, -, c, hc, -⟩ := (h.built.frame hb).pending id hid
  exact (Array.getElem?_eq_some_iff.mp hc).1

theorem Proceeds.goto {s s' : State} {b b' : Builder} {waiting more : List Nat} {i : Nat}
    (hb : b.Open) (h : Proceeds s b waiting s' b') (target : Nat) (hw : waiting.erase i = more)
    (hi : i ∈ waiting) (ht : target < b'.blocks.size)
    (hd : ∃ id ∈ waiting, Linked b'.blocks target id)
    (hl : i = target ∨ Linked b'.blocks b.current i) :
    Proceeds s b more (s'.building (b'.leave (.goto target) i)) (b'.leave (.goto target) i) :=
  hw ▸ h.leave hb hi (.goto ht) ⟨target, List.mem_singleton_self _, hd⟩
    (hl.imp_left List.mem_singleton.mpr)

theorem Proceeds.branch {s s' : State} {b b' : Builder} {waiting more : List Nat} {c : Operand}
    {i j : Nat} (hb : b.Open) (h : Proceeds s b waiting s' b')
    (hc : Holds s.module b' c (.scalar .i1)) (hw : waiting.erase i = more) (hi : i ∈ waiting)
    (hj : j ∈ waiting) :
    Proceeds s b more (s'.building (b'.leave (.branch c i j) i)) (b'.leave (.branch c i j) i) :=
  hw ▸ h.leave hb hi (.branch hc.type hc.written (h.lt hb hi) (h.lt hb hj))
    ⟨i, List.mem_cons_self, i, hi, .refl⟩ (.inl List.mem_cons_self)

theorem Proceeds.two {s s' : State} {b b' : Builder} (hb : b.Open)
    (h : Proceeds s b [] s' b') :
    Proceeds s b [b'.blocks.size + 1, b'.blocks.size] (s'.building b'.createBlock.2.createBlock.2)
      b'.createBlock.2.createBlock.2 := by
  have hp := (h.create hb).create hb
  rwa [createBlock_size] at hp

theorem Proceeds.three {s s' : State} {b b' : Builder} (hb : b.Open)
    (h : Proceeds s b [] s' b') :
    Proceeds s b [b'.blocks.size + 2, b'.blocks.size + 1, b'.blocks.size]
      (s'.building b'.createBlock.2.createBlock.2.createBlock.2)
      b'.createBlock.2.createBlock.2.createBlock.2 := by
  have hp := (h.two hb).create hb
  rwa [createBlock_size, createBlock_size] at hp

theorem Holds.create {m : Module} {b : Builder} {o : Operand} {ty : Ty} (h : Holds m b o ty)
    (hb : b.Open) : Holds m b.createBlock.2 o ty := by
  refine ⟨operandType?_mono (.refl m) (within_createBlock b) h.type, ?_⟩
  rw [createBlock_code hb]
  exact h.written

theorem Proceeds.fork {s s' : State} {b b' : Builder} {c : Operand} (hb : b.Open)
    (h : Proceeds s b [] s' b') (hc : Holds s.module b' c (.scalar .i1)) :
    Proceeds s b [b'.blocks.size + 1] (s'.building (Lower.fork b' c)) (Lower.fork b' c) := by
  have hc' := (hc.create h.ready.opened).create h.ready.opened.create
  have hw : [b'.blocks.size + 1, b'.blocks.size].erase b'.blocks.size = [b'.blocks.size + 1] := by
    simp
  have hp := (h.two hb).branch hb hc' hw (by simp) List.mem_cons_self
  exact hp

theorem erase_third (n : Nat) : [n + 2, n + 1, n].erase n = [n + 2, n + 1] := by
  simp

theorem erase_second (n : Nat) : [n + 2, n + 1].erase (n + 1) = [n + 2] := by
  simp

theorem Proceeds.forkElse {s s' : State} {b b' : Builder} {c : Operand} (hb : b.Open)
    (h : Proceeds s b [] s' b') (hc : Holds s.module b' c (.scalar .i1)) :
    Proceeds s b [b'.blocks.size + 2, b'.blocks.size + 1] (s'.building (Lower.forkElse b' c))
      (Lower.forkElse b' c) := by
  have hopen := h.ready.opened
  have hc' := ((hc.create hopen).create hopen.create).create hopen.create.create
  have hp := (h.three hb).branch hb hc' (erase_third _) (by simp)
    (List.mem_cons_of_mem _ List.mem_cons_self)
  exact hp

theorem Proceeds.enterLoop {s s' : State} {b b' : Builder} (hb : b.Open)
    (h : Proceeds s b [] s' b') :
    Proceeds s b [b'.blocks.size + 2, b'.blocks.size + 1] (s'.building (Lower.enterLoop b'))
      (Lower.enterLoop b') := by
  have hthree := h.three hb
  have hp := hthree.goto hb _ (erase_third _) (by simp) (hthree.lt hb (by simp))
    ⟨_, by simp, .refl⟩ (.inl rfl)
  exact hp

end Lower

end C1Lang
