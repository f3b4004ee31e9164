import C1Lang.Proofs.Execution.Machine
import C1Lang.Proofs.Execution.Tree
import C1Lang.Proofs.IR.Extension
import C1Lang.Proofs.Lower.Code

/-!
# Shape of generated code

Expressions are straight code: they add instructions and temporaries to the current block.
Statements extend the function and allocate a slot for each variable that they declare, in the
order of the text (`Generates.blank`), so that names mean the same in a program and in its code
(`Generates.layout`).
-/

namespace C1Lang

def Binding.site (x : Binding) : Execution.Site := ⟨x.storage, x.isArray, x.kind⟩

namespace IR

structure Straight (b b' : Builder) : Prop where
  appends : Appends b b'
  slots : b'.locals = b.locals
  name : b'.name = b.name

namespace Straight

variable {b b' b'' : Builder}

theorem refl (b : Builder) : Straight b b := ⟨.refl b, rfl, rfl⟩

theorem trans (h : Straight b b') (k : Straight b' b'') : Straight b b'' :=
  ⟨h.appends.trans k.appends, k.slots.trans h.slots, k.name.trans h.name⟩

theorem compute (h : Straight b b') (ty : Ty) (i : Instr) : Straight b (b'.compute ty i) :=
  h.trans ⟨.compute b' ty i, rfl, rfl⟩

theorem push (h : Straight b b') (i : Instr) : Straight b (b'.push i) :=
  h.trans ⟨.push b' i, rfl, rfl⟩

theorem opened (h : Straight b b') (hb : b.Open) : b'.Open := h.appends.opened hb

theorem within (h : Straight b b') (hb : b.Open) : b.finish.Within b'.finish :=
  h.appends.within hb

theorem temps_le (h : Straight b b') : b.temps.size ≤ b'.temps.size := by
  simpa using h.appends.temps.length_le

theorem extension (h : Straight b b') (hb : b.Open) : b.Extends b' :=
  h.appends.extension hb h.name

end Straight

end IR

namespace Lower

open IR IR.Builder Execution

variable {σ σ' : Scopes} {b b' : Builder} {x x' y y' o : Operand} {j k : Kind}

theorem Coerces.straight (h : Coerces b x j k b' x') : Straight b b' := by
  cases h with
  | same => exact .refl b
  | int => exact .refl b
  | float => exact .refl b
  | toFloat => exact (Straight.refl b).compute _ _
  | toInt => exact (Straight.refl b).compute _ _

theorem Meets.straight (h : Meets b x j y k b' x' y') : Straight b b' := by
  cases h with
  | mk hl hr => exact hl.straight.trans hr.straight

theorem Lowers.straight {e : Expr} (h : Lowers σ b e b' o k) : Straight b b' := by
  induction h with
  | literal => exact .refl _
  | binary _ _ hm _ ihl ihr => exact ((ihl.trans ihr).trans hm.straight).compute _ _
  | plus _ ih => exact ih
  | neg _ ih => exact ih.compute _ _
  | name => exact (Straight.refl _).compute _ _
  | element _ _ _ ih => exact (ih.compute _ _).compute _ _

theorem Points.straight {z : Binding} {i : Option Expr} (h : Points σ b z i b' o) :
    Straight b b' := by
  cases h with
  | scalar => exact .refl b
  | array _ hi => exact hi.straight.compute _ _

theorem Locates.straight {p : Place} (h : Locates σ b p b' o k) : Straight b b' := by
  cases h with
  | mk _ _ hp => exact hp.straight

theorem Compares.straight {c : Condition} (h : Compares σ b c b' o) : Straight b b' := by
  cases h with
  | mk hl hr hm => exact ((hl.straight.trans hr.straight).trans hm.straight).compute _ _

theorem Stores.straight {slot count index : Nat} {es : List Expr}
    (h : Stores σ slot k count index es b b') : Straight b b' := by
  induction h with
  | done => exact .refl _
  | zero _ ih => exact (((Straight.refl _).compute _ _).push _).trans ih
  | value he hc _ ih =>
    exact (((he.straight.trans hc.straight).compute _ _).push _).trans ih

theorem Initializes.straight {slot : Nat} {v : Variable} {ty : Ty}
    (h : Initializes σ slot v ty b b') : Straight b b' := by
  cases h with
  | scalar => exact .refl b
  | value _ _ he hc => exact (he.straight.trans hc.straight).push _
  | array => exact .refl b
  | elements _ _ _ hs => exact hs.straight

theorem two_waits (hb : b.Open) : b.createBlock.2.createBlock.2.Waits b.blocks.size ∧
    b.createBlock.2.createBlock.2.Waits (b.blocks.size + 1) := by
  have h := Waits.created hb.create
  rw [createBlock_size] at h
  exact ⟨(Waits.created hb).create, h⟩

theorem three_waits (hb : b.Open) :
    b.createBlock.2.createBlock.2.createBlock.2.Waits b.blocks.size ∧
      b.createBlock.2.createBlock.2.createBlock.2.Waits (b.blocks.size + 1) ∧
      b.createBlock.2.createBlock.2.createBlock.2.Waits (b.blocks.size + 2) := by
  have h := Waits.created hb.create.create
  rw [createBlock_size, createBlock_size] at h
  exact ⟨(two_waits hb).1.create, (two_waits hb).2.create, h⟩

theorem fork_extends (hb : b.Open) (c : Operand) :
    b.Extends (fork b c) ∧ (fork b c).Waits (b.blocks.size + 1) := by
  obtain ⟨h, h'⟩ := two_waits hb
  exact ⟨(Extends.refl hb).create.create.leave h (Nat.le_refl _) _, h'.leave (by omega) _⟩

theorem forkElse_extends (hb : b.Open) (c : Operand) :
    b.Extends (forkElse b c) ∧ (forkElse b c).Waits (b.blocks.size + 1) ∧
      (forkElse b c).Waits (b.blocks.size + 2) := by
  obtain ⟨h, h', h''⟩ := three_waits hb
  exact ⟨(Extends.refl hb).create.create.create.leave h (Nat.le_refl _) _,
    h'.leave (by omega) _, h''.leave (by omega) _⟩

theorem enterLoop_extends (hb : b.Open) :
    b.Extends (enterLoop b) ∧ (enterLoop b).Waits (b.blocks.size + 1) ∧
      (enterLoop b).Waits (b.blocks.size + 2) := by
  obtain ⟨h, h', h''⟩ := three_waits hb
  exact ⟨(Extends.refl hb).create.create.create.leave h (Nat.le_refl _) _,
    h'.leave (by omega) _, h''.leave (by omega) _⟩

section Blocks

variable {b₁ b₂ b₃ : Builder}

theorem branch_extends (hb : b.Open) (h : (fork b x).Extends b₁) :
    b₁.Waits (b.blocks.size + 1) ∧
      b.Extends (b₁.leave (.goto (b.blocks.size + 1)) (b.blocks.size + 1)) := by
  obtain ⟨hf, hw⟩ := fork_extends hb x
  have hw₁ := hw.of_extends h
  exact ⟨hw₁, (hf.trans h).leave hw₁ (by omega) _⟩

theorem branchElse_enters (hb : b.Open) (h : (forkElse b x).Extends b₁) :
    b₁.Waits (b.blocks.size + 1) ∧ b₁.Waits (b.blocks.size + 2) ∧
      b.Extends (b₁.leave (.goto (b.blocks.size + 2)) (b.blocks.size + 1)) := by
  obtain ⟨hf, hw, hw'⟩ := forkElse_extends hb x
  have hw₁ := hw.of_extends h
  exact ⟨hw₁, hw'.of_extends h, (hf.trans h).leave hw₁ (by omega) _⟩

theorem branchElse_extends (hb : b.Open) (h : (forkElse b x).Extends b₁)
    (h' : (b₁.leave (.goto (b.blocks.size + 2)) (b.blocks.size + 1)).Extends b₂) :
    b₂.Waits (b.blocks.size + 2) ∧
      b.Extends (b₂.leave (.goto (b.blocks.size + 2)) (b.blocks.size + 2)) := by
  obtain ⟨-, hw, hm⟩ := branchElse_enters hb h
  have hw₂ := (hw.leave (by omega) (.goto (b.blocks.size + 2))).of_extends h'
  exact ⟨hw₂, (hm.trans h').leave hw₂ (by omega) _⟩

theorem loop_enters (hb : b.Open) (h : Straight (enterLoop b) b₁) (x : Operand) :
    b₁.Waits (b.blocks.size + 1) ∧ b₁.Waits (b.blocks.size + 2) ∧
      b.Extends (b₁.leave (.branch x (b.blocks.size + 1) (b.blocks.size + 2))
        (b.blocks.size + 1)) := by
  obtain ⟨he, hw, hw'⟩ := enterLoop_extends hb
  have h₁ := h.extension he.opened
  have hw₁ := hw.of_extends h₁
  exact ⟨hw₁, hw'.of_extends h₁, (he.trans h₁).leave hw₁ (by omega) _⟩

theorem loop_extends (hb : b.Open) (h : Straight (enterLoop b) b₁)
    (h' : (b₁.leave (.branch x (b.blocks.size + 1) (b.blocks.size + 2))
      (b.blocks.size + 1)).Extends b₂) :
    b₂.Waits (b.blocks.size + 2) ∧
      b.Extends (b₂.leave (.goto b.blocks.size) (b.blocks.size + 2)) := by
  obtain ⟨-, hw, hm⟩ := loop_enters hb h x
  have hw₂ := (hw.leave (by omega) _).of_extends h'
  exact ⟨hw₂, (hm.trans h').leave hw₂ (by omega) _⟩

end Blocks

mutual

theorem Generates.extends {functions : List (String × FunctionRecord)} :
    {σ σ' : Scopes} → {b b' : Builder} → {st : Stmt} → Generates functions σ b st σ' b' →
    b.Open → b.Extends b'
  | _, _, b, _, _, .declare _ hi, hb =>
    have hslot := Appends.slot b _ _
    (hslot.extension hb rfl).trans (hi.straight.extension (hslot.opened hb))
  | _, _, _, _, _, .assign hv hp hc, hb =>
    (((hv.straight.trans hp.straight).trans hc.straight).push _).extension hb
  | _, _, b, _, _, .call _, hb => ((Straight.refl b).push _).extension hb
  | _, _, _, _, _, .block hbody, hb => hbody.extends hb
  | _, _, _, _, _, .branch hc hbody, hb =>
    have h₁ := hc.straight.extension hb
    have h₂ := hbody.extends (fork_extends h₁.opened _).1.opened
    h₁.trans (branch_extends h₁.opened h₂).2
  | _, _, _, _, _, .branchElse hc hbody hother, hb =>
    have h₁ := hc.straight.extension hb
    have h₂ := hbody.extends (forkElse_extends h₁.opened _).1.opened
    have h₃ := hother.extends (branchElse_enters h₁.opened h₂).2.2.opened
    h₁.trans (branchElse_extends h₁.opened h₂ h₃).2
  | _, _, _, _, _, .loop hc hbody, hb =>
    have h₂ := hbody.extends (loop_enters hb hc.straight _).2.2.opened
    (loop_extends hb hc.straight h₂).2
  | _, _, _, _, _, .empty, hb => .refl hb

theorem GeneratesAll.extends {functions : List (String × FunctionRecord)} :
    {σ σ' : Scopes} → {b b' : Builder} → {body : List Stmt} →
    GeneratesAll functions σ b body σ' b' → b.Open → b.Extends b'
  | _, _, _, _, _, .nil, hb => .refl hb
  | _, _, _, _, _, .cons hst hrest, hb =>
    have h := hst.extends hb
    h.trans (hrest.extends h.opened)

end

theorem ty_blank (k : Kind) : k.ty.blank = [zero k] := by
  cases k <;> rfl

theorem array_blank (k : Kind) (n : Nat) :
    (Ty.array k.scalar n).blank = List.replicate n (zero k) := by
  cases k <;> simp [Ty.blank, Kind.scalar, Scalar.kind?]

theorem Initializes.blank {slot : Nat} {v : Variable} {ty : Ty}
    (h : Initializes σ slot v ty b b') : ty.blank = Execution.blank v := by
  have hone : v.extent = none → v.kind.ty.blank = Execution.blank v := by
    intro hv
    simp [Execution.blank, size, hv, ty_blank]
  cases h with
  | scalar hv _ => exact hone hv
  | value hv _ _ _ => exact hone hv
  | array hv hs _ => rw [array_blank, Execution.blank, size_of_spans hv hs]
  | elements hv hs _ _ => rw [array_blank, Execution.blank, size_of_spans hv hs]

theorem Straight.blank (h : Straight b b') : b'.finish.blank = b.finish.blank := by
  simp only [Function.blank, Builder.finish, h.slots]

mutual

theorem Generates.blank {functions : List (String × FunctionRecord)} :
    {σ σ' : Scopes} → {b b' : Builder} → {st : Stmt} → Generates functions σ b st σ' b' →
    b'.finish.blank = b.finish.blank ++ (stmtVariables st).map Execution.blank
  | _, _, b, _, _, .declare _ hi => by
    rw [Straight.blank hi.straight, stmtVariables, List.map_singleton, ← hi.blank]
    simp [Function.blank, Builder.finish, Builder.addLocal]
  | _, _, _, _, _, .assign hv hp hc => by
    rw [Straight.blank (((hv.straight.trans hp.straight).trans hc.straight).push _), stmtVariables]
    simp
  | _, _, b, _, _, .call _ => by
    rw [Straight.blank ((Straight.refl b).push _), stmtVariables]
    simp
  | _, _, _, _, _, .block hbody => by
    rw [hbody.blank, stmtVariables]
  | _, _, _, _, _, .branch hc hbody => by
    have hfork := Straight.blank hc.straight
    have h := hbody.blank
    rw [stmtVariables]
    exact h.trans (congrArg (· ++ _) hfork)
  | _, _, _, _, _, .branchElse hc hbody hother => by
    have hfork := Straight.blank hc.straight
    have h := hbody.blank
    have h' := hother.blank
    rw [stmtVariables, List.map_append, ← List.append_assoc]
    exact h'.trans (congrArg (· ++ _) (h.trans (congrArg (· ++ _) hfork)))
  | _, _, _, _, _, .loop hc hbody => by
    have hfork := Straight.blank hc.straight
    have h := hbody.blank
    rw [stmtVariables]
    exact h.trans (congrArg (· ++ _) hfork)
  | _, _, _, _, _, .empty => by
    rw [stmtVariables]
    simp

theorem GeneratesAll.blank {functions : List (String × FunctionRecord)} :
    {σ σ' : Scopes} → {b b' : Builder} → {body : List Stmt} →
    GeneratesAll functions σ b body σ' b' →
    b'.finish.blank = b.finish.blank ++ (blockVariables body).map Execution.blank
  | _, _, _, _, _, .nil => by
    rw [blockVariables]
    simp
  | _, _, _, _, _, .cons hst hrest => by
    rw [hrest.blank, hst.blank, blockVariables, List.map_append, List.append_assoc]

end

theorem after_locals : (E : Layout) → (st : Stmt) →
    (E.after st).locals = E.locals + (stmtVariables st).length
  | E, .declare v => by
    rw [Layout.after, stmtVariables]
    rfl
  | E, .block body _ => by
    rw [Layout.after, stmtVariables]
  | E, .branch _ body _ => by
    rw [Layout.after, stmtVariables]
    exact after_locals E body
  | E, .loop _ body _ => by
    rw [Layout.after, stmtVariables]
    exact after_locals E body
  | E, .branchElse _ body other _ => by
    rw [Layout.after, stmtVariables, after_locals (E.after body) other, after_locals E body,
      List.length_append, Nat.add_assoc]
  | E, .assign _ _ _ => by
    rw [Layout.after, stmtVariables]
    rfl
  | E, .call _ _ => by
    rw [Layout.after, stmtVariables]
    rfl
  | E, .empty _ => by
    rw [Layout.after, stmtVariables]
    rfl

/-- A layout that shows the scopes and the slots of the function so far. -/
structure Pictures (E : Layout) (σ : Scopes) (b : Builder) : Prop where
  names : E.names = σ.view Binding.site
  locals : E.locals = b.locals.size

theorem Pictures.after_locals {functions : List (String × FunctionRecord)} {E : Layout}
    {st : Stmt} (hE : Pictures E σ b) (h : Generates functions σ b st σ' b') :
    (E.after st).locals = b'.locals.size := by
  have hsize := congrArg List.length h.blank
  simp only [Function.blank, Builder.finish, List.length_append, List.length_map,
    Array.length_toList] at hsize
  rw [Lower.after_locals, hE.locals, hsize]

theorem Pictures.straight {E : Layout} (hE : Pictures E σ b) (h : Straight b b') :
    Pictures E σ b' :=
  ⟨hE.names, by rw [h.slots]; exact hE.locals⟩

theorem Generates.layout {functions : List (String × FunctionRecord)} : (E : Layout) →
    (st : Stmt) → {σ σ' : Scopes} → {b b' : Builder} → Generates functions σ b st σ' b' →
    Pictures E σ b → Pictures (E.after st) σ' b'
  | E, .declare v => by
    intro h hE
    refine ⟨?_, hE.after_locals h⟩
    cases h with
    | declare _ _ =>
      rw [Layout.after, Layout.declare, Scopes.view_declare, hE.names, hE.locals]
      rfl
  | E, .block body _ => by
    intro h hE
    refine ⟨?_, hE.after_locals h⟩
    cases h with
    | block _ =>
      rw [Layout.after]
      exact hE.names
  | E, .branch _ body _ => by
    intro h hE
    rw [Layout.after]
    cases h with
    | branch hc hbody =>
      have h := hbody.layout E body ⟨hE.names, (hE.straight hc.straight).locals⟩
      exact ⟨h.names, h.locals⟩
  | E, .loop _ body _ => by
    intro h hE
    rw [Layout.after]
    cases h with
    | loop hc hbody =>
      have hloop : Pictures E _ (enterLoop _) := ⟨hE.names, hE.locals⟩
      have h := hbody.layout E body ⟨hE.names, (hloop.straight hc.straight).locals⟩
      exact ⟨h.names, h.locals⟩
  | E, .branchElse _ body other _ => by
    intro h hE
    rw [Layout.after]
    cases h with
    | branchElse hc hbody hother =>
      have h := hbody.layout E body ⟨hE.names, (hE.straight hc.straight).locals⟩
      have h' := hother.layout (E.after body) other ⟨h.names, h.locals⟩
      exact ⟨h'.names, h'.locals⟩
  | E, .assign _ _ _ => by
    intro h hE
    refine ⟨?_, hE.after_locals h⟩
    cases h with
    | assign _ _ _ =>
      rw [Layout.after]
      exact hE.names
  | E, .call _ _ => by
    intro h hE
    refine ⟨?_, hE.after_locals h⟩
    cases h with
    | call _ =>
      rw [Layout.after]
      exact hE.names
  | E, .empty _ => by
    intro h hE
    rw [Layout.after]
    cases h with
    | empty => exact hE

end Lower

end C1Lang
