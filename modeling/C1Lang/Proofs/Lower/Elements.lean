import C1Lang.Compiled
import C1Lang.Proofs.IR.Path
import C1Lang.Proofs.Lower.Constancy
import C1Lang.Proofs.Lower.Scoping
import C1Lang.Proofs.Lower.Shape

/-!
# Elements of local arrays

A declaration of an array in a function that has initializers stores every element of the array
once, in the order of the indices: the initializers, and zero where they end. What it has emitted
is still there in the function when the program is lowered (`lower_fills_arrays`). A declaration
without initializers emits nothing. That includes one whose list is written and empty, also of a
constant, as a program does not keep the braces apart from what is not there
(`empty_list_stores_nothing`).
-/

namespace C1Lang

namespace Lower

open IR IR.Builder

/-- Instructions that give a value each were appended to the current block. Such instructions
store nothing and call nothing. -/
structure AddsValues (b : Builder) (code : List Instr) (b' : Builder) : Prop where
  appends : Appends b b'
  emitted : b'.code = b.code ++ code
  values : ∀ i ∈ code, i.dest?.isSome = true

namespace AddsValues

variable {b b' b'' : Builder} {code code' : List Instr}

theorem refl (b : Builder) : AddsValues b [] b :=
  ⟨.refl b, (List.append_nil _).symm, fun _ hi => absurd hi List.not_mem_nil⟩

theorem trans (h : AddsValues b code b') (k : AddsValues b' code' b'') :
    AddsValues b (code ++ code') b'' := by
  refine ⟨h.appends.trans k.appends, ?_, fun i hi => ?_⟩
  · rw [k.emitted, h.emitted, List.append_assoc]
  · exact (List.mem_append.mp hi).elim (h.values i) (k.values i)

theorem compute (h : AddsValues b code b') (hb : b.Open) (ty : Ty) {i : Instr}
    (hi : i.dest?.isSome = true) : AddsValues b (code ++ [i]) (b'.compute ty i) := by
  refine h.trans ⟨.compute b' ty i, compute_code (h.appends.opened hb) ty i, fun j hj => ?_⟩
  exact List.mem_singleton.mp hj ▸ hi

end AddsValues

section Values

variable {σ : Scopes} {b b' : Builder} {x x' y y' o : Operand} {j k : Kind}

theorem Coerces.computes (h : Coerces b x j k b' x') (hb : b.Open) :
    ∃ code, AddsValues b code b' := by
  cases h with
  | same | int | float => exact ⟨_, .refl b⟩
  | toFloat | toInt => exact ⟨_, (AddsValues.refl b).compute hb _ rfl⟩

theorem Meets.computes (h : Meets b x j y k b' x' y') (hb : b.Open) :
    ∃ code, AddsValues b code b' := by
  cases h with
  | mk hl hr =>
    obtain ⟨_, hl⟩ := hl.computes hb
    obtain ⟨_, hr⟩ := hr.computes (hl.appends.opened hb)
    exact ⟨_, hl.trans hr⟩

theorem Lowers.computes {e : Expr} (h : Lowers σ b e b' o k) (hb : b.Open) :
    ∃ code, AddsValues b code b' := by
  induction h with
  | literal => exact ⟨_, .refl _⟩
  | binary _ _ hm _ ihl ihr =>
    obtain ⟨_, hl⟩ := ihl hb
    obtain ⟨_, hr⟩ := ihr (hl.appends.opened hb)
    have hlr := hl.trans hr
    obtain ⟨_, hm⟩ := hm.computes (hlr.appends.opened hb)
    exact ⟨_, (hlr.trans hm).compute hb _ rfl⟩
  | plus _ ih => exact ih hb
  | neg _ ih =>
    obtain ⟨_, he⟩ := ih hb
    exact ⟨_, he.compute hb _ rfl⟩
  | name => exact ⟨_, (AddsValues.refl _).compute hb _ rfl⟩
  | element _ _ _ ih =>
    obtain ⟨_, hi⟩ := ih hb
    exact ⟨_, (hi.compute hb _ rfl).compute hb _ rfl⟩

end Values

/-- What is stored into an element of an array, and where: the code that computes the value, the
value, and the temporary that holds the address. -/
structure Element where
  code : List Instr
  value : Operand
  address : Nat

namespace Element

def fill (slot index : Nat) (x : Element) : List Instr :=
  x.code ++ [.elementPtr x.address (.slot slot) (.const (.int (Int32.ofNat index))),
    .store (.temp x.address) x.value]

inductive Initialized (σ : Scopes) (kind : Kind) : Element → Option Expr → Prop
  | zero {address : Nat} : Initialized σ kind ⟨[], .const (Const.zero kind.scalar), address⟩ none
  | value {e : Expr} {b b₁ b₂ : Builder} {x x' : Operand} {k : Kind} {code : List Instr}
      {address : Nat} : Lowers σ b e b₁ x k → Coerces b₁ x k kind b₂ x' → AddsValues b code b₂ →
      Initialized σ kind ⟨code, x', address⟩ (some e)

end Element

def fillFrom (slot index : Nat) (xs : List Element) : List Instr :=
  (xs.zipIdx index).flatMap fun x => x.1.fill slot x.2

theorem fillFrom_cons (slot index : Nat) (x : Element) (xs : List Element) :
    fillFrom slot index (x :: xs) = x.fill slot index ++ fillFrom slot (index + 1) xs := by
  simp [fillFrom]

theorem storeAt_code {b : Builder} (hb : b.Open) (slot : Nat) (kind : Kind) (index : Nat)
    (value : Operand) :
    Appends b ((elementAt b slot kind index).push (.store (.temp b.temps.size) value)) ∧
    ((elementAt b slot kind index).push (.store (.temp b.temps.size) value)).code =
      b.code ++ Element.fill slot index ⟨[], value, b.temps.size⟩ := by
  have happ : Appends b (elementAt b slot kind index) := .compute b _ _
  refine ⟨happ.trans (.push _ _), ?_⟩
  rw [push_code (happ.opened hb), elementAt, compute_code hb, List.append_assoc]
  rfl

theorem Stores.elements {σ : Scopes} {slot count index : Nat} {kind : Kind} {es : List Expr}
    {b b' : Builder} (h : Stores σ slot kind count index es b b') (hb : b.Open) :
    ∃ xs : List Element, xs.length = count ∧ Appends b b' ∧
      b'.code = b.code ++ fillFrom slot index xs ∧
      ∀ (i : Nat) (x : Element), xs[i]? = some x → x.Initialized σ kind es[i]? := by
  induction h with
  | @done index es b =>
    exact ⟨[], rfl, .refl b, by simp [fillFrom], fun i x hx => by simp at hx⟩
  | @zero count index b b' _ ih =>
    obtain ⟨happ, hcode⟩ := storeAt_code hb slot kind index (.const (Const.zero kind.scalar))
    obtain ⟨xs, hlen, happ', hcode', hall⟩ := ih (happ.opened hb)
    refine ⟨⟨[], .const (Const.zero kind.scalar), b.temps.size⟩ :: xs, by simp [hlen],
      happ.trans happ', ?_, fun i x hx => ?_⟩
    · rw [hcode', hcode, fillFrom_cons, List.append_assoc]
    · cases i with
      | zero =>
        cases hx
        exact .zero
      | succ i => exact hall i x hx
  | @value count index e es b b₁ b₂ b' x x' k he hco _ ih =>
    obtain ⟨code, hcomp⟩ := he.computes hb
    obtain ⟨code', hcomp'⟩ := hco.computes (hcomp.appends.opened hb)
    have hvalue := hcomp.trans hcomp'
    have hb₂ := hvalue.appends.opened hb
    obtain ⟨happ, hcode⟩ := storeAt_code hb₂ slot kind index x'
    obtain ⟨xs, hlen, happ', hcode', hall⟩ := ih (happ.opened hb₂)
    refine ⟨⟨code ++ code', x', b₂.temps.size⟩ :: xs, by simp [hlen],
      (hvalue.appends.trans happ).trans happ', ?_, fun i y hy => ?_⟩
    · rw [hcode', hcode, hvalue.emitted, fillFrom_cons]
      simp [Element.fill]
    · cases i with
      | zero =>
        cases hy
        exact .value he hco hvalue
      | succ i => exact hall i y hy

section Positions

theorem at_iff_codeAt {f : Function} {id position : Nat} {i : Instr} :
    f.At id position i ↔ (f.codeAt id)[position]? = some i := by
  unfold Function.At Function.codeAt
  cases f.blocks[id]? <;> simp

theorem codeAt_appended {b b' : Builder} {code : List Instr} (h : Appends b b')
    (hcode : b'.code = b.code ++ code) (id : Nat) :
    b'.finish.codeAt id = b.finish.codeAt id ++ if id = b.current then code else [] := by
  by_cases hid : id = b.current
  · subst hid
    have hb' : b'.finish.codeAt b.current = b'.code := by rw [← h.current]; rfl
    rw [if_pos rfl, hb', hcode]
    rfl
  · have hsame : b'.finish.blocks[id]? = b.finish.blocks[id]? := h.others id hid
    simp [hid, Function.codeAt, hsame]

theorem added_iff {s s' : State} {b b' : Builder} {code : List Instr} (hs : s.builder = some b)
    (hs' : s'.builder = some b') (h : Appends b b') (hcode : b'.code = b.code ++ code)
    (id position : Nat) :
    Added s s' id position ↔ id = b.current ∧ b.code.length ≤ position ∧
      position < b.code.length + code.length := by
  have hhas : ∀ {s : State} {b : Builder}, s.builder = some b →
      ((∃ i, s.At id position i) ↔ position < (b.finish.codeAt id).length) := by
    intro s b hs
    simp only [State.at_iff hs, at_iff_codeAt, ← Option.isSome_iff_exists, isSome_getElem?]
  have hsplit := codeAt_appended h hcode id
  rw [Added, hhas hs', hhas hs, hsplit, List.length_append]
  by_cases hid : id = b.current
  · subst hid
    have hb : b.finish.codeAt b.current = b.code := rfl
    rw [if_pos rfl, hb]
    simp only [true_and]
    omega
  · rw [if_neg hid, List.length_nil]
    omega

end Positions

section Declared

variable {s s' : State} {b : Builder} {v : Variable} {extent : Extent}

theorem variableDeclaration_initializes (hr : Ready s b) (hi : s.scopes.inner ≠ [])
    (hv : v.extent = some extent) (hrun : variableDeclaration .inFunction v s = .ok () s') :
    ∃ n b', Spans v extent.length n ∧
      Emits (s.withLocal b v (.array v.kind.scalar n))
        (b.addLocal v.name (.array v.kind.scalar n)).2 s' b' ∧
      Initializes (s.withLocal b v (.array v.kind.scalar n)).scopes b.locals.size v
        (.array v.kind.scalar n) (b.addLocal v.name (.array v.kind.scalar n)).2 b' := by
  suffices h : Ends (variableDeclaration .inFunction v) s (fun _ s' => ∃ n b',
      Spans v extent.length n ∧
      Emits (s.withLocal b v (.array v.kind.scalar n))
        (b.addLocal v.name (.array v.kind.scalar n)).2 s' b' ∧
      Initializes (s.withLocal b v (.array v.kind.scalar n)).scopes b.locals.size v
        (.array v.kind.scalar n) (b.addLocal v.name (.array v.kind.scalar n)).2 b')
      fun _ => True from h.of_ok hrun
  apply Ends.get_bind
  cases hn : s.scopes.lookupCurrent v.name with
  | some x => exact .report rfl trivial
  | none =>
    rw [hv]
    refine (arrayLength_ends .inFunction v extent.length s).bind ?_ fun _ _ => trivial
    intro n s₁ hdone
    obtain ⟨hs, rfl⟩ := hdone
    refine (localArray_initializes .inFunction hr hi hn hv hs).mono ?_ fun _ _ => trivial
    intro _ s₂ hdone
    obtain ⟨b', he, hinit⟩ := hdone
    exact ⟨n, b', hs, he, hinit⟩

theorem ComesTo.visits {v : Variable} {s₁ s₂ s : State} {body : List Stmt}
    (h : ComesTo .inFunction v s₁ s₂ body s) : Visits (.declare v) s₁ body s := by
  induction h with
  | declare _ => exact .here
  | later heq _ ih => exact .later heq ih
  | block _ ih => exact .block ih
  | branch he _ ih => exact .branch he ih
  | thenPart he _ ih => exact .thenPart he ih
  | elsePart he hp _ ih => exact .elsePart he hp ih
  | loop he _ ih => exact .loop he ih

theorem Scopes.lookup_declare (σ : Scopes) (name : String) (x : Binding) :
    (σ.declare name x).lookup name = some x := by
  obtain ⟨inner, outer⟩ := σ
  cases inner <;> simp [Scopes.declare, Scopes.lookup, Scopes.all, Scope.find?]

/-- What the declaration of a local array with a length has emitted from one state to another: the
code that stands behind `before` in the block. -/
structure Filling (v : Variable) (length : Expr) (s s' : State) (slot block : Nat)
    (before code : List Instr) : Prop where
  named : s'.scopes.lookup v.name = some (v.binding (.slot slot))
  added : ∀ id position, Added s s' id position ↔
    id = block ∧ before.length ≤ position ∧ position < before.length + code.length
  empty : v.initializers = [] → code = []
  filled : v.initializers ≠ [] → ∃ xs : List Element, Spans v length xs.length ∧
    code = fillFrom slot 0 xs ∧
    ∀ (i : Nat) (x : Element), xs[i]? = some x →
      x.Initialized s'.scopes v.kind v.initializers[i]?

theorem variableDeclaration_fills (h : Building s) (hv : v.extent = some extent)
    (hrun : variableDeclaration .inFunction v s = .ok () s') :
    ∃ b block before code, s'.builder = some b ∧ b.finish.codeAt block = before ++ code ∧
      Filling v extent.length s s' s.slots block before code := by
  obtain ⟨hi, b, hr⟩ := h
  obtain ⟨n, b', hs, he, hinit⟩ := variableDeclaration_initializes hr hi hv hrun
  have happ := (Appends.slot b v.name (.array v.kind.scalar n)).trans he.appends
  have hslot : s.slots = b.locals.size := by simp [State.slots, hr.builder]
  obtain ⟨rfl, -, -⟩ := he
  have hnamed : (s.withLocal b v (.array v.kind.scalar n)).scopes.lookup v.name =
      some (v.binding (.slot s.slots)) := by
    rw [hslot]
    exact Scopes.lookup_declare _ _ _
  have hcurrent : b'.finish.codeAt b.current = b'.code := by rw [← happ.current]; rfl
  rw [hslot] at hnamed ⊢
  cases hinit with
  | array _ _ hnil =>
    have hcode : (b.addLocal v.name (.array v.kind.scalar n)).2.code = b.code ++ [] :=
      (List.append_nil _).symm
    exact ⟨_, b.current, b.code, [], rfl, hcurrent.trans hcode, hnamed,
      added_iff hr.builder rfl happ hcode, fun _ => rfl, fun hne => absurd hnil hne⟩
  | elements _ _ hne hst =>
    have hopen := (Appends.slot b v.name (.array v.kind.scalar n)).opened hr.opened
    obtain ⟨xs, hlen, -, hcode, hall⟩ := hst.elements hopen
    have hcode' : b'.code = b.code ++ fillFrom b.locals.size 0 xs := hcode
    exact ⟨_, b.current, b.code, _, rfl, hcurrent.trans hcode', hnamed,
      added_iff hr.builder rfl happ hcode', fun hnil => absurd hnil hne,
      fun _ => ⟨xs, hlen ▸ hs, rfl, hall⟩⟩

end Declared

end Lower

/-- Whatever the program holds, and wherever in a function the declaration of an array stands: if
lowering it succeeds, the function holds what it has emitted, one address and one store for each
element, in the order of the indices, where the array has initializers, and nothing where it has
none. -/
theorem lower_fills_arrays (name : String) (p : Program) :
    ∃ l, lower name p = .ok l ∧ ∀ f ∈ l.module.functions,
      ∃ d s b, Lower.Arrives name p d s ∧ Lower.Fills s d b ∧
        f = (b.leave .ret b.current).finish ∧
        ∀ v s₁ s₂ extent, Lower.ComesTo .inFunction v s₁ s₂ d.body (s.opening d) →
          v.extent = some extent → Lower.variableDeclaration .inFunction v s₁ = .ok () s₂ →
          ∃ block before code after, f.codeAt block = before ++ code ++ after ∧
            Lower.Filling v extent.length s₁ s₂ s₁.slots block before code := by
  obtain ⟨s', hrun, -, haccounted⟩ := Lower.declarations_settled name p
  refine ⟨⟨s'.module, s'.diagnostics⟩, by rw [lower, hrun], fun f hf => ?_⟩
  obtain ⟨d, b, ⟨before, after, s, rfl, hs, hfills⟩, rfl⟩ := haccounted f hf
  obtain ⟨-, hsettled, -⟩ := Lower.declarations_flagged hs hrun
  obtain ⟨t, hbody, ht⟩ := hfills.body
  refine ⟨d, s, b, ⟨before, after, rfl, hs⟩, hfills, rfl, ?_⟩
  intro v s₁ s₂ extent hcome hv hok
  have hopening : Lower.Building (s.opening d) :=
    ⟨List.cons_ne_nil _ _, _, Lower.opening_ready hsettled.fits hsettled.callees⟩
  obtain ⟨b₂, block, before, code, hb₂, hcode, hfilling⟩ :=
    Lower.variableDeclaration_fills (hcome.visits.building hopening) hv hok
  -- what follows in the function takes nothing back
  have hkept := (hcome.kept_after rfl).of_ok hbody
  have hprefix : before ++ code <+: (b.leave .ret b.current).finish.codeAt block := by
    rw [← hcode, List.prefix_iff_getElem?]
    intro position hlt
    have hat : b₂.finish.At block position _ :=
      Lower.at_iff_codeAt.mpr (List.getElem?_eq_getElem hlt)
    have hlater := hkept.code _ _ _ ((Lower.State.at_iff hb₂).mpr hat)
    exact Lower.at_iff_codeAt.mp
      ((IR.at_leave b .ret b.current _).mpr ((Lower.State.at_iff ht).mp hlater))
  obtain ⟨after, hafter⟩ := hprefix
  exact ⟨block, before, code, after, hafter.symm, hfilling⟩

def partlyListed : Variable :=
  let zero : Span := ⟨0, 0⟩
  let int (n : Int32) : Expr := .literal (.int n) zero
  ⟨"a", zero, .int, false, some (.stated (int 3)), [int 7], zero⟩

def padding : FunctionDef :=
  { name := "main", nameSpan := ⟨0, 0⟩, bodySpan := ⟨0, 0⟩, span := ⟨0, 0⟩
    body := [.declare partlyListed] }

theorem padding_comes {d : FunctionDef} {s : Lower.State}
    (h : Lower.Arrives "padding" [.function padding] d s) :
    ∃ s₂, Lower.ComesTo .inFunction partlyListed (s.opening d) s₂ d.body (s.opening d) ∧
      Lower.variableDeclaration .inFunction partlyListed (s.opening d) = .ok () s₂ := by
  obtain ⟨before, after, hp, hs⟩ := h
  have hd : d = padding ∧ before = [] := by
    match before, hp with
    | [], hp =>
      cases hp
      exact ⟨rfl, rfl⟩
    | _ :: _, hp => simp at hp
  obtain ⟨rfl, rfl⟩ := hd
  cases hs
  have hok : (match Lower.variableDeclaration .inFunction partlyListed
      (Lower.State.opening { module := { name := "padding" } } padding) with
      | .ok () _ => true
      | .error _ _ => false) = true := by decide +kernel
  split at hok
  · next s₂ hrun =>
    have hrec : Lower.recording (Lower.variableDeclaration .inFunction partlyListed) ()
        (Lower.State.opening { module := { name := "padding" } } padding) = .ok () s₂ := by
      unfold Lower.recording
      rw [hrun]
    exact ⟨s₂, .declare hrec, hrun⟩
  · cases hok

theorem padding_filled : ∃ l, lower "padding" [.function padding] = .ok l ∧
    ∃ f ∈ l.module.functions, ∃ block before after σ, ∃ xs : List Lower.Element,
      f.codeAt block = before ++ Lower.fillFrom 0 0 xs ++ after ∧ xs.length = 3 ∧
      ∀ (i : Nat) (x : Lower.Element), xs[i]? = some x →
        x.Initialized σ .int partlyListed.initializers[i]? := by
  obtain ⟨l, hl, hall⟩ := lower_fills_arrays "padding" [.function padding]
  have hsome : (lower "padding" [.function padding]).toOption.any
      (0 < ·.module.functions.size) = true := by decide +kernel
  simp only [hl, Except.toOption, Option.any_some, decide_eq_true_eq] at hsome
  obtain ⟨d, s, b, hd, -, -, hfilled⟩ := hall l.module.functions[0] (Array.getElem_mem hsome)
  obtain ⟨s₂, hcome, hrun⟩ := padding_comes hd
  obtain ⟨block, before, code, after, hcode, hfilling⟩ :=
    hfilled partlyListed _ s₂ (.stated (.literal (.int 3) ⟨0, 0⟩)) hcome rfl hrun
  obtain ⟨xs, hspans, rfl, hxs⟩ := hfilling.filled (List.cons_ne_nil _ _)
  obtain ⟨⟨k, hk, -, hlen⟩, -⟩ := hspans
  cases hk
  exact ⟨l, hl, _, Array.getElem_mem hsome, block, before, after, s₂.scopes, xs, hcode, hlen, hxs⟩

/-- A constant array with an empty list is accepted, and the function that declares it stores
nothing. -/
theorem empty_list_stores_nothing :
    let text := "void f() \x7b const int a[2] = \x7b\x7d; \x7d"
    ∃ c m f, compile "empty.c1" text true = .ok c ∧ c.diagnostics = [] ∧
      c.module? = some m ∧ f ∈ m.functions ∧ f.defined = true ∧
      f.locals = #[⟨"a", .array .i32 2⟩] ∧ ∀ b ∈ f.blocks, b.instructions = #[] := by
  intro text
  have h : (compile "empty.c1" text true).toOption.any (fun c =>
      c.diagnostics.isEmpty && c.module?.any fun m => m.functions.any fun f =>
        f.defined && f.locals == #[⟨"a", .array .i32 2⟩] &&
          f.blocks.all (·.instructions.isEmpty)) = true := by
    decide +kernel
  cases hc : compile "empty.c1" text true with
  | error x => simp [hc, Except.toOption] at h
  | ok c =>
    simp only [hc, Except.toOption, Option.any_some, Bool.and_eq_true, List.isEmpty_iff,
      Option.any_eq_true, Array.any_eq_true', beq_iff_eq, Array.all_eq_true_iff_forall_mem,
      Array.isEmpty_iff] at h
    obtain ⟨hd, m, hm, f, hf, ⟨hdefined, hlocals⟩, hblocks⟩ := h
    exact ⟨c, m, f, rfl, hd, hm, hf, hdefined, hlocals, hblocks⟩

end C1Lang
