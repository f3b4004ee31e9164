import C1Lang.Proofs.IR.Assembly
import C1Lang.Proofs.Static.Judgement

/-!
# Code of correct programs

The code that lowering generates where nothing is reported, as relations on builders: one rule for
each form of expression and statement, with the blocks, slots and temporaries that it takes. What
is lowered in this way is statically correct (`Lowers.hasKind`, `Generates.correct`).
-/

namespace C1Lang

def Binding.usage (x : Binding) : Usage := ⟨x.constant, x.isArray, x.kind⟩

def Variable.binding (v : Variable) (storage : Storage) : Binding :=
  ⟨storage, v.constant, v.isArray, v.kind, v.nameSpan⟩

def Scope.view {α : Type} (f : Binding → α) (s : Scope) : List (String × α) :=
  s.bindings.map fun x => (x.1, f x.2)

namespace Scopes

def view {α : Type} (f : Binding → α) (s : Scopes) : Env α := s.all.map (Scope.view f)

def static (s : Scopes) : Env Usage := s.view Binding.usage

def declare (s : Scopes) (name : String) (x : Binding) : Scopes :=
  match s.inner with
  | [] => { s with global := { s.global with bindings := (name, x) :: s.global.bindings } }
  | scope :: rest =>
    { s with inner := { scope with bindings := (name, x) :: scope.bindings } :: rest }

theorem declare?_eq {s : Scopes} {name : String} (h : s.lookupCurrent name = none)
    (x : Binding) : s.declare? name x = some (s.declare name x) := by
  unfold declare? declare
  rw [h]
  cases s.inner <;> rfl

theorem exit_declare {s : Scopes} (h : s.inner ≠ []) (name : String) (x : Binding) :
    (s.declare name x).exit = s.exit := by
  obtain ⟨inner, outer⟩ := s
  cases inner with
  | nil => exact absurd rfl h
  | cons => rfl

theorem declare_inner_ne_nil {s : Scopes} (h : s.inner ≠ []) (name : String) (x : Binding) :
    (s.declare name x).inner ≠ [] := by
  obtain ⟨inner, outer⟩ := s
  cases inner with
  | nil => exact absurd rfl h
  | cons => exact List.cons_ne_nil _ _

variable {α : Type} (f : Binding → α)

theorem view_declare (s : Scopes) (name : String) (x : Binding) :
    (s.declare name x).view f = (s.view f).declare name (f x) := by
  obtain ⟨inner, outer⟩ := s
  cases inner <;> rfl

theorem lookup_map (xs : List (String × Binding)) (name : String) :
    (xs.map fun x => (x.1, f x.2)).lookup name = (xs.lookup name).map f := by
  induction xs with
  | nil => rfl
  | cons x xs ih =>
    obtain ⟨n, x⟩ := x
    cases hx : name == n <;> simp [List.lookup_cons, hx, ih]

theorem find?_view (s : Scopes) (name : String) :
    (s.view f).find? name = (s.lookup name).map f := by
  unfold view Env.find? lookup
  induction s.all with
  | nil => rfl
  | cons scope rest ih =>
    simp only [List.map_cons, List.findSome?_cons, Scope.find?, Scope.view, lookup_map] at ih ⊢
    cases scope.bindings.lookup name with
    | none => exact ih
    | some x => rfl

theorem static_declare (s : Scopes) (name : String) (x : Binding) :
    (s.declare name x).static = s.static.declare name x.usage :=
  s.view_declare _ name x

theorem find?_static (s : Scopes) (name : String) :
    s.static.find? name = (s.lookup name).map Binding.usage :=
  s.find?_view _ name

theorem fresh_static (s : Scopes) (name : String) :
    s.static.Fresh name ↔ s.lookupCurrent name = none := by
  have key : ∀ scope : Scope, (∀ names ∈ some (scope.view Binding.usage),
      names.lookup name = none) ↔ scope.find? name = none := by
    intro scope
    simp only [Option.mem_def, Option.some.injEq, forall_eq', Scope.view, lookup_map,
      Option.map_eq_none_iff, Scope.find?]
  obtain ⟨inner, outer⟩ := s
  cases inner with
  | nil => exact key outer
  | cons scope rest => exact key scope

end Scopes

namespace Lower

open IR IR.Builder

inductive Coerces (b : Builder) : Operand → Kind → Kind → Builder → Operand → Prop
  | same {o : Operand} {k : Kind} : Coerces b o k k b o
  | int {n : Int32} : Coerces b (.const (.int n)) .int .float b (.const (.float n.toFloat))
  | float {x : Float} : Coerces b (.const (.float x)) .float .int b (.const (.int x.toInt32))
  | toFloat {o : Operand} : Coerces b o .int .float
      (b.compute (.scalar .f64) (.cast b.temps.size .sitofp o)) (.temp b.temps.size)
  | toInt {o : Operand} : Coerces b o .float .int
      (b.compute (.scalar .i32) (.cast b.temps.size .fptosi o)) (.temp b.temps.size)

inductive Meets (b : Builder) (x : Operand) (j : Kind) (y : Operand) (k : Kind) :
    Builder → Operand → Operand → Prop
  | mk {b₁ b₂ : Builder} {x' y' : Operand} : Coerces b x j (j.unify k) b₁ x' →
      Coerces b₁ y k (j.unify k) b₂ y' → Meets b x j y k b₂ x' y'

def element (b : Builder) (x : Binding) (index : Operand) : Builder :=
  b.compute (.pointer x.kind.ty) (.elementPtr b.temps.size x.storage.operand index)

def content (b : Builder) (k : Kind) (address : Operand) : Builder :=
  b.compute k.ty (.load b.temps.size address)

inductive Lowers (σ : Scopes) : Builder → Expr → Builder → Operand → Kind → Prop
  | literal {b : Builder} (v : Value) (span : Span) :
      Lowers σ b (.literal v span) b (.const v.toConst) v.kind
  | binary {b b₁ b₂ b₃ : Builder} {op : BinaryOp} {l r : Expr} {span : Span}
      {x y x' y' : Operand} {j k : Kind} {a : Arith} :
      Lowers σ b l b₁ x j → Lowers σ b₁ r b₂ y k → Meets b₂ x j y k b₃ x' y' →
      arith? op (j.unify k) = some a →
      Lowers σ b (.binary op l r span)
        (b₃.compute (j.unify k).ty (.binary b₃.temps.size a x' y')) (.temp b₃.temps.size)
        (j.unify k)
  | plus {b b₁ : Builder} {e : Expr} {span : Span} {x : Operand} {k : Kind} :
      Lowers σ b e b₁ x k → Lowers σ b (.unary .plus e span) b₁ x k
  | neg {b b₁ : Builder} {e : Expr} {span : Span} {x : Operand} {k : Kind} :
      Lowers σ b e b₁ x k → Lowers σ b (.unary .neg e span)
        (b₁.compute k.ty (.unary b₁.temps.size (negation k) x)) (.temp b₁.temps.size) k
  | name {b : Builder} {n : String} {span : Span} {x : Binding} :
      σ.lookup n = some x → x.isArray = false →
      Lowers σ b (.name n span) (content b x.kind x.storage.operand) (.temp b.temps.size) x.kind
  | element {b b₁ : Builder} {n : String} {i : Expr} {span : Span} {x : Binding} {o : Operand} :
      σ.lookup n = some x → x.isArray = true → Lowers σ b i b₁ o .int →
      Lowers σ b (.element n i span)
        (content (element b₁ x o) x.kind (.temp b₁.temps.size))
        (.temp (element b₁ x o).temps.size) x.kind

inductive Points (σ : Scopes) (b : Builder) (x : Binding) :
    Option Expr → Builder → Operand → Prop
  | scalar : x.isArray = false → Points σ b x none b x.storage.operand
  | array {b₁ : Builder} {i : Expr} {o : Operand} : x.isArray = true → Lowers σ b i b₁ o .int →
      Points σ b x (some i) (element b₁ x o) (.temp b₁.temps.size)

theorem Points.lowers {σ : Scopes} {b b' : Builder} {x : Binding} {p : Place} {o : Operand}
    (hx : σ.lookup p.root = some x) (h : Points σ b x p.index b' o) :
    Lowers σ b p.toExpr (content b' x.kind o) (.temp b'.temps.size) x.kind := by
  cases p with
  | name =>
    cases h with
    | scalar ha => exact .name hx ha
  | element =>
    cases h with
    | array ha hi => exact .element hx ha hi

theorem unify_eq_int {j k : Kind} (h : j.unify k = .int) : j = .int ∧ k = .int := by
  cases j <;> cases k <;> first | exact ⟨rfl, rfl⟩ | cases h

theorem Lowers.hasKind {σ : Scopes} {b b' : Builder} {e : Expr} {o : Operand} {k : Kind}
    (h : Lowers σ b e b' o k) : HasKind σ.static e k := by
  induction h with
  | literal v span => exact .literal v span
  | @binary _ _ _ _ op _ _ _ _ _ _ _ j k _ _ _ _ ha ihl ihr =>
    refine .binary ihl ihr fun hop => unify_eq_int ?_
    cases hk : j.unify k with
    | int => rfl
    | float =>
      rw [hop, hk] at ha
      cases ha
  | plus _ ih => exact .unary ih
  | neg _ ih => exact .unary ih
  | @name _ _ _ x hx ha =>
    exact .name (t := x.usage) (by rw [Scopes.find?_static, hx]; rfl) ha
  | @element _ _ _ _ _ x _ hx ha _ ih =>
    exact .element (t := x.usage) (by rw [Scopes.find?_static, hx]; rfl) ha ih

theorem Points.reaches {σ : Scopes} {b b' : Builder} {x : Binding} {i : Option Expr}
    {o : Operand} (h : Points σ b x i b' o) : Reaches σ.static x.usage i := by
  cases h with
  | scalar ha => exact ha
  | array ha hi => exact ⟨ha, hi.hasKind⟩

inductive Locates (σ : Scopes) (b : Builder) (p : Place) : Builder → Operand → Kind → Prop
  | mk {b' : Builder} {x : Binding} {o : Operand} : σ.lookup p.root = some x →
      x.constant = false → Points σ b x p.index b' o → Locates σ b p b' o x.kind

theorem Locates.assignable {σ : Scopes} {b b' : Builder} {p : Place} {o : Operand} {k : Kind}
    (h : Locates σ b p b' o k) : p.Assignable σ.static := by
  cases h with
  | mk hx hc hp =>
    exact ⟨Binding.usage _, by rw [Scopes.find?_static, hx]; rfl, hc, hp.reaches⟩

inductive Compares (σ : Scopes) (b : Builder) (c : Condition) : Builder → Operand → Prop
  | mk {b₁ b₂ b₃ : Builder} {x y x' y' : Operand} {j k : Kind} :
      Lowers σ b c.left b₁ x j → Lowers σ b₁ c.right b₂ y k → Meets b₂ x j y k b₃ x' y' →
      Compares σ b c
        (b₃.compute (.scalar .i1)
          (.compare b₃.temps.size (predicate c.relation (j.unify k)) x' y'))
        (.temp b₃.temps.size)

theorem Compares.correct {σ : Scopes} {b b' : Builder} {c : Condition} {o : Operand}
    (h : Compares σ b c b' o) : c.Correct σ.static := by
  cases h with
  | mk hl hr _ => exact ⟨⟨_, hl.hasKind⟩, ⟨_, hr.hasKind⟩⟩

def elementAt (b : Builder) (slot : Nat) (kind : Kind) (index : Nat) : Builder :=
  b.compute (.pointer kind.ty)
    (.elementPtr b.temps.size (.slot slot) (.const (.int (Int32.ofNat index))))

inductive Stores (σ : Scopes) (slot : Nat) (kind : Kind) :
    Nat → Nat → List Expr → Builder → Builder → Prop
  | done {index : Nat} {es : List Expr} {b : Builder} : Stores σ slot kind 0 index es b b
  | zero {count index : Nat} {b b' : Builder} :
      Stores σ slot kind count (index + 1) []
        ((elementAt b slot kind index).push
          (.store (.temp b.temps.size) (.const (Const.zero kind.scalar)))) b' →
      Stores σ slot kind (count + 1) index [] b b'
  | value {count index : Nat} {e : Expr} {es : List Expr} {b b₁ b₂ b' : Builder}
      {x x' : Operand} {k : Kind} :
      Lowers σ b e b₁ x k → Coerces b₁ x k kind b₂ x' →
      Stores σ slot kind count (index + 1) es
        ((elementAt b₂ slot kind index).push (.store (.temp b₂.temps.size) x')) b' →
      Stores σ slot kind (count + 1) index (e :: es) b b'

theorem Stores.kinded {σ : Scopes} {slot count index : Nat} {kind : Kind} {es : List Expr}
    {b b' : Builder} (h : Stores σ slot kind count index es b b') (hc : es.length ≤ count) :
    ∀ e ∈ es, e.Kinded σ.static := by
  induction h with
  | done =>
    rw [List.length_eq_zero_iff.mp (Nat.le_zero.mp hc)]
    simp
  | zero _ _ => simp
  | value he _ _ ih =>
    refine List.forall_mem_cons.mpr ⟨⟨_, he.hasKind⟩, ih ?_⟩
    simpa using hc

inductive Initializes (σ : Scopes) (slot : Nat) (v : Variable) : Ty → Builder → Builder → Prop
  | scalar {b : Builder} : v.extent = none → v.initializers = [] →
      Initializes σ slot v v.kind.ty b b
  | value {e : Expr} {es : List Expr} {b b₁ b₂ : Builder} {x x' : Operand} {k : Kind} :
      v.extent = none → v.initializers = e :: es → Lowers σ b e b₁ x k →
      Coerces b₁ x k v.kind b₂ x' →
      Initializes σ slot v v.kind.ty b (b₂.push (.store (.slot slot) x'))
  | array {extent : Extent} {n : Nat} {b : Builder} : v.extent = some extent →
      Spans v extent.length n → v.initializers = [] →
      Initializes σ slot v (.array v.kind.scalar n) b b
  | elements {extent : Extent} {n : Nat} {b b' : Builder} : v.extent = some extent →
      Spans v extent.length n → v.initializers ≠ [] →
      Stores σ slot v.kind n 0 v.initializers b b' →
      Initializes σ slot v (.array v.kind.scalar n) b b'

theorem Initializes.sized {σ : Scopes} {slot : Nat} {v : Variable} {ty : Ty} {b b' : Builder}
    (h : Initializes σ slot v ty b b') : v.Sized := by
  intro extent he
  cases h with
  | scalar hv _ => rw [hv] at he; cases he
  | value hv _ _ _ => rw [hv] at he; cases he
  | array hv hs _ => rw [hv] at he; cases he; exact ⟨_, hs⟩
  | elements hv hs _ _ => rw [hv] at he; cases he; exact ⟨_, hs⟩

theorem Initializes.kinded {σ : Scopes} {slot : Nat} {v : Variable} {ty : Ty} {b b' : Builder}
    (h : Initializes σ slot v ty b b') : ∀ e ∈ v.values, e.Kinded σ.static := by
  unfold Variable.values
  cases h with
  | scalar hv hi => simp [hv, hi]
  | value hv hi he _ =>
    simp only [hv, hi, List.take_succ_cons, List.take_zero, List.forall_mem_singleton]
    exact ⟨_, he.hasKind⟩
  | array hv _ hi => simp [hv, hi]
  | elements hv hs _ hes =>
    simp only [hv]
    exact hes.kinded hs.covers

def fork (b : Builder) (c : Operand) : Builder :=
  b.createBlock.2.createBlock.2.leave (.branch c b.blocks.size (b.blocks.size + 1)) b.blocks.size

def forkElse (b : Builder) (c : Operand) : Builder :=
  b.createBlock.2.createBlock.2.createBlock.2.leave
    (.branch c b.blocks.size (b.blocks.size + 1)) b.blocks.size

/-- Goes on in a new block, with two more after it. -/
def enterLoop (b : Builder) : Builder :=
  b.createBlock.2.createBlock.2.createBlock.2.leave (.goto b.blocks.size) b.blocks.size

@[simp] theorem fork_size (b : Builder) (c : Operand) :
    (fork b c).blocks.size = b.blocks.size + 2 := by
  simp [fork]

@[simp] theorem forkElse_size (b : Builder) (c : Operand) :
    (forkElse b c).blocks.size = b.blocks.size + 3 := by
  simp [forkElse]

@[simp] theorem enterLoop_size (b : Builder) : (enterLoop b).blocks.size = b.blocks.size + 3 := by
  simp [enterLoop]

mutual

inductive Generates (functions : List (String × FunctionRecord)) :
    Scopes → Builder → Stmt → Scopes → Builder → Prop
  | declare {σ : Scopes} {b b' : Builder} {v : Variable} {ty : Ty} :
      σ.lookupCurrent v.name = none →
      Initializes (σ.declare v.name (v.binding (.slot b.locals.size))) b.locals.size v ty
        (b.addLocal v.name ty).2 b' →
      Generates functions σ b (.declare v)
        (σ.declare v.name (v.binding (.slot b.locals.size))) b'
  | assign {σ : Scopes} {b b₁ b₂ b₃ : Builder} {target : Place} {value : Expr} {span : Span}
      {x x' p : Operand} {j k : Kind} :
      Lowers σ b value b₁ x j → Locates σ b₁ target b₂ p k → Coerces b₂ x j k b₃ x' →
      Generates functions σ b (.assign target value span) σ (b₃.push (.store p x'))
  | call {σ : Scopes} {b : Builder} {name : String} {span : Span} {f : FunctionRecord} :
      functions.lookup name = some f →
      Generates functions σ b (.call name span) σ (b.push (.call f.id))
  | block {σ σ' : Scopes} {b b' : Builder} {body : List Stmt} {span : Span} :
      GeneratesAll functions (σ.enter .block) b body σ' b' →
      Generates functions σ b (.block body span) σ b'
  | branch {σ σ' : Scopes} {b b₁ b₂ : Builder} {c : Condition} {body : Stmt} {span : Span}
      {x : Operand} :
      Compares σ b c b₁ x → Generates functions σ (fork b₁ x) body σ' b₂ →
      Generates functions σ b (.branch c body span) σ'
        (b₂.leave (.goto (b₁.blocks.size + 1)) (b₁.blocks.size + 1))
  | branchElse {σ σ₁ σ₂ : Scopes} {b b₁ b₂ b₃ : Builder} {c : Condition} {body other : Stmt}
      {span : Span} {x : Operand} :
      Compares σ b c b₁ x → Generates functions σ (forkElse b₁ x) body σ₁ b₂ →
      Generates functions σ₁ (b₂.leave (.goto (b₁.blocks.size + 2)) (b₁.blocks.size + 1)) other
        σ₂ b₃ →
      Generates functions σ b (.branchElse c body other span) σ₂
        (b₃.leave (.goto (b₁.blocks.size + 2)) (b₁.blocks.size + 2))
  | loop {σ σ' : Scopes} {b b₁ b₂ : Builder} {c : Condition} {body : Stmt} {span : Span}
      {x : Operand} :
      Compares σ (enterLoop b) c b₁ x →
      Generates functions σ
        (b₁.leave (.branch x (b.blocks.size + 1) (b.blocks.size + 2)) (b.blocks.size + 1))
        body σ' b₂ →
      Generates functions σ b (.loop c body span) σ'
        (b₂.leave (.goto b.blocks.size) (b.blocks.size + 2))
  | empty {σ : Scopes} {b : Builder} {span : Span} : Generates functions σ b (.empty span) σ b

inductive GeneratesAll (functions : List (String × FunctionRecord)) :
    Scopes → Builder → List Stmt → Scopes → Builder → Prop
  | nil {σ : Scopes} {b : Builder} : GeneratesAll functions σ b [] σ b
  | cons {σ σ' σ'' : Scopes} {b b' b'' : Builder} {st : Stmt} {rest : List Stmt} :
      Generates functions σ b st σ' b' → GeneratesAll functions σ' b' rest σ'' b'' →
      GeneratesAll functions σ b (st :: rest) σ'' b''

end

theorem lookup_eq_none {α : Type} {xs : List (String × α)} {k : String} :
    xs.lookup k = none ↔ k ∉ xs.map Prod.fst := by
  rw [List.lookup_eq_none_iff]
  constructor
  · intro h hk
    obtain ⟨x, hx, rfl⟩ := List.mem_map.mp hk
    simpa using h x hx
  · intro h x hx
    rw [bne_iff_ne]
    intro heq
    subst heq
    exact h (List.mem_map.mpr ⟨x, hx, rfl⟩)

theorem mem_of_lookup {α : Type} {xs : List (String × α)} {k : String} {a : α}
    (h : xs.lookup k = some a) : (k, a) ∈ xs := by
  obtain ⟨l₁, l₂, rfl, -⟩ := List.lookup_eq_some_iff.mp h
  simp

mutual

theorem Generates.correct {functions : List (String × FunctionRecord)} :
    {σ σ' : Scopes} → {b b' : Builder} → {st : Stmt} → Generates functions σ b st σ' b' →
    st.Correct (functions.map Prod.fst) σ.static ∧ σ'.static = st.scope σ.static
  | σ, _, b, _, .declare v, .declare hn hi => by
    have hs := σ.static_declare v.name (v.binding (.slot b.locals.size))
    have hk := hi.kinded
    rw [hs] at hk
    rw [Stmt.Correct, Stmt.scope]
    exact ⟨⟨(Scopes.fresh_static _ _).mpr hn, hi.sized, hk⟩, hs⟩
  | _, _, _, _, _, .assign hv hp _ => by
    rw [Stmt.Correct, Stmt.scope]
    exact ⟨⟨⟨_, hv.hasKind⟩, hp.assignable⟩, rfl⟩
  | _, _, _, _, _, .call hf => by
    rw [Stmt.Correct, Stmt.scope]
    exact ⟨List.mem_map.mpr ⟨_, mem_of_lookup hf, rfl⟩, rfl⟩
  | _, _, _, _, _, .block hb => by
    rw [Stmt.Correct, Stmt.scope]
    exact ⟨hb.correct, rfl⟩
  | _, _, _, _, _, .branch hc hb => by
    obtain ⟨hb, hs⟩ := hb.correct
    rw [Stmt.Correct, Stmt.scope]
    exact ⟨⟨hc.correct, hb⟩, hs⟩
  | _, _, _, _, _, .branchElse hc hb ho => by
    obtain ⟨hb, hs⟩ := hb.correct
    obtain ⟨ho, hs'⟩ := ho.correct
    rw [hs] at ho hs'
    rw [Stmt.Correct, Stmt.scope]
    exact ⟨⟨hc.correct, hb, ho⟩, hs'⟩
  | _, _, _, _, _, .loop hc hb => by
    obtain ⟨hb, hs⟩ := hb.correct
    rw [Stmt.Correct, Stmt.scope]
    exact ⟨⟨hc.correct, hb⟩, hs⟩
  | _, _, _, _, _, .empty => by
    rw [Stmt.Correct, Stmt.scope]
    exact ⟨trivial, rfl⟩

theorem GeneratesAll.correct {functions : List (String × FunctionRecord)} :
    {σ σ' : Scopes} → {b b' : Builder} → {body : List Stmt} →
    GeneratesAll functions σ b body σ' b' →
    Stmt.AllCorrect (functions.map Prod.fst) σ.static body
  | _, _, _, _, _, .nil => by
    rw [Stmt.AllCorrect]
    trivial
  | _, _, _, _, _, .cons hst hrest => by
    obtain ⟨hst, hs⟩ := hst.correct
    rw [Stmt.AllCorrect]
    exact ⟨hst, hs ▸ hrest.correct⟩

end

structure Describes (v : Variable) (g : Global) : Prop where
  name : g.name = v.name
  wellFormed : g.wellFormed = true
  scalar : v.isArray = false → g.ty = v.kind.ty
  array : v.isArray = true → ∃ n, g.ty = .array v.kind.scalar n

def functionEntry (m : Module) (f : FunctionDef) : String × FunctionRecord :=
  (f.name, ⟨m.functions.size, f.nameSpan⟩)

def append (m : Module) (name : String) (b : Builder) : Module :=
  (m.declare name).2.define m.functions.size (b.leave .ret b.current).finish

/-- What a declaration adds to the functions, the scopes and the module. -/
inductive Adds (functions : List (String × FunctionRecord)) (σ : Scopes) (m : Module) :
    Declaration → List (String × FunctionRecord) → Scopes → Module → Prop
  | function {f : FunctionDef} {σ' : Scopes} {b : Builder} :
      functions.lookup f.name = none → σ.lookupGlobal f.name = none →
      GeneratesAll (functionEntry m f :: functions) (σ.enter .function) (start f.name) f.body σ' b →
      Adds functions σ m (.function f) (functionEntry m f :: functions) σ (append m f.name b)
  | global {v : Variable} {g : Global} :
      functions.lookup v.name = none → σ.lookupGlobal v.name = none → v.Constant →
      Describes v g →
      Adds functions σ m (.global v) functions
        (σ.declare v.name (v.binding (.global m.globals.size))) (m.addGlobal g).2

inductive Assembles : List (String × FunctionRecord) → Scopes → Module → List Declaration →
    Module → Prop
  | nil {functions : List (String × FunctionRecord)} {σ : Scopes} {m : Module} :
      Assembles functions σ m [] m
  | cons {functions functions' : List (String × FunctionRecord)} {σ σ' : Scopes}
      {m m' n : Module} {d : Declaration} {rest : List Declaration} :
      Adds functions σ m d functions' σ' m' → Assembles functions' σ' m' rest n →
      Assembles functions σ m (d :: rest) n

theorem declare_global {σ : Scopes} (h : σ.inner = []) (name : String) (x : Binding) :
    (σ.declare name x).inner = [] ∧
      (σ.declare name x).global.bindings = (name, x) :: σ.global.bindings := by
  simp [Scopes.declare, h]

theorem Adds.correct {functions functions' : List (String × FunctionRecord)} {σ σ' : Scopes}
    {m m' : Module} {d : Declaration} (h : Adds functions σ m d functions' σ' m')
    (hi : σ.inner = []) :
    d.Correct (functions.map Prod.fst) (σ.global.view Binding.usage) ∧
      functions'.map Prod.fst = d.known (functions.map Prod.fst) ∧
      σ'.global.view Binding.usage = d.globals (σ.global.view Binding.usage) ∧ σ'.inner = [] := by
  have hnames : (σ.global.view Binding.usage).map Prod.fst =
      σ.global.bindings.map Prod.fst := by
    simp [Scope.view]
  have hnone : ∀ name, σ.lookupGlobal name = none →
      name ∉ (σ.global.view Binding.usage).map Prod.fst := by
    intro name hg
    rw [hnames]
    exact lookup_eq_none.mp hg
  cases h with
  | function hf hg hb =>
    have hstatic : (σ.enter .function).static = [[], σ.global.view Binding.usage] := by
      simp [Scopes.static, Scopes.view, Scopes.all, Scopes.enter, hi, Scope.view]
    exact ⟨⟨lookup_eq_none.mp hf, hnone _ hg, hstatic ▸ hb.correct⟩, rfl, rfl, hi⟩
  | @global v _ hf hg hc _ =>
    refine ⟨⟨lookup_eq_none.mp hf, hnone _ hg, hc⟩, rfl, ?_, (declare_global hi _ _).1⟩
    unfold Scope.view
    rw [(declare_global hi _ _).2]
    rfl

theorem Assembles.correct {functions : List (String × FunctionRecord)} {σ : Scopes}
    {m m' : Module} {p : List Declaration} (h : Assembles functions σ m p m')
    (hi : σ.inner = []) :
    Declaration.AllCorrect (functions.map Prod.fst) (σ.global.view Binding.usage) p := by
  induction h with
  | nil => trivial
  | cons hadds _ ih =>
    obtain ⟨hd, hknown, hglobals, hi'⟩ := hadds.correct hi
    refine ⟨hd, ?_⟩
    rw [← hknown, ← hglobals]
    exact ih hi'

end Lower

end C1Lang
