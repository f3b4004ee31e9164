import C1Lang.Proofs.Static.Constant

/-!
# Statically correct programs

What makes a program correct, without reference to lowering. Names are looked up in nested scopes,
expressions have a kind, and statements and declarations are correct in the scopes in which they
stand. A declaration is in scope behind itself and in its own initializers.
-/

namespace C1Lang

structure Usage where
  constant : Bool
  isArray : Bool
  kind : Kind
deriving DecidableEq, Repr

def Variable.usage (v : Variable) : Usage := ⟨v.constant, v.isArray, v.kind⟩

abbrev Env (α : Type) := List (List (String × α))

namespace Env

variable {α : Type}

def find? (Γ : Env α) (name : String) : Option α := Γ.findSome? (·.lookup name)

def declare (Γ : Env α) (name : String) (t : α) : Env α :=
  match Γ with
  | [] => [[(name, t)]]
  | scope :: rest => ((name, t) :: scope) :: rest

def Fresh (Γ : Env α) (name : String) : Prop := ∀ scope ∈ Γ.head?, scope.lookup name = none

end Env

inductive HasKind (Γ : Env Usage) : Expr → Kind → Prop
  | literal (v : Value) (span : Span) : HasKind Γ (.literal v span) v.kind
  | binary {op : BinaryOp} {l r : Expr} {span : Span} {j k : Kind} :
      HasKind Γ l j → HasKind Γ r k → (op = .mod → j = .int ∧ k = .int) →
      HasKind Γ (.binary op l r span) (j.unify k)
  | unary {op : UnaryOp} {e : Expr} {span : Span} {k : Kind} :
      HasKind Γ e k → HasKind Γ (.unary op e span) k
  | name {x : String} {span : Span} {t : Usage} :
      Γ.find? x = some t → t.isArray = false → HasKind Γ (.name x span) t.kind
  | element {x : String} {i : Expr} {span : Span} {t : Usage} :
      Γ.find? x = some t → t.isArray = true → HasKind Γ i .int →
      HasKind Γ (.element x i span) t.kind

theorem HasKind.unique {Γ : Env Usage} {e : Expr} {j k : Kind} (h : HasKind Γ e j)
    (h' : HasKind Γ e k) : j = k := by
  induction h generalizing k with
  | literal => cases h'; rfl
  | binary _ _ _ ihl ihr =>
    cases h' with
    | binary hl hr _ => rw [ihl hl, ihr hr]
  | unary _ ih =>
    cases h' with
    | unary he => exact ih he
  | name hx _ =>
    cases h' with
    | name hx' _ => rw [Option.some.inj (hx.symm.trans hx')]
  | element hx _ _ _ =>
    cases h' with
    | element hx' _ _ => rw [Option.some.inj (hx.symm.trans hx')]

namespace Place

def root : Place → String
  | name x _ | element x _ _ => x

def index : Place → Option Expr
  | name _ _ => none
  | element _ i _ => some i

end Place

/-- An array is used with an index, which is an integer; other variables are not. -/
def Reaches (Γ : Env Usage) (t : Usage) : Option Expr → Prop
  | none => t.isArray = false
  | some i => t.isArray = true ∧ HasKind Γ i .int

theorem hasKind_toExpr {Γ : Env Usage} {p : Place} {k : Kind} :
    HasKind Γ p.toExpr k ↔
      ∃ t, Γ.find? p.root = some t ∧ Reaches Γ t p.index ∧ t.kind = k := by
  constructor
  · intro h
    cases p with
    | name =>
      cases h with
      | name hx ha => exact ⟨_, hx, ha, rfl⟩
    | element =>
      cases h with
      | element hx ha hi => exact ⟨_, hx, ⟨ha, hi⟩, rfl⟩
  · intro hex
    obtain ⟨t, hx, hr, rfl⟩ := hex
    cases p with
    | name => exact .name hx hr
    | element => exact .element hx hr.1 hr.2

def Place.Assignable (Γ : Env Usage) (p : Place) : Prop :=
  ∃ t, Γ.find? p.root = some t ∧ t.constant = false ∧ Reaches Γ t p.index

def Expr.Kinded (Γ : Env Usage) (e : Expr) : Prop := ∃ k, HasKind Γ e k

theorem Expr.Kinded.left {Γ : Env Usage} {op : BinaryOp} {l r : Expr} {span : Span}
    (h : (Expr.binary op l r span).Kinded Γ) : l.Kinded Γ := by
  obtain ⟨_, hk⟩ := h
  cases hk with
  | binary hl _ _ => exact ⟨_, hl⟩

theorem Expr.Kinded.right {Γ : Env Usage} {op : BinaryOp} {l r : Expr} {span : Span}
    (h : (Expr.binary op l r span).Kinded Γ) : r.Kinded Γ := by
  obtain ⟨_, hk⟩ := h
  cases hk with
  | binary _ hr _ => exact ⟨_, hr⟩

theorem Expr.Kinded.operand {Γ : Env Usage} {op : UnaryOp} {e : Expr} {span : Span}
    (h : (Expr.unary op e span).Kinded Γ) : e.Kinded Γ := by
  obtain ⟨_, hk⟩ := h
  cases hk with
  | unary he => exact ⟨_, he⟩

def Condition.Correct (Γ : Env Usage) (c : Condition) : Prop := c.left.Kinded Γ ∧ c.right.Kinded Γ

/-- The length of an array is positive and covers the initializers. -/
structure Spans (v : Variable) (length : Expr) (n : Nat) : Prop where
  folds : ∃ k : Int32, Folds length (.int k) ∧ 0 < k ∧ n = k.toInt.toNat
  covers : v.initializers.length ≤ n

namespace Variable

def values (v : Variable) : List Expr :=
  match v.extent with
  | none => v.initializers.take 1
  | some _ => v.initializers

def Sized (v : Variable) : Prop := ∀ extent ∈ v.extent, ∃ n, Spans v extent.length n

structure Correct (Γ : Env Usage) (v : Variable) : Prop where
  fresh : Γ.Fresh v.name
  sized : v.Sized
  values : ∀ e ∈ v.values, e.Kinded (Γ.declare v.name v.usage)

structure Constant (v : Variable) : Prop where
  sized : v.Sized
  values : ∀ e ∈ v.values, ∃ w, Folds e w

end Variable

/-- What is in scope behind a statement. A block keeps its names to itself. -/
def Stmt.scope (Γ : Env Usage) : Stmt → Env Usage
  | .declare v => Γ.declare v.name v.usage
  | .branch _ body _ => body.scope Γ
  | .branchElse _ body other _ => other.scope (body.scope Γ)
  | .loop _ body _ => body.scope Γ
  | .assign _ _ _ | .call _ _ | .block _ _ | .empty _ => Γ

mutual

/-- The statement is correct where the functions `Φ` are known. -/
def Stmt.Correct (Φ : List String) (Γ : Env Usage) : Stmt → Prop
  | .declare v => v.Correct Γ
  | .assign target value _ => value.Kinded Γ ∧ target.Assignable Γ
  | .call name _ => name ∈ Φ
  | .block body _ => Stmt.AllCorrect Φ ([] :: Γ) body
  | .branch c body _ => c.Correct Γ ∧ body.Correct Φ Γ
  | .branchElse c body other _ =>
    c.Correct Γ ∧ body.Correct Φ Γ ∧ other.Correct Φ (body.scope Γ)
  | .loop c body _ => c.Correct Γ ∧ body.Correct Φ Γ
  | .empty _ => True

def Stmt.AllCorrect (Φ : List String) (Γ : Env Usage) : List Stmt → Prop
  | [] => True
  | st :: rest => st.Correct Φ Γ ∧ Stmt.AllCorrect Φ (st.scope Γ) rest

end

namespace Declaration

def known (Φ : List String) : Declaration → List String
  | function f => f.name :: Φ
  | global _ => Φ

def globals (outer : List (String × Usage)) : Declaration → List (String × Usage)
  | function _ => outer
  | global v => (v.name, v.usage) :: outer

/-- The declaration is correct behind the functions `Φ` and the global variables `outer`. A
function is known in its own body. -/
def Correct (Φ : List String) (outer : List (String × Usage)) : Declaration → Prop
  | function f => f.name ∉ Φ ∧ f.name ∉ outer.map Prod.fst ∧
      Stmt.AllCorrect (f.name :: Φ) [[], outer] f.body
  | global v => v.name ∉ Φ ∧ v.name ∉ outer.map Prod.fst ∧ v.Constant

def AllCorrect (Φ : List String) (outer : List (String × Usage)) : List Declaration → Prop
  | [] => True
  | d :: rest => d.Correct Φ outer ∧ AllCorrect (d.known Φ) (d.globals outer) rest

end Declaration

def Program.Correct (p : Program) : Prop := Declaration.AllCorrect [] [] p

end C1Lang
