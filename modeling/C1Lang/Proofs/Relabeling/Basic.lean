import Mathlib.Logic.Function.Basic
import C1Lang.Diagnostic.Basic
import C1Lang.IR.Builder
import C1Lang.Program.Tree

/-!
# Relabeling

The same program under other names and at other places. A relabeling replaces every identifier and
every span; it keeps names apart and respects the span around two spans. This module carries it
through tokens, trees and diagnostics. A module has no spans, so that only its names change.
-/

namespace C1Lang

namespace IR

def Global.rename (ρ : String → String) (g : Global) : Global := { g with name := ρ g.name }

def Local.rename (ρ : String → String) (l : Local) : Local := { l with name := ρ l.name }

def Function.rename (ρ : String → String) (f : Function) : Function :=
  { f with name := ρ f.name, locals := f.locals.map (·.rename ρ) }

def Builder.rename (ρ : String → String) (b : Builder) : Builder :=
  { b with name := ρ b.name, locals := b.locals.map (·.rename ρ) }

/-- The module with other names for its globals, its functions and their slots. -/
def Module.rename (ρ : String → String) (m : Module) : Module :=
  { m with globals := m.globals.map (·.rename ρ), functions := m.functions.map (·.rename ρ) }

def Function.names (f : Function) : List String := f.name :: f.locals.toList.map Local.name

def Module.names (m : Module) : List String :=
  m.globals.toList.map Global.name ++ m.functions.toList.flatMap Function.names

theorem Module.rename_id (m : Module) : m.rename id = m := by
  have hl : Local.rename id = id := rfl
  have hg : Global.rename id = id := rfl
  have hf : Function.rename id = id := by
    funext f
    simp [Function.rename, hl]
  simp [Module.rename, hg, hf]

theorem Module.rename_congr {ρ τ : String → String} {m : Module}
    (h : ∀ x ∈ m.names, ρ x = τ x) : m.rename ρ = m.rename τ := by
  have hg : m.globals.map (·.rename ρ) = m.globals.map (·.rename τ) := by
    refine Array.map_congr_left fun g hg => ?_
    have hx := h g.name (List.mem_append_left _ (List.mem_map.mpr ⟨g, hg.val, rfl⟩))
    simp only [Global.rename, hx]
  have hf : m.functions.map (·.rename ρ) = m.functions.map (·.rename τ) := by
    refine Array.map_congr_left fun f hf => ?_
    have hnames : ∀ x ∈ f.names, ρ x = τ x := fun x hx =>
      h x (List.mem_append_right _ (List.mem_flatMap.mpr ⟨f, hf.val, hx⟩))
    have hl : f.locals.map (·.rename ρ) = f.locals.map (·.rename τ) := by
      refine Array.map_congr_left fun l hl => ?_
      have hx := hnames l.name (List.mem_cons_of_mem _ (List.mem_map.mpr ⟨l, hl.val, rfl⟩))
      simp only [Local.rename, hx]
    simp only [Function.rename, hnames f.name List.mem_cons_self, hl]
  simp only [Module.rename, hg, hf]

theorem Module.names_rename (ρ : String → String) (m : Module) :
    (m.rename ρ).names = m.names.map ρ := by
  simp only [Module.names, Module.rename, Array.toList_map, List.map_map, List.map_append,
    List.map_flatMap, List.flatMap_map]
  congr 2
  funext f
  simp [Function.names, Function.rename, Local.rename, Function.comp_def]

end IR

/-- Other names and other places. -/
structure Relabeling where
  name : String → String
  span : Span → Span
  injective : Function.Injective name
  merge : ∀ a b, span (a.merge b) = (span a).merge (span b)

namespace Relabeling

def same : Relabeling := ⟨id, id, Function.injective_id, fun _ _ => rfl⟩

/-- Other names, and one place for everything. -/
def placeless (ρ : String → String) (h : Function.Injective ρ) : Relabeling :=
  ⟨ρ, fun _ => ⟨0, 0⟩, h, fun _ _ => rfl⟩

variable (T : Relabeling)

def token (t : Token) : Token :=
  ⟨t.kind, if t.kind = .identifier then T.name t.lexeme else t.lexeme, T.span t.span⟩

def expr : Expr → Expr
  | .literal v s => .literal v (T.span s)
  | .binary op l r s => .binary op (expr l) (expr r) (T.span s)
  | .unary op e s => .unary op (expr e) (T.span s)
  | .name x s => .name (T.name x) (T.span s)
  | .element x i s => .element (T.name x) (expr i) (T.span s)

def place : Place → Place
  | .name x s => .name (T.name x) (T.span s)
  | .element x i s => .element (T.name x) (T.expr i) (T.span s)

def condition (c : Condition) : Condition :=
  ⟨c.relation, T.expr c.left, T.expr c.right, T.span c.span⟩

def extent : Extent → Extent
  | .stated e => .stated (T.expr e)
  | .counted n s => .counted n (T.span s)

def declared (v : Variable) : Variable :=
  ⟨T.name v.name, T.span v.nameSpan, v.kind, v.constant, v.extent.map T.extent,
    v.initializers.map T.expr, T.span v.span⟩

mutual

def stmt : Stmt → Stmt
  | .declare v => .declare (T.declared v)
  | .assign target value s => .assign (T.place target) (T.expr value) (T.span s)
  | .call x s => .call (T.name x) (T.span s)
  | .block body s => .block (stmts body) (T.span s)
  | .branch c body s => .branch (T.condition c) (stmt body) (T.span s)
  | .branchElse c body other s =>
    .branchElse (T.condition c) (stmt body) (stmt other) (T.span s)
  | .loop c body s => .loop (T.condition c) (stmt body) (T.span s)
  | .empty s => .empty (T.span s)

def stmts : List Stmt → List Stmt
  | [] => []
  | st :: rest => stmt st :: stmts rest

end

def function (f : FunctionDef) : FunctionDef :=
  ⟨T.name f.name, T.span f.nameSpan, T.stmts f.body, T.span f.bodySpan, T.span f.span⟩

def declaration : Declaration → Declaration
  | .function f => .function (T.function f)
  | .global v => .global (T.declared v)

def program (p : Program) : Program := p.map T.declaration

def problem : Problem → Problem
  | .functionRedefined x s => .functionRedefined (T.name x) (T.span s)
  | .variableRedefined x s => .variableRedefined (T.name x) (T.span s)
  | .symbolRedefined x s => .symbolRedefined (T.name x) (T.span s)
  | .undeclaredVariable x => .undeclaredVariable (T.name x)
  | .undefinedFunction x => .undefinedFunction (T.name x)
  | .variableInConstant x => .variableInConstant (T.name x)
  | .assignToConstant x => .assignToConstant (T.name x)
  | .missingIndex x => .missingIndex (T.name x)
  | .nonIntegerIndex x => .nonIntegerIndex (T.name x)
  | .indexOnScalar x => .indexOnScalar (T.name x)
  | .nonIntegerLength x => .nonIntegerLength (T.name x)
  | .nonPositiveLength x n => .nonPositiveLength (T.name x) n
  | .tooManyInitializers x n count => .tooManyInitializers (T.name x) n count
  | p => p

def diagnostic (d : Diagnostic) : Diagnostic := ⟨T.problem d.problem, T.span d.span⟩

@[simp] theorem token_kind (t : Token) : (T.token t).kind = t.kind := rfl

@[simp] theorem token_span (t : Token) : (T.token t).span = T.span t.span := rfl

theorem token_lexeme_of_ne {t : Token} (h : t.kind ≠ .identifier) :
    (T.token t).lexeme = t.lexeme := if_neg h

@[simp] theorem expr_span (e : Expr) : (T.expr e).span = T.span e.span := by
  cases e <;> rfl

@[simp] theorem place_toExpr (p : Place) : (T.place p).toExpr = T.expr p.toExpr := by
  cases p <;> rfl

@[simp] theorem place_span (p : Place) : (T.place p).span = T.span p.span := by
  cases p <;> rfl

@[simp] theorem extent_length (x : Extent) : (T.extent x).length = T.expr x.length := by
  cases x <;> rfl

@[simp] theorem stmt_span (st : Stmt) : (T.stmt st).span = T.span st.span := by
  cases st <;> simp only [stmt, Stmt.span, declared]

theorem stmts_eq_map (body : List Stmt) : T.stmts body = body.map T.stmt := by
  induction body with
  | nil => simp only [stmts, List.map_nil]
  | cons st rest ih => simp only [stmts, List.map_cons, ih]

@[simp] theorem problem_code (p : Problem) : (T.problem p).code = p.code := by
  cases p <;> rfl

@[simp] theorem diagnostic_isError (d : Diagnostic) :
    (T.diagnostic d).isError = d.isError := by
  obtain ⟨p, s⟩ := d
  cases p <;> rfl

theorem codes_map (ds : List Diagnostic) :
    (ds.map T.diagnostic).map (·.problem.code) = ds.map (·.problem.code) := by
  simp [Function.comp_def, diagnostic]

section Same

@[simp] theorem same_name (x : String) : same.name x = x := rfl

@[simp] theorem same_span (s : Span) : same.span s = s := rfl

@[simp] theorem same_expr (e : Expr) : same.expr e = e := by
  induction e with
  | literal v s => rfl
  | binary op l r s hl hr => simp [expr, hl, hr]
  | unary op e s ih => simp [expr, ih]
  | name x s => rfl
  | element x i s ih => simp [expr, ih]

@[simp] theorem same_place (p : Place) : same.place p = p := by
  cases p with
  | name x s => rfl
  | element x i s => simp [place]

@[simp] theorem same_condition (c : Condition) : same.condition c = c := by
  simp [condition]

@[simp] theorem same_declared (v : Variable) : same.declared v = v := by
  have he : same.expr = id := funext same_expr
  have hx : same.extent = id := by
    funext x
    cases x with
    | stated e => simp [extent]
    | counted n s => rfl
  simp [declared, he, hx]

mutual

theorem same_stmt (st : Stmt) : same.stmt st = st := by
  cases st with
  | declare v => simp [stmt]
  | assign target value s => simp [stmt]
  | call x s => simp [stmt]
  | block body s => simp [stmt, same_stmts body]
  | branch c body s => simp [stmt, same_stmt body]
  | branchElse c body other s =>
    simp [stmt, same_stmt body, same_stmt other]
  | loop c body s => simp [stmt, same_stmt body]
  | empty s => simp [stmt]

theorem same_stmts (body : List Stmt) : same.stmts body = body := by
  cases body with
  | nil => simp [stmts]
  | cons st rest => simp [stmts, same_stmt st, same_stmts rest]

end

theorem same_declaration (d : Declaration) : same.declaration d = d := by
  cases d with
  | function f => simp [declaration, function, same_stmts]
  | global v => simp [declaration]

theorem same_diagnostic (d : Diagnostic) : same.diagnostic d = d := by
  obtain ⟨p, s⟩ := d
  cases p <;> rfl

end Same

end Relabeling

end C1Lang
