import C1Lang.IR.Instr
import C1Lang.Lower.Value

/-!
# Scopes

Nested scopes map names to variables; a name means what the innermost scope that declares it
says. The outermost scope is always there.
-/

namespace C1Lang

inductive ScopeKind
  | global
  | function
  | block
deriving DecidableEq, Repr, Inhabited

inductive Storage
  | global (id : Nat)
  | slot (id : Nat)
deriving DecidableEq, Repr

def Storage.operand : Storage → IR.Operand
  | global id => .global id
  | slot id => .slot id

structure Binding where
  storage : Storage
  constant : Bool
  isArray : Bool
  kind : Kind
  span : Span
deriving DecidableEq, Repr

structure Scope where
  kind : ScopeKind
  bindings : List (String × Binding) := []
deriving DecidableEq, Repr

def Scope.find? (s : Scope) (name : String) : Option Binding := s.bindings.lookup name

/-- The inner scopes, innermost first, and the outermost one. -/
structure Scopes where
  inner : List Scope := []
  global : Scope := ⟨.global, []⟩
deriving DecidableEq, Repr

namespace Scopes

def empty : Scopes := {}

def enter (s : Scopes) (kind : ScopeKind) : Scopes := { s with inner := ⟨kind, []⟩ :: s.inner }

def exit (s : Scopes) : Scopes := { s with inner := s.inner.drop 1 }

def depth (s : Scopes) : Nat := s.inner.length + 1

def current (s : Scopes) : Scope := s.inner.head?.getD s.global

def all (s : Scopes) : List Scope := s.inner ++ [s.global]

def lookupCurrent (s : Scopes) (name : String) : Option Binding := s.current.find? name

def lookupGlobal (s : Scopes) (name : String) : Option Binding := s.global.find? name

def lookup (s : Scopes) (name : String) : Option Binding := s.all.findSome? (·.find? name)

/-- Adds a variable to the innermost scope; none when that scope declares the name already. -/
def declare? (s : Scopes) (name : String) (b : Binding) : Option Scopes :=
  match s.lookupCurrent name, s.inner with
  | some _, _ => none
  | none, [] =>
    some { s with global := { s.global with bindings := (name, b) :: s.global.bindings } }
  | none, scope :: rest =>
    some { s with inner := { scope with bindings := (name, b) :: scope.bindings } :: rest }

end Scopes

end C1Lang
