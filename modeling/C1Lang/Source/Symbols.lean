/-!
# Interned names

A symbol table numbers names from zero in the order of their first mention.
-/

namespace C1Lang

structure SymbolTable where
  names : List String := []
deriving DecidableEq, Repr, Inhabited

namespace SymbolTable

def empty : SymbolTable := {}

def lookup (t : SymbolTable) (name : String) : Option Nat := t.names.findIdx? (· == name)

def intern (t : SymbolTable) (name : String) : Nat × SymbolTable :=
  match t.lookup name with
  | some id => (id, t)
  | none => (t.names.length, ⟨t.names ++ [name]⟩)

def mention (t : SymbolTable) (name : String) : SymbolTable := (t.intern name).2

def get? (t : SymbolTable) (id : Nat) : Option String := t.names[id]?

def size (t : SymbolTable) : Nat := t.names.length

end SymbolTable

end C1Lang
