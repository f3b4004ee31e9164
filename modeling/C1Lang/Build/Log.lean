/-!
# Log settings

What a run reports besides its results. Quiet silences all of it; debugging turns on every trace
and at least the second level of detail.
-/

namespace C1Lang

inductive Component
  | lexer
  | parser
  | lowering
  | verifier
deriving DecidableEq, Repr, Inhabited

namespace Component

def all : List Component := [lexer, parser, lowering, verifier]

def word : Component → String
  | lexer => "lexer"
  | parser => "parser"
  | lowering => "codegen"
  | verifier => "verify"

def ofWord? (w : String) : Option Component := all.find? (·.word == w)

end Component

structure LogSettings where
  debug : Bool := false
  quiet : Bool := false
  verbosity : Nat := 0
  traces : List Component := []
deriving DecidableEq, Repr, Inhabited

namespace LogSettings

def level (s : LogSettings) : Nat :=
  if s.quiet then 0
  else if s.debug && s.verbosity < 2 then 2
  else s.verbosity

def phases (s : LogSettings) : Bool := !s.quiet

def info (s : LogSettings) : Bool := 1 ≤ s.level

def details (s : LogSettings) : Bool := 2 ≤ s.level

def everything (s : LogSettings) : Bool := 3 ≤ s.level

def traced (s : LogSettings) (c : Component) : Bool :=
  !s.quiet && (s.debug || s.traces.contains c)

end LogSettings

end C1Lang
