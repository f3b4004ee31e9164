import C1Lang.Number.Shortest
import C1Lang.Source.Text
import C1Lang.Token.Basic

/-!
# Diagnostics

A diagnostic is a problem at a span. Problems are the causes themselves; their code, severity,
category and wording are functions of the cause. A list of diagnostics is valid when it holds
warnings only.
-/

namespace C1Lang

inductive Expected
  | token (kind : TokenKind)
  | baseType
deriving DecidableEq, Repr

def Expected.phrase : Expected → String
  | token kind => kind.phrase
  | baseType => "'int' or 'float'"

inductive Problem
  | invalidCharacter
  | unterminatedComment
  | integerOutOfRange
  | malformedNumber
  | expectedToken (expected : Expected)
  | expectedExpression
  | expectedStatement
  | expectedDeclaration
  | expectedRelation
  | uninitializedConstant
  | arrayNeedsBraces
  | scalarBraces
  | missingArrayLength
  | nestedTooDeeply
  | functionRedefined (name : String) (previous : Span)
  | variableRedefined (name : String) (previous : Span)
  | symbolRedefined (name : String) (previous : Span)
  | undeclaredVariable (name : String)
  | undefinedFunction (name : String)
  | variableInConstant (name : String)
  | assignToConstant (name : String)
  | missingIndex (name : String)
  | nonIntegerIndex (name : String)
  | indexOnScalar (name : String)
  | nonIntegerLength (name : String)
  | nonPositiveLength (name : String) (length : Int32)
  | tooManyInitializers (name : String) (length : Int32) (count : Nat)
  | moduloOnFloat
  | divisionByZero
  | lossyConversion (value : Float) (truncated : Int32)
deriving DecidableEq, Repr

inductive Category
  | lexical
  | grammar
  | redefinition
  | unboundName
  | constancy
  | arrayUsage
  | unsupportedOperation
  | conversion
deriving DecidableEq, Repr

inductive Severity
  | warning
  | error
deriving DecidableEq, Repr

def Severity.word : Severity → String
  | warning => "warning"
  | error => "error"

namespace Problem

def code : Problem → String
  | invalidCharacter => "I0001"
  | unterminatedComment => "I0002"
  | integerOutOfRange => "I0003"
  | malformedNumber => "I0004"
  | expectedToken _ => "I0010"
  | expectedExpression => "I0011"
  | expectedStatement => "I0012"
  | expectedDeclaration => "I0013"
  | expectedRelation => "I0014"
  | uninitializedConstant => "I0015"
  | arrayNeedsBraces => "I0016"
  | scalarBraces => "I0017"
  | missingArrayLength => "I0018"
  | nestedTooDeeply => "I0019"
  | functionRedefined .. => "C0001"
  | variableRedefined .. => "C0002"
  | symbolRedefined .. => "C0003"
  | undeclaredVariable _ => "C0010"
  | undefinedFunction _ => "C0011"
  | variableInConstant _ => "C0020"
  | assignToConstant _ => "C0021"
  | missingIndex _ => "C0030"
  | nonIntegerIndex _ => "C0031"
  | indexOnScalar _ => "C0032"
  | nonIntegerLength _ => "C0033"
  | nonPositiveLength .. => "C0034"
  | tooManyInitializers .. => "C0035"
  | moduloOnFloat => "C0040"
  | divisionByZero => "C0041"
  | lossyConversion .. => "C0050"

def category : Problem → Category
  | invalidCharacter | unterminatedComment | integerOutOfRange | malformedNumber => .lexical
  | expectedToken _ | expectedExpression | expectedStatement | expectedDeclaration
  | expectedRelation | uninitializedConstant | arrayNeedsBraces | scalarBraces
  | missingArrayLength | nestedTooDeeply => .grammar
  | functionRedefined .. | variableRedefined .. | symbolRedefined .. => .redefinition
  | undeclaredVariable _ | undefinedFunction _ => .unboundName
  | variableInConstant _ | assignToConstant _ => .constancy
  | missingIndex _ | nonIntegerIndex _ | indexOnScalar _ | nonIntegerLength _
  | nonPositiveLength .. | tooManyInitializers .. => .arrayUsage
  | moduloOnFloat | divisionByZero => .unsupportedOperation
  | lossyConversion .. => .conversion

/-- A constant that loses its fraction is the one problem that does not stop compilation. -/
def severity : Problem → Severity
  | lossyConversion .. => .warning
  | _ => .error

def quoted (name : String) : String := "'" ++ name ++ "'"

def message : Problem → String
  | invalidCharacter => "Invalid character"
  | unterminatedComment => "Unterminated comment"
  | integerOutOfRange => "Integer literal does not fit in 32 bits"
  | malformedNumber => "Malformed number literal"
  | expectedToken expected => "Expected " ++ expected.phrase
  | expectedExpression => "Expected expression"
  | expectedStatement => "Expected statement"
  | expectedDeclaration => "Expected a function or variable declaration"
  | expectedRelation => "Expected one of '==', '!=', '<', '<=', '>', '>=' in condition"
  | uninitializedConstant => "Constant must be initialized with a value"
  | arrayNeedsBraces => "Array must be initialized with a brace-enclosed list"
  | scalarBraces => "Scalar variable cannot be initialized with a brace-enclosed list"
  | missingArrayLength => "Array without a length must have an initializer list"
  | nestedTooDeeply => "Expression is nested too deeply"
  | functionRedefined name _ => "Function " ++ quoted name ++ " is already defined"
  | variableRedefined name _ => "Variable " ++ quoted name ++ " is already defined in this scope"
  | symbolRedefined name _ => quoted name ++ " is already defined at module level"
  | undeclaredVariable name => "Undeclared variable " ++ quoted name
  | undefinedFunction name => "Undefined function " ++ quoted name
  | variableInConstant name =>
    "Variable " ++ quoted name ++ " cannot be used in a constant expression"
  | assignToConstant name => "Cannot assign to constant " ++ quoted name
  | missingIndex name =>
    "Array " ++ quoted name ++ " used without an index: expected index but not found"
  | nonIntegerIndex name => "Index into array " ++ quoted name ++ " must be an integer"
  | indexOnScalar name => quoted name ++ " is not an array and cannot be indexed"
  | nonIntegerLength name => "Length of array " ++ quoted name ++ " must be an integer constant"
  | nonPositiveLength name length =>
    "Length of array " ++ quoted name ++ " must be positive, but is " ++ toString length.toInt
  | tooManyInitializers name length count =>
    "Array " ++ quoted name ++ " has length " ++ toString length.toInt ++ ", but " ++
      toString count ++ " initializers were given"
  | moduloOnFloat => "Modulo is not supported on float operands"
  | divisionByZero => "Division by zero in constant expression"
  | lossyConversion value truncated =>
    "Float constant " ++ Number.plain.text value ++ " is truncated to " ++
      toString truncated.toInt ++ " in integer context"

def labels : Problem → List (Span × String)
  | functionRedefined _ previous | variableRedefined _ previous | symbolRedefined _ previous =>
    [(previous, "Previous definition here")]
  | _ => []

def notes : Problem → List String
  | moduloOnFloat => ["use integer operands with '%'"]
  | uninitializedConstant => ["add an initializer, e.g. `const int n = 1;`"]
  | _ => []

end Problem

structure Diagnostic where
  problem : Problem
  span : Span
deriving DecidableEq, Repr

namespace Diagnostic

def isError (d : Diagnostic) : Bool := d.problem.severity == .error

/-- `path:line:column: severity[code]: message` -/
def line (file : SourceFile) (d : Diagnostic) : String :=
  let at_ := file.position d.span.start
  file.path ++ ":" ++ toString at_.line ++ ":" ++ toString at_.column ++ ": " ++
    d.problem.severity.word ++ "[" ++ d.problem.code ++ "]: " ++ d.problem.message

def shift (n : Nat) (d : Diagnostic) : Diagnostic := { d with span := d.span.shift n }

def wrap (d : Diagnostic) : Diagnostic := { d with span := d.span.wrap }

theorem wrap_shift_wrap (n : Nat) (d : Diagnostic) : (d.wrap.shift n).wrap = (d.shift n).wrap :=
  congrArg (Diagnostic.mk d.problem) (d.span.wrap_shift_wrap n)

def valid (ds : List Diagnostic) : Bool := !ds.any isError

end Diagnostic

end C1Lang
