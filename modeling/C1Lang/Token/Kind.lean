/-!
# Token kinds

The kinds of token of the C1 language, with the name that dumps show and the phrase that
diagnostics use.
-/

namespace C1Lang

inductive TokenKind
  | plus | minus | asterisk | slash | percent
  | leftParen | rightParen | leftBrace | rightBrace | leftBracket | rightBracket
  | comma | semicolon
  | equal | equalEqual | bangEqual | greater | greaterEqual | less | lessEqual
  | identifier | int | hex | float
  | intType | floatType | constKeyword | voidKeyword | ifKeyword | elseKeyword | whileKeyword
  | lineComment | blockComment | eof
deriving DecidableEq, Repr, Inhabited

namespace TokenKind

def label : TokenKind → String
  | plus => "Plus"
  | minus => "Minus"
  | asterisk => "Asterisk"
  | slash => "Slash"
  | percent => "Mod"
  | leftParen => "LeftParen"
  | rightParen => "RightParen"
  | leftBrace => "LeftBrace"
  | rightBrace => "RightBrace"
  | leftBracket => "LeftBrack"
  | rightBracket => "RightBrack"
  | comma => "Comma"
  | semicolon => "SemiColon"
  | equal => "Equal"
  | equalEqual => "EqualEqual"
  | bangEqual => "BangEqual"
  | greater => "Greater"
  | greaterEqual => "GreaterEqual"
  | less => "Less"
  | lessEqual => "LessEqual"
  | identifier => "Identifier"
  | int => "Int"
  | hex => "Hex"
  | float => "Float"
  | intType => "IntType"
  | floatType => "FloatType"
  | constKeyword => "Const"
  | voidKeyword => "Void"
  | ifKeyword => "If"
  | elseKeyword => "Else"
  | whileKeyword => "While"
  | lineComment => "Comment"
  | blockComment => "MultiLineComment"
  | eof => "Eof"

def phrase : TokenKind → String
  | plus => "'+'"
  | minus => "'-'"
  | asterisk => "'*'"
  | slash => "'/'"
  | percent => "'%'"
  | leftParen => "'('"
  | rightParen => "')'"
  | leftBrace => "'\x7b'"
  | rightBrace => "'\x7d'"
  | leftBracket => "'['"
  | rightBracket => "']'"
  | comma => "','"
  | semicolon => "';'"
  | equal => "'='"
  | equalEqual => "'=='"
  | bangEqual => "'!='"
  | greater => "'>'"
  | greaterEqual => "'>='"
  | less => "'<'"
  | lessEqual => "'<='"
  | identifier => "identifier"
  | int => "integer literal"
  | hex => "hexadecimal literal"
  | float => "float literal"
  | intType => "'int'"
  | floatType => "'float'"
  | constKeyword => "'const'"
  | voidKeyword => "'void'"
  | ifKeyword => "'if'"
  | elseKeyword => "'else'"
  | whileKeyword => "'while'"
  | lineComment => "comment"
  | blockComment => "comment"
  | eof => "end of file"

def all : List TokenKind :=
  [plus, minus, asterisk, slash, percent, leftParen, rightParen, leftBrace, rightBrace,
    leftBracket, rightBracket, comma, semicolon, equal, equalEqual, bangEqual, greater,
    greaterEqual, less, lessEqual, identifier, int, hex, float, intType, floatType, constKeyword,
    voidKeyword, ifKeyword, elseKeyword, whileKeyword, lineComment, blockComment, eof]

def ofLabel? (s : String) : Option TokenKind := all.find? (·.label == s)

def keyword? : String → Option TokenKind
  | "int" => some intType
  | "float" => some floatType
  | "const" => some constKeyword
  | "void" => some voidKeyword
  | "if" => some ifKeyword
  | "else" => some elseKeyword
  | "while" => some whileKeyword
  | _ => none

def isRelational : TokenKind → Bool
  | equalEqual | bangEqual | greater | greaterEqual | less | lessEqual => true
  | _ => false

def isComment (kind : TokenKind) : Bool := kind == lineComment || kind == blockComment

def startsDeclaration : TokenKind → Bool
  | voidKeyword | constKeyword | intType | floatType => true
  | _ => false

def startsVariable : TokenKind → Bool
  | constKeyword | intType | floatType => true
  | _ => false

/-- Keywords that can only begin a statement or a local declaration. -/
def startsStatement : TokenKind → Bool
  | ifKeyword | whileKeyword | constKeyword | intType | floatType => true
  | _ => false

end TokenKind

end C1Lang
