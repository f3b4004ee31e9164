import C1Lang.Source.Span
import C1Lang.Token.Kind

/-!
# Tokens

A token is a kind, the text it was written with, and the span of that text.
-/

namespace C1Lang

structure Token where
  kind : TokenKind
  lexeme : String
  span : Span
deriving DecidableEq, Repr, Inhabited

namespace Token

def describe (t : Token) : String :=
  "(token type: " ++ t.kind.label ++ " lexeme: " ++ t.lexeme ++ " span: " ++ t.span.text ++ ")"

def shift (n : Nat) (t : Token) : Token := { t with span := t.span.shift n }

def wrap (t : Token) : Token := { t with span := t.span.wrap }

theorem wrap_shift_wrap (n : Nat) (t : Token) : (t.wrap.shift n).wrap = (t.shift n).wrap :=
  congrArg (Token.mk t.kind t.lexeme) (t.span.wrap_shift_wrap n)

end Token

end C1Lang
