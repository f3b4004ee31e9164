import C1Lang.Diagnostic.Basic
import C1Lang.Number.Digits

/-!
# Lexing

A scan looks at the first character of what is left and takes the longest piece that belongs to
it: a blank, a token, or characters that are no token and are reported. The pieces in order are
the text again. Lexing repeats the scan to the end of the text.
-/

namespace C1Lang.Lexer

open Number (isDigit isHexDigit)

inductive Outcome
  | blank
  | token (kind : TokenKind)
  | problem (problem : Problem)
deriving DecidableEq, Repr

/-- The result of a scan: `taken ++ rest` is what the scan was given. -/
structure Piece where
  outcome : Outcome
  taken : List Char
  rest : List Char
deriving DecidableEq, Repr

def isBlank (c : Char) : Bool := c == ' ' || c == '\r' || c == '\t' || c == '\n'

def isLetter (c : Char) : Bool := ('a' ≤ c && c ≤ 'z') || ('A' ≤ c && c ≤ 'Z') || c == '_'

def isWordChar (c : Char) : Bool := isLetter c || isDigit c

def splitComment : List Char → Option (List Char × List Char)
  | [] => none
  | c :: rest =>
    match c, rest with
    | '*', '/' :: after => some (['*', '/'], after)
    | _, _ => (splitComment rest).map fun (body, after) => (c :: body, after)

def lineComment (cs : List Char) : Piece :=
  ⟨.token .lineComment, '/' :: '/' :: cs.takeWhile (· != '\n'), cs.dropWhile (· != '\n')⟩

def blockComment (cs : List Char) : Piece :=
  match splitComment cs with
  | some (body, rest) => ⟨.token .blockComment, '/' :: '*' :: body, rest⟩
  | none => ⟨.problem .unterminatedComment, '/' :: '*' :: cs, []⟩

def word (c : Char) (cs : List Char) : Piece :=
  let taken := c :: cs.takeWhile isWordChar
  ⟨.token ((TokenKind.keyword? (String.ofList taken)).getD .identifier), taken,
    cs.dropWhile isWordChar⟩

def integer (kind : TokenKind) (taken rest : List Char) : Piece :=
  match Number.literal? (String.ofList taken) with
  | some _ => ⟨.token kind, taken, rest⟩
  | none => ⟨.problem .integerOutOfRange, taken, rest⟩

def hexadecimal (x : Char) (cs : List Char) : Piece :=
  let digits := cs.takeWhile isHexDigit
  let taken := '0' :: x :: digits
  let rest := cs.dropWhile isHexDigit
  if digits.isEmpty then ⟨.problem .malformedNumber, taken, rest⟩ else integer .hex taken rest

def fraction : List Char → List Char × List Char
  | '.' :: cs => ('.' :: cs.takeWhile isDigit, cs.dropWhile isDigit)
  | cs => ([], cs)

def exponentSign : List Char → List Char × List Char
  | '+' :: cs => (['+'], cs)
  | '-' :: cs => (['-'], cs)
  | cs => ([], cs)

/-- The end of a decimal literal: an exponent, or nothing. `taken` holds what stands before it. -/
def exponent (isFloat : Bool) (taken : List Char) : List Char → Piece
  | e :: cs =>
    if e == 'e' || e == 'E' then
      let (sign, cs) := exponentSign cs
      let digits := cs.takeWhile isDigit
      if digits.isEmpty then ⟨.problem .malformedNumber, taken ++ e :: sign, cs⟩
      else ⟨.token .float, taken ++ e :: (sign ++ digits), cs.dropWhile isDigit⟩
    else if isFloat then ⟨.token .float, taken, e :: cs⟩
    else integer .int taken (e :: cs)
  | [] => if isFloat then ⟨.token .float, taken, []⟩ else integer .int taken []

def decimal (c : Char) (cs : List Char) : Piece :=
  let whole := cs.takeWhile isDigit
  let after := cs.dropWhile isDigit
  if c == '.' then exponent true (c :: whole) after
  else
    let (point, after) := fraction after
    exponent (!point.isEmpty) (c :: (whole ++ point)) after

def number (c : Char) (cs : List Char) : Piece :=
  match c, cs with
  | '0', 'x' :: rest => hexadecimal 'x' rest
  | '0', 'X' :: rest => hexadecimal 'X' rest
  | _, _ => decimal c cs

def punctuation? : Char → Option TokenKind
  | '(' => some .leftParen
  | ')' => some .rightParen
  | '{' => some .leftBrace
  | '}' => some .rightBrace
  | '[' => some .leftBracket
  | ']' => some .rightBracket
  | ',' => some .comma
  | ';' => some .semicolon
  | '+' => some .plus
  | '-' => some .minus
  | '*' => some .asterisk
  | '%' => some .percent
  | _ => none

/-- What `c` is alone, and what it is with `=` after it. -/
def comparison? : Char → Option (Outcome × TokenKind)
  | '=' => some (.token .equal, .equalEqual)
  | '!' => some (.problem .invalidCharacter, .bangEqual)
  | '<' => some (.token .less, .lessEqual)
  | '>' => some (.token .greater, .greaterEqual)
  | _ => none

def comparison (c : Char) (alone : Outcome) (doubled : TokenKind) : List Char → Piece
  | '=' :: cs => ⟨.token doubled, [c, '='], cs⟩
  | cs => ⟨alone, [c], cs⟩

def slash : List Char → Piece
  | '/' :: cs => lineComment cs
  | '*' :: cs => blockComment cs
  | cs => ⟨.token .slash, ['/'], cs⟩

def startsNumber (c : Char) (cs : List Char) : Bool :=
  isDigit c || (c == '.' && cs.head?.any isDigit)

def scan (c : Char) (cs : List Char) : Piece :=
  match punctuation? c, comparison? c with
  | some kind, _ => ⟨.token kind, [c], cs⟩
  | none, some (alone, doubled) => comparison c alone doubled cs
  | none, none =>
    if c = '/' then slash cs
    else if isBlank c then ⟨.blank, [c], cs⟩
    else if startsNumber c cs then number c cs
    else if isLetter c then word c cs
    else ⟨.problem .invalidCharacter, [c], cs⟩

theorem splitComment_append {cs body rest : List Char} (h : splitComment cs = some (body, rest)) :
    body ++ rest = cs := by
  induction cs generalizing body with
  | nil => simp [splitComment] at h
  | cons c cs ih =>
    unfold splitComment at h
    split at h
    · simp only [Option.some.injEq, Prod.mk.injEq] at h
      obtain ⟨rfl, rfl⟩ := h
      rfl
    · obtain ⟨⟨b, r⟩, hb, hr⟩ := Option.map_eq_some_iff.1 h
      simp only [Prod.mk.injEq] at hr
      obtain ⟨rfl, rfl⟩ := hr
      simp [ih hb]

theorem fraction_append (cs : List Char) : (fraction cs).1 ++ (fraction cs).2 = cs := by
  unfold fraction; split <;> simp [List.takeWhile_append_dropWhile]

theorem exponentSign_append (cs : List Char) :
    (exponentSign cs).1 ++ (exponentSign cs).2 = cs := by
  unfold exponentSign; split <;> simp

theorem integer_append (kind : TokenKind) (taken rest : List Char) :
    (integer kind taken rest).taken ++ (integer kind taken rest).rest = taken ++ rest := by
  unfold integer; split <;> rfl

theorem exponent_append (isFloat : Bool) (taken cs : List Char) :
    (exponent isFloat taken cs).taken ++ (exponent isFloat taken cs).rest = taken ++ cs := by
  unfold exponent
  split
  · next e cs =>
    have hs := exponentSign_append cs
    split
    · dsimp only
      split
      · simp [hs]
      · simp only [List.append_assoc, List.cons_append, List.takeWhile_append_dropWhile, hs]
    · split
      · rfl
      · exact integer_append ..
  · split
    · rfl
    · exact integer_append ..

theorem decimal_append (c : Char) (cs : List Char) :
    (decimal c cs).taken ++ (decimal c cs).rest = c :: cs := by
  unfold decimal
  dsimp only
  split
  · rw [exponent_append, List.cons_append, List.takeWhile_append_dropWhile]
  · rw [exponent_append, List.cons_append, List.append_assoc, fraction_append,
      List.takeWhile_append_dropWhile]

theorem hexadecimal_append (x : Char) (cs : List Char) :
    (hexadecimal x cs).taken ++ (hexadecimal x cs).rest = '0' :: x :: cs := by
  unfold hexadecimal
  dsimp only
  split
  · simp [List.takeWhile_append_dropWhile]
  · rw [integer_append]; simp [List.takeWhile_append_dropWhile]

theorem number_append (c : Char) (cs : List Char) :
    (number c cs).taken ++ (number c cs).rest = c :: cs := by
  unfold number
  split
  · exact hexadecimal_append ..
  · exact hexadecimal_append ..
  · exact decimal_append ..

theorem comparison_append (c : Char) (alone : Outcome) (doubled : TokenKind) (cs : List Char) :
    (comparison c alone doubled cs).taken ++ (comparison c alone doubled cs).rest = c :: cs := by
  unfold comparison; split <;> rfl

theorem blockComment_append (cs : List Char) :
    (blockComment cs).taken ++ (blockComment cs).rest = '/' :: '*' :: cs := by
  unfold blockComment
  split
  · next h => simp [splitComment_append h]
  · simp

theorem lineComment_append (cs : List Char) :
    (lineComment cs).taken ++ (lineComment cs).rest = '/' :: '/' :: cs := by
  simp [lineComment, List.takeWhile_append_dropWhile]

theorem word_append (c : Char) (cs : List Char) :
    (word c cs).taken ++ (word c cs).rest = c :: cs := by
  simp [word, List.takeWhile_append_dropWhile]

theorem slash_append (cs : List Char) : (slash cs).taken ++ (slash cs).rest = '/' :: cs := by
  unfold slash
  split
  · exact lineComment_append _
  · exact blockComment_append _
  · rfl

theorem scan_append (c : Char) (cs : List Char) :
    (scan c cs).taken ++ (scan c cs).rest = c :: cs := by
  unfold scan
  split
  · rfl
  · exact comparison_append ..
  · split
    · next h => exact h ▸ slash_append cs
    · split
      · rfl
      · split
        · exact number_append ..
        · split
          · exact word_append ..
          · rfl

theorem integer_taken (kind : TokenKind) (taken rest : List Char) :
    (integer kind taken rest).taken = taken := by
  unfold integer; split <;> rfl

theorem exponent_taken_ne_nil {isFloat : Bool} {taken : List Char} (h : taken ≠ [])
    (cs : List Char) : (exponent isFloat taken cs).taken ≠ [] := by
  unfold exponent
  split
  · split
    · dsimp only; split <;> simp
    · split
      · exact h
      · rwa [integer_taken]
  · split
    · exact h
    · rwa [integer_taken]

theorem number_taken_ne_nil (c : Char) (cs : List Char) : (number c cs).taken ≠ [] := by
  have hex : ∀ x cs, (hexadecimal x cs).taken ≠ [] := by
    intro x cs
    unfold hexadecimal
    dsimp only
    split
    · simp
    · simp [integer_taken]
  unfold number
  split
  · exact hex _ _
  · exact hex _ _
  · unfold decimal
    dsimp only
    split <;> exact exponent_taken_ne_nil (by simp) _

theorem scan_taken_ne_nil (c : Char) (cs : List Char) : (scan c cs).taken ≠ [] := by
  unfold scan
  split
  · simp
  · unfold comparison; split <;> simp
  · split
    · unfold slash
      split
      · simp [lineComment]
      · unfold blockComment; split <;> simp
      · simp
    · split
      · simp
      · split
        · exact number_taken_ne_nil c cs
        · split
          · simp [word]
          · simp

theorem scan_rest_length_le (c : Char) (cs : List Char) :
    (scan c cs).rest.length ≤ cs.length := by
  have h := congrArg List.length (scan_append c cs)
  have := List.length_pos_iff.2 (scan_taken_ne_nil c cs)
  simp only [List.length_append, List.length_cons] at h
  omega

inductive Item
  | token (token : Token)
  | problem (diagnostic : Diagnostic)
deriving DecidableEq, Repr

def Piece.items (pos : Nat) (p : Piece) : List Item :=
  let span : Span := ⟨pos, pos + byteLength p.taken⟩
  match p.outcome with
  | .blank => []
  | .token kind => [.token ⟨kind, String.ofList p.taken, span⟩]
  | .problem problem => [.problem ⟨problem, span⟩]

def items (pos : Nat) : List Char → List Item
  | [] => []
  | c :: cs => (scan c cs).items pos ++ items (pos + byteLength (scan c cs).taken) (scan c cs).rest
termination_by cs => cs.length
decreasing_by exact Nat.lt_succ_of_le (scan_rest_length_le c cs)

def Item.token? : Item → Option Token
  | .token t => some t
  | .problem _ => none

def Item.diagnostic? : Item → Option Diagnostic
  | .token _ => none
  | .problem d => some d

end C1Lang.Lexer

namespace C1Lang

structure Lexed where
  tokens : List Token
  diagnostics : List Diagnostic
deriving DecidableEq, Repr

def lexChars (cs : List Char) : Lexed :=
  let found := Lexer.items 0 cs
  let eof : Token := ⟨.eof, "", ⟨byteLength cs, byteLength cs⟩⟩
  ⟨(found.filterMap Lexer.Item.token? ++ [eof]).map Token.wrap,
    (found.filterMap Lexer.Item.diagnostic?).map Diagnostic.wrap⟩

def lex (text : String) : Lexed := lexChars text.toList

end C1Lang
