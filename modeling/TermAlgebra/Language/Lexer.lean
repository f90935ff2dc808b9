import TermAlgebra.Language.Token

/-!
# Lexing

A source text is cut into tokens from left to right, each the longest that fits. Every character
belongs to a token: what fits no other becomes an unknown token.
-/

namespace TermAlgebra.Language

def isBlank (c : Char) : Bool := c == ' ' || c == '\t' || c == '\n' || c == '\x0c' || c == '\r'

def isNameStart (c : Char) : Bool := c.isAlpha || c == '_'

def isNamePart (c : Char) : Bool := c.isAlphanum || c == '_' || c == '\''

/-- Number of leading characters with a property. -/
def run (p : Char → Bool) (cs : List Char) : Nat := (cs.takeWhile p).length

/-- How far a comment reaches behind its opening. -/
inductive CommentEnd where
  | closed (length : Nat)
  /-- The text ends first; the length reaches to the last delimiter. -/
  | unclosed (length : Nat)

/-- Looks for the end of a comment with `depth + 1` comments open. `length` characters have been
read, and `last` of them reach to the last parenthesis or semicolon. -/
def commentEnd (depth length last : Nat) : List Char → CommentEnd
  | '(' :: ';' :: cs => commentEnd (depth + 1) (length + 2) (length + 2) cs
  | ';' :: ')' :: cs =>
    match depth with
    | 0 => .closed (length + 2)
    | depth + 1 => commentEnd depth (length + 2) (length + 2) cs
  | c :: cs =>
    commentEnd depth (length + 1) (if c == '(' || c == ';' then length + 1 else last) cs
  | [] => .unclosed last

def digitsValue (cs : List Char) : Nat :=
  cs.foldl (fun n c => 10 * n + (c.toNat - '0'.toNat)) 0

/-- A literal outside the range of 64 bits is no token. -/
def Token.ofInt (n : Int) : Token :=
  if Int64.minValue.toInt ≤ n ∧ n ≤ Int64.maxValue.toInt then .int (.ofInt n) else .unknown

def Token.ofWord (s : String) : Token :=
  match Keyword.ofText? s with
  | some k => .keyword k
  | none => .ident s

/-- The first token of a text and the number of characters that it covers behind its first. -/
def firstToken (c : Char) (cs : List Char) : Token × Nat :=
  match c, cs with
  | '[', _ => (.mark .openBracket, 0)
  | ']', _ => (.mark .closeBracket, 0)
  | '(', ';' :: cs =>
    match commentEnd 0 0 0 cs with
    | .closed n => (.blank, n + 1)
    | .unclosed n => (.unknown, n + 1)
  | '(', _ => (.mark .openParen, 0)
  | ')', _ => (.mark .closeParen, 0)
  | ':', '=' :: _ => (.mark .colonEq, 1)
  | ':', _ => (.mark .colon, 0)
  | '-', '>' :: _ => (.mark .arrow, 1)
  | '=', '>' :: _ => (.mark .fatArrow, 1)
  | '\\', _ => (.mark .backslash, 0)
  | ',', _ => (.mark .comma, 0)
  | '.', _ => (.mark .period, 0)
  | '"', cs =>
    let n := run (· ≠ '"') cs
    if n < cs.length then (.string (String.ofList (cs.take n)), n + 1) else (.unknown, n)
  | '-', cs =>
    let n := run Char.isDigit cs
    if n = 0 then (.unknown, 0) else (.ofInt (-(digitsValue (cs.take n) : Int)), n)
  | c, cs =>
    if isBlank c then (.blank, run isBlank cs)
    else if c.isDigit then
      let n := run Char.isDigit cs
      (.ofInt (digitsValue (c :: cs.take n)), n)
    else if isNameStart c then
      let n := run isNamePart cs
      (.ofWord (String.ofList (c :: cs.take n)), n)
    else (.unknown, 0)

/-- The number of bytes of a text. -/
def byteLength : List Char → Nat
  | [] => 0
  | c :: cs => c.utf8Size + byteLength cs

/-- The first token of a text that starts at the given offset, and the text behind it. -/
def firstLexeme (start : Nat) (c : Char) (cs : List Char) : Lexeme × List Char :=
  let first := firstToken c cs
  (⟨first.1, start, start + byteLength (c :: cs.take first.2)⟩, cs.drop first.2)

theorem length_firstLexeme_lt (start : Nat) (c : Char) (cs : List Char) :
    (firstLexeme start c cs).2.length < (c :: cs).length := by
  simp only [firstLexeme, List.length_drop, List.length_cons]
  omega

/-- The tokens of a text that starts at the given offset. -/
def tokensFrom (start : Nat) : List Char → List Lexeme
  | [] => []
  | c :: cs =>
    let first := firstLexeme start c cs
    first.1 :: tokensFrom first.1.stop first.2
termination_by cs => cs.length
decreasing_by exact length_firstLexeme_lt start c cs

def tokens (source : String) : List Lexeme := tokensFrom 0 source.toList

/-- The tokens that are no white space or comment. -/
def solid (ls : List Lexeme) : List Lexeme := ls.filter fun l => l.token ≠ .blank

def solidTokens (source : String) : List Lexeme := solid (tokens source)

end TermAlgebra.Language
