import TermAlgebra.Language.Command
import TermAlgebra.Language.Lexer

/-!
# Parsing

Recursive descent over the tokens that are no white space. A parser that fails leaves the
offending token in place and reports its offset. Nested calls are bounded by the number of
tokens, since each comes after a token has been consumed.
-/

namespace TermAlgebra.Language

/-- What a parser was looking for. -/
inductive Expected where
  | command | ident | colon | colonEq | period | against | arrow | fatArrow | type | term
  | openBracket | closeParen | commaOrParen | commaOrBracket | endOfInput
deriving DecidableEq

def Expected.text : Expected → String
  | command => "command"
  | ident => "identifier"
  | colon => "':'"
  | colonEq => "':='"
  | period => "'.'"
  | against => "'with'"
  | arrow => "'->'"
  | fatArrow => "'=>'"
  | type => "type"
  | term => "term"
  | openBracket => "'['"
  | closeParen => "')'"
  | commaOrParen => "',' or ')'"
  | commaOrBracket => "',' or ']'"
  | endOfInput => "end of input"

inductive Fault where
  | unknownToken
  | expected (e : Expected)
deriving DecidableEq

def Fault.text : Fault → String
  | unknownToken => "unknown token"
  | expected e => "expected " ++ e.text

structure ParseError where
  fault : Fault
  offset : Nat
deriving DecidableEq

def ParseError.message (e : ParseError) : String := e.fault.text ++ " at byte " ++ toString e.offset

/-- The error in a text that starts `k` bytes farther on. -/
def ParseError.shift (k : Nat) (e : ParseError) : ParseError := { e with offset := e.offset + k }

/-- The tokens that are left, and the length of the whole text. -/
structure Input where
  tokens : List Lexeme
  stop : Nat

namespace Input

def ofString (source : String) : Input := ⟨solidTokens source, source.utf8ByteSize⟩

def atEnd (i : Input) : Bool := i.tokens.isEmpty

/-- Where the next token starts, or the length of the text at the end. -/
def offset (i : Input) : Nat :=
  match i.tokens with
  | l :: _ => l.start
  | [] => i.stop

def rest (i : Input) : Input := { i with tokens := i.tokens.tail }

/-- Drops all tokens up to and including the next period. -/
def skipCommand (i : Input) : Input :=
  { i with tokens := (i.tokens.dropWhile fun l => l.token ≠ .mark .period).tail }

end Input

/-- Parsing consumes input also when it fails. -/
abbrev Parser := ExceptT ParseError (StateM Input)

namespace Parser

def next? : Parser (Option Lexeme) := return (← get).tokens.head?

def advance : Parser Unit := modify Input.rest

/-- The number of nested calls and rounds that the input allows. -/
def budget : Parser Nat := return (← get).tokens.length + 1

/-- Fails at the next token, which stays. -/
def fail {α : Type} (e : Expected) : Parser α := do
  let i ← get
  match i.tokens with
  | ⟨.unknown, _, _⟩ :: _ => throw ⟨.unknownToken, i.offset⟩
  | _ => throw ⟨.expected e, i.offset⟩

/-- Consumes the next token if it is the given one. -/
def eat (t : Token) : Parser Bool := do
  match ← next? with
  | some l => if l.token = t then advance; return true else return false
  | none => return false

def expect (t : Token) (e : Expected) : Parser Unit := do
  unless ← eat t do fail e

def ident : Parser String := do
  match ← next? with
  | some ⟨.ident name, _, _⟩ => advance; return name
  | _ => fail .ident

/-- Items separated by commas, up to a closing mark. -/
def items {α : Type} (item : Parser α) (close : Mark) (e : Expected) : Nat → Parser (List α)
  | 0 => fail e
  | rounds + 1 => do
    let x ← item
    if ← eat (.mark close) then return [x]
    else if ← eat (.mark .comma) then return x :: (← items item close e rounds)
    else fail e

/-- A list that may be empty, behind its opening mark. -/
def list {α : Type} (item : Parser α) (close : Mark) (e : Expected) : Parser (List α) := do
  if ← eat (.mark close) then return []
  else items item close e (← budget)

/-- A type with a bound on the nesting. -/
def typeWithin : Nat → Parser SimpleType
  | 0 => fail .type
  | depth + 1 => do
    let input ← match ← next? with
      | some ⟨.ident name, _, _⟩ => do
        advance
        pure (.base name)
      | some ⟨.mark .openParen, _, _⟩ => do
        advance
        let τ ← typeWithin depth
        expect (.mark .closeParen) .closeParen
        pure τ
      | _ => fail .type
    if ← eat (.mark .arrow) then return .arrow input (← typeWithin depth) else return input

/-- A type, where arrows associate to the right. -/
def type : Parser SimpleType := do typeWithin (← budget)

/-- A name, a literal, a term in parentheses, or a meta-application, whose bracket directly
follows the name. -/
def atom (term : Parser Expr) : Parser Expr := do
  match ← next? with
  | some ⟨.ident x, _, stop⟩ => do
    advance
    match ← next? with
    | some ⟨.mark .openBracket, start, _⟩ =>
      if start = stop then
        advance
        return .metaApp x (← list term .closeBracket .commaOrBracket)
      else return .name x
    | _ => return .name x
  | some ⟨.int n, _, _⟩ => advance; return .literal (.int n)
  | some ⟨.keyword .true, _, _⟩ => advance; return .literal (.bool true)
  | some ⟨.keyword .false, _, _⟩ => advance; return .literal (.bool false)
  | some ⟨.string s, _, _⟩ => advance; return .literal (.string s)
  | some ⟨.mark .openParen, _, _⟩ => do
    advance
    let t ← term
    expect (.mark .closeParen) .closeParen
    return t
  | _ => fail .term

/-- Any number of argument lists behind a term. -/
def arguments (term : Parser Expr) : Nat → Expr → Parser Expr
  | 0, t => return t
  | rounds + 1, t => do
    if ← eat (.mark .openParen) then
      let args ← list term .closeParen .commaOrParen
      arguments term rounds (t.apply args)
    else return t

/-- A term with a bound on the nesting. -/
def termWithin : Nat → Parser Expr
  | 0 => fail .term
  | depth + 1 => do
    if ← eat (.mark .backslash) then
      let x ← ident
      expect (.mark .colon) .colon
      let ty ← type
      expect (.mark .fatArrow) .fatArrow
      return .lambda x ty (← termWithin depth)
    else
      let t ← atom (termWithin depth)
      arguments (termWithin depth) (← budget) t

/-- A term, where the body of an abstraction extends as far as possible. -/
def term : Parser Expr := do termWithin (← budget)

/-- Two terms with `with` between them. -/
def pair : Parser (Expr × Expr) := do
  let s ← term
  expect (.keyword .against) .against
  return (s, ← term)

/-- An entry `x := t` of a substitution. -/
def image : Parser (String × Expr) := do
  let x ← ident
  expect (.mark .colonEq) .colonEq
  return (x, ← term)

/-- A command without its period. -/
def commandBody (first : Token) : Parser Command := do
  match first with
  | .keyword .var =>
    advance
    let x ← ident
    expect (.mark .colon) .colon
    return .var x (← type)
  | .keyword .metaVar =>
    advance
    let z ← ident
    expect (.mark .colon) .colon
    if ← eat (.mark .openBracket) then
      let inputs ← list type .closeBracket .commaOrBracket
      expect (.mark .arrow) .arrow
      return .metaVar z inputs (← type)
    else return .metaVar z [] (← type)
  | .ident _ =>
    let c ← ident
    expect (.mark .colon) .colon
    return .const c (← type)
  | .keyword .matching =>
    advance
    let (p, o) ← pair
    return .matching p o
  | .keyword .unify =>
    advance
    let (s, t) ← pair
    return .unify s t
  | .keyword .alpha =>
    advance
    let (s, t) ← pair
    return .alpha s t
  | .keyword .subst =>
    advance
    let t ← term
    expect (.mark .openBracket) .openBracket
    return .subst t (← list image .closeBracket .commaOrBracket)
  | .keyword .positions =>
    advance
    return .positions (← term)
  | _ => fail .command

/-- The next command, or nothing at the end of the input. -/
def command : Parser (Option Command) := do
  match ← next? with
  | none => return none
  | some l =>
    let c ← commandBody l.token
    expect (.mark .period) .period
    return some c

/-- The result of a parser that has to consume the whole text. -/
def parseAll {α : Type} (p : Parser α) (source : String) : Except ParseError α :=
  let whole : Parser α := do
    let x ← p
    unless (← get).atEnd do fail .endOfInput
    return x
  (whole.run.run (.ofString source)).1

end Parser

def Expr.parse (source : String) : Except ParseError Expr := Parser.term.parseAll source

def parseType (source : String) : Except ParseError SimpleType := Parser.type.parseAll source

end TermAlgebra.Language
