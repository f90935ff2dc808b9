/-!
# Tokens

The words of the query language, and their places in a source text counted in bytes.
-/

namespace TermAlgebra.Language

inductive Keyword where
  | var | metaVar | matching | against | unify | alpha | subst | positions | true | false
deriving DecidableEq

namespace Keyword

def text : Keyword → String
  | var => "var"
  | metaVar => "meta"
  | matching => "match"
  | against => "with"
  | unify => "unify"
  | alpha => "alpha"
  | subst => "subst"
  | positions => "positions"
  | true => "true"
  | false => "false"

def all : List Keyword :=
  [var, metaVar, matching, against, unify, alpha, subst, positions, true, false]

/-- A word is a keyword only as a whole. -/
def ofText? (s : String) : Option Keyword := all.find? fun k => k.text == s

end Keyword

inductive Mark where
  | openBracket | closeBracket | openParen | closeParen | colon | colonEq | arrow | fatArrow
  | backslash | comma | period
deriving DecidableEq

namespace Mark

def text : Mark → String
  | openBracket => "["
  | closeBracket => "]"
  | openParen => "("
  | closeParen => ")"
  | colon => ":"
  | colonEq => ":="
  | arrow => "->"
  | fatArrow => "=>"
  | backslash => "\\"
  | comma => ","
  | period => "."

end Mark

inductive Token where
  | keyword (k : Keyword)
  | mark (m : Mark)
  | ident (name : String)
  | int (n : Int64)
  | string (s : String)
  /-- White space or a comment. -/
  | blank
  | unknown
deriving DecidableEq

namespace Token

def text : Token → String
  | keyword k => k.text
  | mark m => m.text
  | ident name => name
  | int n => toString n.toInt
  | string s => "\"" ++ s ++ "\""
  | blank => " "
  | unknown => "<error>"

end Token

/-- A token and the bytes from `start` to before `stop` that it covers. -/
structure Lexeme where
  token : Token
  start : Nat
  stop : Nat
deriving DecidableEq

end TermAlgebra.Language
