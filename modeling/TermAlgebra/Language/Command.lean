import TermAlgebra.Literal

/-!
# Commands

Syntax trees of the query language. Names are not resolved yet: a name may stand for a constant,
a declared variable or a binder.
-/

namespace TermAlgebra.Language

inductive Expr where
  | name (x : String)
  | literal (v : Literal)
  | app (head : Expr) (args : List Expr)
  | metaApp (z : String) (args : List Expr)
  | lambda (x : String) (ty : SimpleType) (body : Expr)

/-- Adds arguments to those that the head has already. -/
def Expr.apply (t : Expr) (args : List Expr) : Expr :=
  if args.isEmpty then t
  else match t with
    | app head init => app head (init ++ args)
    | head => app head args

inductive Command where
  | const (c : String) (ty : SimpleType)
  | var (x : String) (ty : SimpleType)
  | metaVar (z : String) (inputs : List SimpleType) (output : SimpleType)
  | matching (pattern object : Expr)
  | unify (s t : Expr)
  | alpha (s t : Expr)
  | subst (t : Expr) (images : List (String × Expr))
  | positions (t : Expr)

/-- The command introduces a name. -/
def Command.isDeclaration : Command → Bool
  | const _ _ => true
  | var _ _ => true
  | metaVar _ _ _ => true
  | _ => false

/-! ## Source text -/

def commaSeparated (texts : List String) : String := String.intercalate ", " texts

/-- Arrows associate to the right, so only an arrow as input needs parentheses. -/
def typeText : SimpleType → String
  | .base s => s
  | .arrow σ τ => (if σ.isBase then typeText σ else "(" ++ typeText σ ++ ")") ++ " -> " ++ typeText τ

/-- Strings are written as they are, since the language has no escapes. -/
def literalText : Literal → String
  | .int n => toString n.toInt
  | .bool b => if b then "true" else "false"
  | .string s => "\"" ++ s ++ "\""

namespace Expr

def isLambda : Expr → Bool
  | lambda _ _ _ => true
  | _ => false

mutual

/-- An abstraction as the head of an application stands in parentheses. -/
def text : Expr → String
  | name x => x
  | literal v => literalText v
  | app head args =>
    (if head.isLambda then "(" ++ head.text ++ ")" else head.text) ++
      "(" ++ commaSeparated (texts args) ++ ")"
  | metaApp z args => z ++ "[" ++ commaSeparated (texts args) ++ "]"
  | lambda x ty body => "\\" ++ x ++ " : " ++ typeText ty ++ " => " ++ body.text

def texts : List Expr → List String
  | [] => []
  | t :: ts => t.text :: texts ts

end

end Expr

def Command.text (c : Command) : String :=
  (match c with
    | const c ty => c ++ " : " ++ typeText ty
    | var x ty => "var " ++ x ++ " : " ++ typeText ty
    | metaVar z inputs output =>
      "meta " ++ z ++ " : [" ++ commaSeparated (inputs.map typeText) ++ "] -> " ++ typeText output
    | matching p o => "match " ++ p.text ++ " with " ++ o.text
    | unify s t => "unify " ++ s.text ++ " with " ++ t.text
    | alpha s t => "alpha " ++ s.text ++ " with " ++ t.text
    | subst t images =>
      "subst " ++ t.text ++ " [" ++
        commaSeparated (images.map fun i => i.1 ++ " := " ++ i.2.text) ++ "]"
    | positions t => "positions " ++ t.text) ++ "."

end TermAlgebra.Language
