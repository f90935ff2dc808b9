import TermAlgebra.Term.Basic

/-!
# Kinds of terms

Predicates on the shape of terms, and the fragments of ground, closed, first-order and
applicative terms and of patterns.
-/

namespace TermAlgebra.Term

def isLiteral : Term → Bool
  | literal _ => true
  | _ => false

def isConstant : Term → Bool
  | const _ => true
  | _ => false

/-- A variable without arguments. -/
def isVariable : Term → Bool
  | var _ => true
  | _ => false

def isLambda : Term → Bool
  | lambda _ _ => true
  | _ => false

def isApp : Term → Bool
  | app _ _ => true
  | _ => false

/-- A meta-application without further arguments. -/
def isMetaApp : Term → Bool
  | metaApp _ _ => true
  | _ => false

/-- A variable, alone or applied. -/
def isVarTerm (t : Term) : Bool := t.headVar?.isSome

/-- A constant, alone or applied. -/
def isFunctional (t : Term) : Bool := t.root?.isSome

/-- An abstraction applied to arguments. -/
def isBetaRedex (t : Term) : Bool := t.isApp && t.head.isLambda

/-- No variables or meta-variables, bound or free. -/
def isGround (t : Term) : Bool := t.free.isEmpty && t.bound.isEmpty

/-- No free variables or meta-variables. -/
def isClosed (t : Term) : Bool := t.free.isEmpty

mutual

/-- First-order apart from the type of the term itself. -/
def hasFirstOrderShape : Term → Bool
  | literal _ => true
  | const c => c.ty.order ≤ 1
  | var _ => true
  | lambda _ _ => false
  | app head args => head.isConstant && head.hasFirstOrderShape && areFirstOrder args
  | metaApp z _ => z.arity == 0

def areFirstOrder : List Term → Bool
  | [] => true
  | t :: ts => t.ty.isBase && t.hasFirstOrderShape && areFirstOrder ts

end

/-- Of base type, without abstractions and applied variables, and with arguments of base type
throughout. -/
def isFirstOrder (t : Term) : Bool := t.ty.isBase && t.hasFirstOrderShape

/-- The terms are binder variables, no two of them equal, and none is among those seen. -/
def areDistinctBinders (seen : List Var) : List Term → Bool
  | [] => true
  | t :: ts =>
    match t.binder? with
    | some x => !seen.contains x && areDistinctBinders (x :: seen) ts
    | none => false

mutual

/-- The first meta-application whose arguments are not distinct binder variables. -/
def nonPattern? : Term → Option Term
  | literal _ => none
  | const _ => none
  | var _ => none
  | lambda _ body => body.nonPattern?
  | app head args => head.nonPattern?.or (nonPatternIn? args)
  | metaApp z args => if areDistinctBinders [] args then none else some (metaApp z args)

def nonPatternIn? : List Term → Option Term
  | [] => none
  | t :: ts => t.nonPattern?.or (nonPatternIn? ts)

end

/-- Every meta-variable is applied to distinct binder variables. -/
def isPattern (t : Term) : Bool := t.nonPattern?.isNone

mutual

/-- No abstractions, and no meta-variables with arguments. -/
def isApplicative : Term → Bool
  | literal _ => true
  | const _ => true
  | var _ => true
  | lambda _ _ => false
  | app head args => head.isApplicative && areApplicative args
  | metaApp z _ => z.arity == 0

def areApplicative : List Term → Bool
  | [] => true
  | t :: ts => t.isApplicative && areApplicative ts

end

/-- The predicates by name. -/
inductive Kind where
  | literal | constant | variable | lambda | app | metaApp
  | varTerm | functional | betaRedex
  | ground | closed | firstOrder | pattern | applicative
deriving DecidableEq

def Kind.all : List Kind :=
  [.literal, .constant, .variable, .lambda, .app, .metaApp, .varTerm, .functional, .betaRedex,
    .ground, .closed, .firstOrder, .pattern, .applicative]

def hasKind (t : Term) : Kind → Bool
  | .literal => t.isLiteral
  | .constant => t.isConstant
  | .variable => t.isVariable
  | .lambda => t.isLambda
  | .app => t.isApp
  | .metaApp => t.isMetaApp
  | .varTerm => t.isVarTerm
  | .functional => t.isFunctional
  | .betaRedex => t.isBetaRedex
  | .ground => t.isGround
  | .closed => t.isClosed
  | .firstOrder => t.isFirstOrder
  | .pattern => t.isPattern
  | .applicative => t.isApplicative

/-- The kinds that a term has, in the order of their listing. -/
def kinds (t : Term) : List Kind := Kind.all.filter t.hasKind

end TermAlgebra.Term
