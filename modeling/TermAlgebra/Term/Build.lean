import TermAlgebra.Term.Rename
import TermAlgebra.Term.TypeError

/-!
# Building terms

Terms are built bottom-up. The builders keep free and bound variables of every term apart, and
no abstraction binds a variable that its body binds again: where they would clash, binders of
the parts get fresh copies.
-/

namespace TermAlgebra.Term

/-- Fresh binders if some of them is among the given variables. -/
def refreshAgainst [Supply] (taken : OrderedSet Var) (t : Term) : Fresh Term :=
  if t.bound.intersects taken then t.refreshBinders else pure t

/-- The binder variables that occur free in some term of a list. -/
def freeBinders (ts : List Term) : OrderedSet Var :=
  .ofList ((freeAll ts).toList.filterMap Replaceable.binder?)

def mkLambda [Supply] (x : Var) (body : Term) : Fresh Term :=
  return lambda x (← if body.bound.contains x then body.refreshBinders else pure body)

/-- Appends arguments to a term; the head and all arguments are kept apart. -/
def mkApp [Supply] (t : Term) (args : List Term) : Fresh Term :=
  if args.isEmpty then return t
  else do
    let all := t.args ++ args
    let taken := freeBinders (t.head :: all)
    let head ← t.head.refreshAgainst taken
    return app head (← all.mapM (refreshAgainst taken))

def mkMetaApp [Supply] (z : MetaVar) (args : List Term) : Fresh Term :=
  return metaApp z (← args.mapM (refreshAgainst (freeBinders args)))

/-- Building a term draws identifiers and may violate typing. -/
abbrev Build := ExceptT TypeError Fresh

/-- The abstraction `λx.body`. -/
def abstract [Supply] (x : Var) (body : Term) : Build Term :=
  if x.binder then mkLambda x body else throw (.notBinder x)

/-- The abstraction `λx₁ … λxₖ.body`, built from the inside. -/
def abstractAll [Supply] (xs : List Var) (body : Term) : Build Term :=
  xs.reverse.foldlM (fun body x => abstract x body) body

/-- The first argument whose type is not the expected one is an error. -/
def checkArguments : List SimpleType → List Term → Except TypeError Unit
  | σ :: σs, t :: ts => if t.ty = σ then checkArguments σs ts else throw (.argumentType σ t)
  | _, _ => return

/-- Applies a term to arguments, which go behind those it has already. -/
def apply [Supply] (t : Term) (args : List Term) : Build Term := do
  if t.ty.arity < args.length then
    throw (.tooManyArguments t.head (t.args.length + args.length))
  checkArguments t.ty.inputs args
  t.mkApp args

/-- The meta-application `Z[t₁, …, tₖ]`. -/
def applyMeta [Supply] (z : MetaVar) (args : List Term) : Build Term := do
  if z.arity ≠ args.length then throw (.metaArity z args.length)
  checkArguments z.inputs args
  mkMetaApp z args

end TermAlgebra.Term
