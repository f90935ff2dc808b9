import TermAlgebra.Query.Symbols
import TermAlgebra.Term.Matching
import TermAlgebra.Term.Subterm
import TermAlgebra.Term.Unification

/-!
# Queries

Commands with resolved names, and their answers. A declaration extends the symbols; whatever
fails leaves them as they were.
-/

namespace TermAlgebra

open TermAlgebra.Language (Expr Command)

inductive Query where
  | matching (pattern object : Term)
  | unify (s t : Term)
  | alpha (s t : Term)
  | subst (t : Term) (σ : Subst)
  | positions (t : Term)

namespace Query

def text : Query → Option String
  | matching p o => return s!"match {← p.text} with {← o.text}"
  | unify s t => return s!"unify {← s.text} with {← t.text}"
  | alpha s t => return s!"alpha {← s.text} with {← t.text}"
  | subst t σ => return s!"subst {← t.text} {← σ.text}"
  | positions t => return s!"positions {← t.text}"

/-- Errors of the term algebra. -/
inductive AlgebraError where
  | type (e : TypeError)
  | index (e : IndexError)
  | pattern (e : PatternRequired)
  /-- What is to be printed has no text. -/
  | textless

def AlgebraError.message : AlgebraError → Option String
  | type e => e.message
  | index e => e.message
  | pattern e => e.message
  | textless => none

/-- A line, if it has a text. -/
def line (text : Option String) : Except AlgebraError String :=
  text.elim (throw .textless) pure

/-- The lines of the answer. A pattern outside the fragment is an error, and no match or no
unifier is an answer. -/
def answer [Supply] [I : Iteration] : Query → ExceptT AlgebraError Fresh (List String)
  | matching p o => do
    match ← p.matchTerm o with
    | .ok (.success σ) => return [← line σ.text]
    | .ok (.failure m) => return [← line (m.message.map ("no match: " ++ ·))]
    | .error e => throw (.pattern e)
  | unify s t => do
    match ← s.unify t with
    | some σ => return [← line σ.text]
    | none => return ["no unifier"]
  | alpha s t => return [if s.alphaEquals t then "true" else "false"]
  | subst t σ => return [← line (← t.subst σ).text]
  | positions t =>
    t.positions.mapM fun p =>
      match t.subtermAt p with
      | .ok s => line (s.text.map fun text => s!"{p}: {text}")
      | .error e => throw (.index e)

/-- Resolving commands one after the other; an error keeps the symbols of its time. -/
abbrev Scoping := ExceptT ResolveError (StateT Symbols Fresh)

namespace Scoping

def resolve {α : Type} (m : Resolve α) : Scoping α := ExceptT.mk (StateT.lift m.run)

def declare (name : String) (sym : Symbol) : Scoping Unit := do
  match (← get).declare name sym with
  | .ok s => set s
  | .error e => throw (.scope e)

def term [Supply] (t : Expr) : Scoping Term := do resolve ((← get).term t)

/-- The variable or meta-variable that an image is given for. -/
def key (name : String) : Scoping Replaceable := do
  match (← get).get? name with
  | some (.var x) => return .var x
  | some (.metaVar z) => return .metaVar z
  | some (.const _) => throw (.scope (.notReplaceable name))
  | none => throw (.scope (.undeclared name))

/-- The last image of a name counts. -/
def images [Supply] (σ : Subst) : List (String × Expr) → Scoping Subst
  | [] => return σ
  | (name, t) :: rest => do
    let r ← key name
    let t ← term t
    match σ.insert r t with
    | .ok σ => images σ rest
    | .error e => throw (.type e)

end Scoping

/-- Resolves a command; a declaration gives no query. -/
def ofCommand [Supply] : Command → Scoping (Option Query)
  | .const c ty => do
    Scoping.declare c (.const { name := c, ty })
    return none
  | .var x ty => do
    let v ← Scoping.resolve (Var.make x ty false)
    Scoping.declare x (.var v)
    return none
  | .metaVar z inputs output => do
    let w ← Scoping.resolve (MetaVar.make z inputs output)
    Scoping.declare z (.metaVar w)
    return none
  | .matching p o => do
    let p ← Scoping.term p
    return some (.matching p (← Scoping.term o))
  | .unify s t => do
    let s ← Scoping.term s
    return some (.unify s (← Scoping.term t))
  | .alpha s t => do
    let s ← Scoping.term s
    return some (.alpha s (← Scoping.term t))
  | .subst t images => do
    let t ← Scoping.term t
    return some (.subst t (← Scoping.images ∅ images))
  | .positions t => return some (.positions (← Scoping.term t))

end Query

end TermAlgebra
