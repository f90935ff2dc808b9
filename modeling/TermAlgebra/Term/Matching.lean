import TermAlgebra.Stack
import TermAlgebra.Term.Alpha
import TermAlgebra.Term.Classify
import TermAlgebra.Term.Substitution

/-!
# Matching

Matching of a higher-order pattern against an object: the substitution is extended until it
instantiates the pattern to the object. While the matcher is below binders, it maps every binder
of the pattern to the binder of the object at the same place.
-/

namespace TermAlgebra

/-- Why a pattern does not match. -/
inductive Mismatch where
  | types (pattern object : Term)
  | differs (pattern object : Term)
  /-- What the pattern has here is mapped to another term already. -/
  | mapped (r : Replaceable) (image object : Term)
  | unboundBinder (x : Var) (object : Term)
  /-- A variable of the object would leave the scope of its binder. -/
  | escapes (x : Var) (object : Term) (y : Var)
  | notLambda (object : Term)
  | fewerArguments (object : Term) (count : Nat)
  /-- A variable of the object that the meta-variable is not applied to. -/
  | dangling (y : Var) (object : Term) (z : MetaVar)

/-- The reason; none if a term in it has no text. -/
def Mismatch.message : Mismatch → Option String
  | types p o => do
    let (pattern, object) := (← p.text, ← o.text)
    return s!"{pattern} : {p.ty} and {object} : {o.ty} differ in type"
  | differs p o => do
    let (pattern, object) := (← p.text, ← o.text)
    return s!"{pattern} differs from {object}"
  | mapped r image o => do
    let (image, object) := (← image.text, ← o.text)
    return s!"{r.name} is mapped to {image}, which differs from {object}"
  | unboundBinder x o => do
    let object ← o.text
    return s!"unbound binder {x.name} differs from {object}"
  | escapes x o y => do
    let object ← o.text
    return s!"{x.name} cannot be mapped to {object}, where {y.name} is bound"
  | notLambda o => do
    let object ← o.text
    return s!"{object} is not an abstraction"
  | fewerArguments o n => do
    let object ← o.text
    return s!"{object} has fewer than {n} arguments"
  | dangling y o z => do
    let object ← o.text
    return s!"{y.name} occurs in {object}, but is not an argument of {z.name}"

/-- Why a meta-application is outside the pattern fragment. -/
inductive Violation where
  | arguments
  | notBinder (arg : Term)
  | notBinderImage (x : Var) (image : Term)
  | repeated (y : Var)
  | dangling (y : Var) (object : Term) (z : MetaVar)

def Violation.message : Violation → Option String
  | arguments => return "meta-variable must be applied to distinct binder variables"
  | notBinder arg => do
    let arg ← arg.text
    return s!"{arg} is not a binder variable"
  | notBinderImage x image => do
    let image ← image.text
    return s!"{x.name} is mapped to non-binder {image}"
  | repeated y => return s!"{y.name} occurs twice as argument"
  | dangling y o z => (Mismatch.dangling y o z).message

/-- A matching problem outside the pattern fragment. -/
structure PatternRequired where
  term : Term
  violation : Violation

def PatternRequired.reason (e : PatternRequired) : Option String := e.violation.message

def PatternRequired.message (e : PatternRequired) : Option String := do
  let (term, reason) := (← e.term.text, ← e.reason)
  return s!"pattern required at {term}: {reason}"

inductive MatchError where
  | mismatch (m : Mismatch)
  | pattern (e : PatternRequired)

/-- Matching extends a substitution and keeps what it has found when it fails. -/
abbrev Matcher := ExceptT MatchError (StateT Subst Fresh)

namespace Matcher

def mismatch {α : Type} (m : Mismatch) : Matcher α := throw (.mismatch m)

def violation {α : Type} (t : Term) (v : Violation) : Matcher α := throw (.pattern ⟨t, v⟩)

/-- Maps `r` to a term while a computation runs; the former image returns in every case. -/
def mapping {α : Type} (r : Replaceable) (t : Term) (m : Matcher α) : Matcher α :=
  ExceptT.mk do
    let former := (← get).get? r
    modify fun σ => σ.set r t
    let result ← ExceptT.run m
    modify fun σ => σ.update r former
    return result

/-- Extends the substitution, or compares with the image that is there. -/
def assign (r : Replaceable) (object : Term) : Matcher Unit := do
  match (← get).get? r with
  | some image => if image.alphaEquals object then return else mismatch (.mapped r image object)
  | none => modify fun σ => σ.set r object

/-- Matches a variable of the pattern below the given binders of the object. -/
def var (scope : Stack Var) (x : Var) (object : Term) : Matcher Unit := do
  if (← get).contains (.var x) then assign (.var x) object
  else if x.binder then
    unless object == .var x do mismatch (.unboundBinder x object)
  else
    match object.freeVars.find? scope.contains with
    | some y => mismatch (.escapes x object y)
    | none => assign (.var x) object

/-- The binders of the object that the arguments of a meta-variable stand for. -/
def binders (pattern : Term) : List Term → List Var → Matcher (List Var)
  | [], images => return images.reverse
  | arg :: args, images => do
    let some x := arg.binder? | violation pattern (.notBinder arg)
    let y ← match (← get).get? (.var x) with
      | none => pure x
      | some image =>
        match image.binder? with
        | some y => pure y
        | none => violation pattern (.notBinderImage x image)
    if images.contains y then violation pattern (.repeated y)
    binders pattern args (y :: images)

/-- Matches a meta-application: its image abstracts the object over what the arguments stand
for, and no other binder may be left in the object. -/
def metaApp [Supply] (scope : Stack Var) (z : MetaVar) (args : List Term) (object : Term) :
    Matcher Unit := do
  let pattern := Term.metaApp z args
  let images ← binders pattern args []
  match object.freeVars.find? fun y => y.binder && !images.contains y with
  | some y =>
    if scope.contains y then mismatch (.dangling y object z)
    else if !args.isEmpty then violation pattern (.dangling y object z)
  | none => pure ()
  let image ← images.reverse.foldlM (fun body y => Term.mkLambda y body) object
  assign (.metaVar z) image

mutual

/-- Matches a pattern below the given binders of the object. Arguments are matched from the last
to the first, and the head against what the object has in front of them. -/
def term [Supply] (scope : Stack Var) (pattern object : Term) : Matcher Unit := do
  if pattern.ty ≠ object.ty then mismatch (.types pattern object)
  match pattern with
  | .literal v => unless object == .literal v do mismatch (.differs (.literal v) object)
  | .const c => unless object == .const c do mismatch (.differs (.const c) object)
  | .var x => var scope x object
  | .lambda x body =>
    match object with
    | .lambda y objectBody =>
      mapping (.var x) (.var y) (term (scope.push y) body objectBody)
    | _ => mismatch (.notLambda object)
  | .app head args =>
    let n := object.args.length
    if n < args.length then mismatch (.fewerArguments object args.length)
    terms scope args (object.args.drop (n - args.length))
    term scope head (object.headPart (n - args.length))
  | .metaApp z args => metaApp scope z args object

def terms [Supply] (scope : Stack Var) : List Term → List Term → Matcher Unit
  | p :: ps, o :: os => do
    terms scope ps os
    term scope p o
  | _, _ => return

end

end Matcher

namespace Term

inductive MatchOutcome (α : Type) where
  | success (a : α)
  | failure (m : Mismatch)

/-- Matches the pattern with an object, starting from a substitution; gives the outcome and the
substitution that is left. -/
def matchWith [Supply] (pattern object : Term) (σ : Subst) :
    Fresh (Except PatternRequired (MatchOutcome Unit) × Subst) := do
  match pattern.nonPattern? with
  | some t => return (throw ⟨t, .arguments⟩, σ)
  | none =>
    match ← StateT.run (ExceptT.run (Matcher.term ∅ pattern object)) σ with
    | (.ok (), σ) => return (return .success (), σ)
    | (.error (.mismatch m), σ) => return (return .failure m, σ)
    | (.error (.pattern e), σ) => return (throw e, σ)

/-- Matches the pattern with an object. -/
def matchTerm [Supply] (pattern object : Term) :
    Fresh (Except PatternRequired (MatchOutcome Subst)) := do
  match ← pattern.matchWith object ∅ with
  | (.ok (.success ()), σ) => return return .success σ
  | (.ok (.failure m), _) => return return .failure m
  | (.error e, _) => return throw e

end Term

end TermAlgebra
