import TermAlgebra.Position
import TermAlgebra.Term.Build

/-!
# Subterms by position

The subterm at a position, the list of all positions, and replacement. If the head of an
application is an abstraction or a meta-application, the steps into a body and into arguments of
a meta-application lead into the head.
-/

namespace TermAlgebra

/-- Access to a position that is not there. -/
structure IndexError where
  position : String
  term : Term

def IndexError.message (e : IndexError) : Option String :=
  e.term.text.map fun text => s!"position {e.position} does not exist in {text}"

inductive ReplaceError where
  | index (e : IndexError)
  | type (e : TypeError)

namespace Term

/-- Element of a list at an index that is counted from one. -/
def nth? (ts : List Term) : Nat → Option Term
  | 0 => none
  | i + 1 => ts[i]?

def child? (t : Term) : Step → Option Term
  | .arg i => nth? t.args i
  | .body => t.head.lambda?.map Prod.snd
  | .metaArg i => nth? t.metaArgs i

/-- The subterm that a path leads to. -/
def descend? (t : Term) (steps : List Step) : Option Term := steps.foldlM child? t

def subtermAt (t : Term) (p : Position) : Except IndexError Term :=
  match t.descend? p.steps with
  | some s => return s
  | none => throw ⟨p.text, t⟩

mutual

/-- The paths to all subterms, those inside a subterm before the subterm itself: first inside
the head, then from argument to argument. -/
def paths : Term → List (List Step)
  | literal _ => [[]]
  | const _ => [[]]
  | var _ => [[]]
  | lambda _ body => body.paths.map (.body :: ·) ++ [[]]
  | app head args => pathsInHead head ++ pathsInAll .arg 1 args ++ [[]]
  | metaApp _ args => pathsInAll .metaArg 1 args ++ [[]]

/-- The paths that lead into the body or the arguments of a head. -/
def pathsInHead : Term → List (List Step)
  | lambda _ body => body.paths.map (.body :: ·)
  | metaApp _ args => pathsInAll .metaArg 1 args
  | _ => []

/-- The paths that lead into terms reached by numbered steps. -/
def pathsInAll (step : Nat → Step) (i : Nat) : List Term → List (List Step)
  | [] => []
  | t :: ts => t.paths.map (step i :: ·) ++ pathsInAll step (i + 1) ts

end

/-- All positions, every one after those inside it; the root is the last. -/
def positions (t : Term) : List Position := t.paths.map Position.mk

/-- Puts a step in front of the path of a head position. -/
def underStep (step : Step) (p : List Step × Nat) : List Step × Nat := (step :: p.1, p.2)

mutual

/-- Paths and chop counts of all head subterms: first those inside the head, then the head
itself, then for every argument those inside it and the part that ends with it. -/
def headPaths : Term → List (List Step × Nat)
  | literal _ => [([], 0)]
  | const _ => [([], 0)]
  | var _ => [([], 0)]
  | lambda _ body => body.headPaths.map (underStep .body) ++ [([], 0)]
  | app head args => headPathsInHead head ++ ([], args.length) :: headPathsInArgs 1 args
  | metaApp _ args => headPathsInAll 1 args ++ [([], 0)]

def headPathsInHead : Term → List (List Step × Nat)
  | lambda _ body => body.headPaths.map (underStep .body)
  | metaApp _ args => headPathsInAll 1 args
  | _ => []

/-- Head subterms inside the arguments of a meta-application. -/
def headPathsInAll (i : Nat) : List Term → List (List Step × Nat)
  | [] => []
  | t :: ts => t.headPaths.map (underStep (.metaArg i)) ++ headPathsInAll (i + 1) ts

/-- Head subterms inside the arguments of an application, each argument followed by the part of
the application that ends with it. -/
def headPathsInArgs (i : Nat) : List Term → List (List Step × Nat)
  | [] => []
  | t :: ts => t.headPaths.map (underStep (.arg i)) ++ ([], ts.length) :: headPathsInArgs (i + 1) ts

end

def headPositions (t : Term) : List HeadPosition := t.headPaths.map fun p => ⟨⟨p.1⟩, p.2⟩

/-- Changes the element at an index that is counted from one. -/
def updateNth (f : Term → Fresh Term) : List Term → Nat → Fresh (List Term)
  | t :: ts, 1 => return (← f t) :: ts
  | t :: ts, i + 2 => return t :: (← updateNth f ts (i + 1))
  | ts, _ => return ts

/-- Puts a term at the end of a path and builds the terms around it anew. -/
def replaceSteps [Supply] (new : Term) : List Step → Term → Fresh Term
  | [], _ => return new
  | step :: steps, t =>
    match step, t.head with
    | .arg i, head => do
      let args ← updateNth (replaceSteps new steps) t.args i
      mkApp head args
    | .body, lambda x body => do
      let head ← mkLambda x (← replaceSteps new steps body)
      mkApp head t.args
    | .metaArg i, metaApp z args => do
      let head ← mkMetaApp z (← updateNth (replaceSteps new steps) args i)
      mkApp head t.args
    | _, _ => return t

/-- Replaces the subterm at a position by a term of its type. -/
def replaceAt [Supply] (t : Term) (p : Position) (new : Term) :
    ExceptT ReplaceError Fresh Term := do
  let old ← (t.subtermAt p).mapError ReplaceError.index
  if old.ty ≠ new.ty then throw (.type (.mismatch old.ty new.ty))
  replaceSteps new p.steps t

/-- The subterm at a head position and the number of its arguments to keep. -/
def headSplit (t : Term) (h : HeadPosition) : Except IndexError (Term × Nat) := do
  let s ← t.subtermAt h.position
  if s.args.length < h.chop then throw ⟨h.text, t⟩
  return (s, s.args.length - h.chop)

def headSubtermAt (t : Term) (h : HeadPosition) : Except IndexError Term := do
  let (s, keep) ← t.headSplit h
  return s.headPart keep

/-- Replaces a head subterm by a term of its type, which takes over the arguments that the head
position disregards. -/
def replaceHeadAt [Supply] (t : Term) (h : HeadPosition) (new : Term) :
    ExceptT ReplaceError Fresh Term := do
  let (s, keep) ← (t.headSplit h).mapError ReplaceError.index
  let chopped := s.args.drop keep
  let expected := SimpleType.arrows (chopped.map ty) s.ty
  if expected ≠ new.ty then throw (.type (.mismatch expected new.ty))
  replaceSteps (← new.mkApp chopped) h.position.steps t

/-- The term `h(t₁, …, tᵢ)` for `h(t₁, …, tₙ)` with `i ≤ n`. -/
def headSubterm (t : Term) (i : Nat) : Except IndexError Term :=
  if t.args.length < i then throw ⟨toString i, t⟩ else return t.headPart i

end Term

end TermAlgebra
