import TermAlgebra.Term.Alpha
import TermAlgebra.Term.Substitution

/-!
# Unification

Syntactic unification of terms up to alpha-equivalence. Free variables and meta-variables without
arguments are solved, meta-variables with arguments are rigid, and applications are compared
from their last arguments, so `X(a)` and `f(b, a)` unify with `X := f(b)`.

A problem is solved in phases that end when a variable is bound. Within a phase every step makes
the problem smaller, and no variable is bound twice.
-/

namespace TermAlgebra

namespace Term

/-- The replaceable if the term consists only of one that unification may bind. -/
def flexible? : Term → Option Replaceable
  | var x => if x.binder then none else some (.var x)
  | metaApp z [] => some (.metaVar z)
  | _ => none

end Term

/-- Equations under a substitution, the next one first, and the binders that were made to compare
bodies of abstractions. -/
structure Unifier where
  subst : Subst
  locals : List Var
  equations : List (Term × Term)

namespace Unifier

inductive Progress where
  | solved
  | clash
  /-- An equation was dropped or taken apart. -/
  | simpler (u : Unifier)
  /-- A variable got its image. -/
  | bound (u : Unifier)

/-- Replaces `r` in the image of another key, if the image contains it. -/
def updateImage [Supply] (r : Replaceable) (t image : Term) : Fresh Term :=
  if image.free.contains r then image.subst (Subst.set ∅ r t) else return image

/-- Replaces `r` in all images, one after the other. -/
def updateImages [Supply] (r : Replaceable) (t : Term) :
    List (Replaceable × Term) → Fresh (List (Replaceable × Term))
  | [] => return []
  | (k, image) :: es => do
    let image ← updateImage r t image
    return (k, image) :: (← updateImages r t es)

/-- Binds `r` to a term unless it occurs there, or a local variable does. The images are updated in
the order of iteration. No run binds under one substitution twice (`subst_ne_of_bound`), so that the
order may be chosen anew whenever a variable is bound. -/
def bind [Supply] [I : Iteration] (u : Unifier) (r : Replaceable) (t : Term) : Fresh Progress := do
  if t.free.contains r then return .clash
  else if t.freeVars.any u.locals.contains then return .clash
  else
    let images ← updateImages r t u.subst.iterate
    return .bound { u with subst := (u.subst.overwrite images).set r t }

/-- Replaces an equation between rigid terms by equations between their parts. -/
def decompose [Supply] (u : Unifier) (s t : Term) : Fresh Progress :=
  match s, t with
  | .lambda x s, .lambda y t => do
    let z ← x.freshCopy
    let s ← s.renameVar x z
    let t ← t.renameVar y z
    return .simpler { u with locals := z :: u.locals, equations := (s, t) :: u.equations }
  | .metaApp z ss, .metaApp w ts =>
    if z = w then
      return .simpler { u with equations := (ss.zip ts).reverse ++ u.equations }
    else return .clash
  | s, t =>
    let (n, m) := (s.args.length, t.args.length)
    let k := min n m
    if k = 0 then return .clash
    else
      let heads := (s.headPart (n - k), t.headPart (m - k))
      let pairs := (s.args.drop (n - k)).zip (t.args.drop (m - k))
      return .simpler { u with equations := pairs.reverse ++ heads :: u.equations }

/-- Takes the next equation. -/
def step [Supply] [I : Iteration] (u : Unifier) : Fresh Progress :=
  match u.equations with
  | [] => return .solved
  | (s, t) :: equations => do
    let u := { u with equations }
    let s ← s.subst u.subst
    let t ← t.subst u.subst
    if s.ty ≠ t.ty then return .clash
    else if s.alphaEquals t then return .simpler u
    else match s.flexible?, t.flexible? with
      | some r, _ => u.bind r t
      | none, some r => u.bind r s
      | none, none => u.decompose s t

/-- The sizes of both sides of all equations. -/
def equationsSize : List (Term × Term) → Nat
  | [] => 0
  | (s, t) :: es => s.size + t.size + equationsSize es

/-- The size of the greatest image. -/
def imageSize : List (Replaceable × Term) → Nat
  | [] => 0
  | (_, t) :: es => max t.size (imageSize es)

/-- A bound on the steps of a phase: an image that comes into an equation takes the place of a
part of size one at least. -/
def weight (u : Unifier) : Nat :=
  equationsSize u.equations * (1 + imageSize u.subst.entries) + 1

inductive Verdict where
  | unifier (σ : Subst)
  | clash
  /-- The bound on the steps was too low. -/
  | exhausted

/-- Takes at most the given number of steps before `next` gets the problem with one more
variable bound. -/
def phase [Supply] [I : Iteration] (next : Unifier → Fresh Verdict) : Nat → Unifier → Fresh Verdict
  | 0, _ => return .exhausted
  | steps + 1, u => do
    match ← u.step with
    | .solved => return .unifier u.subst
    | .clash => return .clash
    | .simpler u => phase next steps u
    | .bound u => next u

/-- Solves a problem, binding at most the given number of variables. -/
def solve [Supply] [I : Iteration] : Nat → Unifier → Fresh Verdict
  | 0, u => phase (fun _ => return .exhausted) u.weight u
  | bindings + 1, u => phase (solve bindings) u.weight u

def Verdict.subst? : Verdict → Option Subst
  | unifier σ => some σ
  | _ => none

end Unifier

/-- A most general substitution that makes the terms equal up to bound variables. -/
def Term.unify [Supply] [I : Iteration] (s t : Term) : Fresh (Option Subst) :=
  Unifier.Verdict.subst? <$> Unifier.solve (s.free ∪ t.free).size ⟨∅, [], [(s, t)]⟩

end TermAlgebra
