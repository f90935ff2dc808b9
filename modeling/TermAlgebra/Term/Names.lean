import TermAlgebra.Term.Basic

/-!
# Printed names

Variables are printed by their names. Distinct variables of one name that are printed together
are told apart by suffixes `__1`, `__2`, …, and no variable takes the name of a constant that is
printed with it. Names are given in the order of first occurrence.
-/

namespace TermAlgebra

namespace Term

mutual

/-- Identifier and name of every variable and meta-variable, from left to right, a binder
before the body. -/
def labels : Term → List (Nat × String)
  | literal _ => []
  | const _ => []
  | var x => [(x.id, x.name)]
  | lambda x body => (x.id, x.name) :: body.labels
  | app head args => head.labels ++ labelsAll args
  | metaApp z args => (z.id, z.name) :: labelsAll args

def labelsAll : List Term → List (Nat × String)
  | [] => []
  | t :: ts => t.labels ++ labelsAll ts

end

mutual

/-- The names of the constants that occur. -/
def constantNames : Term → List String
  | literal _ => []
  | const c => [c.name]
  | var _ => []
  | lambda _ body => body.constantNames
  | app head args => head.constantNames ++ constantNamesAll args
  | metaApp _ args => constantNamesAll args

def constantNamesAll : List Term → List String
  | [] => []
  | t :: ts => t.constantNames ++ constantNamesAll ts

end

end Term

/-- Printed names by identifier. -/
structure Names where
  entries : List (Nat × String)

namespace Names

/-- The name itself, then the name with suffixes `__1`, `__2`, …. -/
def candidate (name : String) (i : Nat) : String :=
  if i = 0 then name else name ++ "__" ++ toString i

/-- The first candidate that is not taken; among one candidate more than there are taken names,
one is free. -/
def unused (taken : List String) (name : String) : String :=
  let free := (List.range (taken.length + 1)).find? fun i => !taken.contains (candidate name i)
  (free.map (candidate name)).getD name

def get? (names : Names) (id : Nat) : Option String := names.entries.lookup id

/-- The printed name, or the given one for an identifier without an entry. -/
def get (names : Names) (id : Nat) (name : String) : String := (names.get? id).getD name

/-- Gives a name to the identifier unless it has one. -/
def add (state : Names × List String) (label : Nat × String) : Names × List String :=
  match state.1.get? label.1 with
  | some _ => state
  | none =>
    let name := unused state.2 label.2
    (⟨state.1.entries ++ [(label.1, name)]⟩, name :: state.2)

/-- Names for labels in their order, away from the taken names. -/
def assign (taken : List String) (labels : List (Nat × String)) : Names :=
  (labels.foldl add (⟨[]⟩, taken)).1

/-- Names for the given labels first, then for the labels in the terms. -/
def ofTerms (labels : List (Nat × String)) (ts : List Term) : Names :=
  assign (Term.constantNamesAll ts) (labels ++ Term.labelsAll ts)

def ofTerm (t : Term) : Names := ofTerms [] [t]

end Names

end TermAlgebra
