import TermAlgebra.Fresh
import TermAlgebra.SimpleType

/-!
# Variables and meta-variables

Every variable has an identifier of its own, drawn when it is made. The order goes by identifier
first; the other components only make it total on all values. The orders are lawful: they are
transitive, and only equal values compare as equal.
-/

namespace TermAlgebra

/-- A binder is made to be bound by an abstraction, a plain variable occurs only free. -/
structure Var where
  id : Nat
  name : String
  ty : SimpleType
  binder : Bool
deriving DecidableEq

namespace Var

def make [Supply] (name : String) (ty : SimpleType) (binder : Bool) : Fresh Var :=
  return ⟨← Fresh.draw, name, ty, binder⟩

/-- A variable of the same name, type and kind with an identifier of its own. -/
def freshCopy [Supply] (x : Var) : Fresh Var := make x.name x.ty x.binder

def cmp : Var → Var → Ordering :=
  compareLex (compareOn id) (compareLex (compareOn binder) (compareLex (compareOn ty) (compareOn name)))

instance : Ord Var := ⟨cmp⟩

instance : Std.TransOrd Var :=
  inferInstanceAs (Std.TransCmp
    (compareLex (compareOn id) (compareLex (compareOn binder)
      (compareLex (compareOn ty) (compareOn name)))))

theorem eq_of_cmp {x y : Var} (h : cmp x y = .eq) : x = y := by
  rcases x with ⟨i, s, σ, b⟩
  rcases y with ⟨j, t, τ, c⟩
  simp only [cmp, compareLex_eq_eq, compareOn, Std.LawfulEqCmp.compare_eq_iff_eq] at h
  obtain ⟨rfl, rfl, rfl, rfl⟩ := h
  rfl

instance : Std.LawfulEqOrd Var where
  eq_of_compare := eq_of_cmp

end Var

/-- A meta-variable of inputs `σ₁, …, σₖ` and output `τ` stands for a term with `k` holes. -/
structure MetaVar where
  id : Nat
  name : String
  inputs : List SimpleType
  output : SimpleType
deriving DecidableEq

namespace MetaVar

def make [Supply] (name : String) (inputs : List SimpleType) (output : SimpleType) :
    Fresh MetaVar :=
  return ⟨← Fresh.draw, name, inputs, output⟩

def arity (z : MetaVar) : Nat := z.inputs.length

/-- The type of the terms that a meta-variable stands for. -/
def ty (z : MetaVar) : SimpleType := .arrows z.inputs z.output

def cmp : MetaVar → MetaVar → Ordering :=
  compareLex (compareOn id)
    (compareLex (compareOn inputs) (compareLex (compareOn output) (compareOn name)))

instance : Ord MetaVar := ⟨cmp⟩

instance : Std.TransOrd MetaVar :=
  inferInstanceAs (Std.TransCmp
    (compareLex (compareOn id) (compareLex (compareOn inputs)
      (compareLex (compareOn output) (compareOn name)))))

theorem eq_of_cmp {z w : MetaVar} (h : cmp z w = .eq) : z = w := by
  rcases z with ⟨i, s, σs, σ⟩
  rcases w with ⟨j, t, τs, τ⟩
  simp only [cmp, compareLex_eq_eq, compareOn, Std.LawfulEqCmp.compare_eq_iff_eq] at h
  obtain ⟨rfl, rfl, rfl, rfl⟩ := h
  rfl

instance : Std.LawfulEqOrd MetaVar where
  eq_of_compare := eq_of_cmp

end MetaVar

/-- What a substitution can affect. -/
inductive Replaceable where
  | var (x : Var)
  | metaVar (z : MetaVar)
deriving DecidableEq

namespace Replaceable

def id : Replaceable → Nat
  | var x => x.id
  | metaVar z => z.id

def name : Replaceable → String
  | var x => x.name
  | metaVar z => z.name

/-- The type of the terms that may take its place. -/
def ty : Replaceable → SimpleType
  | var x => x.ty
  | metaVar z => z.ty

/-- The number of holes; none for a variable. -/
def arity : Replaceable → Nat
  | var _ => 0
  | metaVar z => z.arity

def binder? : Replaceable → Option Var
  | var x => if x.binder then some x else none
  | metaVar _ => none

def var? : Replaceable → Option Var
  | var x => some x
  | metaVar _ => none

/-- Variables come before meta-variables. -/
def cmp : Replaceable → Replaceable → Ordering
  | var x, var y => compare x y
  | var _, metaVar _ => .lt
  | metaVar _, var _ => .gt
  | metaVar z, metaVar w => compare z w

instance : Ord Replaceable := ⟨cmp⟩

theorem cmp_swap (r s : Replaceable) : cmp r s = (cmp s r).swap := by
  cases r <;> cases s
  · exact Std.OrientedOrd.eq_swap
  · rfl
  · rfl
  · exact Std.OrientedOrd.eq_swap

theorem cmp_isLE_trans {r s t : Replaceable} (h₁ : (cmp r s).isLE) (h₂ : (cmp s t).isLE) :
    (cmp r t).isLE :=
  match r, s, t with
  | var _, var _, var _ => Std.TransOrd.isLE_trans h₁ h₂
  | metaVar _, metaVar _, metaVar _ => Std.TransOrd.isLE_trans h₁ h₂
  | var _, _, metaVar _ => rfl
  | var _, metaVar _, var _ => nomatch h₂
  | metaVar _, metaVar _, var _ => nomatch h₂
  | metaVar _, var _, _ => nomatch h₁

instance : Std.TransOrd Replaceable where
  eq_swap := cmp_swap _ _
  isLE_trans := cmp_isLE_trans

theorem eq_of_cmp {r s : Replaceable} (h : cmp r s = .eq) : r = s := by
  cases r <;> cases s <;> simp_all [cmp]

instance : Std.LawfulEqOrd Replaceable where
  compare_self {r} := by cases r <;> exact Std.compare_self
  eq_of_compare := eq_of_cmp

end Replaceable

end TermAlgebra
