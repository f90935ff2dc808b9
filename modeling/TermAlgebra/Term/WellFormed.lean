import TermAlgebra.Term.Classify

/-!
# Well-formed terms

What the builders promise of every node: heads that are no applications, arguments that fit the
type of the head, and binders that are bound once on every path. Main statement: no variable of a
well-formed term is both free and bound.
-/

namespace TermAlgebra.Term

/-- No variable is both free and bound. -/
def Apart (t : Term) : Prop := ∀ x, .var x ∈ t.free → x ∉ t.bound

inductive WellFormed : Term → Prop
  | literal (v : Literal) : WellFormed (literal v)
  | const (c : Constant) : WellFormed (const c)
  | var (x : Var) : WellFormed (var x)
  | lambda {x : Var} {body : Term} (binder : x.binder) (once : x ∉ body.bound)
      (wf : WellFormed body) : WellFormed (lambda x body)
  | app {head : Term} {args : List Term} (flat : head.isApp = false) (nonempty : args ≠ [])
      (fits : args.map ty = head.ty.inputs.take args.length) (wf : WellFormed head)
      (argsWf : ∀ t ∈ args, WellFormed t) (apart : Apart (app head args)) :
      WellFormed (app head args)
  | metaApp {z : MetaVar} {args : List Term} (fits : args.map ty = z.inputs)
      (argsWf : ∀ t ∈ args, WellFormed t) (apart : Apart (metaApp z args)) :
      WellFormed (metaApp z args)

/-- All identifiers of free and bound variables are smaller than the given one. -/
def IdsBelow (n : Nat) (t : Term) : Prop := (∀ r ∈ t.free, r.id < n) ∧ ∀ x ∈ t.bound, x.id < n

theorem WellFormed.isApart {t : Term} (h : WellFormed t) : Apart t := by
  induction h with
  | literal v => simp [Apart]
  | const c => simp [Apart]
  | var y => simp [Apart]
  | @lambda y body _ _ _ ih =>
    intro x hx
    rw [free_lambda, OrderedSet.mem_erase] at hx
    rw [bound_lambda, OrderedSet.mem_insert]
    rintro (rfl | hb)
    · exact hx.1 rfl
    · exact ih x hx.2 hb
  | app _ _ _ _ _ apart => exact apart
  | metaApp _ _ apart => exact apart

end TermAlgebra.Term
