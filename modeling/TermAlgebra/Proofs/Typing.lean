import TermAlgebra.Term.WellFormed

/-!
# Types of applications

An application is typed by the arrows of its head. Main statement: a head fits its arguments when
its type is made of their types and the type of the application.
-/

namespace TermAlgebra

namespace SimpleType

theorem inputs_arrows (σs : List SimpleType) (τ : SimpleType) :
    (arrows σs τ).inputs = σs ++ τ.inputs := by
  induction σs with
  | nil => rfl
  | cons σ σs ih =>
    change σ :: (arrows σs τ).inputs = _
    rw [ih, List.cons_append]

theorem arrows_append (σs τs : List SimpleType) (τ : SimpleType) :
    arrows (σs ++ τs) τ = arrows σs (arrows τs τ) := by
  unfold arrows
  rw [List.foldr_append]

theorem exists_arrows_of_take (τ : SimpleType) (n : Nat) :
    ∃ τ', τ = arrows (τ.inputs.take n) τ' := by
  refine ⟨arrows (τ.inputs.drop n) τ.output, ?_⟩
  rw [← arrows_append, List.take_append_drop, arrows_inputs_output]

end SimpleType

namespace Term

open SimpleType

theorem fits_iff {σ : SimpleType} {args : List Term} :
    args.map ty = σ.inputs.take args.length ↔ ∃ τ, σ = arrows (args.map ty) τ := by
  constructor
  · intro h
    obtain ⟨τ, hτ⟩ := exists_arrows_of_take σ args.length
    exact ⟨τ, h ▸ hτ⟩
  · rintro ⟨τ, rfl⟩
    have hlen : args.length = (args.map ty).length := (List.length_map ty).symm
    rw [inputs_arrows, hlen, List.take_left]

theorem ty_app {head : Term} {args : List Term} {τ : SimpleType}
    (h : head.ty = arrows (args.map ty) τ) : (app head args).ty = τ := by
  have hdrop := dropInputs_arrows (args.map ty) τ
  rw [List.length_map] at hdrop
  rw [ty, h, hdrop]
  rfl

/-- The type of the head, read off a well-formed application. -/
theorem WellFormed.head_ty {head : Term} {args : List Term}
    (h : WellFormed (Term.app head args)) :
    head.ty = arrows (args.map Term.ty) (Term.app head args).ty := by
  cases h with
  | app _ _ fits =>
    obtain ⟨τ, hτ⟩ := fits_iff.mp fits
    rw [ty_app hτ]
    exact hτ

theorem WellFormed.head_isApp {t : Term} (h : t.WellFormed) : t.head.isApp = false := by
  cases h with
  | app flat => exact flat
  | _ => rfl

theorem WellFormed.head {t : Term} (h : t.WellFormed) : t.head.WellFormed := by
  cases h with
  | app _ _ _ wf => exact wf
  | literal v => exact .literal v
  | const c => exact .const c
  | var x => exact .var x
  | lambda binder once wf => exact .lambda binder once wf
  | metaApp fits wf apart => exact .metaApp fits wf apart

theorem WellFormed.args {t : Term} (h : t.WellFormed) : ∀ s ∈ t.args, s.WellFormed := by
  cases h with
  | app _ _ _ _ argsWf => exact argsWf
  | _ => simp [Term.args]

theorem WellFormed.body {x : Var} {body : Term} (h : (Term.lambda x body).WellFormed) :
    body.WellFormed := by
  cases h
  assumption

theorem WellFormed.metaArgs {z : MetaVar} {args : List Term}
    (h : (Term.metaApp z args).WellFormed) : ∀ s ∈ args, s.WellFormed := by
  cases h
  assumption

/-- The head of any well-formed term takes its arguments to the type of the term. -/
theorem WellFormed.ty_head {t : Term} (h : t.WellFormed) :
    t.head.ty = arrows (t.args.map ty) t.ty := by
  cases t with
  | app head args => exact h.head_ty
  | _ => rfl

/-- Only binders are bound. -/
theorem WellFormed.binder_of_bound {t : Term} (h : t.WellFormed) {x : Var} (hx : x ∈ t.bound) :
    x.binder := by
  induction h with
  | literal v => simp at hx
  | const c => simp at hx
  | var y => simp at hx
  | lambda binder _ _ ih =>
    rw [bound_lambda, OrderedSet.mem_insert] at hx
    rcases hx with rfl | hx
    · exact binder
    · exact ih hx
  | app _ _ _ _ _ _ ih ihs =>
    rw [bound_app, OrderedSet.mem_union, mem_boundAll] at hx
    rcases hx with hx | ⟨t, ht, hx⟩
    · exact ih hx
    · exact ihs t ht hx
  | metaApp _ _ _ ihs =>
    rw [bound_metaApp, mem_boundAll] at hx
    obtain ⟨t, ht, hx⟩ := hx
    exact ihs t ht hx

end Term

end TermAlgebra
