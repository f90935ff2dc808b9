import TermAlgebra.Proofs.MatcherSoundness

/-!
# What a run of the matcher does to the substitution

A relation between substitutions that every single assignment respects, and that passes from the
parts of a pattern to the pattern, holds between the substitutions before and after every run,
whatever its outcome is. Main statement: `Respects.leads_term`.
-/

namespace TermAlgebra.Matcher

open Term

variable {α β : Type} {n : Nat}

/-- Runs from `n` on lead from a sound substitution to a related one, whatever the outcome is. -/
def Leads (n : Nat) (R : Subst → Subst → Prop) (m : Matcher α) : Prop :=
  ∀ σ k, n ≤ k → σ.Sound k → R σ (exec m σ k).1.2

theorem Leads.bind {R : Subst → Subst → Prop} {m : Matcher α} {f : α → Matcher β}
    (htrans : ∀ ρ σ τ, R ρ σ → R σ τ → R ρ τ) (hm : Leads n R m) (hkeep : Keeps n m)
    (hf : ∀ a, Leads n R (f a)) : Leads n R (m >>= f) := by
  intro σ k hk hσ
  have hfirst := hm σ k hk hσ
  obtain ⟨hle, hleft⟩ := hkeep σ k hk hσ
  rw [exec_bind]
  rcases e : exec m σ k with ⟨⟨_ | a, τ⟩, l⟩
  · rw [e] at hfirst
    exact hfirst
  · rw [e] at hfirst hle hleft
    exact htrans _ _ _ hfirst (hf a τ l (Nat.le_trans hk hle) hleft)

/-- An assignment compares with a former image, or puts the object where there was none. -/
theorem exec_assign_cases (r : Replaceable) (object : Term) (σ : Subst) (k : Nat) :
    (exec (assign r object) σ k).1.2 = σ ∨
      σ.get? r = none ∧ (exec (assign r object) σ k).1.2 = σ.set r object := by
  rw [exec_assign]
  cases e : σ.get? r with
  | none => exact Or.inr ⟨rfl, rfl⟩
  | some image =>
    left
    dsimp only
    split <;> rfl

/-- A relation between the substitutions before and after a match, given for every scope, pattern
and object, that each step of the matcher respects. -/
structure Respects (n : Nat) (R : Stack Var → Term → Term → Subst → Subst → Prop) : Prop where
  refl : ∀ scope pattern object σ, R scope pattern object σ σ
  trans : ∀ scope pattern object ρ σ τ, R scope pattern object ρ σ → R scope pattern object σ τ →
    R scope pattern object ρ τ
  setVar : ∀ scope x object σ, Term.Sound n object → x.binder = false → σ.get? (.var x) = none →
    (∀ y, .var y ∈ object.free → scope.contains y = false) →
    R scope (.var x) object σ (σ.set (.var x) object)
  setMeta : ∀ scope z args object σ ys k, Term.Sound n (.metaApp z args) → Term.Sound n object →
    σ.get? (.metaVar z) = none → n ≤ k → (∀ y ∈ ys, y.id < k ∧ y.binder) →
    ys.length = args.length → leaves scope args ys object = false →
    R scope (.metaApp z args) object σ (σ.set (.metaVar z) ((abstractOver ys object).run k).1)
  body : ∀ scope x y body objectBody σ τ, x.binder → y.binder →
    R (scope.push y) body objectBody (σ.set (.var x) (.var y)) τ →
    R scope (.lambda x body) (.lambda y objectBody) σ (τ.update (.var x) (σ.get? (.var x)))
  head : ∀ scope head args object i σ τ, R scope head (object.headPart i) σ τ →
    R scope (.app head args) object σ τ
  arg : ∀ scope head args object p o σ τ, p ∈ args → o ∈ object.args → R scope p o σ τ →
    R scope (.app head args) object σ τ

namespace Respects

variable {R : Stack Var → Term → Term → Subst → Subst → Prop} {scope : Stack Var} {object : Term}

theorem leads_of_same (h : Respects n R) {pattern : Term} {m : Matcher α}
    (hm : ∀ σ k, (exec m σ k).1.2 = σ) : Leads n (R scope pattern object) m := by
  intro σ k _ _
  rw [hm]
  exact h.refl scope pattern object σ

theorem leads_var (h : Respects n R) (x : Var) (hobject : Term.Sound n object) :
    Leads n (R scope (.var x) object) (var scope x object) := by
  intro σ k _ _
  have hsame := h.refl scope (.var x) object σ
  cases hx : σ.get? (.var x) with
  | some image =>
    rw [exec_var_of_some hx]
    rcases exec_assign_cases (.var x) object σ k with e | ⟨hnone, _⟩
    · rw [e]
      exact hsame
    · rw [hx] at hnone
      cases hnone
  | none =>
    cases hbinder : x.binder with
    | true =>
      rw [exec_var_of_binder hx hbinder]
      split <;> exact hsame
    | false =>
      rw [exec_var_of_plain hx hbinder]
      split
      · exact hsame
      · rename_i hfind
        rcases exec_assign_cases (.var x) object σ k with e | ⟨_, e⟩
        · rw [e]
          exact hsame
        · rw [e]
          refine h.setVar scope x object σ hobject hbinder hx fun y hy => ?_
          simpa using List.find?_eq_none.mp hfind y (mem_freeVars.mpr hy)

theorem leads_metaApp (h : Respects n R) {z : MetaVar} {args : List Term}
    (hpattern : Term.Sound n (.metaApp z args)) (hobject : Term.Sound n object) :
    Leads n (R scope (.metaApp z args) object) (metaApp scope z args object) := by
  intro σ k hk hσ
  have hsame := h.refl scope (.metaApp z args) object σ
  rcases exec_metaApp scope z args object σ k with ⟨e, he⟩ | ⟨ys, hys, hleaves, he⟩
  · rw [he]
    exact hsame
  · obtain ⟨hbinders, _⟩ :=
      binderImages_sound hσ (fun s hs => (hpattern.metaApp.2.2 s hs).mono hk) hys
    have hlen : ys.length = args.length := by simpa using (congrArg List.length hys).symm
    rw [he]
    rcases exec_assign_cases (.metaVar z) ((abstractOver ys object).run k).1 σ
      ((abstractOver ys object).run k).2 with e | ⟨hnone, e⟩
    · rw [e]
      exact hsame
    · rw [e]
      exact h.setMeta scope z args object σ ys k hpattern hobject hnone hk hbinders hlen hleaves

theorem leads_lambda (h : Respects n R) {x y : Var} {body objectBody : Term}
    (hpattern : Term.Sound n (.lambda x body)) (hobject : Term.Sound n (.lambda y objectBody))
    (hty : (Term.lambda x body).ty = (Term.lambda y objectBody).ty)
    (ih : Leads n (R (scope.push y) body objectBody) (term (scope.push y) body objectBody)) :
    Leads n (R scope (.lambda x body) (.lambda y objectBody))
      (term scope (.lambda x body) (.lambda y objectBody)) := by
  intro σ k hk hσ
  have hset : (σ.set (.var x) (.var y)).Sound k :=
    sound_set_binder hpattern hobject (binder_ty_eq hty) hk hσ
  rw [exec_term_lambda hty]
  exact h.body scope x y body objectBody σ _ hpattern.lambda.2.1 hobject.lambda.2.1 (ih _ k hk hset)

theorem leads_terms (h : Respects n R) {pattern : Term} {ps os : List Term}
    (hps : ∀ p ∈ ps, Term.Sound n p) (hos : ∀ o ∈ os, Term.Sound n o)
    (hterm : ∀ p ∈ ps, ∀ o ∈ os, Leads n (R scope pattern object) (term scope p o)) :
    Leads n (R scope pattern object) (terms scope ps os) := by
  induction ps generalizing os with
  | nil => exact h.leads_of_same fun σ k => by rw [terms_nil_left, exec_pure]
  | cons p ps ih =>
    cases os with
    | nil => exact h.leads_of_same fun σ k => by rw [terms_nil_right, exec_pure]
    | cons o os =>
      have hrest := @ih os (fun q hq => hps q (by simp [hq]))
        (fun u hu => hos u (by simp [hu])) fun q hq u hu => hterm q (by simp [hq]) u (by simp [hu])
      have hkeep : Keeps n (terms scope ps os) := keeps_terms fun q hq u hu =>
        keeps_term q (hps q (by simp [hq])) (hos u (by simp [hu]))
      intro σ k hk hσ
      rw [exec_terms_cons]
      exact hrest.bind (h.trans scope pattern object) hkeep
        (fun _ => hterm p (by simp) o (by simp)) σ k hk hσ

theorem leads_app (h : Respects n R) {head : Term} {args : List Term}
    (hpattern : Term.Sound n (.app head args)) (hobject : Term.Sound n object)
    (hty : (Term.app head args).ty = object.ty)
    (ih : ∀ i, Leads n (R scope head (object.headPart i)) (term scope head (object.headPart i)))
    (ihs : ∀ p ∈ args, ∀ o ∈ object.args, Leads n (R scope p o) (term scope p o)) :
    Leads n (R scope (.app head args) object) (term scope (.app head args) object) := by
  intro σ k hk hσ
  rw [exec_term_app hty]
  split
  · exact h.refl scope _ object σ
  · -- The arguments run first, the last before the others, and then the head.
    let i := object.args.length - args.length
    have hdrop : ∀ o ∈ object.args.drop i, o ∈ object.args := fun o => List.mem_of_mem_drop
    have hos : ∀ o ∈ object.args.drop i, Term.Sound n o := fun o ho => hobject.args o (hdrop o ho)
    have hargs : Leads n (R scope (.app head args) object) (terms scope args (object.args.drop i)) :=
      h.leads_terms hpattern.args hos fun p hp o ho σ k hk hσ =>
        h.arg scope head args object p o σ _ hp (hdrop o ho) (ihs p hp o (hdrop o ho) σ k hk hσ)
    have hhead : Leads n (R scope (.app head args) object) (term scope head (object.headPart i)) :=
      fun σ k hk hσ => h.head scope head args object i σ _ (ih i σ k hk hσ)
    have hkeep : Keeps n (terms scope args (object.args.drop i)) := keeps_terms fun p hp o ho =>
      keeps_term p (hpattern.args p hp) (hos o ho)
    exact hargs.bind (h.trans scope _ object) hkeep (fun _ => hhead) σ k hk hσ

/-- What every step respects holds of whole runs. -/
theorem leads_term (h : Respects n R) (pattern : Term) (hpattern : Term.Sound n pattern)
    (hobject : Term.Sound n object) :
    Leads n (R scope pattern object) (term scope pattern object) := by
  induction pattern using Term.induction generalizing scope object with
  | literal v =>
    refine h.leads_of_same fun σ k => ?_
    by_cases hty : (Term.literal v).ty = object.ty
    · rw [exec_term_literal hty]
      split <;> rfl
    · rw [exec_term_of_ty_ne hty]
  | const c =>
    refine h.leads_of_same fun σ k => ?_
    by_cases hty : (Term.const c).ty = object.ty
    · rw [exec_term_const hty]
      split <;> rfl
    · rw [exec_term_of_ty_ne hty]
  | var x =>
    by_cases hty : (Term.var x).ty = object.ty
    · intro σ k
      rw [exec_term_var hty]
      exact h.leads_var x hobject σ k
    · exact h.leads_of_same fun σ k => by rw [exec_term_of_ty_ne hty]
  | lambda x body ih =>
    by_cases hty : (Term.lambda x body).ty = object.ty
    · cases object with
      | lambda y objectBody =>
        exact h.leads_lambda hpattern hobject hty (ih hpattern.lambda.2.2 hobject.lambda.2.2)
      | _ => exact h.leads_of_same fun σ k => by rw [exec_term_lambda_of_not hty rfl]
    · exact h.leads_of_same fun σ k => by rw [exec_term_of_ty_ne hty]
  | app head args ih ihs =>
    by_cases hty : (Term.app head args).ty = object.ty
    · exact h.leads_app hpattern hobject hty
        (fun i => ih hpattern.head (headPart_sound hobject i))
        fun p hp o ho => ihs p hp (hpattern.args p hp) (hobject.args o ho)
    · exact h.leads_of_same fun σ k => by rw [exec_term_of_ty_ne hty]
  | metaApp z args _ =>
    by_cases hty : (Term.metaApp z args).ty = object.ty
    · intro σ k
      rw [exec_term_metaApp hty]
      exact h.leads_metaApp hpattern hobject σ k
    · exact h.leads_of_same fun σ k => by rw [exec_term_of_ty_ne hty]

end Respects

end TermAlgebra.Matcher
