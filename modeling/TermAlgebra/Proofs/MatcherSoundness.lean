import TermAlgebra.Proofs.MatcherRuns
import TermAlgebra.Proofs.Opening
import TermAlgebra.Proofs.Replacement
import TermAlgebra.Proofs.Substitution

/-!
# Matching keeps substitutions well-typed

The matcher puts images into the substitution without a check of their types. Main statement:
`matchWith_sound`, what is left is well-typed in every outcome.
-/

namespace TermAlgebra

theorem Subst.Sound.update {n : Nat} {σ : Subst} (h : σ.Sound n) {r : Replaceable}
    {image : Option Term}
    (himage : ∀ t, image = some t → r.id < n ∧ r.ty = t.ty ∧ Term.Sound n t) :
    (σ.update r image).Sound n := by
  cases image with
  | none => exact h.erase r
  | some t =>
    obtain ⟨hr, hty, ht⟩ := himage t rfl
    exact h.set hr hty ht

namespace Matcher

open Term

variable {α β : Type} {n : Nat}

/-- Runs that start at `n` or later with a sound substitution leave a sound one. -/
def Keeps (n : Nat) (m : Matcher α) : Prop :=
  ∀ σ k, n ≤ k → σ.Sound k → k ≤ (exec m σ k).2 ∧ (exec m σ k).1.2.Sound (exec m σ k).2

theorem keeps_of_same {m : Matcher α} (h : ∀ σ k, ∃ r, exec m σ k = ((r, σ), k)) : Keeps n m := by
  intro σ k _ hσ
  obtain ⟨r, e⟩ := h σ k
  rw [e]
  exact ⟨Nat.le_refl k, hσ⟩

theorem Keeps.bind {m : Matcher α} {f : α → Matcher β} (hm : Keeps n m)
    (hf : ∀ a, Keeps n (f a)) : Keeps n (m >>= f) := by
  intro σ k hk hσ
  have hm' := hm σ k hk hσ
  rw [exec_bind]
  rcases e : exec m σ k with ⟨⟨_ | a, τ⟩, l⟩
  · rw [e] at hm'
    exact hm'
  · rw [e] at hm'
    have hf' := hf a τ l (Nat.le_trans hk hm'.1) hm'.2
    exact ⟨Nat.le_trans hm'.1 hf'.1, hf'.2⟩

theorem keeps_assign {r : Replaceable} {object : Term} (hr : r.id < n) (hty : r.ty = object.ty)
    (hobject : Term.Sound n object) : Keeps n (assign r object) := by
  intro σ k hk hσ
  have hset : (σ.set r object).Sound k :=
    hσ.set (Nat.lt_of_lt_of_le hr hk) hty (hobject.mono hk)
  rw [exec_assign]
  cases σ.get? r with
  | none => exact ⟨Nat.le_refl k, hset⟩
  | some image =>
    dsimp only
    split
    · exact ⟨Nat.le_refl k, hσ⟩
    · exact ⟨Nat.le_refl k, hσ⟩

theorem Keeps.mapping {r : Replaceable} {t : Term} {m : Matcher α} (hm : Keeps n m)
    (hr : r.id < n) (hty : r.ty = t.ty) (ht : Term.Sound n t) : Keeps n (mapping r t m) := by
  intro σ k hk hσ
  have hset := hσ.set (Nat.lt_of_lt_of_le hr hk) hty (ht.mono hk)
  obtain ⟨hle, hleft⟩ := hm (σ.set r t) k hk hset
  rw [exec_mapping]
  refine ⟨hle, hleft.update fun image e => ?_⟩
  obtain ⟨hr', hty', himage⟩ := hσ.image e
  exact ⟨Nat.lt_of_lt_of_le hr' hle, hty', himage.mono hle⟩

theorem keeps_var {scope : Stack Var} {x : Var} {object : Term} (hx : x.id < n)
    (hty : x.ty = object.ty) (hobject : Term.Sound n object) : Keeps n (var scope x object) := by
  have hassign : Keeps n (assign (.var x) object) := keeps_assign hx hty hobject
  intro σ k hk hσ
  have hsame : k ≤ k ∧ σ.Sound k := ⟨Nat.le_refl k, hσ⟩
  rw [exec_var]
  split
  · exact hassign σ k hk hσ
  · split
    · split
      · exact hsame
      · exact hsame
    · split
      · exact hsame
      · exact hassign σ k hk hσ

/-! ## Meta-applications -/

theorem abstractOver_cons (y : Var) (ys : List Var) (object : Term) :
    abstractOver (y :: ys) object = (do mkLambda y (← abstractOver ys object)) := by
  unfold abstractOver
  rw [List.reverse_cons, List.foldlM_append]
  refine Fresh.bind_congr fun k => ?_
  exact bind_pure _

theorem increasing_abstractOver (ys : List Var) (object : Term) :
    Fresh.Increasing (abstractOver ys object) :=
  Fresh.increasing_foldlM (fun body y => increasing_mkLambda y body) object

theorem abstractOver_built {ys : List Var} {object : Term} (hobject : Term.Sound n object)
    (hys : ∀ y ∈ ys, y.id < n ∧ y.binder) :
    Built ((abstractOver ys object).run n).2 (.arrows (ys.map Var.ty) object.ty)
      (fun V => Nameless.lambdas (ys.map Var.ty) (object.read (V.unders ys.reverse)))
      ((abstractOver ys object).run n).1 := by
  induction ys with
  | nil => exact hobject.built
  | cons y ys ih =>
    have hbody := ih fun v hv => hys v (by simp [hv])
    have hle := increasing_abstractOver ys object n
    obtain ⟨hy, hbinder⟩ := hys y (by simp)
    have hlam := mkLambda_built hbody (Nat.lt_of_lt_of_le hy hle) hbinder
    rw [abstractOver_cons, Fresh.run_bind]
    refine ⟨hlam.idsBelow, hlam.wf, hlam.ty, fun V hV => (hlam.read V hV).trans ?_⟩
    rw [List.reverse_cons, Valuation.unders_append]
    rfl

theorem abstractOver_nameless {ys : List Var} {object : Term} (hobject : Term.Sound n object)
    (hys : ∀ y ∈ ys, y.id < n ∧ y.binder) :
    ((abstractOver ys object).run n).1.nameless =
      Nameless.lambdas (ys.map Var.ty) (object.read (Valuation.plain.unders ys.reverse)) := by
  have hbuilt := abstractOver_built hobject hys
  rw [← read_plain hbuilt.wf, hbuilt.read _ Valuation.plain_atomic]

theorem binderImage_sound {σ : Subst} (hσ : σ.Sound n) {arg : Term} (harg : Term.Sound n arg)
    {y : Var} (h : binderImage σ arg = some y) : y.id < n ∧ y.binder ∧ y.ty = arg.ty := by
  unfold binderImage at h
  obtain ⟨x, hx, hy⟩ := Option.bind_eq_some_iff.mp h
  obtain ⟨rfl, hxb⟩ := binder?_eq_some.mp hx
  cases e : σ.get? (.var x) with
  | none =>
    rw [e] at hy
    obtain rfl := Option.some.inj hy
    refine ⟨idsBelow_var.mp harg.idsBelow, hxb, ?_⟩
    rw [Term.ty]
  | some image =>
    rw [e] at hy
    obtain ⟨rfl, hyb⟩ := binder?_eq_some.mp hy
    obtain ⟨_, hty, himage⟩ := hσ.image e
    refine ⟨idsBelow_var.mp himage.idsBelow, hyb, ?_⟩
    rw [Term.ty] at hty ⊢
    exact hty.symm

theorem binderImages_sound {σ : Subst} (hσ : σ.Sound n) {args : List Term}
    (hargs : ∀ s ∈ args, Term.Sound n s) {ys : List Var}
    (h : args.map (binderImage σ) = ys.map some) :
    (∀ y ∈ ys, y.id < n ∧ y.binder) ∧ ys.map Var.ty = args.map Term.ty := by
  have hsound := (Fresh.forall₂_of_map_eq h).imp fun s y hs =>
    binderImage_sound hσ (hargs s hs.1) hs.2
  constructor
  · intro y hy
    obtain ⟨_, _, hyn, hbinder, _⟩ := Fresh.exists_of_mem_right hsound hy
    exact ⟨hyn, hbinder⟩
  · exact Fresh.map_eq_map (hsound.imp fun _ _ hs => hs.2.2)

theorem keeps_metaApp {scope : Stack Var} {z : MetaVar} {args : List Term} {object : Term}
    (hpattern : Term.Sound n (.metaApp z args)) (hobject : Term.Sound n object)
    (hty : (Term.metaApp z args).ty = object.ty) : Keeps n (metaApp scope z args object) := by
  intro σ k hk hσ
  obtain ⟨hz, fits, hargs⟩ := hpattern.metaApp
  rcases exec_metaApp scope z args object σ k with ⟨e, he⟩ | ⟨ys, himages, _, he⟩
  · rw [he]
    exact ⟨Nat.le_refl k, hσ⟩
  · obtain ⟨hbinders, htys⟩ := binderImages_sound hσ (fun s hs => (hargs s hs).mono hk) himages
    have hle := increasing_abstractOver ys object k
    have himage := (abstractOver_built (hobject.mono hk) hbinders).soundAt
    rw [htys, fits, ← hty, Term.ty] at himage
    rw [he]
    obtain ⟨hle', hleft⟩ := keeps_assign (r := .metaVar z)
      (Nat.lt_of_lt_of_le hz (Nat.le_trans hk hle)) himage.2.symm himage.1 σ _ (Nat.le_refl _)
      (hσ.mono hle)
    exact ⟨Nat.le_trans hle hle', hleft⟩

/-! ## Terms -/

theorem keeps_terms {scope : Stack Var} {ps os : List Term}
    (h : ∀ p ∈ ps, ∀ o ∈ os, Keeps n (term scope p o)) : Keeps n (terms scope ps os) := by
  induction ps generalizing os with
  | nil => exact keeps_of_same fun σ k => ⟨.ok (), by rw [terms_nil_left, exec_pure]⟩
  | cons p ps ih =>
    cases os with
    | nil => exact keeps_of_same fun σ k => ⟨.ok (), by rw [terms_nil_right, exec_pure]⟩
    | cons o os =>
      have hrest : Keeps n (terms scope ps os) := ih fun q hq u hu => h q (by simp [hq]) u (by simp [hu])
      intro σ k
      rw [exec_terms_cons]
      exact (hrest.bind fun _ => h p (by simp) o (by simp)) σ k

theorem binder_ty_eq {x y : Var} {body objectBody : Term}
    (h : (Term.lambda x body).ty = (Term.lambda y objectBody).ty) : x.ty = y.ty := by
  rw [Term.ty, Term.ty] at h
  exact (SimpleType.arrow.inj h).1

/-- A binder of the pattern may be mapped to the binder of the object at the same place. -/
theorem sound_set_binder {x y : Var} {body objectBody : Term} {σ : Subst} {k : Nat}
    (hpattern : Term.Sound n (.lambda x body)) (hobject : Term.Sound n (.lambda y objectBody))
    (hxy : x.ty = y.ty) (hk : n ≤ k) (hσ : σ.Sound k) : (σ.set (.var x) (.var y)).Sound k := by
  have hx := Nat.lt_of_lt_of_le hpattern.lambda.1 hk
  have hy := Nat.lt_of_lt_of_le hobject.lambda.1 hk
  exact hσ.set hx (by rw [Term.ty]; exact hxy) ⟨idsBelow_var.mpr hy, .var y⟩

theorem keeps_term (pattern : Term) {scope : Stack Var} {object : Term}
    (hpattern : Term.Sound n pattern) (hobject : Term.Sound n object) :
    Keeps n (term scope pattern object) := by
  induction pattern using Term.induction generalizing scope object with
  | literal v =>
    refine keeps_of_same fun σ k => ?_
    by_cases hty : (Term.literal v).ty = object.ty
    · rw [exec_term_literal hty]
      split <;> exact ⟨_, rfl⟩
    · exact ⟨_, exec_term_of_ty_ne hty⟩
  | const c =>
    refine keeps_of_same fun σ k => ?_
    by_cases hty : (Term.const c).ty = object.ty
    · rw [exec_term_const hty]
      split <;> exact ⟨_, rfl⟩
    · exact ⟨_, exec_term_of_ty_ne hty⟩
  | var x =>
    intro σ k hk hσ
    by_cases hty : (Term.var x).ty = object.ty
    · rw [exec_term_var hty]
      rw [Term.ty] at hty
      exact keeps_var (idsBelow_var.mp hpattern.idsBelow) hty hobject σ k hk hσ
    · rw [exec_term_of_ty_ne hty]
      exact ⟨Nat.le_refl k, hσ⟩
  | lambda x body ih =>
    intro σ k hk hσ
    by_cases hty : (Term.lambda x body).ty = object.ty
    · cases object with
      | lambda y objectBody =>
        obtain ⟨hx, _, hbody⟩ := hpattern.lambda
        obtain ⟨hy, _, hobjectBody⟩ := hobject.lambda
        have hxy : x.ty = (Term.var y).ty := by
          rw [Term.ty]
          exact binder_ty_eq hty
        have hvar : Term.Sound n (.var y) := ⟨idsBelow_var.mpr hy, .var y⟩
        have hinner : Keeps n (term (scope.push y) body objectBody) := ih hbody hobjectBody
        have hkeep := hinner.mapping (r := .var x) hx hxy hvar σ k hk hσ
        rw [exec_mapping] at hkeep
        rw [exec_term_lambda hty]
        exact hkeep
      | _ =>
        rw [exec_term_lambda_of_not hty rfl]
        exact ⟨Nat.le_refl k, hσ⟩
    · rw [exec_term_of_ty_ne hty]
      exact ⟨Nat.le_refl k, hσ⟩
  | app head args ih ihs =>
    intro σ k hk hσ
    by_cases hty : (Term.app head args).ty = object.ty
    · rw [exec_term_app hty]
      split
      · exact ⟨Nat.le_refl k, hσ⟩
      · have hargs : Keeps n (terms scope args
            (object.args.drop (object.args.length - args.length))) :=
          keeps_terms fun p hp o ho =>
            ihs p hp (hpattern.args p hp) (hobject.args o (List.mem_of_mem_drop ho))
        exact (hargs.bind fun _ => ih hpattern.head (headPart_sound hobject _)) σ k hk hσ
    · rw [exec_term_of_ty_ne hty]
      exact ⟨Nat.le_refl k, hσ⟩
  | metaApp z args ihs =>
    intro σ k hk hσ
    by_cases hty : (Term.metaApp z args).ty = object.ty
    · rw [exec_term_metaApp hty]
      exact keeps_metaApp hpattern hobject hty σ k hk hσ
    · rw [exec_term_of_ty_ne hty]
      exact ⟨Nat.le_refl k, hσ⟩

end Matcher

namespace Term

theorem matchWith_sound {pattern object : Term} {σ : Subst} {n : Nat}
    (hpattern : Sound n pattern) (hobject : Sound n object) (hσ : σ.Sound n) :
    n ≤ ((pattern.matchWith object σ).run n).2 ∧
      ((pattern.matchWith object σ).run n).1.2.Sound ((pattern.matchWith object σ).run n).2 := by
  have hterm : Matcher.Keeps n (Matcher.term ∅ pattern object) :=
    Matcher.keeps_term pattern hpattern hobject
  have hkeep := hterm σ n (Nat.le_refl n) hσ
  unfold matchWith
  cases pattern.nonPattern? with
  | some t => exact ⟨Nat.le_refl n, hσ⟩
  | none =>
    dsimp only
    rw [Fresh.run_bind]
    unfold Matcher.exec at hkeep
    rcases e : ((Matcher.term ∅ pattern object).run.run σ).run n with ⟨⟨(m | p) | _, τ⟩, k⟩ <;>
      rw [e] at hkeep <;> exact hkeep

theorem matchTerm_sound {pattern object : Term} {n : Nat} (hpattern : Sound n pattern)
    (hobject : Sound n object) :
    n ≤ ((pattern.matchTerm object).run n).2 ∧
      ∀ σ, ((pattern.matchTerm object).run n).1 = .ok (.success σ) →
        σ.Sound ((pattern.matchTerm object).run n).2 := by
  have hkeep := matchWith_sound hpattern hobject (Subst.sound_empty n)
  unfold matchTerm
  rw [Fresh.run_bind]
  rcases h : (pattern.matchWith object ∅).run n with ⟨⟨_ | (_ | _), τ⟩, k⟩
  · rw [h] at hkeep
    exact ⟨hkeep.1, fun σ e => by cases e⟩
  · rw [h] at hkeep
    refine ⟨hkeep.1, fun σ e => ?_⟩
    cases e
    exact hkeep.2
  · rw [h] at hkeep
    exact ⟨hkeep.1, fun σ e => by cases e⟩

end Term

end TermAlgebra
