import TermAlgebra.Proofs.Replacement
import TermAlgebra.Proofs.Substitution
import TermAlgebra.Term.Unification

/-!
# Unification keeps substitutions well-typed

An equation is taken apart into equations of sound terms, and a variable gets an image of its
type. Main statement: `unify_sound`, a unifier that is found is well-typed.
-/

namespace TermAlgebra

namespace Unifier

open Term

variable {n : Nat}

structure Sound (n : Nat) (u : Unifier) : Prop where
  subst : u.subst.Sound n
  equations : ∀ e ∈ u.equations, Term.Sound n e.1 ∧ Term.Sound n e.2

def Progress.Sound (n : Nat) : Progress → Prop
  | simpler u => u.Sound n
  | bound u => u.Sound n
  | _ => True

def Verdict.Sound (n : Nat) (v : Verdict) : Prop := ∀ σ, v.subst? = some σ → σ.Sound n

/-! ## Images -/

theorem run_updateImages_cons (r : Replaceable) (t : Term) (k : Replaceable) (image : Term)
    (es : List (Replaceable × Term)) (n : Nat) :
    (updateImages r t ((k, image) :: es)).run n =
      ((k, ((updateImage r t image).run n).1) ::
        ((updateImages r t es).run ((updateImage r t image).run n).2).1,
        ((updateImages r t es).run ((updateImage r t image).run n).2).2) := rfl

theorem updateImage_sound {r : Replaceable} {t image : Term} (hr : r.id < n) (hty : r.ty = t.ty)
    (ht : Term.Sound n t) (himage : Term.Sound n image) :
    SoundAt ((updateImage r t image).run n).2 image.ty ((updateImage r t image).run n).1 := by
  unfold updateImage
  split
  · exact subst_sound ((Subst.sound_empty n).set hr hty ht) himage
  · exact ⟨himage, rfl⟩

theorem increasing_updateImage (r : Replaceable) (t image : Term) :
    Fresh.Increasing (updateImage r t image) :=
  .ite (increasing_subst _ image) (Fresh.increasing_pure image)

theorem increasing_updateImages (r : Replaceable) (t : Term) (es : List (Replaceable × Term)) :
    Fresh.Increasing (updateImages r t es) := by
  induction es with
  | nil => exact Fresh.increasing_pure []
  | cons e es ih =>
    intro n
    rw [run_updateImages_cons]
    exact Nat.le_trans (increasing_updateImage r t e.2 n) (ih _)

theorem exists_lookup_updateImages {r q : Replaceable} {t image : Term}
    {es : List (Replaceable × Term)} (h : es.lookup q = some image) (n : Nat) :
    ∃ m, n ≤ m ∧ ((updateImage r t image).run m).2 ≤ ((updateImages r t es).run n).2 ∧
      ((updateImages r t es).run n).1.lookup q = some ((updateImage r t image).run m).1 := by
  induction es generalizing n with
  | nil => cases h
  | cons e es ih =>
    obtain ⟨k, image₁⟩ := e
    rw [Subst.lookup_cons] at h
    rw [run_updateImages_cons, Subst.lookup_cons]
    have hle := increasing_updateImage r t image₁ n
    by_cases hq : q = k
    · rw [if_pos hq] at h ⊢
      obtain rfl := Option.some.inj h
      exact ⟨n, Nat.le_refl n, increasing_updateImages r t es _, rfl⟩
    · rw [if_neg hq] at h ⊢
      obtain ⟨m, hm, hend, e⟩ := ih h ((updateImage r t image₁).run n).2
      exact ⟨m, Nat.le_trans hle hm, hend, e⟩

section

variable [Iteration] {σ : Subst} {r q : Replaceable} {t image image' : Term}

/-- The images once `r` has got the image `t`. -/
def updated (σ : Subst) (r : Replaceable) (t : Term) (n : Nat) : Subst :=
  σ.overwrite ((updateImages r t σ.iterate).run n).1

theorem get?_updated_eq_none : (updated σ r t n).get? q = none ↔ σ.get? q = none := by
  rw [updated, Subst.get?_overwrite, Option.map_eq_none_iff]

/-- Every image is updated at some point, in whatever order. -/
theorem exists_get?_updated (h : σ.get? q = some image) :
    ∃ m, n ≤ m ∧ ((updateImage r t image).run m).2 ≤ ((updateImages r t σ.iterate).run n).2 ∧
      (updated σ r t n).get? q = some ((updateImage r t image).run m).1 := by
  obtain ⟨m, hm, hend, e⟩ := exists_lookup_updateImages (r := r) (t := t)
    ((σ.lookup_iterate q).trans h) n
  refine ⟨m, hm, hend, ?_⟩
  rw [updated, Subst.get?_overwrite, h, e]
  rfl

theorem get?_updated (h : (updated σ r t n).get? q = some image') :
    ∃ image m, σ.get? q = some image ∧ n ≤ m ∧ ((updateImage r t image).run m).1 = image' ∧
      ((updateImage r t image).run m).2 ≤ ((updateImages r t σ.iterate).run n).2 := by
  cases hget : σ.get? q with
  | none =>
    rw [get?_updated_eq_none.mpr hget] at h
    cases h
  | some image =>
    obtain ⟨m, hm, hend, e⟩ := exists_get?_updated (r := r) (t := t) (n := n) hget
    exact ⟨image, m, rfl, hm, Option.some.inj (e.symm.trans h), hend⟩

theorem updated_sound (hσ : σ.Sound n) (hr : r.id < n) (hty : r.ty = t.ty) (ht : Term.Sound n t) :
    (updated σ r t n).Sound ((updateImages r t σ.iterate).run n).2 := by
  have hle := increasing_updateImages r t σ.iterate n
  have himage : ∀ q image', (updated σ r t n).get? q = some image' →
      q.id < n ∧ q.ty = image'.ty ∧
        Term.Sound ((updateImages r t σ.iterate).run n).2 image' := by
    intro q image' h
    obtain ⟨image, m, he, hm, rfl, hend⟩ := get?_updated h
    obtain ⟨hq, hqty, himage⟩ := hσ.image he
    have hnew := updateImage_sound (Nat.lt_of_lt_of_le hr hm) hty (ht.mono hm) (himage.mono hm)
    exact ⟨hq, hqty.trans hnew.2.symm, hnew.1.mono hend⟩
  constructor
  · intro q image' h
    exact ⟨(himage q image' h).2.1, (himage q image' h).2.2.wf⟩
  · intro q image' h
    exact ⟨Nat.lt_of_lt_of_le (himage q image' h).1 hle, (himage q image' h).2.2.idsBelow⟩

end

/-! ## Steps -/

theorem Sound.mono {m : Nat} {u : Unifier} (h : u.Sound m) (hmn : m ≤ n) : u.Sound n := by
  refine ⟨h.subst.mono hmn, fun e he => ?_⟩
  have hboth := h.equations e he
  exact ⟨hboth.1.mono hmn, hboth.2.mono hmn⟩

theorem increasing_bind [Iteration] (u : Unifier) (r : Replaceable) (t : Term) :
    Fresh.Increasing (u.bind r t) := by
  unfold Unifier.bind
  refine .ite (Fresh.increasing_pure _) (.ite (Fresh.increasing_pure _) ?_)
  exact (increasing_updateImages r t u.subst.iterate).bind fun es => Fresh.increasing_pure _

theorem bind_sound [Iteration] {u : Unifier} {r : Replaceable} {t : Term} (hu : u.Sound n)
    (hr : r.id < n) (hty : r.ty = t.ty) (ht : Term.Sound n t) :
    ((u.bind r t).run n).1.Sound ((u.bind r t).run n).2 := by
  unfold Unifier.bind
  split
  · trivial
  · split
    · trivial
    · have hle := increasing_updateImages r t u.subst.iterate n
      have himages := updated_sound hu.subst hr hty ht
      exact ⟨himages.set (Nat.lt_of_lt_of_le hr hle) hty (ht.mono hle),
        (hu.mono hle).equations⟩

theorem flexible?_sound {t : Term} {r : Replaceable} (ht : Term.Sound n t)
    (h : t.flexible? = some r) : r.id < n ∧ r.ty = t.ty := by
  cases t with
  | var x =>
    rw [flexible?, Option.ite_none_left_eq_some] at h
    obtain rfl := Option.some.inj h.2
    refine ⟨idsBelow_var.mp ht.idsBelow, ?_⟩
    rw [Term.ty]
    rfl
  | metaApp z args =>
    cases args with
    | nil =>
      obtain rfl := Option.some.inj h
      obtain ⟨hz, fits, _⟩ := ht.metaApp
      refine ⟨hz, ?_⟩
      rw [Term.ty]
      change SimpleType.arrows z.inputs z.output = z.output
      rw [← fits]
      rfl
    | cons a as => cases h
  | _ => cases h

theorem zip_sound {ss ts : List Term} (hss : ∀ s ∈ ss, Term.Sound n s)
    (hts : ∀ t ∈ ts, Term.Sound n t) : ∀ e ∈ ss.zip ts, Term.Sound n e.1 ∧ Term.Sound n e.2 := by
  rintro ⟨s, t⟩ he
  have hmem := List.of_mem_zip he
  exact ⟨hss s hmem.1, hts t hmem.2⟩

theorem fits_update {x y : Var} {body : Term} (hbody : Term.Sound n body) (hy : y.id < n)
    (hty : y.ty = x.ty) : (Renaming.update id x y).Fits n body := by
  intro v hv
  by_cases hvx : v = x
  · simp [Renaming.update, hvx, hty, hy]
  · simp only [Renaming.update, if_neg hvx, id, true_and]
    exact hbody.idsBelow.1 _ hv

theorem renameVar_sound {x y : Var} {body : Term} (hbody : Term.Sound n body) (hy : y.id < n)
    (hty : y.ty = x.ty) :
    Term.Sound ((body.renameVar x y).run n).2 ((body.renameVar x y).run n).1 := by
  have hfit := fits_update hbody hy hty
  have hren := rename_spec body hfit
  have hle := body.increasing_rename (Renaming.update id x y) n
  exact ⟨idsBelow_renamed hren hfit hbody.idsBelow hle, hren.wf hbody.wf⟩

theorem increasing_decompose (u : Unifier) (s t : Term) : Fresh.Increasing (u.decompose s t) := by
  unfold decompose
  split
  · refine (Var.increasing_freshCopy _).bind fun z => ?_
    refine (increasing_renameVar _ z _).bind fun s => ?_
    exact (increasing_renameVar _ z _).bind fun t => Fresh.increasing_pure _
  · exact .ite (Fresh.increasing_pure _) (Fresh.increasing_pure _)
  · exact .ite (Fresh.increasing_pure _) (Fresh.increasing_pure _)

theorem decompose_sound {u : Unifier} {s t : Term} (hu : u.Sound n) (hs : Term.Sound n s)
    (ht : Term.Sound n t) (hty : s.ty = t.ty) :
    ((u.decompose s t).run n).1.Sound ((u.decompose s t).run n).2 := by
  unfold decompose
  split
  · rename_i x s y t
    rw [Term.ty, Term.ty] at hty
    obtain ⟨hx, _, hs⟩ := hs.lambda
    obtain ⟨_, _, ht⟩ := ht.lambda
    let z : Var := { x with id := n }
    have hle : n ≤ n + 1 := Nat.le_succ n
    have hs' := renameVar_sound (x := x) (y := z) (hs.mono hle) (Nat.lt_succ_self n) rfl
    have hle' : n + 1 ≤ ((s.renameVar x z).run (n + 1)).2 := increasing_renameVar x z s (n + 1)
    have ht' := renameVar_sound (x := y) (y := z) (ht.mono (Nat.le_trans hle hle'))
      (Nat.lt_of_lt_of_le (Nat.lt_succ_self n) hle') (SimpleType.arrow.inj hty).1
    have hle'' := increasing_renameVar y z t ((s.renameVar x z).run (n + 1)).2
    have hend := Nat.le_trans (Nat.le_trans hle hle') hle''
    refine ⟨(hu.mono hend).subst, fun e he => ?_⟩
    rcases List.mem_cons.mp he with rfl | he
    · exact ⟨hs'.mono hle'', ht'⟩
    · exact (hu.mono hend).equations e he
  · rename_i z ss w ts
    split
    · refine ⟨hu.subst, fun e he => ?_⟩
      rcases List.mem_append.mp he with he | he
      · exact zip_sound hs.metaApp.2.2 ht.metaApp.2.2 e (List.mem_reverse.mp he)
      · exact hu.equations e he
    · trivial
  · dsimp only
    split
    · trivial
    · refine ⟨hu.subst, fun e he => ?_⟩
      rcases List.mem_append.mp he with he | he
      · exact zip_sound (fun a ha => hs.args a (List.mem_of_mem_drop ha))
          (fun a ha => ht.args a (List.mem_of_mem_drop ha)) e (List.mem_reverse.mp he)
      · rcases List.mem_cons.mp he with rfl | he
        · exact ⟨headPart_sound hs _, headPart_sound ht _⟩
        · exact hu.equations e he

/-- What happens to the next equation once both sides have been substituted. -/
def advance [I : Iteration] (u : Unifier) (s t : Term) : Fresh Progress :=
  if s.ty ≠ t.ty then return .clash
  else if s.alphaEquals t then return .simpler u
  else match s.flexible?, t.flexible? with
    | some r, _ => u.bind r t
    | none, some r => u.bind r s
    | none, none => u.decompose s t

theorem step_cons [Iteration] {u : Unifier} {s t : Term} {es : List (Term × Term)}
    (h : u.equations = (s, t) :: es) :
    u.step = (do
      let s ← s.subst u.subst
      let t ← t.subst u.subst
      advance { u with equations := es } s t) := by
  unfold step
  rw [h]
  rfl

theorem increasing_advance [Iteration] (u : Unifier) (s t : Term) :
    Fresh.Increasing (u.advance s t) := by
  unfold advance
  refine .ite (Fresh.increasing_pure _) (.ite (Fresh.increasing_pure _) ?_)
  split
  · exact increasing_bind u _ t
  · exact increasing_bind u _ s
  · exact increasing_decompose u s t

theorem advance_sound [Iteration] {u : Unifier} {s t : Term} (hu : u.Sound n) (hs : Term.Sound n s)
    (ht : Term.Sound n t) : ((u.advance s t).run n).1.Sound ((u.advance s t).run n).2 := by
  unfold advance
  split
  · trivial
  · rename_i hty
    have hty := not_not.mp hty
    split
    · exact hu
    · split
      · rename_i r _ hr
        obtain ⟨hid, hr⟩ := flexible?_sound hs hr
        exact bind_sound hu hid (hr.trans hty) ht
      · rename_i r _ hr
        obtain ⟨hid, hr⟩ := flexible?_sound ht hr
        exact bind_sound hu hid (hr.trans hty.symm) hs
      · exact decompose_sound hu hs ht hty

theorem increasing_step [Iteration] (u : Unifier) : Fresh.Increasing u.step := by
  cases h : u.equations with
  | nil =>
    unfold step
    rw [h]
    exact Fresh.increasing_pure _
  | cons e es =>
    obtain ⟨s, t⟩ := e
    rw [step_cons h]
    refine (increasing_subst u.subst s).bind fun s => ?_
    exact (increasing_subst u.subst t).bind fun t => increasing_advance _ s t

theorem step_sound [Iteration] {u : Unifier} (hu : u.Sound n) :
    (u.step.run n).1.Sound (u.step.run n).2 := by
  cases h : u.equations with
  | nil =>
    unfold step
    rw [h]
    trivial
  | cons e es =>
    obtain ⟨s, t⟩ := e
    obtain ⟨hs, ht⟩ := hu.equations (s, t) (by simp [h])
    have hle := increasing_subst u.subst s n
    have hle' := increasing_subst u.subst t ((s.subst u.subst).run n).2
    have hs' := (subst_sound hu.subst hs).1
    have ht' := (subst_sound (hu.subst.mono hle) (ht.mono hle)).1
    have hrest : Sound n { u with equations := es } :=
      ⟨hu.subst, fun e he => hu.equations e (by simp [h, he])⟩
    rw [step_cons h, Fresh.run_bind, Fresh.run_bind]
    exact advance_sound (hrest.mono (Nat.le_trans hle hle')) (hs'.mono hle') ht'

/-! ## Runs -/

/-- Runs from `n` on that start with a sound problem end with a sound verdict. -/
def Solves (n : Nat) (solver : Unifier → Fresh Verdict) : Prop :=
  ∀ u k, n ≤ k → u.Sound k → k ≤ ((solver u).run k).2 ∧
    ((solver u).run k).1.Sound ((solver u).run k).2

theorem solves_of_none {v : Verdict} (h : v.subst? = none) : Solves n fun _ => return v := by
  intro u k _ _
  refine ⟨Nat.le_refl k, fun σ e => ?_⟩
  change v.subst? = some σ at e
  rw [h] at e
  cases e

theorem phase_solves [Iteration] {next : Unifier → Fresh Verdict} (hnext : Solves n next)
    (steps : Nat) : Solves n (phase next steps) := by
  induction steps with
  | zero => exact solves_of_none rfl
  | succ steps ih =>
    intro u k hk hu
    have hle := increasing_step u k
    have hstep := step_sound hu
    rw [phase, Fresh.run_bind]
    rcases e : u.step.run k with ⟨_ | _ | u' | u', k'⟩
    · rw [e] at hle
      refine ⟨hle, fun σ hσ => ?_⟩
      obtain rfl := Option.some.inj hσ
      exact (hu.mono hle).subst
    · rw [e] at hle
      exact ⟨hle, fun σ hσ => by cases hσ⟩
    · rw [e] at hle hstep
      have hrest := ih u' k' (Nat.le_trans hk hle) hstep
      exact ⟨Nat.le_trans hle hrest.1, hrest.2⟩
    · rw [e] at hle hstep
      have hrest := hnext u' k' (Nat.le_trans hk hle) hstep
      exact ⟨Nat.le_trans hle hrest.1, hrest.2⟩

theorem solve_solves [Iteration] (bindings : Nat) : Solves n (solve bindings) := by
  induction bindings with
  | zero => exact fun u => phase_solves (solves_of_none rfl) u.weight u
  | succ bindings ih => exact fun u => phase_solves ih u.weight u

end Unifier

namespace Term

theorem unify_sound [Iteration] {n : Nat} {s t : Term} (hs : Sound n s) (ht : Sound n t) :
    n ≤ ((s.unify t).run n).2 ∧
      ∀ σ, ((s.unify t).run n).1 = some σ → σ.Sound ((s.unify t).run n).2 := by
  have hproblem : Unifier.Sound n ⟨∅, [], [(s, t)]⟩ :=
    ⟨Subst.sound_empty n, by simp [hs, ht]⟩
  exact Unifier.solve_solves (n := n) _ _ n (Nat.le_refl n) hproblem

end Term

end TermAlgebra
