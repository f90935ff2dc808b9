import TermAlgebra.Proofs.Fragments
import TermAlgebra.Proofs.MatcherEffects
import TermAlgebra.Proofs.MatcherFrame
import TermAlgebra.Proofs.UnifierTermination

/-!
# First-order problems have first-order solutions

Unification compares the heads of applications with arguments in front, which are of arrow type and
so outside the fragment; they are headed by constants all the same, so no variable is bound to one
of them. Matching treats the arguments of an object before its head, and variables of the pattern
meet only arguments. Main statement: `fragments_closed`.
-/

namespace TermAlgebra

/-- Every image is first-order. -/
def Subst.FirstOrder (σ : Subst) : Prop :=
  ∀ r image, σ.get? r = some image → image.FirstOrder ∧ image.ty.isBase

theorem Subst.firstOrder_empty : Subst.FirstOrder ∅ := fun _ _ h => nomatch h

theorem Subst.FirstOrder.set {σ : Subst} (h : σ.FirstOrder) (r : Replaceable) {t : Term}
    (ht : t.FirstOrder) (hbase : t.ty.isBase) : (σ.set r t).FirstOrder := by
  intro q image e
  rw [get?_set] at e
  split at e
  · obtain rfl := Option.some.inj e
    exact ⟨ht, hbase⟩
  · exact h q image e

/-! ## Unification -/

namespace Unifier

/-- Equations between terms that are first-order up to their type, and first-order images. -/
structure FirstOrder (u : Unifier) : Prop where
  images : u.subst.FirstOrder
  equations : ∀ e ∈ u.equations, e.1.FirstOrder ∧ e.2.FirstOrder

def Progress.FirstOrder : Progress → Prop
  | simpler u => u.FirstOrder
  | bound u => u.FirstOrder
  | _ => True

variable {u : Unifier} {s t : Term} {r : Replaceable} {n : Nat}

/-- An image in which `r` is replaced by a first-order term stays first-order. -/
theorem updated_firstOrder [Iteration] {σ : Subst} (ht : t.FirstOrder) (hbase : t.ty.isBase)
    (hσ : σ.FirstOrder) : (updated σ r t n).FirstOrder := by
  intro q image' h
  obtain ⟨image, m, he, _, rfl, _⟩ := get?_updated h
  obtain ⟨himage, hty⟩ := hσ q image he
  unfold updateImage
  split
  · obtain ⟨u, hu, hfirst, hbase'⟩ := himage.subst fun q _ image e =>
      Subst.firstOrder_empty.set r ht hbase q image e
    rw [hu]
    exact ⟨hfirst, hbase'.trans hty⟩
  · exact ⟨himage, hty⟩

theorem bind_firstOrder [Iteration] (hu : u.FirstOrder) (ht : t.FirstOrder) (hbase : t.ty.isBase) :
    ((u.bind r t).run n).1.FirstOrder := by
  unfold Unifier.bind
  split
  · trivial
  · split
    · trivial
    · exact ⟨(updated_firstOrder ht hbase hu.images).set r ht hbase, hu.equations⟩

theorem zip_firstOrder {ss ts : List Term} (hss : ∀ s ∈ ss, s.FirstOrder)
    (hts : ∀ t ∈ ts, t.FirstOrder) : ∀ e ∈ ss.zip ts, e.1.FirstOrder ∧ e.2.FirstOrder := by
  intro ⟨s, t⟩ he
  have hmem := List.of_mem_zip he
  exact ⟨hss s hmem.1, hts t hmem.2⟩

theorem decompose_firstOrder (hu : u.FirstOrder) (hs : s.FirstOrder) (ht : t.FirstOrder) :
    ((u.decompose s t).run n).1.FirstOrder := by
  unfold decompose
  split
  · cases hs
  · split
    · refine ⟨hu.images, fun e he => ?_⟩
      cases hs with
      | metaVar => exact hu.equations e (by simpa using he)
    · trivial
  · dsimp only
    split
    · trivial
    · refine ⟨hu.images, fun e he => ?_⟩
      simp only [List.mem_append, List.mem_reverse, List.mem_cons] at he
      obtain he | rfl | he := he
      · exact zip_firstOrder (fun a ha => (hs.args a (List.mem_of_mem_drop ha)).1)
          (fun a ha => (ht.args a (List.mem_of_mem_drop ha)).1) e he
      · exact ⟨hs.headPart _, ht.headPart _⟩
      · exact hu.equations e he

/-- What unification may bind is of base type in a first-order term. -/
theorem isBase_of_flexible (ht : t.FirstOrder) (h : t.flexible? = some r) : t.ty.isBase := by
  cases ht with
  | var base =>
    rw [Term.ty]
    exact base
  | metaVar _ base =>
    rw [Term.ty]
    exact base
  | _ => cases h

theorem advance_firstOrder [Iteration] (hu : u.FirstOrder) (hs : s.FirstOrder) (ht : t.FirstOrder) :
    ((u.advance s t).run n).1.FirstOrder := by
  unfold advance
  split
  · trivial
  · rename_i hty
    have hty : s.ty = t.ty := not_not.mp hty
    split
    · exact hu
    · split
      · rename_i hr
        exact bind_firstOrder hu ht (hty ▸ isBase_of_flexible hs hr)
      · rename_i hr
        exact bind_firstOrder hu hs (hty ▸ isBase_of_flexible ht hr)
      · exact decompose_firstOrder hu hs ht

theorem step_firstOrder [Iteration] (hu : u.FirstOrder) : (u.step.run n).1.FirstOrder := by
  cases h : u.equations with
  | nil =>
    unfold step
    rw [h]
    trivial
  | cons e es =>
    obtain ⟨s, t⟩ := e
    obtain ⟨hs, ht⟩ := hu.equations (s, t) (by simp [h])
    obtain ⟨s', hs', hs, _⟩ := hs.subst fun r _ image e => hu.images r image e
    obtain ⟨t', ht', ht, _⟩ := ht.subst fun r _ image e => hu.images r image e
    have hrest : FirstOrder { u with equations := es } :=
      ⟨hu.images, fun e he => hu.equations e (by simp [h, he])⟩
    rw [step_cons h, hs', pure_bind, ht', pure_bind]
    exact advance_firstOrder hrest hs ht

theorem Iterates.firstOrder [Iteration] {a b : Unifier × Nat} (h : Iterates a b)
    (ha : a.1.FirstOrder) : b.1.FirstOrder := by
  cases h with
  | @simpler u u' n n' h =>
    have hstep := step_firstOrder (n := n) ha
    rw [h] at hstep
    exact hstep
  | @bound u u' n n' h =>
    have hstep := step_firstOrder (n := n) ha
    rw [h] at hstep
    exact hstep

/-- The solver starts with a first-order problem and ends with a first-order substitution. -/
theorem Ends.firstOrder [Iteration] {a : Unifier × Nat} {r : Verdict × Nat} (h : Ends a r)
    (ha : a.1.FirstOrder) {σ : Subst} (hσ : r.1.subst? = some σ) : σ.FirstOrder := by
  induction h with
  | solved _ =>
    obtain rfl := Option.some.inj hσ
    exact ha.images
  | clash _ => cases hσ
  | next hstep _ ih => exact ih (hstep.firstOrder ha) hσ

end Unifier

theorem Term.unify_firstOrder [Iteration] {n k : Nat} {s t : Term} {σ : Subst} (hs : s.FirstOrder)
    (ht : t.FirstOrder) (h : (s.unify t).run n = (some σ, k)) : σ.FirstOrder := by
  have hproblem : (Unifier.problem s t).FirstOrder :=
    ⟨Subst.firstOrder_empty, by simp [Unifier.problem, hs, ht]⟩
  rcases hrun : (Unifier.solve (s.free ∪ t.free).size (.problem s t)).run n with ⟨v, l⟩
  have hverdict : (s.unify t).run n = (v.subst?, l) := by
    change ((Unifier.solve _ (.problem s t)).run n).map Unifier.Verdict.subst? id = _
    rw [hrun]
    rfl
  have hv : v.subst? = some σ := (Prod.mk.inj (hverdict.symm.trans h)).1
  have hexhausted : v ≠ .exhausted := by
    intro e
    rw [e] at hv
    cases hv
  exact (Unifier.ends_of_solve hrun hexhausted).firstOrder hproblem hv

/-! ## Matching -/

namespace Matcher

open Term

/-- A pattern headed by a constant meets heads of objects; any other meets objects of base type. -/
def KeepsFirstOrder (_ : Stack Var) (pattern object : Term) (σ τ : Subst) : Prop :=
  pattern.FirstOrder → object.FirstOrder → pattern.isFunctional ∨ object.ty.isBase →
    σ.FirstOrder → τ.FirstOrder

theorem respects_keepsFirstOrder (n : Nat) : Respects n KeepsFirstOrder where
  refl _ _ _ _ _ _ _ h := h
  trans _ _ _ _ _ _ h h' hp ho hhead hρ := h' hp ho hhead (h hp ho hhead hρ)
  setVar scope x object σ _ _ _ _ hp ho hhead hσ := by
    have hbase : object.ty.isBase := hhead.resolve_left Bool.false_ne_true
    exact hσ.set _ ho hbase
  setMeta scope z args object σ ys k _ _ _ _ _ hlen _ hp ho hhead hσ := by
    have hbase : object.ty.isBase := hhead.resolve_left Bool.false_ne_true
    cases hp with
    | metaVar =>
      obtain rfl := List.length_eq_zero_iff.mp hlen
      exact hσ.set _ ho hbase
  body _ _ _ _ _ _ _ _ _ _ hp := by cases hp
  head scope head args object i σ τ h hp ho _ hσ := by
    cases hp with
    | app order => exact h (.const order) (ho.headPart i) (.inl rfl) hσ
  arg scope head args object p o σ τ hp' ho' h hp ho _ hσ := by
    obtain ⟨hfirst, _⟩ := hp.args p hp'
    obtain ⟨hfirst', hbase⟩ := ho.args o ho'
    exact h hfirst hfirst' (.inr hbase) hσ

end Matcher

namespace Term

theorem matchTerm_firstOrder {n k : Nat} {s t : Term} {σ : Subst} (hs : Sound n s)
    (ht : Sound n t) (hs' : s.FirstOrder) (ht' : t.FirstOrder) (hbase : t.ty.isBase)
    (h : (s.matchTerm t).run n = (.ok (.success σ), k)) : σ.FirstOrder := by
  have hleads : Matcher.Leads n (Matcher.KeepsFirstOrder ∅ s t) (Matcher.term ∅ s t) :=
    (Matcher.respects_keepsFirstOrder n).leads_term s hs ht
  have hrun := hleads ∅ n (Nat.le_refl n) (Subst.sound_empty n)
  rw [exec_of_success (matchTerm_success_iff.mp h)] at hrun
  exact hrun hs' ht' (.inr hbase) Subst.firstOrder_empty

/-- First-order terms, applicative terms and patterns are closed under substitution of such terms,
patterns as long as only variables are replaced that are no binders; and the solutions that
unification and matching find for first-order terms have first-order images. -/
theorem fragments_closed [Iteration] {n : Nat} {s t : Term} {σ : Subst} (hs : Sound n s)
    (ht : Sound n t) (hσ : σ.Sound n) :
    (t.isFirstOrder →
      (∀ r ∈ t.free, ∀ image, σ.get? r = some image → image.isFirstOrder) →
      ((t.subst σ).run n).1.isFirstOrder) ∧
    (t.isApplicative →
      (∀ r ∈ t.free, ∀ image, σ.get? r = some image → image.isApplicative) →
      ((t.subst σ).run n).1.isApplicative) ∧
    (t.isPattern →
      (∀ r ∈ t.free, ∀ image, σ.get? r = some image → ∃ x, r = .var x ∧ x.binder = false) →
      (∀ r ∈ t.free, ∀ image, σ.get? r = some image → image.isPattern) →
      ((t.subst σ).run n).1.isPattern) ∧
    (s.isFirstOrder → t.isFirstOrder →
      (∀ τ k, (s.unify t).run n = (some τ, k) →
        ∀ r image, τ.get? r = some image → image.isFirstOrder) ∧
      ∀ τ k, (s.matchTerm t).run n = (.ok (.success τ), k) →
        ∀ r image, τ.get? r = some image → image.isFirstOrder) := by
  have hinstance : ((t.subst σ).run n).1.WellFormed := (subst_sound hσ ht).1.wf
  have himage : ∀ {r image}, σ.get? r = some image → image.WellFormed :=
    fun e => (hσ.image e).2.2.wf
  refine ⟨fun h himages => ?_, fun h himages => ?_, isPattern_subst ht hσ, fun hs' ht' => ?_⟩
  · obtain ⟨hfirst, hbase⟩ := (firstOrder_iff ht.wf).mp h
    obtain ⟨u, hu, hresult⟩ := hfirst.subst fun r hr image e =>
      (firstOrder_iff (himage e)).mp (himages r hr image e)
    rw [hu] at hinstance ⊢
    exact (firstOrder_iff hinstance).mpr ⟨hresult.1, hresult.2.trans hbase⟩
  · have hcurried := (curried_iff ht.wf).mp h
    obtain ⟨u, hu, hresult⟩ := hcurried.subst fun r hr image e =>
      (curried_iff (himage e)).mp (himages r hr image e)
    rw [hu] at hinstance ⊢
    exact (curried_iff hinstance).mpr hresult
  · obtain ⟨hs', _⟩ := (firstOrder_iff hs.wf).mp hs'
    obtain ⟨ht', hbase⟩ := (firstOrder_iff ht.wf).mp ht'
    constructor
    · intro τ k h r image e
      have hτ := (unify_sound hs ht).2 τ (congrArg Prod.fst h)
      exact (firstOrder_iff (hτ.image e).2.2.wf).mpr (unify_firstOrder hs' ht' h r image e)
    · intro τ k h r image e
      have hτ := (matchTerm_sound hs ht).2 τ (congrArg Prod.fst h)
      exact (firstOrder_iff (hτ.image e).2.2.wf).mpr
        (matchTerm_firstOrder hs ht hs' ht' hbase h r image e)

/-- `f(X, Y)` and `f(f(Y, b), Y)` by unification and by matching, and `b` for `Y` in the latter; and
`w` for `Y` in `λw.f(Z[w], Y)`, where the bound `w` gives way. -/
theorem fragments_closed_captured :
    let o := SimpleType.base "o"
    let x : Var := ⟨0, "X", o, false⟩
    let y : Var := ⟨1, "Y", o, false⟩
    let w : Var := ⟨2, "w", o, true⟩
    let z : MetaVar := ⟨3, "Z", [o], o⟩
    let f := const ⟨"f", .arrow o (.arrow o o), false, none⟩
    let b := const ⟨"b", o, false, none⟩
    let s := app f [var x, var y]
    let t := app f [app f [var y, b], var y]
    let σ := Subst.set ∅ (.var y) b
    let p := lambda w (app f [metaApp z [var w], var y])
    let κ := Subst.set ∅ (.var y) (var w)
    ((t.subst σ).run 4).1.isFirstOrder ∧ ((t.subst σ).run 4).1.isApplicative ∧
      ((p.subst κ).run 4).1.isPattern ∧
      (∃ τ k, (s.unify t).run 4 = (some τ, k) ∧
        ∀ r image, τ.get? r = some image → image.isFirstOrder) ∧
      ∃ τ k, (s.matchTerm t).run 4 = (.ok (.success τ), k) ∧
        ∀ r image, τ.get? r = some image → image.isFirstOrder := by
  intro o x y w z f b s t σ p κ
  have hs : Sound 4 s := by
    refine sound_app ?_ rfl (by simp) (by cbv) (by cbv)
    simp [sound_const, sound_var, f, x, y]
  have hfy : Sound 4 (app f [var y, b]) := by
    refine sound_app ?_ rfl (by simp) (by cbv) (by cbv)
    simp [sound_const, sound_var, f, b, y]
  have ht : Sound 4 t := by
    refine sound_app ?_ rfl (by simp) (by cbv) (by cbv)
    simp [sound_const, sound_var, hfy, f, y]
  have hz : Sound 4 (metaApp z [var w]) :=
    sound_metaApp (by decide) (by simp [sound_var, w]) (by cbv) (by cbv)
  have hbody : Sound 4 (app f [metaApp z [var w], var y]) := by
    refine sound_app ?_ rfl (by simp) (by cbv) (by cbv)
    simp [sound_const, sound_var, hz, f, y]
  have hp : Sound 4 p := sound_lambda (by decide) rfl (by cbv) hbody
  have hσ : σ.Sound 4 := (Subst.sound_empty 4).set (by decide) (by cbv) (sound_const 4 _)
  have hκ : κ.Sound 4 := (Subst.sound_empty 4).set (by decide) (by cbv) (sound_var (by decide))
  have himage : ∀ {r image u}, (Subst.set ∅ (.var y) u).get? r = some image →
      r = .var y ∧ image = u := by
    intro r image u e
    rw [Subst.get?_set, Subst.get?_empty, Option.ite_none_right_eq_some] at e
    exact ⟨e.1, (Option.some.inj e.2).symm⟩
  obtain ⟨hfirst, happlicative, -, hsolutions⟩ := fragments_closed hs ht hσ
  obtain ⟨-, -, hpattern, -⟩ := fragments_closed hs hp hκ
  obtain ⟨hunify, hmatch⟩ := hsolutions (by cbv) (by cbv)
  refine ⟨hfirst (by cbv) ?_, happlicative (by cbv) ?_, hpattern (by cbv) ?_ ?_, ?_, ?_⟩
  · intro r _ image e
    rw [(himage e).2]
    cbv
  · intro r _ image e
    rw [(himage e).2]
    cbv
  · exact fun r _ image e => ⟨y, (himage e).1, rfl⟩
  · intro r _ image e
    rw [(himage e).2]
    cbv
  · have hrun : (s.unify t).run 4 = (some (.set ∅ (.var x) (app f [var y, b])), 4) := by cbv
    exact ⟨_, _, hrun, hunify _ _ hrun⟩
  · have hrun : (s.matchTerm t).run 4 = (.ok (.success
        ((Subst.set ∅ (.var x) (app f [var y, b])).set (.var y) (var y))), 4) := by cbv
    exact ⟨_, _, hrun, hmatch _ _ hrun⟩

end Term

end TermAlgebra
