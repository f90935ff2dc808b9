import TermAlgebra.Proofs.Instances

/-!
# Absorption

A substitution for solvable variables gives every key the value of its image. Main statement: a
valuation that gives every key of such a substitution the reading of its image reads an instance
as it reads the term itself.
-/

namespace TermAlgebra

namespace Valuation

/-- What variables and meta-variables stand for has no loose indices. -/
def Closed (V : Valuation) : Prop :=
  ∀ r image, V.image? r = some image → ∀ ρ, Nameless.Label.Local ρ → image.relabel ρ = image

theorem closed_comp (σ : Subst) : (plain.comp σ).Closed := by
  intro r image e ρ hρ
  cases r with
  | var v =>
    obtain rfl := Option.some.inj e
    simp only [comp]
    cases σ.get? (.var v) with
    | none =>
      simp only [Option.map_none, Option.getD_none, plain, Nameless.relabel, hρ.free]
      rfl
    | some t => exact Term.relabel_read_plain t hρ
  | metaVar z =>
    simp only [image?, comp, plain, Option.or_none] at e
    obtain ⟨t, _, rfl⟩ := Option.map_eq_some_iff.mp e
    exact Term.relabel_read_plain t hρ

end Valuation

namespace Subst

variable {σ : Subst} {n : Nat} {r : Replaceable}

/-- Only what unification may bind has an image. -/
def Simple (σ : Subst) : Prop := ∀ r image, σ.get? r = some image → r.Solvable

theorem simple_empty : Simple ∅ := fun _ _ h => nomatch h

theorem Simple.set (h : σ.Simple) (hr : r.Solvable) (t : Term) : (σ.set r t).Simple := by
  intro q image e
  rw [get?_set] at e
  split at e
  · rename_i hq
    rwa [hq]
  · exact h q image e

theorem Simple.rigid (h : σ.Simple) : (Valuation.plain.comp σ).Rigid := by
  intro z hz
  cases e : σ.get? (.metaVar z) with
  | none => simp [Valuation.comp, e, Valuation.plain]
  | some image => exact absurd (Replaceable.solvable_metaVar.mp (h _ _ e)) hz

theorem value_of_none (h : σ.get? r = none) :
    (Valuation.plain.comp σ).value r = Valuation.plain.value r := by
  cases r <;> simp [Valuation.value, Valuation.metaApp, Valuation.comp, h]

theorem value_of_some {image : Term} (h : σ.get? r = some image) (hwf : image.WellFormed) :
    (Valuation.plain.comp σ).value r = image.nameless := by
  cases r with
  | var v =>
    simp only [Valuation.value, Valuation.comp, h]
    exact Term.read_plain hwf
  | metaVar z =>
    -- an image that gets no arguments stays as it is, also when it is an abstraction
    have henv : Nameless.environment [] = Nameless.ofLabel ∘ id := by
      funext l
      cases l <;> rfl
    simp only [Valuation.value, Valuation.metaApp, Valuation.comp, h, Option.map_some,
      Option.some_or]
    rw [Nameless.instantiate, Nameless.openLambdas_nil, henv,
      Term.fill_read image Valuation.plain_atomic, Nameless.relabel_id, Term.read_plain hwf]

end Subst

namespace Term

variable {V : Valuation} {σ : Subst} {n : Nat}

theorem read_eq_subst (t : Term) (hV : V.Closed) :
    t.read V = (t.read .plain).subst V.image? := by
  symm
  apply subst_read t hV
  · exact fun v => rfl
  · exact fun z => rfl
  · exact fun z => rfl

/-- Terms that are the same without names read the same. -/
theorem read_congr_nameless {s t : Term} (hs : s.WellFormed) (ht : t.WellFormed) (hV : V.Closed)
    (h : s.nameless = t.nameless) : s.read V = t.read V := by
  rw [read_eq_subst s hV, read_eq_subst t hV, read_plain hs, read_plain ht, h]

/-- A substitution without images for what is free in a term changes nothing. -/
theorem readBefore_of_unbound {t : Term} (ht : t.WellFormed)
    (h : ∀ r ∈ t.free, σ.get? r = none) : readBefore σ t .plain = t.nameless := by
  have haff : σ.affects t = false := by
    rw [Bool.eq_false_iff, ne_eq, Subst.affects_iff]
    rintro ⟨r, hr, hsome⟩
    rw [h r hr] at hsome
    cases hsome
  rw [readBefore, read_comp_of_not_affects haff, read_plain ht]

/-- The free variables and meta-variables of an instance are those of the values. -/
theorem mem_free_instance {t : Term} (hσ : σ.Sound n) (hsimple : σ.Simple) (ht : Sound n t)
    {q : Replaceable} :
    q ∈ ((t.subst σ).run n).1.free ↔
      ∃ r ∈ t.free, ((Valuation.plain.comp σ).value r).occurs q := by
  have hwf := (subst_sound hσ ht).1.wf
  rw [← occurs_nameless hwf, nameless_instance hσ ht, readBefore, occurs_read ht.wf hsimple.rigid]

/-- A free variable or meta-variable of an instance comes from an image, or it has none. -/
theorem mem_free_instance_iff {t : Term} (hσ : σ.Sound n) (hsimple : σ.Simple) (ht : Sound n t)
    {q : Replaceable} :
    q ∈ ((t.subst σ).run n).1.free ↔
      (q ∈ t.free ∧ σ.get? q = none) ∨
        ∃ r ∈ t.free, ∃ image, σ.get? r = some image ∧ q ∈ image.free := by
  rw [mem_free_instance hσ hsimple ht]
  constructor
  · rintro ⟨r, hr, hq⟩
    cases e : σ.get? r with
    | none =>
      rw [Subst.value_of_none e, Valuation.occurs_plain_value] at hq
      subst hq
      exact Or.inl ⟨hr, e⟩
    | some image =>
      have hwf := (hσ.image e).2.2.wf
      rw [Subst.value_of_some e hwf, occurs_nameless hwf] at hq
      exact Or.inr ⟨r, hr, image, e, hq⟩
  · rintro (⟨hq, e⟩ | ⟨r, hr, image, e, hq⟩)
    · refine ⟨q, hq, ?_⟩
      rw [Subst.value_of_none e, Valuation.occurs_plain_value]
    · have hwf := (hσ.image e).2.2.wf
      refine ⟨r, hr, ?_⟩
      rwa [Subst.value_of_some e hwf, occurs_nameless hwf]

end Term

namespace Valuation

/-- Every key has the value of its image. -/
def Absorbs (V : Valuation) (σ : Subst) : Prop :=
  ∀ r image, σ.get? r = some image → V.value r = image.read V

theorem absorbs_empty (V : Valuation) : V.Absorbs ∅ := fun _ _ h => nomatch h

/-- An instance reads as the term does where the substitution is absorbed. -/
theorem Absorbs.read_instance {V : Valuation} {σ : Subst} {n : Nat} {t : Term} (h : V.Absorbs σ)
    (hV : V.Closed) (hrigid : V.Rigid) (hσ : σ.Sound n) (hsimple : σ.Simple)
    (ht : Term.Sound n t) : ((t.subst σ).run n).1.read V = t.read V := by
  have hwf := (Term.subst_sound hσ ht).1.wf
  rw [Term.read_eq_subst _ hV, Term.read_plain hwf, Term.nameless_instance hσ ht]
  refine Term.subst_read_rigid ht.wf hsimple.rigid hrigid hV hrigid fun r => ?_
  cases e : σ.get? r with
  | none =>
    rw [Subst.value_of_none e]
    cases r with
    | var v => rfl
    | metaVar z =>
      cases hz : V.metaVar z <;>
        simp only [value, metaApp, plain, Nameless.subst, image?, Nameless.substAll, hz]
  | some image =>
    have himage := (hσ.image e).2.2.wf
    rw [Subst.value_of_some e himage, h r image e, ← Term.read_plain himage,
      ← Term.read_eq_subst image hV]

theorem Absorbs.set {V : Valuation} {σ : Subst} {r : Replaceable} {t : Term} (h : V.Absorbs σ)
    (hr : V.value r = t.read V) : V.Absorbs (σ.set r t) := by
  intro q image e
  rw [Subst.get?_set] at e
  split at e
  · rename_i hq
    obtain rfl := Option.some.inj e
    rwa [hq]
  · exact h q image e

end Valuation

end TermAlgebra
