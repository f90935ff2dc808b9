import Mathlib
import TermAlgebra.Proofs.MatchCompleteness
import TermAlgebra.Proofs.MatcherEffects
import TermAlgebra.Proofs.MatchesInStep

/-!
# Variables that leave their scope

What is free in an image that a match has found is free in the object, but for one kind of image:
a meta-variable without arguments takes a variable that the object binds along when an older free
binder hides it. Main statement: `images_free_iff`.
-/

namespace TermAlgebra

namespace Term

/-- In the image of a meta-variable without arguments, a binder `v` that is free in the object
stands before a variable `y` that the object binds. -/
structure Hides (object : Term) (q : Replaceable) (image : Term) (v y : Var) : Prop where
  noInputs : ∃ z, q = .metaVar z ∧ z.inputs = []
  binder : v.binder
  free : .var v ∈ object.free
  occurs : .var v ∈ image.free
  older : v.id ≤ y.id
  escapes : .var y ∈ image.free
  bound : y ∈ object.bound

/-- What is free in the image is free in the object, unless it is a hidden variable. -/
def Confined (object : Term) (q : Replaceable) (image : Term) : Prop :=
  ∀ r ∈ image.free, r ∈ object.free ∨ ∃ v y, r = .var y ∧ Hides object q image v y

theorem Confined.free_iff {object image : Term} {q : Replaceable} (h : Confined object q image)
    (hobject : object.WellFormed) :
    (∀ r ∈ image.free, r ∈ object.free) ↔ ∀ v y, ¬Hides object q image v y := by
  constructor
  · intro hfree v y hides
    exact hobject.isApart y (hfree _ hides.escapes) hides.bound
  · intro hnot r hr
    rcases h r hr with hfree | ⟨v, y, _, hides⟩
    · exact hfree
    · exact absurd hides (hnot v y)

end Term

namespace Matcher

open Term

variable {whole object : Term} {scope : Stack Var} {n : Nat}

/-! ## Parts of the object -/

/-- The object is a part of the whole one, below the binders in scope. -/
structure PartOf (whole : Term) (scope : Stack Var) (object : Term) : Prop where
  free : ∀ r ∈ object.free, r ∈ whole.free ∨ ∃ y, r = .var y ∧ scope.contains y
  bound : ∀ y ∈ object.bound, y ∈ whole.bound
  scope : ∀ y, scope.contains y → y.binder ∧ y ∈ whole.bound

theorem partOf_refl (whole : Term) : PartOf whole ∅ whole :=
  ⟨fun _ hr => Or.inl hr, fun _ hy => hy, fun _ hy => by cases hy⟩

theorem PartOf.body {y : Var} {objectBody : Term} (h : PartOf whole scope (.lambda y objectBody))
    (hy : y.binder) : PartOf whole (scope.push y) objectBody := by
  constructor
  · intro r hr
    by_cases hry : r = .var y
    · exact Or.inr ⟨y, hry, Stack.contains_push.mpr (Or.inl rfl)⟩
    · refine (h.free r (free_of_body hr hry)).imp_right ?_
      rintro ⟨x, hx, hin⟩
      exact ⟨x, hx, Stack.contains_push.mpr (Or.inr hin)⟩
  · exact fun x hx => h.bound x (by simp [hx])
  · intro x hx
    rcases Stack.contains_push.mp hx with rfl | hx
    · exact ⟨hy, h.bound x (by simp)⟩
    · exact h.scope x hx

theorem PartOf.headPart (h : PartOf whole scope object) (i : Nat) :
    PartOf whole scope (object.headPart i) :=
  ⟨fun r hr => h.free r (headPart_free hr), fun y hy => h.bound y (headPart_bound hy), h.scope⟩

theorem PartOf.arg (h : PartOf whole scope object) {o : Term} (ho : o ∈ object.args) :
    PartOf whole scope o :=
  ⟨fun r hr => h.free r (mem_free_head_args.mpr (Or.inr ⟨o, ho, hr⟩)),
    fun y hy => h.bound y (mem_bound_head_args.mpr (Or.inr ⟨o, ho, hy⟩)), h.scope⟩

/-! ## Images -/

theorem abstractOver_idsBelow {ys : List Var} {k : Nat} (hobject : IdsBelow k object)
    (hys : ∀ y ∈ ys, y.id < k) :
    IdsBelow ((abstractOver ys object).run k).2 ((abstractOver ys object).run k).1 := by
  induction ys with
  | nil => exact hobject
  | cons y ys ih =>
    have hle := increasing_abstractOver ys object k
    rw [abstractOver_cons, Fresh.run_bind]
    exact mkLambda_idsBelow (ih fun v hv => hys v (by simp [hv]))
      (Nat.lt_of_lt_of_le (hys y (by simp)) hle)

theorem mem_free_abstractOver {ys : List Var} {k : Nat} (hobject : IdsBelow k object)
    (hys : ∀ y ∈ ys, y.id < k) {r : Replaceable} :
    r ∈ ((abstractOver ys object).run k).1.free ↔ r ∈ object.free ∧ ∀ y ∈ ys, r ≠ .var y := by
  induction ys with
  | nil =>
    change r ∈ object.free ↔ _
    simp
  | cons y ys ih =>
    have hys' : ∀ v ∈ ys, v.id < k := fun v hv => hys v (by simp [hv])
    have hle := increasing_abstractOver ys object k
    have hrest := abstractOver_idsBelow hobject hys'
    obtain ⟨body, hbody, hrefreshed, _⟩ :=
      mkLambda_spec hrest (Nat.lt_of_lt_of_le (hys y (by simp)) hle)
    rw [abstractOver_cons, Fresh.run_bind, hbody, free_lambda, OrderedSet.mem_erase,
      hrefreshed.free, ih hys']
    simp only [List.mem_cons, forall_eq_or_imp]
    tauto

/-- Only the first binder that no argument stands for is tested, so what follows it comes along
when there is no argument. -/
theorem confined_of_leaves {z : MetaVar} {args : List Term} {ys : List Var} {k : Nat}
    (hpart : PartOf whole scope object) (hobject : IdsBelow k object)
    (hys : ∀ y ∈ ys, y.id < k) (hlen : ys.length = args.length)
    (hinputs : args = [] → z.inputs = []) (hleaves : leaves scope args ys object = false) :
    Confined whole (.metaVar z) ((abstractOver ys object).run k).1 := by
  intro r hr
  obtain ⟨hfree, hnot⟩ := (mem_free_abstractOver hobject hys).mp hr
  rcases hpart.free r hfree with hwhole | ⟨y, rfl, hscope⟩
  · exact Or.inl hwhole
  · obtain ⟨hybinder, hybound⟩ := hpart.scope y hscope
    have hyfind : (y.binder && !ys.contains y) = true := by
      have hmem : y ∉ ys := fun hy => hnot y hy rfl
      simp [hybinder, hmem]
    unfold leaves at hleaves
    cases hfind : object.freeVars.find? fun y => y.binder && !ys.contains y with
    | none =>
      have hnone := List.find?_eq_none.mp hfind y (mem_freeVars.mpr hfree)
      exact absurd hyfind hnone
    | some v =>
      -- The binder that is found is let through: it is not in scope and there are no arguments.
      rw [hfind, Bool.or_eq_false_iff] at hleaves
      have hargs : args = [] := by simpa using hleaves.2
      subst hargs
      obtain rfl : ys = [] := List.length_eq_zero_iff.mp hlen
      have hvfree := mem_freeVars.mp (List.mem_of_find?_eq_some hfind)
      have hvbinder : v.binder := by simpa using List.find?_some hfind
      refine Or.inr ⟨v, y, rfl, ⟨z, rfl, hinputs rfl⟩, hvbinder, ?_, hvfree,
        id_le_of_find? hfind hfree hyfind, hfree, hybound⟩
      rcases hpart.free _ hvfree with hwhole | ⟨x, hx, hin⟩
      · exact hwhole
      · rw [← Replaceable.var.inj hx, hleaves.1] at hin
        cases hin

/-! ## Runs -/

/-- Below binders of the whole object, all new images are confined to what is free in it. -/
def Confines (whole : Term) (scope : Stack Var) (_ object : Term) (σ τ : Subst) : Prop :=
  PartOf whole scope object → ∀ q image, q.binder? = none → τ.get? q = some image →
    σ.get? q = some image ∨ Confined whole q image

theorem confines_set {pattern image : Term} {r : Replaceable} {σ : Subst}
    (h : PartOf whole scope object → Confined whole r image) :
    Confines whole scope pattern object σ (σ.set r image) := by
  intro hpart q t _ ht
  by_cases hq : q = r
  · subst hq
    rw [σ.get?_set_self] at ht
    cases ht
    exact Or.inr (h hpart)
  · rw [σ.get?_set_of_ne hq] at ht
    exact Or.inl ht

theorem respects_confines (n : Nat) (whole : Term) : Respects n (Confines whole) where
  refl _ _ _ _ _ _ _ _ h := Or.inl h
  trans scope pattern object ρ σ τ h h' hpart q image hq hτ := by
    rcases h' hpart q image hq hτ with hσ | hconfined
    · exact h hpart q image hq hσ
    · exact Or.inr hconfined
  setVar scope x object σ _ _ _ hout := by
    refine confines_set fun hpart r hr => Or.inl ?_
    rcases hpart.free r hr with hwhole | ⟨y, rfl, hin⟩
    · exact hwhole
    · rw [hout y hr] at hin
      cases hin
  setMeta scope z args object σ ys k hpattern hobject _ hk hys hlen hleaves := by
    refine confines_set fun hpart => ?_
    have hinputs : args = [] → z.inputs = [] := by
      rintro rfl
      exact hpattern.metaApp.2.1.symm
    exact confined_of_leaves hpart (hobject.mono hk).idsBelow (fun y hy => (hys y hy).1) hlen
      hinputs hleaves
  body scope x y body objectBody σ τ hx hy h hpart q image hq hτ := by
    have hne : q ≠ .var x := Replaceable.ne_of_binder hx hq
    rw [τ.get?_update_of_ne hne] at hτ
    rw [← σ.get?_set_of_ne hne (.var y)]
    exact h (hpart.body hy) q image hq hτ
  head scope head args object i σ τ h hpart := h (hpart.headPart i)
  arg scope head args object p o σ τ _ ho h hpart := h (hpart.arg ho)

end Matcher

namespace Term

variable {pattern object : Term} {γ : Subst} {n l : Nat}

theorem confined_of_success (hpattern : Sound n pattern) (hobject : Sound n object)
    (h : (pattern.matchTerm object).run n = (.ok (.success γ), l)) {q : Replaceable} {image : Term}
    (hq : γ.get? q = some image) : Confined object q image := by
  have hmatch := matchTerm_success_iff.mp h
  have hmatched := matched_of_success hpattern hobject (Subst.sound_empty n) hmatch
  have hbinder := (hmatched.found.added q rfl (by simp [hq])).2
  have hleads : Matcher.Leads n (Matcher.Confines object ∅ pattern object)
      (Matcher.term ∅ pattern object) :=
    (Matcher.respects_confines n object).leads_term pattern hpattern hobject
  have hruns := hleads ∅ n (Nat.le_refl n) (Subst.sound_empty n) (Matcher.partOf_refl object) q
    image hbinder
  rw [exec_of_success hmatch] at hruns
  rcases hruns hq with hnone | hconfined
  · cases hnone
  · exact hconfined

/-- A successful match lets no variable out of its scope, but for the images of meta-variables
without arguments where a free binder hides a bound one: what is free in any other image is free
in the object. -/
theorem images_free_iff (hpattern : Sound n pattern) (hobject : Sound n object)
    (h : (pattern.matchTerm object).run n = (.ok (.success γ), l)) :
    ∀ q image, γ.get? q = some image →
      ((∀ r ∈ image.free, r ∈ object.free) ↔ ∀ v y, ¬Hides object q image v y) :=
  fun _ _ hq => (confined_of_success hpattern hobject h hq).free_iff hobject.wf

/-- `λw.Z` matches `λy.f x` with the free binders `f` and `x`, which are all that is free in the
image `f x` of `Z`. -/
theorem images_free_of_unhidden :
    let o := SimpleType.base "o"
    let z : MetaVar := ⟨0, "Z", [], o⟩
    let f : Var := ⟨1, "f", .arrow o o, true⟩
    let x : Var := ⟨2, "x", o, true⟩
    let y : Var := ⟨3, "y", o, true⟩
    let w : Var := ⟨4, "w", o, true⟩
    let pattern := lambda w (metaApp z [])
    let object := lambda y (app (var f) [var x])
    let image := app (var f) [var x]
    (pattern.matchTerm object).run 5 = (.ok (.success (.set ∅ (.metaVar z) image)), 5) ∧
      ∀ r ∈ image.free, r ∈ object.free := by
  intro o z f x y w pattern object image
  have hpattern : Sound 5 pattern :=
    sound_lambda_metaApp (Or.inl rfl) rfl rfl (by decide) (by decide)
  have himage : Sound 5 image := sound_app_var rfl (by decide) (by decide)
  have hobject : Sound 5 object :=
    ⟨idsBelow_lambda_of (by decide) himage.idsBelow, .lambda rfl (by simp [boundAll]) himage.wf⟩
  have hrun : (pattern.matchTerm object).run 5 =
      (.ok (.success (.set ∅ (.metaVar z) image)), 5) := by cbv
  have hget : Subst.get? (.set ∅ (.metaVar z) image) (.metaVar z) = some image :=
    Subst.get?_set_self _ _ _
  refine ⟨hrun, (images_free_iff hpattern hobject hrun _ image hget).mpr fun v y' hides => ?_⟩
  have hfree : y' = f ∨ y' = x := by simpa [image, mem_freeAll] using hides.escapes
  have hbound : y' = y := by simpa [object, mem_boundAll] using hides.bound
  rw [hbound] at hfree
  exact absurd hfree (by decide)

/-- Only the first free binder is looked at: `λw.Z` matches `λy.f y` by the image `f y` of `Z`,
where the bound `y` has become free. -/
theorem bound_of_hidden_free :
    let o := SimpleType.base "o"
    let z : MetaVar := ⟨0, "Z", [], o⟩
    let f : Var := ⟨1, "f", .arrow o o, true⟩
    let y : Var := ⟨2, "y", o, true⟩
    let w : Var := ⟨3, "w", o, true⟩
    let pattern := lambda w (metaApp z [])
    let object := lambda y (app (var f) [var y])
    let image := app (var f) [var y]
    Sound 4 pattern ∧ Sound 4 object ∧
      (pattern.matchTerm object).run 4 = (.ok (.success (.set ∅ (.metaVar z) image)), 4) ∧
      .var y ∈ image.free ∧ y ∈ object.bound ∧ .var y ∉ object.free := by
  intro o z f y w pattern object image
  refine ⟨?_, ?_, by cbv, by simp [image, mem_freeAll], by simp [object],
    by simp [object]⟩
  · exact sound_lambda_metaApp (Or.inl rfl) rfl rfl (by decide) (by decide)
  · exact sound_lambda_app rfl rfl (by decide) (by decide)

end Term

end TermAlgebra
