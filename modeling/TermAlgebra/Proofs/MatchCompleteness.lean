import TermAlgebra.Proofs.Expansion
import TermAlgebra.Proofs.MatchDuality

/-!
# Matching finds the only solution

A solution guides the matcher: no check fails, and what is found expands to the images of the
solution. Main statement: `matchTerm_decides`, for patterns and objects without free binders.
-/

namespace TermAlgebra

namespace Term

/-! ## Patterns -/

theorem isPattern_app {head : Term} {args : List Term} (h : (app head args).isPattern) :
    head.isPattern ∧ ∀ t ∈ args, t.isPattern := by
  have hlist : ∀ ts : List Term, nonPatternIn? ts = none → ∀ t ∈ ts, t.isPattern := by
    intro ts hts
    induction ts with
    | nil => simp
    | cons t ts ih =>
      rw [nonPatternIn?, Option.or_eq_none_iff] at hts
      intro s hs
      rcases List.mem_cons.mp hs with rfl | hs
      · simp [isPattern, hts.1]
      · exact ih hts.2 s hs
  have hnone : (app head args).nonPattern? = none := by simpa [isPattern] using h
  rw [nonPattern?, Option.or_eq_none_iff] at hnone
  exact ⟨by simp [isPattern, hnone.1], hlist args hnone.2⟩

theorem isPattern_app_of {head : Term} {args : List Term} (hhead : head.isPattern)
    (hargs : ∀ t ∈ args, t.isPattern) : (app head args).isPattern := by
  have hlist : ∀ ts : List Term, (∀ t ∈ ts, t.isPattern) → nonPatternIn? ts = none := by
    intro ts hts
    induction ts with
    | nil => rfl
    | cons t ts ih =>
      rw [nonPatternIn?, Option.or_eq_none_iff]
      exact ⟨by simpa [isPattern] using hts t (by simp), ih fun s hs => hts s (by simp [hs])⟩
  have hnone : head.nonPattern? = none := by simpa [isPattern] using hhead
  simp [isPattern, nonPattern?, hnone, hlist args hargs]

theorem areDistinctBinders_eq {seen : List Var} {args : List Term}
    (h : areDistinctBinders seen args) :
    ∃ xs : List Var, args = xs.map var ∧ xs.Nodup ∧ ∀ x ∈ xs, x.binder ∧ x ∉ seen := by
  induction args generalizing seen with
  | nil => exact ⟨[], rfl, .nil, by simp⟩
  | cons t ts ih =>
    unfold areDistinctBinders at h
    cases hx : t.binder? with
    | none =>
      rw [hx] at h
      cases h
    | some x =>
      rw [hx] at h
      obtain ⟨rfl, hbinder⟩ := Matcher.binder?_eq_some.mp hx
      simp only [Bool.and_eq_true, Bool.not_eq_true', List.contains_eq_mem,
        decide_eq_false_iff_not] at h
      obtain ⟨xs, rfl, hnodup, hxs⟩ := ih h.2
      refine ⟨x :: xs, rfl, ?_, ?_⟩
      · exact List.nodup_cons.mpr ⟨fun hmem => (hxs x hmem).2 (by simp), hnodup⟩
      · intro v hv
        rcases List.mem_cons.mp hv with rfl | hv
        · exact ⟨hbinder, h.1⟩
        · exact ⟨(hxs v hv).1, fun hseen => (hxs v hv).2 (by simp [hseen])⟩

theorem isPattern_metaApp {z : MetaVar} {args : List Term} (h : (metaApp z args).isPattern) :
    ∃ xs : List Var, args = xs.map var ∧ xs.Nodup ∧ ∀ x ∈ xs, x.binder := by
  have hargs : areDistinctBinders [] args := by
    by_contra hnot
    simp [isPattern, nonPattern?, hnot] at h
  obtain ⟨xs, rfl, hnodup, hxs⟩ := areDistinctBinders_eq hargs
  exact ⟨xs, rfl, hnodup, fun x hx => (hxs x hx).1⟩

theorem areDistinctBinders_map {seen xs : List Var} (hxs : xs.Nodup)
    (h : ∀ x ∈ xs, x.binder ∧ x ∉ seen) : areDistinctBinders seen (xs.map var) := by
  induction xs generalizing seen with
  | nil => rfl
  | cons x xs ih =>
    obtain ⟨hnew, hxs⟩ := List.nodup_cons.mp hxs
    obtain ⟨hbinder, hseen⟩ := h x (by simp)
    have htail : areDistinctBinders (x :: seen) (xs.map var) := by
      refine ih hxs fun v hv => ⟨(h v (by simp [hv])).1, ?_⟩
      rw [List.mem_cons, not_or]
      exact ⟨fun e => hnew (e ▸ hv), (h v (by simp [hv])).2⟩
    rw [List.map_cons, areDistinctBinders]
    simp [binder?, hbinder, hseen, htail]

theorem isPattern_metaApp_of {z : MetaVar} {xs : List Var} (hxs : xs.Nodup)
    (hbinder : ∀ x ∈ xs, x.binder) : (metaApp z (xs.map var)).isPattern := by
  have hargs : areDistinctBinders [] (xs.map var) :=
    areDistinctBinders_map hxs fun x hx => ⟨hbinder x hx, by simp⟩
  simp [isPattern, nonPattern?, hargs]

/-- Patterns drop nothing of what their variables and meta-variables stand for. -/
theorem mentions_read_of_pattern {t : Term} (ht : t.isPattern) {V : Valuation} {r : Replaceable}
    (hr : r ∈ t.free) (hb : r.binder? = none) {image : Nameless} (e : V.image? r = some image)
    {y : Var} (hy : image.mentions y) : (t.read V).mentions y := by
  induction t using Term.induction generalizing V image with
  | literal v => simp at hr
  | const c => simp at hr
  | var x =>
    obtain rfl : r = .var x := by simpa using hr
    obtain rfl := Option.some.inj e
    exact hy
  | lambda x body ih =>
    rw [free_lambda, OrderedSet.mem_erase] at hr
    have hunder : (V.under x).image? r = some image.weaken := by
      cases r with
      | var v =>
        have hvx : v ≠ x := by simpa using hr.1
        obtain rfl := Option.some.inj e
        simp [Valuation.image?, Valuation.under, hvx]
      | metaVar z =>
        change (V.metaVar z).map Nameless.weaken = some image.weaken
        rw [show V.metaVar z = some image from e]
        rfl
    exact ih ht hr.2 hunder (Nameless.mentions_shift.mpr hy)
  | app head args ih ihs =>
    obtain ⟨hhead, hargs⟩ := isPattern_app ht
    rw [free_app, OrderedSet.mem_union, mem_freeAll] at hr
    rw [read_app, Nameless.mentions_apply]
    rcases hr with hr | ⟨t, hmem, hr⟩
    · exact Or.inl (ih hhead hr e hy)
    · exact Or.inr ⟨t.read V, List.mem_map_of_mem hmem, ihs t hmem (hargs t hmem) hr e hy⟩
  | metaApp z args ihs =>
    obtain ⟨xs, rfl, _, hxs⟩ := isPattern_metaApp ht
    rw [free_metaApp, OrderedSet.mem_insert, mem_freeAll] at hr
    rcases hr with rfl | ⟨t, hmem, hr⟩
    · rw [read_metaApp]
      simp only [Valuation.metaApp, show V.metaVar z = some image from e]
      exact Nameless.mentions_openLambdas hy
    · obtain ⟨x, hx, rfl⟩ := List.mem_map.mp hmem
      obtain rfl : r = .var x := by simpa using hr
      simp [Replaceable.binder?, hxs x hx] at hb

/-- What a term becomes by a substitution, apart from its names. -/
theorem exists_instance {t : Term} {θ : Subst} {m n : Nat} (ht : Sound n t) (hθ : θ.Sound m)
    (hm : n ≤ m) :
    ∃ s : Term, s.WellFormed ∧ s.ty = t.ty ∧ s.nameless = readBefore θ t .plain := by
  obtain ⟨hsound, hty⟩ := subst_sound hθ (ht.mono hm)
  exact ⟨_, hsound.wf, hty, nameless_instance hθ (ht.mono hm)⟩

end Term

namespace Matcher

open Term

variable {θ σ τ : Subst} {pattern object : Term} {scope : Stack Var} {k m n : Nat}

/-! ## Guided runs -/

/-- What is found expands to the images of the solution. -/
def Follows (θ σ : Subst) : Prop :=
  ∀ r image, r.binder? = none → σ.get? r = some image →
    image.nameless = (Valuation.plain.comp θ).expansion r

theorem follows_empty (θ : Subst) : Follows θ ∅ := by
  intro r image _ e
  cases e

theorem Follows.congr {θ' σ' : Subst} (h : Follows θ σ)
    (hθ : ∀ r, r.binder? = none → θ'.get? r = θ.get? r)
    (hσ : ∀ r, r.binder? = none → σ'.get? r = σ.get? r) : Follows θ' σ' := by
  intro r image hb e
  rw [h r image hb ((hσ r hb).symm.trans e)]
  cases r with
  | var x => simp [Valuation.expansion, Valuation.comp, hθ _ hb]
  | metaVar z =>
    apply Valuation.expand_congr
    simp [Valuation.comp, hθ _ hb]

/-- Binders free in the pattern stand for distinct binders that are not bound in the object, and
the other images of the solution contain no binders. -/
structure Aligned (θ σ : Subst) (pattern object : Term) : Prop where
  isPattern : pattern.isPattern
  bound : ∀ x, .var x ∈ pattern.free → x.binder → ∃ y : Var, y.binder ∧ y ∉ object.bound ∧
    σ.get? (.var x) = some (.var y) ∧ θ.get? (.var x) = some (.var y)
  injective : ∀ x x' image, .var x ∈ pattern.free → .var x' ∈ pattern.free → x.binder →
    x'.binder → σ.get? (.var x) = some image → σ.get? (.var x') = some image → x = x'
  clean : ∀ r ∈ pattern.free, r.binder? = none → ∀ image,
    (Valuation.plain.comp θ).image? r = some image → ∀ y : Var, y.binder → ¬image.mentions y

theorem Aligned.part {p o : Term} (h : Aligned θ σ pattern object) (hp : p.isPattern)
    (hfree : ∀ r ∈ p.free, r ∈ pattern.free) (hbound : ∀ y ∈ o.bound, y ∈ object.bound) :
    Aligned θ σ p o := by
  refine ⟨hp, ?_, ?_, ?_⟩
  · intro x hx hbinder
    obtain ⟨y, hy, hnot, hmapped⟩ := h.bound x (hfree _ hx) hbinder
    exact ⟨y, hy, fun hmem => hnot (hbound y hmem), hmapped⟩
  · exact fun x x' image hx hx' => h.injective x x' image (hfree _ hx) (hfree _ hx')
  · exact fun r hr => h.clean r (hfree r hr)

theorem Aligned.extends {F : OrderedSet Replaceable} (h : Aligned θ σ pattern object)
    (hτ : Subst.Extends F σ τ) : Aligned θ τ pattern object := by
  have hkept : ∀ x image, .var x ∈ pattern.free → x.binder → τ.get? (.var x) = some image →
      σ.get? (.var x) = some image := by
    intro x image hx hbinder e
    obtain ⟨y, _, _, hσ, _⟩ := h.bound x hx hbinder
    rw [hτ.kept _ _ hσ] at e
    rw [hσ, e]
  refine ⟨h.isPattern, ?_, ?_, h.clean⟩
  · intro x hx hbinder
    obtain ⟨y, hy, hnot, hσ, hθ⟩ := h.bound x hx hbinder
    exact ⟨y, hy, hnot, hτ.kept _ _ hσ, hθ⟩
  · intro x x' image hx hx' hb hb' e e'
    exact h.injective x x' image hx hx' hb hb' (hkept x image hx hb e) (hkept x' image hx' hb' e')

theorem Aligned.body {x y : Var} {body objectBody : Term}
    (h : Aligned θ σ (.lambda x body) (.lambda y objectBody)) (hx : x.binder) (hy : y.binder)
    (once : y ∉ objectBody.bound) :
    Aligned (θ.set (.var x) (.var y)) (σ.set (.var x) (.var y)) body objectBody := by
  have hset : ∀ (υ : Subst) (v : Var), v ≠ x →
      (υ.set (.var x) (.var y)).get? (.var v) = υ.get? (.var v) :=
    fun υ v hv => υ.get?_set_of_ne (by simpa using hv) (.var y)
  have hself : ∀ υ : Subst, (υ.set (.var x) (.var y)).get? (.var x) = some (.var y) :=
    fun υ => υ.get?_set_self (.var x) (.var y)
  have houter : ∀ v, .var v ∈ body.free → v ≠ x → v.binder → ∃ u : Var, u.binder ∧
      u ∉ objectBody.bound ∧ u ≠ y ∧ σ.get? (.var v) = some (.var u) ∧
        θ.get? (.var v) = some (.var u) := by
    intro v hv hvx hbinder
    obtain ⟨u, hu, hnot, hmapped⟩ := h.bound v (free_of_body hv (by simpa using hvx)) hbinder
    rw [bound_lambda, OrderedSet.mem_insert, not_or] at hnot
    exact ⟨u, hu, hnot.2, hnot.1, hmapped⟩
  refine ⟨h.isPattern, ?_, ?_, ?_⟩
  · intro v hv hbinder
    by_cases hvx : v = x
    · subst hvx
      exact ⟨y, hy, once, hself σ, hself θ⟩
    · obtain ⟨u, hu, hnot, _, hσ, hθ⟩ := houter v hv hvx hbinder
      exact ⟨u, hu, hnot, (hset σ v hvx).trans hσ, (hset θ v hvx).trans hθ⟩
  · have hmixed : ∀ v image, .var v ∈ body.free → v ≠ x → v.binder →
        (σ.set (.var x) (.var y)).get? (.var v) = some image → image ≠ .var y := by
      rintro v image hv hvx hbinder e rfl
      obtain ⟨u, _, _, huy, hσ, _⟩ := houter v hv hvx hbinder
      rw [hset σ v hvx, hσ] at e
      exact huy (Term.var.inj (Option.some.inj e))
    intro v v' image hv hv' hb hb' e e'
    by_cases hvx : v = x
    · subst hvx
      by_contra hne
      have himage := Option.some.inj ((hself σ).symm.trans e)
      exact hmixed v' image hv' (Ne.symm hne) hb' e' himage.symm
    · by_cases hvx' : v' = x
      · subst hvx'
        have himage := Option.some.inj ((hself σ).symm.trans e')
        exact absurd himage.symm (hmixed v image hv hvx hb e)
      · rw [hset σ v hvx] at e
        rw [hset σ v' hvx'] at e'
        exact h.injective v v' image (free_of_body hv (by simpa using hvx))
          (free_of_body hv' (by simpa using hvx')) hb hb' e e'
  · intro r hr hb image e
    have hrx : r ≠ .var x := Replaceable.ne_of_binder hx hb
    refine h.clean r (free_of_body hr hrx) hb image ?_
    rw [← e]
    cases r with
    | var v => simp [Valuation.image?, Valuation.comp, hset θ v (by simpa using hrx)]
    | metaVar z => simp [Valuation.image?, Valuation.comp, Subst.get?_set]

/-! ## Assignments -/

/-- An assignment of what the solution says succeeds. -/
theorem exec_assign_follows {r : Replaceable}
    (hold : ∀ image, σ.get? r = some image → image.nameless = object.nameless)
    (hnew : r.binder? = none → object.nameless = (Valuation.plain.comp θ).expansion r)
    (h : Follows θ σ) :
    ∃ τ l, exec (assign r object) σ k = ((.ok (), τ), l) ∧ Follows θ τ := by
  rw [exec_assign]
  cases e : σ.get? r with
  | some image =>
    have halpha := (alphaEquals_iff image object).mpr (hold image e)
    exact ⟨σ, k, if_pos halpha, h⟩
  | none =>
    refine ⟨_, k, rfl, fun q image hb himage => ?_⟩
    rw [Subst.get?_set] at himage
    split at himage
    · rename_i hq
      subst hq
      obtain rfl := Option.some.inj himage
      exact hnew hb
    · exact h q image hb himage

theorem complete_var {x : Var} (hobject : object.WellFormed)
    (hscope : ∀ y, scope.contains y → y.binder) (h : Aligned θ σ (.var x) object)
    (hreads : readBefore θ (.var x) .plain = object.nameless) (hfollow : Follows θ σ) :
    ∃ τ l, exec (var scope x object) σ k = ((.ok (), τ), l) ∧ Follows θ τ := by
  have hx : .var x ∈ (Term.var x).free := by simp
  have hold : ∀ image, σ.get? (.var x) = some image → image.nameless = object.nameless := by
    intro image e
    rw [← hreads]
    cases hbinder : x.binder with
    | true =>
      obtain ⟨y, _, _, hσ, hθ⟩ := h.bound x hx hbinder
      rw [hσ] at e
      obtain rfl := Option.some.inj e
      exact (readBefore_var hθ .plain).symm
    | false => exact hfollow _ image (by simp [Replaceable.binder?, hbinder]) e
  have hassigned := exec_assign_follows (k := k) hold (fun _ => hreads.symm) hfollow
  rw [exec_var]
  split
  · exact hassigned
  · rename_i hkey
    split
    · rename_i hbinder
      obtain ⟨y, _, _, hσ, _⟩ := h.bound x hx hbinder
      simp [Subst.contains, hσ] at hkey
    · rename_i hbinder
      split
      · rename_i y hfind
        have hmem := mem_freeVars.mp (List.mem_of_find?_eq_some hfind)
        have hy : y.binder := hscope y (List.find?_some hfind)
        rw [← mentions_nameless hobject, ← hreads] at hmem
        exact absurd hmem (h.clean _ hx (by simp [Replaceable.binder?, hbinder]) _ rfl y hy)
      · exact hassigned

/-! ## Meta-applications -/

theorem exists_images {xs : List Var} (hxs : xs.Nodup) (hbinder : ∀ x ∈ xs, x.binder)
    (hbound : ∀ x ∈ xs, ∃ y : Var, y.binder ∧ σ.get? (.var x) = some (.var y) ∧
      θ.get? (.var x) = some (.var y))
    (hinjective : ∀ x ∈ xs, ∀ x' ∈ xs, ∀ image, σ.get? (.var x) = some image →
      σ.get? (.var x') = some image → x = x') :
    ∃ ys : List Var, ys.Nodup ∧ (∀ y ∈ ys, ∃ x ∈ xs, σ.get? (.var x) = some (.var y)) ∧
      (xs.map Term.var).map (binderImage σ) = ys.map some ∧
      (xs.map Term.var).map (fun t => readBefore θ t .plain) = ys.map .free := by
  induction xs with
  | nil => exact ⟨[], .nil, by simp, rfl, rfl⟩
  | cons x xs ih =>
    obtain ⟨hnew, hxs⟩ := List.nodup_cons.mp hxs
    obtain ⟨ys, hys, hfrom, himages, hreads⟩ := ih hxs (fun v hv => hbinder v (by simp [hv]))
      (fun v hv => hbound v (by simp [hv]))
      fun v hv v' hv' => hinjective v (by simp [hv]) v' (by simp [hv'])
    obtain ⟨y, hy, hσ, hθ⟩ := hbound x (by simp)
    have himage : binderImage σ (.var x) = some y := by
      simp [binderImage, Term.binder?, hbinder x (by simp), hσ, hy]
    refine ⟨y :: ys, ?_, ?_, ?_, ?_⟩
    · refine List.nodup_cons.mpr ⟨fun hmem => ?_, hys⟩
      obtain ⟨v, hv, hvσ⟩ := hfrom y hmem
      obtain rfl := hinjective x (by simp) v (by simp [hv]) _ hσ hvσ
      exact hnew hv
    · intro u hu
      rcases List.mem_cons.mp hu with rfl | hu
      · exact ⟨x, by simp, hσ⟩
      · obtain ⟨v, hv, hvσ⟩ := hfrom u hu
        exact ⟨v, by simp [hv], hvσ⟩
    · simp only [List.map_cons, himage, himages]
    · have hread : readBefore θ (.var x) .plain = .free y := readBefore_var hθ .plain
      simp only [List.map_cons, hread, hreads]

theorem leaves_eq_false {args : List Term} {ys : List Var}
    (h : ∀ y, .var y ∈ object.free → y.binder → y ∈ ys) :
    leaves scope args ys object = false := by
  unfold leaves
  cases hfind : object.freeVars.find? fun y => y.binder && !ys.contains y with
  | none => rfl
  | some y =>
    have hy := List.find?_some hfind
    have hmem := mem_freeVars.mp (List.mem_of_find?_eq_some hfind)
    simp only [Bool.and_eq_true, Bool.not_eq_true', List.contains_eq_mem,
      decide_eq_false_iff_not] at hy
    exact absurd (h y hmem hy.1) hy.2

theorem complete_metaApp {z : MetaVar} {args : List Term}
    (hpattern : Term.Sound k (.metaApp z args)) (hobject : Term.Sound k object) (hσ : σ.Sound k)
    (h : Aligned θ σ (.metaApp z args) object)
    (hreads : readBefore θ (.metaApp z args) .plain = object.nameless) (hfollow : Follows θ σ) :
    ∃ τ l, exec (metaApp scope z args object) σ k = ((.ok (), τ), l) ∧ Follows θ τ := by
  obtain ⟨xs, rfl, hxs, hxbinder⟩ := isPattern_metaApp h.isPattern
  have hfree : ∀ x ∈ xs, .var x ∈ (Term.metaApp z (xs.map .var)).free := fun x hx =>
    free_of_mem_metaApp (List.mem_map_of_mem hx) (by simp)
  obtain ⟨ys, hys, hfrom, himages, hread⟩ := exists_images hxs hxbinder
    (fun x hx => by
      obtain ⟨y, hy, _, hmapped⟩ := h.bound x (hfree x hx) (hxbinder x hx)
      exact ⟨y, hy, hmapped⟩)
    fun x hx x' hx' image => h.injective x x' image (hfree x hx) (hfree x' hx')
      (hxbinder x hx) (hxbinder x' hx')
  obtain ⟨_, fits, hargs⟩ := hpattern.metaApp
  obtain ⟨hbinders, htys⟩ := binderImages_sound hσ hargs himages
  have hmeta : (Valuation.plain.comp θ).metaApp z (ys.map .free) = object.nameless := by
    rw [← hreads, readBefore, read_metaApp, ← hread]
  have hclean : ∀ image, (Valuation.plain.comp θ).metaVar z = some image →
      ∀ y : Var, y.binder → ¬image.mentions y :=
    h.clean (.metaVar z) (free_metaVar z _) rfl
  have hin : ∀ y, .var y ∈ object.free → y.binder → y ∈ ys := by
    intro y hy hbinder
    rw [← mentions_nameless hobject.wf, ← hmeta] at hy
    rcases Valuation.mentions_metaApp hy with ⟨image, e, hm⟩ | ⟨a, ha, hm⟩
    · exact absurd hm (hclean image e y hbinder)
    · obtain ⟨u, hu, rfl⟩ := List.mem_map.mp ha
      obtain rfl : u = y := hm
      exact hu
  have himage : ((abstractOver ys object).run k).1.nameless =
      (Valuation.plain.comp θ).expansion (.metaVar z) := by
    have hexpand := Valuation.expand_eq hys (htys.trans fits) fun image e y hy =>
      hclean image e y (hbinders y hy).2
    rw [abstractOver_nameless hobject hbinders, Valuation.plain_unders, read_relabel,
      read_plain hobject.wf, Valuation.expansion, hexpand, hmeta]
  rw [exec_metaApp_eq himages hys (leaves_eq_false hin)]
  exact exec_assign_follows (fun image e => (hfollow _ image rfl e).trans himage.symm)
    (fun _ => himage) hfollow

/-! ## Terms -/

theorem ty_eq_of_reads (hpattern : Term.Sound n pattern) (hθ : θ.Sound m) (hm : n ≤ m)
    (hreads : readBefore θ pattern .plain = object.nameless) : pattern.ty = object.ty := by
  obtain ⟨s, _, hty, hs⟩ := exists_instance hpattern hθ hm
  rw [← hty]
  exact ty_eq_of_nameless (hs.trans hreads)

/-- Every solution of what is left to match makes the run succeed, and what is found follows it. -/
def Complete (n m : Nat) (pattern : Term) : Prop :=
  ∀ ⦃scope : Stack Var⦄ ⦃object : Term⦄ ⦃θ σ : Subst⦄ ⦃k : Nat⦄, Term.Sound n object → n ≤ k →
    σ.Sound k → θ.Sound m → (∀ y, scope.contains y → y.binder) → Aligned θ σ pattern object →
      readBefore θ pattern .plain = object.nameless → Follows θ σ →
        ∃ τ l, exec (term scope pattern object) σ k = ((.ok (), τ), l) ∧ Follows θ τ

theorem complete_terms {ps os : List Term} (hlen : ps.length = os.length)
    (hps : ∀ p ∈ ps, Term.Sound n p) (hos : ∀ o ∈ os, Term.Sound n o) (hk : n ≤ k)
    (hσ : σ.Sound k) (hθ : θ.Sound m) (hscope : ∀ y, scope.contains y → y.binder)
    (haligned : ∀ p ∈ ps, ∀ o ∈ os, Aligned θ σ p o)
    (hreads : ps.map (fun t => readBefore θ t .plain) = os.map nameless) (hfollow : Follows θ σ)
    (ih : ∀ p ∈ ps, Complete n m p) :
    ∃ τ l, exec (terms scope ps os) σ k = ((.ok (), τ), l) ∧ Follows θ τ := by
  induction ps generalizing os with
  | nil => exact ⟨σ, k, by rw [terms_nil_left, exec_pure], hfollow⟩
  | cons p ps ihs =>
    cases os with
    | nil => cases hlen
    | cons o os =>
      have hps' : ∀ q ∈ ps, Term.Sound n q := fun q hq => hps q (by simp [hq])
      have hos' : ∀ u ∈ os, Term.Sound n u := fun u hu => hos u (by simp [hu])
      rw [List.map_cons, List.map_cons, List.cons.injEq] at hreads
      obtain ⟨ρ, j, hrest, hρfollow⟩ := ihs (Nat.succ.inj hlen) hps' hos'
        (fun q hq u hu => haligned q (by simp [hq]) u (by simp [hu])) hreads.2
        fun q hq => ih q (by simp [hq])
      obtain ⟨hle, hρ⟩ := sound_of_terms_ok hps' hos' hk hσ hrest
      have hextends := extends_of_terms_ok (Nat.succ.inj hlen) hrest
      have halign := (haligned p (by simp) o (by simp)).extends hextends
      obtain ⟨τ, l, hterm, hτ⟩ := ih p (by simp) (hos o (by simp)) (Nat.le_trans hk hle) hρ hθ
        hscope halign hreads.1 hρfollow
      refine ⟨τ, l, ?_, hτ⟩
      rw [exec_terms_cons, exec_bind, hrest]
      exact hterm

/-- An application reads as the object: the object has as many arguments, and they and what is in
front of them are read one by one. -/
theorem reads_app {head : Term} {args : List Term} (hpattern : Term.Sound n (.app head args))
    (hobject : object.WellFormed) (hθ : θ.Sound m) (hm : n ≤ m)
    (hreads : readBefore θ (.app head args) .plain = object.nameless) :
    args.length ≤ object.args.length ∧
      readBefore θ head .plain =
        (object.headPart (object.args.length - args.length)).nameless ∧
      args.map (fun t => readBefore θ t .plain) =
        (object.args.drop (object.args.length - args.length)).map nameless := by
  let i := object.args.length - args.length
  have happly : (readBefore θ head .plain).apply (args.map fun t => readBefore θ t .plain) =
      object.nameless := by
    rw [← hreads, readBefore, readBefore, read_app]
  have hcount : args.length ≤ object.args.length := by
    have hargs := congrArg (List.length ∘ Nameless.args) happly
    simp only [Function.comp_apply, Nameless.args_apply, nameless_args, List.length_append,
      List.length_map] at hargs
    omega
  have hobjectRead : object.nameless =
      (object.headPart i).nameless.apply ((object.args.drop i).map nameless) := by
    have hwf := headPart_wellFormed hobject i
    have hdrop : (object.args.drop i).map nameless = (object.args.drop i).map (Term.read .plain) :=
      List.map_congr_left fun o ho => (read_plain (hobject.args o (List.mem_of_mem_drop ho))).symm
    rw [hdrop, ← read_plain hwf, read_headPart, read_plain hobject]
  obtain ⟨s, hs, _, hsread⟩ := exists_instance hpattern.head hθ hm
  have hproper : (readBefore θ head .plain).Proper := by
    have hproper := nameless_proper hs
    rw [hsread] at hproper
    exact hproper
  have hlen : (args.map fun t => readBefore θ t .plain).length =
      ((object.args.drop i).map nameless).length := by
    simp only [List.length_map, List.length_drop, i]
    omega
  exact ⟨hcount, Nameless.apply_injective hproper
    (nameless_proper (headPart_wellFormed hobject i)) hlen (happly.trans hobjectRead)⟩

theorem exists_lambda_of_nameless {t : Term} {σ : SimpleType} {body : Nameless}
    (h : t.nameless = .lambda σ body) : ∃ y s, t = .lambda y s := by
  cases t with
  | lambda y s => exact ⟨y, s, rfl⟩
  | _ => cases h

theorem complete_lambda {x : Var} {body : Term} (hpattern : Term.Sound n (.lambda x body))
    (hm : n ≤ m) (ih : Complete n m body) : Complete n m (.lambda x body) := by
  intro scope object θ σ k hobject hk hσ hθ hscope h hreads hfollow
  have hty := ty_eq_of_reads hpattern hθ hm hreads
  obtain ⟨y, objectBody, rfl⟩ := exists_lambda_of_nameless hreads.symm
  obtain ⟨_, hxbinder, _⟩ := hpattern.lambda
  obtain ⟨_, hybinder, hobjectBody⟩ := hobject.lambda
  have once : y ∉ objectBody.bound := by
    cases hobject.wf with
    | lambda _ once _ => exact once
  have hxy : x.ty = y.ty := (Nameless.lambda.inj hreads).1
  have hset : ∀ (υ : Subst) j, n ≤ j → υ.Sound j → (υ.set (.var x) (.var y)).Sound j :=
    fun _ _ => sound_set_binder hpattern hobject hxy
  have hkey : ∀ r : Replaceable, r.binder? = none → r ≠ .var x := fun r =>
    Replaceable.ne_of_binder hxbinder
  have hother : ∀ (υ : Subst) r, r ≠ .var x → (υ.set (.var x) (.var y)).get? r = υ.get? r :=
    fun υ r hr => υ.get?_set_of_ne hr (.var y)
  have hbodyReads : readBefore (θ.set (.var x) (.var y)) body .plain = objectBody.nameless := by
    have hunder : body.read ((Valuation.plain.comp θ).under x) = namelessIn [y] objectBody :=
      (Nameless.lambda.inj hreads).2
    rw [← readBefore_opening (θ.get?_set_self (.var x) (.var y)) (hother θ), hunder,
      namelessIn_opening hobjectBody.wf]
  have hbodyScope : ∀ z, (scope.push y).contains z → z.binder := by
    intro z hz
    rcases Stack.contains_push.mp hz with rfl | hz
    · exact hybinder
    · exact hscope z hz
  have hbodyFollow : Follows (θ.set (.var x) (.var y)) (σ.set (.var x) (.var y)) :=
    hfollow.congr (fun r hb => hother θ r (hkey r hb)) fun r hb => hother σ r (hkey r hb)
  obtain ⟨ρ, l, hrun, hρ⟩ := ih hobjectBody hk (hset σ k hk hσ) (hset θ m hm hθ) hbodyScope
    (h.body hxbinder hybinder once) hbodyReads hbodyFollow
  refine ⟨ρ.update (.var x) (σ.get? (.var x)), l, ?_, ?_⟩
  · rw [exec_term_lambda hty, hrun]
  · refine hρ.congr (fun r hb => (hother θ r (hkey r hb)).symm) fun r hb => ?_
    exact ρ.get?_update_of_ne (hkey r hb) _

theorem complete_app {head : Term} {args : List Term}
    (hpattern : Term.Sound n (.app head args)) (hm : n ≤ m) (ih : Complete n m head)
    (ihs : ∀ p ∈ args, Complete n m p) : Complete n m (.app head args) := by
  intro scope object θ σ k hobject hk hσ hθ hscope h hreads hfollow
  have hty := ty_eq_of_reads hpattern hθ hm hreads
  obtain ⟨hhead, hargs⟩ := isPattern_app h.isPattern
  obtain ⟨hcount, hheadReads, hargsReads⟩ := reads_app hpattern hobject.wf hθ hm hreads
  have hobjects : ∀ o ∈ object.args.drop (object.args.length - args.length),
      Term.Sound n o := fun o ho => hobject.args o (List.mem_of_mem_drop ho)
  have hlen : args.length =
      (object.args.drop (object.args.length - args.length)).length := by
    rw [List.length_drop]
    omega
  have hargsAligned : ∀ p ∈ args,
      ∀ o ∈ object.args.drop (object.args.length - args.length), Aligned θ σ p o := by
    intro p hp o ho
    refine h.part (hargs p hp) (fun r hr => free_of_mem_app hp hr) fun y hy => ?_
    exact mem_bound_head_args.mpr (Or.inr ⟨o, List.mem_of_mem_drop ho, hy⟩)
  obtain ⟨ρ, j, hterms, hρfollow⟩ := complete_terms hlen hpattern.args hobjects hk hσ hθ hscope
    hargsAligned hargsReads hfollow ihs
  obtain ⟨hle, hρ⟩ := sound_of_terms_ok hpattern.args hobjects hk hσ hterms
  have hextends := extends_of_terms_ok hlen hterms
  have hheadAligned : Aligned θ ρ head
      (object.headPart (object.args.length - args.length)) :=
    (h.extends hextends).part hhead (fun r hr => free_of_head hr) fun y hy => headPart_bound hy
  obtain ⟨τ, l, hterm, hτ⟩ := ih (headPart_sound hobject _) (Nat.le_trans hk hle) hρ hθ hscope
    hheadAligned hheadReads hρfollow
  refine ⟨τ, l, ?_, hτ⟩
  rw [exec_term_app hty, if_neg (by omega), exec_bind, hterms]
  exact hterm

theorem complete_term (pattern : Term) (hpattern : Term.Sound n pattern) (hm : n ≤ m) :
    Complete n m pattern := by
  induction pattern using Term.induction with
  | literal v =>
    intro scope object θ σ k _ _ _ hθ _ _ hreads hfollow
    rw [exec_term_literal (ty_eq_of_reads hpattern hθ hm hreads)]
    exact ⟨σ, k, if_pos (beq_literal.mpr hreads.symm), hfollow⟩
  | const c =>
    intro scope object θ σ k _ _ _ hθ _ _ hreads hfollow
    rw [exec_term_const (ty_eq_of_reads hpattern hθ hm hreads)]
    exact ⟨σ, k, if_pos (beq_const.mpr hreads.symm), hfollow⟩
  | var x =>
    intro scope object θ σ k hobject _ _ hθ hscope h hreads hfollow
    rw [exec_term_var (ty_eq_of_reads hpattern hθ hm hreads)]
    exact complete_var hobject.wf hscope h hreads hfollow
  | lambda x body ih => exact complete_lambda hpattern hm (ih hpattern.lambda.2.2)
  | app head args ih ihs =>
    exact complete_app hpattern hm (ih hpattern.head) fun p hp => ihs p hp (hpattern.args p hp)
  | metaApp z args _ =>
    intro scope object θ σ k hobject hk hσ hθ _ h hreads hfollow
    rw [exec_term_metaApp (ty_eq_of_reads hpattern hθ hm hreads)]
    exact complete_metaApp (hpattern.mono hk) (hobject.mono hk) hσ h hreads hfollow

end Matcher

/-! ## The matching problem -/

/-- A well-typed substitution for non-binders, with variables drawn before `m`, that makes the
pattern the object. -/
structure Solves (pattern object : Term) (m : Nat) (θ : Subst) : Prop where
  sound : θ.Sound m
  keys : ∀ r ∈ θ.keys, r.binder? = none
  equal : ((pattern.subst θ).run m).1.alphaEquals object

namespace Term

variable {pattern object : Term} {γ θ : Subst} {l m n : Nat}

theorem Scoped.binder?_eq_none {t : Term} (h : t.Scoped) {r : Replaceable} (hr : r ∈ t.free) :
    r.binder? = none := by
  cases r with
  | var x => simp [Replaceable.binder?, h x hr]
  | metaVar z => rfl

theorem image?_comp {r : Replaceable} {t : Term} (h : γ.get? r = some t) (V : Valuation) :
    (V.comp γ).image? r = some (t.read V) := by
  cases r with
  | var x => simp [Valuation.image?, Valuation.comp, h]
  | metaVar z => simp [Valuation.image?, Valuation.comp, h]

theorem matchTerm_success_iff :
    (pattern.matchTerm object).run n = (.ok (.success γ), l) ↔
      (pattern.matchWith object ∅).run n = ((.ok (.success ()), γ), l) := by
  unfold matchTerm
  rw [Fresh.run_bind]
  rcases (pattern.matchWith object ∅).run n with ⟨⟨_ | ⟨⟨⟩⟩ | _, τ⟩, k⟩
  · exact ⟨fun h => (by cases h), fun h => (by cases h)⟩
  · constructor
    · intro h
      cases h
      rfl
    · intro h
      cases h
      rfl
  · exact ⟨fun h => (by cases h), fun h => (by cases h)⟩

theorem matchWith_of_exec {σ : Subst} (hpattern : pattern.isPattern)
    (h : Matcher.exec (Matcher.term ∅ pattern object) σ n = ((.ok (), γ), l)) :
    (pattern.matchWith object σ).run n = ((.ok (.success ()), γ), l) := by
  have hnone : pattern.nonPattern? = none := by simpa [isPattern] using hpattern
  unfold Matcher.exec at h
  unfold matchWith
  rw [hnone]
  dsimp only
  rw [Fresh.run_bind, h]
  rfl

/-- Every solution makes matching succeed, and what is found follows it. -/
theorem success_of_solves (hpattern : Sound n pattern) (hobject : Sound n object)
    (hp : pattern.isPattern) (hscoped : pattern.Scoped) (hscoped' : object.Scoped) (hm : n ≤ m)
    (h : Solves pattern object m θ) :
    ∃ γ l, (pattern.matchTerm object).run n = (.ok (.success γ), l) ∧ Matcher.Follows θ γ := by
  have hreads : readBefore θ pattern .plain = object.nameless := by
    rw [← nameless_instance h.sound (hpattern.mono hm)]
    exact (alphaEquals_iff _ _).mp h.equal
  have haligned : Matcher.Aligned θ ∅ pattern object := by
    refine ⟨hp, ?_, ?_, ?_⟩
    · intro x hx hbinder
      rw [hscoped x hx] at hbinder
      cases hbinder
    · intro x _ _ hx _ hbinder
      rw [hscoped x hx] at hbinder
      cases hbinder
    · intro r hr hb image e y hy hmentions
      have hread := mentions_read_of_pattern hp hr hb e hmentions
      rw [show pattern.read (Valuation.plain.comp θ) = object.nameless from hreads,
        mentions_nameless hobject.wf] at hread
      rw [hscoped' y hread] at hy
      cases hy
  have hscope : ∀ y, (∅ : Stack Var).contains y → y.binder := fun y hy => by cases hy
  obtain ⟨γ, l, hrun, hfollow⟩ := Matcher.complete_term pattern hpattern hm hobject
    (Nat.le_refl n) (Subst.sound_empty n) h.sound hscope haligned hreads
    (Matcher.follows_empty θ)
  exact ⟨γ, l, matchTerm_success_iff.mpr (matchWith_of_exec hp hrun), hfollow⟩

/-- What matching finds is a solution for the free variables and meta-variables of the pattern. -/
theorem solves_of_success (hpattern : Sound n pattern) (hobject : Sound n object)
    (hscoped : pattern.Scoped) (hscoped' : object.Scoped)
    (h : (pattern.matchTerm object).run n = (.ok (.success γ), l)) (hm : l ≤ m) :
    (∀ r, r ∈ γ.keys ↔ r ∈ pattern.free) ∧ Solves pattern object m γ := by
  have hmatch := matchTerm_success_iff.mp h
  have hmatched := matched_of_success hpattern hobject (Subst.sound_empty n) hmatch
  obtain ⟨hle, hγ⟩ := matchTerm_sound hpattern hobject
  rw [h] at hle hγ
  have hsound : γ.Sound m := (hγ γ rfl).mono hm
  have hkeys : ∀ r, r ∈ γ.keys ↔ r ∈ pattern.free := by
    intro r
    rw [← Subst.contains_iff, Subst.contains, Option.isSome_iff_ne_none]
    constructor
    · exact fun hr => (hmatched.found.added r rfl hr).1
    · exact fun hr => hmatched.found.covers r hr (hscoped.binder?_eq_none hr)
  have himages : γ.Scoped := by
    refine hmatched.keepsScoped (fun y hy hbinder => ?_) Subst.scoped_empty
    rw [hscoped' y hy] at hbinder
    cases hbinder
  refine ⟨hkeys, hsound, fun r hr => hscoped.binder?_eq_none ((hkeys r).mp hr), ?_⟩
  rw [alphaEquals_iff, nameless_instance hsound (hpattern.mono (Nat.le_trans hle hm))]
  apply hmatched.agrees
  intro y hy hmentions
  have hbinder : y.binder := hobject.wf.binder_of_bound hy
  obtain ⟨r, hr, image, e, himage⟩ := mentions_of_read hmentions
  have hb := hscoped.binder?_eq_none hr
  obtain ⟨t, ht⟩ := Option.ne_none_iff_exists'.mp (hmatched.found.covers r hr hb)
  have hwf := (hsound.image ht).2.2.wf
  rw [image?_comp ht, read_plain hwf] at e
  obtain rfl := Option.some.inj e
  rw [mentions_nameless hwf] at himage
  rw [himages r t hb ht y himage] at hbinder
  cases hbinder

/-- The image that matching finds expands to what any solution has in its place. -/
theorem follows_of_success (hpattern : Sound n pattern) (hobject : Sound n object)
    (hp : pattern.isPattern) (hscoped : pattern.Scoped) (hscoped' : object.Scoped)
    (h : (pattern.matchTerm object).run n = (.ok (.success γ), l)) (hm : n ≤ m)
    (hθ : Solves pattern object m θ) {r : Replaceable} (hr : r ∈ pattern.free) :
    ∃ image, γ.get? r = some image ∧
      image.nameless = (Valuation.plain.comp θ).expansion r := by
  obtain ⟨γ', l', hrun, hfollow⟩ := success_of_solves hpattern hobject hp hscoped hscoped' hm hθ
  obtain rfl : γ = γ' := by
    rw [h] at hrun
    cases hrun
    rfl
  obtain ⟨hkeys, _⟩ := solves_of_success hpattern hobject hscoped hscoped' h (Nat.le_refl l)
  have hkey := (hkeys r).mpr hr
  rw [← Subst.contains_iff, Subst.contains] at hkey
  obtain ⟨image, himage⟩ := Option.isSome_iff_exists.mp hkey
  exact ⟨image, himage, hfollow r image (hscoped.binder?_eq_none hr) himage⟩

/-- An image that expands to what a solution has for a variable is what the solution makes of it;
for a meta-variable, so it is when both are given the same binders. -/
theorem instance_var {x : Var} {image : Term} (hx : x.id < m) (hθ : θ.Sound m)
    (hfollow : image.nameless = (Valuation.plain.comp θ).expansion (.var x)) :
    (((var x).subst θ).run m).1.alphaEquals image := by
  rw [alphaEquals_iff, nameless_instance hθ ⟨idsBelow_var.mpr hx, .var x⟩, hfollow]
  rfl

theorem instance_metaVar {z : MetaVar} {image : Term} {ws : List Var} {j k : Nat}
    (hz : z.id < j) (hθ : θ.Sound j) (hkeys : ∀ r ∈ θ.keys, r.binder? = none)
    (himage : Sound k image) (hty : image.ty = z.ty)
    (hfollow : image.nameless = (Valuation.plain.comp θ).expansion (.metaVar z))
    (hws : ∀ w ∈ ws, w.binder ∧ w.id < j ∧ w.id < k) (fits : ws.map Var.ty = z.inputs) :
    (((metaApp z (ws.map var)).subst θ).run j).1.alphaEquals
      ((image.instantiate (ws.map var)).run k).1 := by
  have hargs : ∀ i, (∀ w ∈ ws, w.id < i) → ∀ s ∈ ws.map var, Sound i s := by
    intro i hi s hs
    obtain ⟨w, hw, rfl⟩ := List.mem_map.mp hs
    exact ⟨idsBelow_var.mpr (hi w hw), .var w⟩
  have htys : (ws.map var).map ty = z.inputs := by
    rw [← fits, List.map_map]
    exact List.map_congr_left fun w _ => by rw [Function.comp_apply, ty]
  have hlen : ws.length = z.arity := by
    rw [MetaVar.arity, ← fits, List.length_map]
  have happ : Sound j (metaApp z (ws.map var)) := by
    have hall := hargs j fun w hw => (hws w hw).2.1
    have hbound : boundAll (ws.map var) = ∅ := by
      apply OrderedSet.ext
      simp [mem_boundAll]
    refine ⟨idsBelow_metaApp.mpr ⟨hz, fun s hs => (hall s hs).idsBelow⟩,
      .metaApp htys (fun s hs => (hall s hs).wf) ?_⟩
    simp [Apart, hbound]
  have hnone : ∀ w ∈ ws, θ.get? (.var w) = none := by
    intro w hw
    by_contra hne
    have hkey : .var w ∈ θ.keys := by
      rw [← Subst.contains_iff, Subst.contains, Option.isSome_iff_ne_none]
      exact hne
    have hb := hkeys _ hkey
    simp [Replaceable.binder?, (hws w hw).1] at hb
  have hleft : (ws.map var).map (read (Valuation.plain.comp θ)) = ws.map .free := by
    rw [List.map_map]
    refine List.map_congr_left fun w hw => ?_
    change (Valuation.plain.comp θ).var w = .free w
    simp [Valuation.comp, hnone w hw, Valuation.plain]
  have hright : (ws.map var).map (read .plain) = ws.map .free := by
    rw [List.map_map]
    rfl
  have hty' : image.ty = .arrows ((ws.map var).map ty) z.output := by
    rw [hty, htys, MetaVar.ty]
  have hbuilt := instantiate_built himage.wf himage.idsBelow
    (hargs k fun w hw => (hws w hw).2.2) hty'
  rw [alphaEquals_iff, nameless_instance hθ happ, readBefore, read_metaApp, hleft,
    ← read_plain hbuilt.wf, hbuilt.read _ Valuation.plain_atomic, hright, read_plain himage.wf,
    Valuation.instantiate_expand himage.wf hfollow hlen]

/-- Matching decides whether a pattern can be made the object, and finds the only solution: its
images of variables are those of every other solution, and its images of meta-variables do for
binders what every other solution does. -/
theorem matchTerm_decides (hpattern : Sound n pattern) (hobject : Sound n object)
    (hp : pattern.isPattern) (hscoped : pattern.Scoped) (hscoped' : object.Scoped) :
    let result := (pattern.matchTerm object).run n
    ((∃ γ, result.1 = .ok (.success γ)) ↔ ∃ θ m, n ≤ m ∧ Solves pattern object m θ) ∧
    ∀ γ, result.1 = .ok (.success γ) →
      (∀ r, r ∈ γ.keys ↔ r ∈ pattern.free) ∧
      (∀ m, result.2 ≤ m → ((pattern.subst γ).run m).1.alphaEquals object) ∧
      ∀ θ m, n ≤ m → Solves pattern object m θ →
        (∀ x, .var x ∈ pattern.free → ∃ image, γ.get? (.var x) = some image ∧
          (((var x).subst θ).run m).1.alphaEquals image) ∧
        ∀ z, .metaVar z ∈ pattern.free → ∃ image, γ.get? (.metaVar z) = some image ∧
          ∀ (ws : List Var) (j k : Nat), m ≤ j → result.2 ≤ k →
            (∀ w ∈ ws, w.binder ∧ w.id < j ∧ w.id < k) → ws.map Var.ty = z.inputs →
            (((metaApp z (ws.map var)).subst θ).run j).1.alphaEquals
              ((image.instantiate (ws.map var)).run k).1 := by
  intro result
  have hresult : ∀ γ, result.1 = .ok (.success γ) →
      (pattern.matchTerm object).run n = (.ok (.success γ), result.2) := by
    intro γ e
    rw [← e]
    rfl
  refine ⟨⟨?_, ?_⟩, ?_⟩
  · rintro ⟨γ, e⟩
    have hle := (matchTerm_sound hpattern hobject).1
    have hsolves := solves_of_success hpattern hobject hscoped hscoped' (hresult γ e)
      (Nat.le_refl result.2)
    exact ⟨γ, result.2, hle, hsolves.2⟩
  · rintro ⟨θ, m, hm, hθ⟩
    obtain ⟨γ, l, hrun, _⟩ := success_of_solves hpattern hobject hp hscoped hscoped' hm hθ
    exact ⟨γ, congrArg Prod.fst hrun⟩
  · intro γ e
    have hfound := fun m hm =>
      solves_of_success hpattern hobject hscoped hscoped' (m := m) (hresult γ e) hm
    have hkeys := (hfound result.2 (Nat.le_refl _)).1
    refine ⟨hkeys, fun m hm => (hfound m hm).2.equal, fun θ m hm hθ => ?_⟩
    have himage : ∀ r ∈ pattern.free, ∃ image, γ.get? r = some image ∧
        image.nameless = (Valuation.plain.comp θ).expansion r := fun r =>
      follows_of_success hpattern hobject hp hscoped hscoped' (hresult γ e) hm hθ
    have hid : ∀ r ∈ pattern.free, r.id < m := fun r hr =>
      Nat.lt_of_lt_of_le (hpattern.idsBelow.1 r hr) hm
    refine ⟨fun x hx => ?_, fun z hz => ?_⟩
    · obtain ⟨image, hget, hfollowed⟩ := himage _ hx
      exact ⟨image, hget, instance_var (hid _ hx) hθ.sound hfollowed⟩
    · obtain ⟨image, hget, hfollowed⟩ := himage _ hz
      refine ⟨image, hget, fun ws j k hj hk hws fits => ?_⟩
      obtain ⟨_, hty, hsound⟩ := (hfound k hk).2.sound.image hget
      exact instance_metaVar (Nat.lt_of_lt_of_le (hid _ hz) hj) (hθ.sound.mono hj) hθ.keys hsound
        hty.symm hfollowed hws fits

/-- `λw.Z[w]` against `λy.f y`. -/
theorem matchTerm_decides_applied :
    let o := SimpleType.base "o"
    let z : MetaVar := ⟨0, "Z", [o], o⟩
    let f : Var := ⟨1, "f", .arrow o o, false⟩
    let y : Var := ⟨2, "y", o, true⟩
    let w : Var := ⟨3, "w", o, true⟩
    let pattern := lambda w (metaApp z [var w])
    let object := lambda y (app (var f) [var y])
    let γ := Subst.set ∅ (.metaVar z) object
    (pattern.matchTerm object).run 4 = (.ok (.success γ), 4) ∧
      (∀ r, r ∈ γ.keys ↔ r ∈ pattern.free) ∧
      ((pattern.subst γ).run 4).1.alphaEquals object := by
  intro o z f y w pattern object γ
  have hpattern : Sound 4 pattern :=
    sound_lambda_metaApp (Or.inr rfl) (by cbv) rfl (by decide) (by decide)
  have hobject : Sound 4 object := sound_lambda_app rfl rfl (by decide) (by decide)
  have hscoped : pattern.Scoped := scoped_lambda_metaApp
  have hscoped' : object.Scoped := scoped_lambda_app rfl
  have hrun : (pattern.matchTerm object).run 4 = (.ok (.success γ), 4) := by cbv
  have hdecides := matchTerm_decides hpattern hobject (by cbv) hscoped hscoped'
  rw [hrun] at hdecides
  obtain ⟨hkeys, hequal, _⟩ := hdecides.2 γ rfl
  exact ⟨hrun, hkeys, hequal 4 (Nat.le_refl 4)⟩

end Term

end TermAlgebra
