import Mathlib
import TermAlgebra.Proofs.MatcherFrame
import TermAlgebra.Proofs.MatcherSoundness

/-!
# What a match has found

A successful match extends the substitution so that the pattern reads as the object. Main
statement: `alphaEquals_iff_of_match`, the instance of the pattern is the object exactly when
nothing in it would be captured by a binder of the object.
-/

namespace TermAlgebra

theorem Stack.contains_push {scope : Stack Var} {x y : Var} :
    (scope.push x).contains y ↔ y = x ∨ scope.contains y := by
  simp [Stack.contains, Stack.push]

theorem Replaceable.ne_of_binder {x : Var} (hx : x.binder) {r : Replaceable}
    (hr : r.binder? = none) : r ≠ .var x := by
  rintro rfl
  simp [Replaceable.binder?, hx] at hr

namespace Term

/-- No binder occurs free. -/
def Scoped (t : Term) : Prop := ∀ y, .var y ∈ t.free → y.binder = false

theorem Scoped.congr {s t : Term} (h : t.Scoped) (hs : s.WellFormed) (ht : t.WellFormed)
    (heq : s.nameless = t.nameless) : s.Scoped := by
  intro y hy
  rw [← mentions_nameless hs, heq, mentions_nameless ht] at hy
  exact h y hy

end Term

namespace Subst

/-- No binder occurs free in the image of anything but a binder. -/
def Scoped (σ : Subst) : Prop :=
  ∀ r image, r.binder? = none → σ.get? r = some image → image.Scoped

theorem scoped_empty : Scoped ∅ := by
  intro r image _ e
  cases e

end Subst

namespace Term

theorem readBefore_congr {t : Term} {σ τ : Subst} (h : ∀ r ∈ t.free, σ.get? r = τ.get? r)
    (V : Valuation) : readBefore σ t V = readBefore τ t V := by
  apply read_congr
  · intro v hv
    simp [Valuation.comp, h _ hv]
  · intro z hz
    simp [Valuation.comp, h _ hz]

theorem readBefore_var {σ : Subst} {x : Var} {image : Term} (h : σ.get? (.var x) = some image)
    (V : Valuation) : readBefore σ (.var x) V = image.read V := by
  change (V.comp σ).var x = image.read V
  simp [Valuation.comp, h]

theorem readBefore_metaApp {σ : Subst} {z : MetaVar} {image : Term}
    (h : σ.get? (.metaVar z) = some image) (args : List Term) (V : Valuation) :
    readBefore σ (.metaApp z args) V =
      (image.read V).instantiate (args.map fun t => readBefore σ t V) := by
  rw [readBefore, read_metaApp]
  simp only [Valuation.metaApp, Valuation.comp, h, Option.map_some, Option.some_or]
  rfl

/-- What is below a binder reads, when the binder is opened, as if the substitution had it. -/
theorem readBefore_opening {σ τ : Subst} {x y : Var} (hx : τ.get? (.var x) = some (.var y))
    (hother : ∀ r, r ≠ .var x → τ.get? r = σ.get? r) (body : Term) :
    (body.read ((Valuation.plain.comp σ).under x)).relabel (Nameless.opening [y]) =
      readBefore τ body .plain := by
  rw [read_opening]
  apply read_congr
  · intro v _
    by_cases hvx : v = x
    · simp only [Valuation.update, Valuation.comp, hvx, hx, if_true]
      rfl
    · simp [Valuation.update, Valuation.comp, hvx, hother]
  · intro z _
    simp [Valuation.update, Valuation.comp, hother]

theorem beq_literal {t : Term} {v : Literal} :
    t == .literal v ↔ t.nameless = .literal v := by
  rw [beq_eq_same]
  cases t <;> simp [same, nameless, namelessIn, Nameless.ofVar]

theorem beq_const {t : Term} {c : Constant} :
    t == .const c ↔ t.nameless = .const c.name c.ty := by
  rw [beq_eq_same]
  cases t <;> simp [same, nameless, namelessIn, Nameless.ofVar, Constant.same]

theorem beq_var {t : Term} {x : Var} : t == .var x ↔ t.nameless = .free x := by
  rw [beq_eq_same]
  cases t <;> simp [same, nameless, namelessIn, Nameless.ofVar]

end Term

namespace Matcher

open Term

variable {α β : Type} {n k l : Nat} {scope : Stack Var} {σ τ : Subst}

/-! ## Successful runs -/

theorem exec_bind_ok {m : Matcher α} {f : α → Matcher β} {b : β}
    (h : exec (m >>= f) σ k = ((.ok b, τ), l)) :
    ∃ a ρ j, exec m σ k = ((.ok a, ρ), j) ∧ exec (f a) ρ j = ((.ok b, τ), l) := by
  rw [exec_bind] at h
  rcases e : exec m σ k with ⟨⟨_ | a, ρ⟩, j⟩
  · rw [e] at h
    cases h
  · rw [e] at h
    exact ⟨a, ρ, j, rfl, h⟩

/-- An assignment changes the image of its key at most, and only if there was none. -/
theorem assign_ok {r : Replaceable} {object : Term}
    (h : exec (assign r object) σ k = ((.ok (), τ), l)) :
    (∃ image, τ.get? r = some image ∧ image.nameless = object.nameless) ∧
      (∀ t, σ.get? r = some t → τ.get? r = some t) ∧ ∀ q, q ≠ r → τ.get? q = σ.get? q := by
  rw [exec_assign] at h
  cases e : σ.get? r with
  | some image =>
    rw [e] at h
    dsimp only at h
    split at h
    · rename_i halpha
      cases h
      exact ⟨⟨image, e, (alphaEquals_iff image object).mp halpha⟩, fun t ht => e.trans ht,
        fun _ _ => rfl⟩
    · cases h
  | none =>
    rw [e] at h
    cases h
    exact ⟨⟨object, σ.get?_set_self r object, rfl⟩, by simp, fun q hq => σ.get?_set_of_ne hq object⟩

/-- The pattern reads as the object, unless a binder of the object captures something. -/
def Agrees (τ : Subst) (pattern object : Term) : Prop :=
  (∀ y ∈ object.bound, ¬(readBefore τ pattern .plain).mentions y) →
    readBefore τ pattern .plain = object.nameless

theorem Agrees.congr {pattern object : Term} (h : Agrees σ pattern object)
    (hget : ∀ r ∈ pattern.free, τ.get? r = σ.get? r) : Agrees τ pattern object := by
  unfold Agrees
  rw [readBefore_congr hget]
  exact h

/-- All free binders of the object are in scope. -/
def Covers (scope : Stack Var) (object : Term) : Prop :=
  ∀ y, .var y ∈ object.free → y.binder → scope.contains y

/-- What a match of the pattern with the object achieves. -/
structure Matched (scope : Stack Var) (pattern object : Term) (σ τ : Subst) : Prop where
  found : Subst.Extends pattern.free σ τ
  agrees : Agrees τ pattern object
  keepsScoped : Covers scope object → σ.Scoped → τ.Scoped

theorem assign_scoped {r : Replaceable} {object : Term} (hobject : object.WellFormed)
    (hτ : τ.WellTyped) (h : exec (assign r object) σ k = ((.ok (), τ), l)) (hσ : σ.Scoped)
    (hnew : σ.get? r = none → object.Scoped) : τ.Scoped := by
  obtain ⟨⟨image, himage, heq⟩, hold, hother⟩ := assign_ok h
  intro q t hb e
  by_cases hq : q = r
  · subst hq
    cases eσ : σ.get? q with
    | some s =>
      rw [hold s eσ] at e
      obtain rfl := Option.some.inj e
      exact hσ q s hb eσ
    | none =>
      have hwf := (hτ _ _ e).2
      rw [himage] at e
      obtain rfl := Option.some.inj e
      exact (hnew eσ).congr hwf hobject heq
  · exact hσ q t hb ((hother q hq).symm.trans e)

theorem matched_var {x : Var} {object : Term} (hobject : object.WellFormed) (hτ : τ.WellTyped)
    (h : exec (var scope x object) σ k = ((.ok (), τ), l)) :
    Matched scope (.var x) object σ τ := by
  have hfound : Subst.Extends (Term.var x).free σ τ := (framed_var scope x object σ k).extends h
  have hassigned (h : exec (assign (.var x) object) σ k = ((.ok (), τ), l))
      (hnew : σ.get? (.var x) = none → ∀ y, .var y ∈ object.free → scope.contains y = false) :
      Matched scope (.var x) object σ τ := by
    refine ⟨hfound, fun _ => ?_, fun hcovers hσ => ?_⟩
    · obtain ⟨⟨image, himage, e⟩, _⟩ := assign_ok h
      rw [← e, readBefore_var himage, read_plain (hτ _ _ himage).2]
    · refine assign_scoped hobject hτ h hσ fun hnone y hy => ?_
      by_contra hbinder
      have hin := hcovers y hy (by simpa using hbinder)
      rw [hnew hnone y hy] at hin
      cases hin
  rw [exec_var] at h
  split at h
  · rename_i hkey
    refine hassigned h fun hnone => ?_
    simp [Subst.contains, hnone] at hkey
  · rename_i hkey
    split at h
    · rename_i hbinder
      split at h
      · rename_i hsame
        cases h
        have hnone : σ.get? (.var x) = none := by simpa [Subst.contains] using hkey
        refine ⟨hfound, fun _ => ?_, fun _ hσ => hσ⟩
        rw [beq_var.mp hsame]
        change (Valuation.plain.comp σ).var x = .free x
        simp [Valuation.comp, hnone, Valuation.plain]
      · cases h
    · rename_i hbinder
      split at h
      · cases h
      · rename_i hfind
        refine hassigned h fun _ y hy => ?_
        have hnot := List.find?_eq_none.mp hfind y (mem_freeVars.mpr hy)
        simpa using hnot

section

variable {x y : Var} {body objectBody : Term}

theorem agrees_lambda (hobject : (Term.lambda y objectBody).WellFormed) (hxy : x.ty = y.ty)
    (hx : τ.get? (.var x) = some (.var y)) (h : Agrees τ body objectBody)
    (image : Option Term) :
    Agrees (τ.update (.var x) image) (.lambda x body) (.lambda y objectBody) := by
  intro hmentions
  let W := Valuation.plain.comp (τ.update (.var x) image)
  have hopen : (body.read (W.under x)).relabel (Nameless.opening [y]) =
      readBefore τ body .plain :=
    readBefore_opening hx (fun r hr => (τ.get?_update_of_ne hr image).symm) body
  cases hobject with
  | lambda _ once wf =>
    have hnot : ∀ z ∈ objectBody.bound, ¬(readBefore τ body .plain).mentions z := by
      intro z hz hm
      rw [← hopen] at hm
      rcases Nameless.mentions_of_opening hm with hm | hzy
      · exact hmentions z (by simp [hz]) hm
      · obtain rfl := List.mem_singleton.mp hzy
        exact once hz
    have hbody := h hnot
    rw [← hopen, ← namelessIn_opening wf [y]] at hbody
    have heq : body.read (W.under x) = namelessIn [y] objectBody := by
      refine Nameless.relabel_opening_injective (by simp) ?_ ?_ hbody
      · intro z hz
        obtain rfl := List.mem_singleton.mp hz
        exact hmentions z (by simp)
      · intro z hz
        rw [namelessIn_eq wf]
        exact fun hm => (Nameless.mentions_of_closing hm).2 hz
    rw [readBefore, Term.read, heq, hxy]
    rfl

theorem covers_body (h : Covers scope (.lambda y objectBody)) :
    Covers (scope.push y) objectBody := by
  intro z hz hbinder
  rw [Stack.contains_push]
  by_cases hzy : z = y
  · exact Or.inl hzy
  · exact Or.inr (h z (free_of_body hz (by simpa using hzy)) hbinder)

theorem matched_lambda (hx : x.binder) (hobject : (Term.lambda y objectBody).WellFormed)
    (hxy : x.ty = y.ty)
    (hfound : Subst.Extends (Term.lambda x body).free σ (τ.update (.var x) (σ.get? (.var x))))
    (h : Matched (scope.push y) body objectBody (σ.set (.var x) (.var y)) τ) :
    Matched scope (.lambda x body) (.lambda y objectBody) σ
      (τ.update (.var x) (σ.get? (.var x))) := by
  have hinner : τ.get? (.var x) = some (.var y) :=
    h.found.kept _ _ (σ.get?_set_self (.var x) (.var y))
  refine ⟨hfound, agrees_lambda hobject hxy hinner h.agrees _, ?_⟩
  intro hcovers hσ
  have hkey : ∀ r : Replaceable, r.binder? = none → r ≠ .var x := fun r =>
    Replaceable.ne_of_binder hx
  have hτ := h.keepsScoped (covers_body hcovers) fun r t hb e =>
    hσ r t hb ((σ.get?_set_of_ne (hkey r hb) (.var y)).symm.trans e)
  exact fun r t hb e => hτ r t hb ((τ.get?_update_of_ne (hkey r hb) _).symm.trans e)

end

/-! ## Meta-applications -/

theorem binderImage_read {arg : Term} {y : Var} (h : binderImage σ arg = some y)
    (hτ : ∀ x, τ.get? (.var x) = σ.get? (.var x)) : readBefore τ arg .plain = .free y := by
  obtain ⟨x, hx, hy⟩ := Option.bind_eq_some_iff.mp h
  obtain ⟨rfl, _⟩ := binder?_eq_some.mp hx
  change (Valuation.plain.comp τ).var x = .free y
  simp only [Valuation.comp, hτ]
  cases e : σ.get? (.var x) with
  | none =>
    rw [e] at hy
    obtain rfl := Option.some.inj hy
    rfl
  | some image =>
    rw [e] at hy
    obtain ⟨rfl, _⟩ := binder?_eq_some.mp hy
    rfl

theorem binderImages_read {args : List Term} {ys : List Var}
    (h : args.map (binderImage σ) = ys.map some) (hτ : ∀ x, τ.get? (.var x) = σ.get? (.var x)) :
    args.map (fun t => readBefore τ t .plain) = ys.map .free := by
  have hreads : List.Forall₂ (fun t y => Nameless.free y = readBefore τ t .plain) args ys :=
    (Fresh.forall₂_of_map_eq h).imp fun t y ht => (binderImage_read ht.2 hτ).symm
  exact (Fresh.map_eq_map hreads).symm

/-- An accepted object has no free binders but those that the arguments stand for. -/
theorem mem_of_leaves {args : List Term} {ys : List Var} {object : Term}
    (h : leaves scope args ys object = false) (hcovers : Covers scope object) {y : Var}
    (hy : .var y ∈ object.free) (hbinder : y.binder) : y ∈ ys := by
  unfold leaves at h
  cases hfind : object.freeVars.find? fun y => y.binder && !ys.contains y with
  | none =>
    have hnot := List.find?_eq_none.mp hfind y (mem_freeVars.mpr hy)
    simpa [hbinder] using hnot
  | some x =>
    have hx := List.find?_some hfind
    have hmem := mem_freeVars.mp (List.mem_of_find?_eq_some hfind)
    have hxbinder : x.binder := by
      rw [Bool.and_eq_true] at hx
      exact hx.1
    rw [hfind] at h
    simp [hcovers x hmem hxbinder] at h

theorem abstractOver_scoped {ys : List Var} {object : Term} (hobject : Term.Sound n object)
    (hys : ∀ y ∈ ys, y.id < n ∧ y.binder)
    (hbinders : ∀ y, .var y ∈ object.free → y.binder → y ∈ ys) :
    ((abstractOver ys object).run n).1.Scoped := by
  intro y hy
  rw [← mentions_nameless (abstractOver_built hobject hys).wf, abstractOver_nameless hobject hys,
    Nameless.mentions_lambdas, Valuation.plain_unders, read_relabel, read_plain hobject.wf] at hy
  obtain ⟨hmentions, hnot⟩ := Nameless.mentions_of_closing hy
  by_contra hbinder
  have hmem := hbinders y ((mentions_nameless hobject.wf).mp hmentions) (by simpa using hbinder)
  exact hnot (List.mem_reverse.mpr hmem)

theorem matched_metaApp {z : MetaVar} {args : List Term} {object : Term}
    (hpattern : Term.Sound k (.metaApp z args)) (hobject : Term.Sound k object)
    (hσ : σ.Sound k) (hτ : τ.WellTyped)
    (h : exec (metaApp scope z args object) σ k = ((.ok (), τ), l)) :
    Matched scope (.metaApp z args) object σ τ := by
  rcases exec_metaApp scope z args object σ k with ⟨e, he⟩ | ⟨ys, hys, hleaves, he⟩
  · rw [h] at he
    cases he
  · rw [h] at he
    have hassigned := he.symm
    obtain ⟨⟨image, himage, hnameless⟩, _, hother⟩ := assign_ok hassigned
    obtain ⟨hbinders, htys⟩ := binderImages_sound hσ hpattern.metaApp.2.2 hys
    have hvars : ∀ x, τ.get? (.var x) = σ.get? (.var x) := fun x => hother _ (by simp)
    refine ⟨(framed_metaApp scope z args object σ k).extends h, fun _ => ?_,
      fun hcovers hscoped => ?_⟩
    · have hlen : (ys.map Var.ty).length = (ys.map Nameless.free).length := by simp
      rw [readBefore_metaApp himage, read_plain (hτ _ _ himage).2, hnameless,
        abstractOver_nameless hobject hbinders, binderImages_read hys hvars,
        Nameless.instantiate_lambdas hlen, ← List.map_reverse, fill_read_unders,
        read_plain hobject.wf]
    · have hwf := (abstractOver_built hobject hbinders).wf
      exact assign_scoped hwf hτ hassigned hscoped fun _ =>
        abstractOver_scoped hobject hbinders fun y => mem_of_leaves hleaves hcovers

/-! ## Terms -/

theorem sound_of_terms_ok {ps os : List Term} (hps : ∀ p ∈ ps, Term.Sound n p)
    (hos : ∀ o ∈ os, Term.Sound n o) (hk : n ≤ k) (hσ : σ.Sound k)
    (h : exec (terms scope ps os) σ k = ((.ok (), τ), l)) : k ≤ l ∧ τ.Sound l := by
  have hkeep : Keeps n (terms scope ps os) :=
    keeps_terms fun p hp o ho => keeps_term p (hps p hp) (hos o ho)
  have hleft := hkeep σ k hk hσ
  rw [h] at hleft
  exact hleft

/-- Successful runs from `n` on achieve a match of the pattern. -/
def Faithful (n : Nat) (pattern : Term) : Prop :=
  ∀ ⦃scope : Stack Var⦄ ⦃object : Term⦄ ⦃σ τ : Subst⦄ ⦃k l : Nat⦄, Term.Sound n object → n ≤ k →
    σ.Sound k → exec (term scope pattern object) σ k = ((.ok (), τ), l) →
      Matched scope pattern object σ τ

/-- What a match of patterns with as many objects achieves. -/
structure MatchedAll (scope : Stack Var) (patterns objects : List Term) (σ τ : Subst) : Prop where
  found : Subst.Extends (freeAll patterns) σ τ
  agrees : List.Forall₂ (Agrees τ) patterns objects
  keepsScoped : (∀ o ∈ objects, Covers scope o) → σ.Scoped → τ.Scoped

theorem agreesAll_congr {ps os : List Term} (h : List.Forall₂ (Agrees σ) ps os)
    (hget : ∀ r ∈ freeAll ps, τ.get? r = σ.get? r) : List.Forall₂ (Agrees τ) ps os := by
  induction h with
  | nil => exact .nil
  | cons hp _ ih =>
    simp only [freeAll, OrderedSet.mem_union] at hget
    exact .cons (hp.congr fun r hr => hget r (Or.inl hr)) (ih fun r hr => hget r (Or.inr hr))

theorem matched_terms {ps os : List Term} (hlen : ps.length = os.length)
    (hps : ∀ p ∈ ps, Term.Sound n p) (hos : ∀ o ∈ os, Term.Sound n o) (hk : n ≤ k)
    (hσ : σ.Sound k) (ih : ∀ p ∈ ps, Faithful n p)
    (h : exec (terms scope ps os) σ k = ((.ok (), τ), l)) : MatchedAll scope ps os σ τ := by
  have hfound := extends_of_terms_ok hlen h
  induction ps generalizing os τ l with
  | nil =>
    obtain rfl : os = [] := List.length_eq_zero_iff.mp hlen.symm
    rw [terms_nil_left] at h
    cases h
    exact ⟨hfound, .nil, fun _ hσ => hσ⟩
  | cons p ps ihs =>
    cases os with
    | nil => cases hlen
    | cons o os =>
      rw [exec_terms_cons] at h
      obtain ⟨_, ρ, j, hrest, hterm⟩ := exec_bind_ok h
      have hps' : ∀ q ∈ ps, Term.Sound n q := fun q hq => hps q (by simp [hq])
      have hos' : ∀ u ∈ os, Term.Sound n u := fun u hu => hos u (by simp [hu])
      obtain ⟨hle, hρ⟩ := sound_of_terms_ok hps' hos' hk hσ hrest
      have hmatched := ihs (Nat.succ.inj hlen) hps' hos' (fun q hq => ih q (by simp [hq])) hrest
        (extends_of_terms_ok (Nat.succ.inj hlen) hrest)
      have hlast := ih p (by simp) (hos o (by simp)) (Nat.le_trans hk hle) hρ hterm
      refine ⟨hfound, .cons hlast.agrees (agreesAll_congr hmatched.agrees fun r hr => ?_), ?_⟩
      · exact hmatched.found.get?_eq hlast.found hr
      · intro hcovers hscoped
        have hrest := hmatched.keepsScoped (fun u hu => hcovers u (by simp [hu])) hscoped
        exact hlast.keepsScoped (hcovers o (by simp)) hrest

theorem map_readBefore {ps os : List Term} (h : List.Forall₂ (Agrees τ) ps os)
    (hos : ∀ o ∈ os, o.WellFormed)
    (hnot : ∀ p ∈ ps, ∀ o ∈ os, ∀ y ∈ o.bound, ¬(readBefore τ p .plain).mentions y) :
    ps.map (fun t => readBefore τ t .plain) = os.map (Term.read .plain) := by
  induction h with
  | nil => rfl
  | @cons p o ps os hp _ ih =>
    have ho := hp (hnot p (by simp) o (by simp))
    have hrest := ih (fun u hu => hos u (by simp [hu]))
      fun q hq u hu => hnot q (by simp [hq]) u (by simp [hu])
    rw [List.map_cons, List.map_cons, ho, read_plain (hos o (by simp)), hrest]

theorem agrees_app {head object : Term} {args : List Term} {i : Nat}
    (hobject : object.WellFormed) (hhead : Agrees τ head (object.headPart i))
    (hargs : List.Forall₂ (Agrees τ) args (object.args.drop i)) :
    Agrees τ (.app head args) object := by
  intro hmentions
  have hparts : ∀ y ∈ object.bound, ¬(readBefore τ head .plain).mentions y ∧
      ∀ p ∈ args, ¬(readBefore τ p .plain).mentions y := by
    intro y hy
    have hnot := hmentions y hy
    rw [readBefore, read_app, Nameless.mentions_apply, not_or] at hnot
    exact ⟨hnot.1, fun p hp hm => hnot.2 ⟨_, List.mem_map_of_mem hp, hm⟩⟩
  have hhead' : readBefore τ head .plain = (object.headPart i).read .plain := by
    rw [hhead fun y hy => (hparts y (headPart_bound hy)).1,
      read_plain (headPart_wellFormed hobject i)]
  have hargs' : args.map (fun t => readBefore τ t .plain) =
      (object.args.drop i).map (Term.read .plain) := by
    refine map_readBefore hargs (fun o ho => hobject.args o (List.mem_of_mem_drop ho)) ?_
    intro p hp o ho y hy
    exact (hparts y (mem_bound_head_args.mpr (Or.inr ⟨o, List.mem_of_mem_drop ho, hy⟩))).2 p hp
  rw [← read_plain hobject, ← read_headPart object i, ← hhead', ← hargs']
  exact read_app _ head args

theorem ty_eq_of_ok {pattern object : Term}
    (h : exec (term scope pattern object) σ k = ((.ok (), τ), l)) : pattern.ty = object.ty := by
  by_contra hne
  rw [exec_term_of_ty_ne hne] at h
  cases h

theorem wellTyped_of_ok {pattern object : Term} (hpattern : Term.Sound n pattern)
    (hobject : Term.Sound n object) (hk : n ≤ k) (hσ : σ.Sound k)
    (h : exec (term scope pattern object) σ k = ((.ok (), τ), l)) : τ.WellTyped := by
  have hkeep : Keeps n (term scope pattern object) := keeps_term pattern hpattern hobject
  have hleft := (hkeep σ k hk hσ).2
  rw [h] at hleft
  exact hleft.wellTyped

theorem faithful_lambda {x : Var} {body : Term} (hpattern : Term.Sound n (.lambda x body))
    (ih : Faithful n body) : Faithful n (.lambda x body) := by
  intro scope object σ τ k l hobject hk hσ h
  have hfound := extends_of_term_ok h
  have hty := ty_eq_of_ok h
  cases object with
  | lambda y objectBody =>
    have hxy : x.ty = y.ty := binder_ty_eq hty
    have hset : (σ.set (.var x) (.var y)).Sound k := sound_set_binder hpattern hobject hxy hk hσ
    rw [exec_term_lambda hty] at h
    rcases e : exec (term (scope.push y) body objectBody) (σ.set (.var x) (.var y)) k with
      ⟨⟨r, ρ⟩, j⟩
    rw [e] at h
    cases h
    exact matched_lambda hpattern.lambda.2.1 hobject.wf hxy hfound (ih hobject.lambda.2.2 hk hset e)
  | _ =>
    rw [exec_term_lambda_of_not hty rfl] at h
    cases h

theorem faithful_app {head : Term} {args : List Term}
    (hpattern : Term.Sound n (.app head args)) (ih : Faithful n head)
    (ihs : ∀ p ∈ args, Faithful n p) : Faithful n (.app head args) := by
  intro scope object σ τ k l hobject hk hσ h
  have hfound := extends_of_term_ok h
  rw [exec_term_app (ty_eq_of_ok h)] at h
  split at h
  · cases h
  · rename_i hlen
    obtain ⟨_, ρ, j, hterms, hterm⟩ := exec_bind_ok h
    have hobjects : ∀ o ∈ object.args.drop (object.args.length - args.length),
        Term.Sound n o := fun o ho => hobject.args o (List.mem_of_mem_drop ho)
    have hcount : args.length =
        (object.args.drop (object.args.length - args.length)).length := by
      rw [List.length_drop]
      omega
    obtain ⟨hle, hρ⟩ := sound_of_terms_ok hpattern.args hobjects hk hσ hterms
    have hargs := matched_terms hcount hpattern.args hobjects hk hσ ihs hterms
    have hhead := ih (headPart_sound hobject _) (Nat.le_trans hk hle) hρ hterm
    refine ⟨hfound, agrees_app hobject.wf hhead.agrees (agreesAll_congr hargs.agrees ?_), ?_⟩
    · exact fun r hr => hargs.found.get?_eq hhead.found hr
    · intro hcovers hscoped
      have hmid := hargs.keepsScoped (fun o ho y hy => hcovers y
        (mem_free_head_args.mpr (Or.inr ⟨o, List.mem_of_mem_drop ho, hy⟩))) hscoped
      exact hhead.keepsScoped (fun y hy => hcovers y (headPart_free hy)) hmid

/-- A successful match extends the substitution to one that instantiates the pattern. -/
theorem faithful_term (pattern : Term) (hpattern : Term.Sound n pattern) :
    Faithful n pattern := by
  induction pattern using Term.induction with
  | literal v =>
    intro scope object σ τ k l _ _ _ h
    have hfound := extends_of_term_ok h
    rw [exec_term_literal (ty_eq_of_ok h)] at h
    split at h
    · rename_i hsame
      cases h
      exact ⟨hfound, fun _ => (beq_literal.mp hsame).symm, fun _ hσ => hσ⟩
    · cases h
  | const c =>
    intro scope object σ τ k l _ _ _ h
    have hfound := extends_of_term_ok h
    rw [exec_term_const (ty_eq_of_ok h)] at h
    split at h
    · rename_i hsame
      cases h
      exact ⟨hfound, fun _ => (beq_const.mp hsame).symm, fun _ hσ => hσ⟩
    · cases h
  | var x =>
    intro scope object σ τ k l hobject hk hσ h
    have hτ := wellTyped_of_ok hpattern hobject hk hσ h
    rw [exec_term_var (ty_eq_of_ok h)] at h
    exact matched_var hobject.wf hτ h
  | lambda x body ih => exact faithful_lambda hpattern (ih hpattern.lambda.2.2)
  | app head args ih ihs =>
    exact faithful_app hpattern (ih hpattern.head) fun p hp => ihs p hp (hpattern.args p hp)
  | metaApp z args _ =>
    intro scope object σ τ k l hobject hk hσ h
    have hτ := wellTyped_of_ok hpattern hobject hk hσ h
    rw [exec_term_metaApp (ty_eq_of_ok h)] at h
    exact matched_metaApp (hpattern.mono hk) (hobject.mono hk) hσ hτ h

end Matcher

namespace Term

variable {pattern object : Term} {σ τ : Subst} {m n n' : Nat}

theorem matched_of_success (hpattern : Sound n pattern) (hobject : Sound n object)
    (hσ : σ.Sound n) (h : (pattern.matchWith object σ).run n = ((.ok (.success ()), τ), n')) :
    Matcher.Matched ∅ pattern object σ τ :=
  Matcher.faithful_term pattern hpattern hobject (Nat.le_refl n) hσ (exec_of_success h)

/-- After a match, the instance of the pattern equals the object exactly when no variable is free
in the instance and bound in the object. -/
theorem instance_alphaEquals_iff (hpattern : Sound n pattern) (hobject : Sound n object)
    (hσ : σ.Sound n) (h : (pattern.matchWith object σ).run n = ((.ok (.success ()), τ), n'))
    (hm : n' ≤ m) :
    ((pattern.subst τ).run m).1.alphaEquals object ↔
      ∀ y, .var y ∈ ((pattern.subst τ).run m).1.free → y ∉ object.bound := by
  have hmatched := matched_of_success hpattern hobject hσ h
  have hleft := matchWith_sound hpattern hobject hσ
  rw [h] at hleft
  have hτ : τ.Sound m := hleft.2.mono hm
  have hpattern' : Sound m pattern := hpattern.mono (Nat.le_trans hleft.1 hm)
  have hwf := (subst_sound hτ hpattern').1.wf
  have hread := nameless_instance hτ hpattern'
  rw [alphaEquals_iff]
  constructor
  · intro heq y hy
    rw [← mentions_nameless hwf, heq, mentions_nameless hobject.wf] at hy
    exact hobject.wf.isApart y hy
  · intro hapart
    rw [hread]
    apply hmatched.agrees
    intro y hy hm
    rw [← hread, mentions_nameless hwf] at hm
    exact hapart y hm hy

theorem scoped_lambda_app {f y : Var} (hf : f.binder = false) :
    (lambda y (app (var f) [var y])).Scoped := by
  intro v hv
  simp only [free_lambda, free_app, free_var, OrderedSet.mem_erase, OrderedSet.mem_union,
    OrderedSet.mem_singleton, mem_freeAll, List.mem_singleton, exists_eq_left] at hv
  rcases hv.2 with h | h
  · rw [Replaceable.var.inj h, hf]
  · exact absurd h hv.1

theorem scoped_lambda_metaApp {w : Var} {z : MetaVar} : (lambda w (metaApp z [var w])).Scoped := by
  intro v hv
  simp only [free_lambda, free_metaApp, free_var, OrderedSet.mem_erase, OrderedSet.mem_insert,
    OrderedSet.mem_singleton, mem_freeAll, List.mem_singleton, exists_eq_left] at hv
  rcases hv.2 with h | h
  · cases h
  · exact absurd h hv.1

/-- `λw.Z[w]` matches `λy.f y`, and the image `λy.f y` of `Z` makes it the object again. -/
theorem instance_alphaEquals_of_applied :
    let o := SimpleType.base "o"
    let z : MetaVar := ⟨0, "Z", [o], o⟩
    let f : Var := ⟨1, "f", .arrow o o, false⟩
    let y : Var := ⟨2, "y", o, true⟩
    let w : Var := ⟨3, "w", o, true⟩
    let pattern := lambda w (metaApp z [var w])
    let object := lambda y (app (var f) [var y])
    (pattern.matchWith object ∅).run 4 =
        ((.ok (.success ()), Subst.set ∅ (.metaVar z) object), 4) ∧
      ((pattern.subst (.set ∅ (.metaVar z) object)).run 4).1.alphaEquals object := by
  intro o z f y w pattern object
  have hpattern : Sound 4 pattern :=
    sound_lambda_metaApp (Or.inr rfl) (by cbv) rfl (by decide) (by decide)
  have hobject : Sound 4 object := sound_lambda_app rfl rfl (by decide) (by decide)
  have hrun : (pattern.matchWith object ∅).run 4 =
      ((.ok (.success ()), Subst.set ∅ (.metaVar z) object), 4) := by cbv
  have hinstance := instance_alphaEquals_iff hpattern hobject (Subst.sound_empty 4) hrun
    (Nat.le_refl 4)
  have hfree : ((pattern.subst (.set ∅ (.metaVar z) object)).run 4).1.free =
      .singleton (.var f) := by cbv
  have hbound : object.bound = .singleton y := by cbv
  refine ⟨hrun, hinstance.mpr fun v hv => ?_⟩
  rw [hfree, OrderedSet.mem_singleton] at hv
  rw [hbound, OrderedSet.mem_singleton]
  rintro rfl
  exact absurd hv (by decide)

/-- Only the first free binder is looked at: `λw.Z` matches `λy.f y` by the image `f y` of `Z`,
although the `y` in it leaves its scope. -/
theorem instance_of_escaping_binder :
    let o := SimpleType.base "o"
    let z : MetaVar := ⟨0, "Z", [], o⟩
    let f : Var := ⟨1, "f", .arrow o o, true⟩
    let y : Var := ⟨2, "y", o, true⟩
    let w : Var := ⟨3, "w", o, true⟩
    let pattern := lambda w (metaApp z [])
    let object := lambda y (app (var f) [var y])
    let σ := Subst.set ∅ (.metaVar z) (app (var f) [var y])
    Sound 4 pattern ∧ Sound 4 object ∧
      (pattern.matchWith object ∅).run 4 = ((.ok (.success ()), σ), 4) ∧
      ((pattern.subst σ).run 4).1.alphaEquals object = false := by
  intro o z f y w pattern object σ
  refine ⟨?_, ?_, by cbv, by cbv⟩
  · exact sound_lambda_metaApp (Or.inl rfl) rfl rfl (by decide) (by decide)
  · exact sound_lambda_app rfl rfl (by decide) (by decide)

end Term

end TermAlgebra
