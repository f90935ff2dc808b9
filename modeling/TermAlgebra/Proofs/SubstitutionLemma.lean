import Mathlib
import TermAlgebra.Proofs.Opening
import TermAlgebra.Proofs.Substitution

/-!
# The substitution lemma

Substituting twice is substituting once by the composite, as long as the images of meta-variables
begin with an abstraction for every input. Without names, the image of a meta-variable may be
substituted before or after its leading binders are filled. Main statement: `subst_subst`.
-/

namespace TermAlgebra

namespace Nameless

/-! ## Filling twice -/

theorem fill_under (s s' : Label → Nameless) : fill (under s') ∘ under s = under (fill s' ∘ s) := by
  funext l
  rcases l with x | _ | i
  · exact (weaken_fill _ s').symm
  · rfl
  · exact (weaken_fill _ s').symm

theorem fill_fill (t : Nameless) (s s' : Label → Nameless) :
    (t.fill s).fill s' = t.fill (fill s' ∘ s) := by
  induction t using Nameless.induction generalizing s s' with
  | literal v => rfl
  | const c σ => rfl
  | free x => rfl
  | bound i => rfl
  | lambda σ body ih => simp only [fill, ih, fill_under]
  | app head args ih ihs =>
    have hargs := map_map_congr fun t ht => ihs t ht s s'
    simp only [fill, apply_fill, fillAll_eq_map, ih, hargs]
  | metaApp z args ihs =>
    have hargs := map_map_congr fun t ht => ihs t ht s s'
    simp only [fill, fillAll_eq_map, hargs]

/-- Free variables are filled by themselves. -/
def KeepsFree (s : Label → Nameless) : Prop := ∀ x, s (.free x) = free x

theorem KeepsFree.under {s : Label → Nameless} (h : KeepsFree s) : KeepsFree (under s) := by
  intro x
  rw [Nameless.under, h x]
  rfl

theorem keepsFree_environment (filled : List Nameless) : KeepsFree (environment filled) :=
  fun _ => rfl

end Nameless

namespace Term

open Nameless (Label KeepsFree environment)

/-- Only the binders that a term was read below can be filled. -/
theorem fill_read_congr (t : Term) {xs : List Var} {s s' : Label → Nameless}
    (hfree : ∀ x, s (.free x) = s' (.free x))
    (hbound : ∀ i < xs.length, s (.bound i) = s' (.bound i)) :
    (t.read (Valuation.plain.unders xs)).fill s = (t.read (Valuation.plain.unders xs)).fill s' := by
  rw [← read_fill t (plain_unders_metaVar xs), ← read_fill t (plain_unders_metaVar xs)]
  apply read_congr
  · intro v _
    simp only [Valuation.fill, plain_unders_var, Nameless.ofVar]
    cases hidx : xs.idxOf? v with
    | none => exact hfree v
    | some i => exact hbound i (List.idxOf?_eq_some_iff.mp hidx).1
  · exact fun _ _ => rfl

theorem fill_nameless {t : Term} (ht : t.WellFormed) {s : Label → Nameless} (hs : KeepsFree s) :
    t.nameless.fill s = t.nameless := by
  rw [← read_plain ht, ← read_fill t Valuation.plain_atomic.metaVar]
  exact read_congr t (fun v _ => hs v) fun _ _ => rfl

theorem fill_environment (t : Term) {xs : List Var} {s : Label → Nameless} (hs : KeepsFree s)
    {filled : List Nameless} (hlen : xs.length = filled.length) :
    ((t.read (Valuation.plain.unders xs)).fill (environment filled)).fill s =
      (t.read (Valuation.plain.unders xs)).fill (environment (filled.map (.fill s))) := by
  rw [Nameless.fill_fill]
  apply fill_read_congr
  · exact hs
  · intro i hi
    rw [hlen] at hi
    simp [environment, hi]

/-- Filling goes through the leading binders to the arguments. -/
theorem openLambdas_fill {t : Term} (ht : t.WellFormed) {s : Label → Nameless} (hs : KeepsFree s)
    (args filled : List Nameless) (xs : List Var) (hlen : xs.length = filled.length) :
    ((t.read (Valuation.plain.unders xs)).openLambdas args filled).fill s =
      (t.read (Valuation.plain.unders xs)).openLambdas (args.map (.fill s))
        (filled.map (.fill s)) := by
  induction args generalizing t xs filled with
  | nil =>
    rw [List.map_nil, Nameless.openLambdas_nil, Nameless.openLambdas_nil,
      fill_environment t hs hlen]
  | cons arg args ih =>
    cases hl : t.lambda? with
    | none =>
      have hnot := isLambda_read ht hl (Valuation.plain_atomic.unders xs)
      rw [Nameless.openLambdas_of_not_lambda hnot, Nameless.openLambdas_of_not_lambda hnot,
        Nameless.apply_fill, fill_environment t hs hlen]
    | some p =>
      cases ht with
      | @lambda x body _ _ wf =>
        exact ih wf (arg :: filled) (x :: xs) (by simp [hlen])
      | _ => cases hl

theorem instantiate_fill {t : Term} (ht : t.WellFormed) {s : Label → Nameless} (hs : KeepsFree s)
    (args : List Nameless) :
    (t.nameless.instantiate args).fill s = t.nameless.instantiate (args.map (.fill s)) := by
  rw [← read_plain ht]
  exact openLambdas_fill ht hs args [] [] rfl

/-- Number of abstractions that a term begins with. -/
def leadingLambdas : Term → Nat
  | lambda _ body => body.leadingLambdas + 1
  | _ => 0

end Term

namespace Nameless

/-! ## Filling and substituting -/

/-- The images are readings of terms, so that they have no loose indices. -/
def OfTerms (θ : Replaceable → Option Nameless) : Prop :=
  ∀ r image, θ r = some image → ∃ t : Term, t.WellFormed ∧ t.nameless = image

variable {θ : Replaceable → Option Nameless}

theorem OfTerms.relabel (h : OfTerms θ) {r : Replaceable} {image : Nameless}
    (e : θ r = some image) {ρ : Label → Label} (hρ : Label.Local ρ) : image.relabel ρ = image := by
  obtain ⟨t, ht, rfl⟩ := h r image e
  rw [← Term.read_plain ht]
  exact Term.relabel_read_plain t hρ

theorem OfTerms.subst_weaken (h : OfTerms θ) (t : Nameless) :
    (t.subst θ).weaken = t.weaken.subst θ :=
  subst_relabel (fun _ _ e _ hρ => h.relabel e hρ) t (Label.local_shift 1)

/-- What is filled in may be substituted before or after it is filled in. -/
theorem fill_subst (hθ : OfTerms θ) (t : Nameless) {s s' : Label → Nameless} (hs : KeepsFree s)
    (hs' : KeepsFree s') (hbound : ∀ i, s' (.bound i) = (s (.bound i)).subst θ) :
    (t.fill s).subst θ = (t.subst θ).fill s' := by
  induction t using Nameless.induction generalizing s s' with
  | literal v => rfl
  | const c σ => rfl
  | free x =>
    rw [fill, hs x, subst]
    cases e : θ (.var x) with
    | none => exact (hs' x).symm
    | some image =>
      obtain ⟨u, hu, rfl⟩ := hθ _ _ e
      exact (Term.fill_nameless hu hs').symm
  | bound i => exact (hbound i).symm
  | lambda σ body ih =>
    rw [fill, subst, subst, fill]
    congr 1
    refine ih hs.under hs'.under fun i => ?_
    cases i with
    | zero => rfl
    | succ i =>
      change (s' (.bound i)).weaken = (s (.bound i)).weaken.subst θ
      rw [hbound i, hθ.subst_weaken]
  | app head args ih ihs =>
    have hargs : (args.map (fill s)).map (subst θ) = (args.map (subst θ)).map (fill s') := by
      rw [map_map_congr fun t ht => ihs t ht hs hs' hbound, List.map_map]
      rfl
    simp only [fill, subst, apply_subst, apply_fill, fillAll_eq_map, substAll_eq_map,
      ih hs hs' hbound, hargs]
  | metaApp z args ihs =>
    have hargs : (args.map (fill s)).map (subst θ) = (args.map (subst θ)).map (fill s') := by
      rw [map_map_congr fun t ht => ihs t ht hs hs' hbound, List.map_map]
      rfl
    simp only [fill, subst, fillAll_eq_map, substAll_eq_map, hargs]
    cases e : θ (.metaVar z) with
    | none => simp only [fill, fillAll_eq_map]
    | some image =>
      obtain ⟨u, hu, rfl⟩ := hθ _ _ e
      exact (Term.instantiate_fill hu hs' _).symm

/-- Number of abstractions that a term begins with. -/
def leadingLambdas : Nameless → Nat
  | lambda _ body => body.leadingLambdas + 1
  | _ => 0

/-- When every argument fills a leading binder, substitution goes to the image and to the
arguments. -/
theorem openLambdas_subst (hθ : OfTerms θ) {t : Nameless} {args filled : List Nameless}
    (hlen : args.length ≤ t.leadingLambdas) :
    (t.openLambdas args filled).subst θ =
      (t.subst θ).openLambdas (args.map (subst θ)) (filled.map (subst θ)) := by
  induction args generalizing t filled with
  | nil =>
    rw [List.map_nil, openLambdas_nil, openLambdas_nil]
    refine fill_subst hθ t (keepsFree_environment _) (keepsFree_environment _) fun i => ?_
    by_cases hi : i < filled.length
    · simp [environment, hi]
    · simp [environment, hi, subst]
  | cons arg args ih =>
    cases t with
    | lambda σ body => exact ih (Nat.le_of_succ_le_succ hlen)
    | _ => cases hlen

theorem instantiate_subst (hθ : OfTerms θ) {image : Nameless} {args : List Nameless}
    (hlen : args.length ≤ image.leadingLambdas) :
    (image.instantiate args).subst θ = (image.subst θ).instantiate (args.map (subst θ)) :=
  openLambdas_subst hθ hlen

/-- The images of `θ`, substituted by `κ`, and those of `κ` for what `θ` leaves. -/
def andThen (θ κ : Replaceable → Option Nameless) (r : Replaceable) : Option Nameless :=
  ((θ r).map (subst κ)).or (κ r)

end Nameless

namespace Term

/-! ## Substituting twice -/

theorem leadingLambdas_namelessIn (t : Term) (xs : List Var) :
    (namelessIn xs t).leadingLambdas = t.leadingLambdas := by
  induction t using Term.induction generalizing xs with
  | lambda x body ih => rw [namelessIn, Nameless.leadingLambdas, leadingLambdas, ih]
  | var x =>
    rw [namelessIn, Nameless.ofVar]
    cases xs.idxOf? x <;> rfl
  | _ => rfl

theorem map_subst_subst {θ κ ω : Replaceable → Option Nameless} {args : List Term}
    {xs : List Var} (h : ∀ s ∈ args,
      ((namelessIn xs s).subst θ).subst κ = (namelessIn xs s).subst ω) :
    ((args.map (namelessIn xs)).map (Nameless.subst θ)).map (Nameless.subst κ) =
      (args.map (namelessIn xs)).map (Nameless.subst ω) := by
  refine Nameless.map_map_congr fun a ha => ?_
  obtain ⟨s, hs, rfl⟩ := List.mem_map.mp ha
  exact h s hs

/-- The second substitution goes to the images of the first one, and to what that leaves. -/
theorem subst_subst_namelessIn {θ κ : Replaceable → Option Nameless} (hκ : Nameless.OfTerms κ)
    {t : Term} (ht : t.WellFormed) (hlambdas : ∀ z image, θ (.metaVar z) = some image →
      z.arity ≤ image.leadingLambdas) (xs : List Var) :
    ((namelessIn xs t).subst θ).subst κ = (namelessIn xs t).subst (Nameless.andThen θ κ) := by
  induction ht generalizing xs with
  | literal v => rfl
  | const c => rfl
  | var x =>
    rw [namelessIn, Nameless.ofVar]
    cases xs.idxOf? x with
    | some i => rfl
    | none =>
      simp only [Nameless.subst, Nameless.andThen]
      cases θ (.var x) <;> rfl
  | lambda _ _ _ ih => simp only [namelessIn, Nameless.subst, ih]
  | @app head args _ _ _ _ _ _ ih ihs =>
    have hargs := map_subst_subst fun s hs => ihs s hs xs
    simp only [namelessIn, Nameless.subst, Nameless.apply_subst, namelessAllIn_eq_map,
      Nameless.substAll_eq_map, ih, hargs]
  | @metaApp z args fits _ _ ihs =>
    have hargs := map_subst_subst fun s hs => ihs s hs xs
    simp only [namelessIn, Nameless.subst, namelessAllIn_eq_map, Nameless.substAll_eq_map]
    cases e : θ (.metaVar z) with
    | none =>
      simp only [Nameless.andThen, e, Nameless.subst, Nameless.substAll_eq_map, hargs,
        Option.map_none, Option.none_or]
    | some image =>
      -- Every argument meets a binder of the image, so the second substitution passes through.
      have hlen : ((args.map (namelessIn xs)).map (Nameless.subst θ)).length ≤ image.leadingLambdas := by
        have hcount := congrArg List.length fits
        rw [List.length_map] at hcount
        rw [List.length_map, List.length_map, hcount]
        exact hlambdas z image e
      simp only [Nameless.instantiate_subst hκ hlen, Nameless.andThen, e, hargs, Option.map_some,
        Option.some_or]

end Term

namespace Subst

variable {σ τ ρ : Subst} {k m : Nat}

/-- Every key of `σ` has its image substituted by `τ`, with what is drawn from `m` on and before
`k`, and every other key of `τ` the image that it has there. -/
structure Composite (m k : Nat) (σ τ ρ : Subst) : Prop where
  le : m ≤ k
  first : ∀ r image, σ.get? r = some image →
    ∃ l, m ≤ l ∧ ((image.subst τ).run l).2 ≤ k ∧ ρ.get? r = some ((image.subst τ).run l).1
  second : ∀ r, σ.get? r = none → ρ.get? r = τ.get? r

/-- The images without names. -/
def nameless (σ : Subst) (r : Replaceable) : Option Nameless := (σ.get? r).map Term.nameless

theorem WellTyped.ofTerms (h : σ.WellTyped) : Nameless.OfTerms σ.nameless := by
  intro r image e
  obtain ⟨t, ht, rfl⟩ := Option.map_eq_some_iff.mp e
  exact ⟨t, (h r t ht).2, rfl⟩

theorem Composite.sound (h : Composite m k σ τ ρ) (hσ : σ.Sound m) (hτ : τ.Sound m) :
    ρ.Sound k := by
  have himages : ∀ r t, ρ.get? r = some t → r.id < k ∧ r.ty = t.ty ∧ Term.Sound k t := by
    intro r t e
    cases er : σ.get? r with
    | none => exact (hτ.mono h.le).image ((h.second r er).symm.trans e)
    | some image =>
      obtain ⟨l, hl, hlk, hr⟩ := h.first r image er
      obtain ⟨hid, hty, himage⟩ := hσ.image er
      obtain ⟨hsound, hty'⟩ := Term.subst_sound (hτ.mono hl) (himage.mono hl)
      obtain rfl := Option.some.inj (hr.symm.trans e)
      exact ⟨Nat.lt_of_lt_of_le hid h.le, hty.trans hty'.symm, hsound.mono hlk⟩
  exact ⟨fun r t e => ⟨(himages r t e).2.1, (himages r t e).2.2.wf⟩,
    fun r t e => ⟨(himages r t e).1, (himages r t e).2.2.idsBelow⟩⟩

theorem Composite.nameless (h : Composite m k σ τ ρ) (hσ : σ.Sound m) (hτ : τ.Sound m) :
    ρ.nameless = Nameless.andThen σ.nameless τ.nameless := by
  funext r
  unfold Nameless.andThen Subst.nameless
  cases er : σ.get? r with
  | none => rw [h.second r er, Option.map_none, Option.map_none, Option.none_or]
  | some image =>
    obtain ⟨l, hl, _, hr⟩ := h.first r image er
    have himage := (hσ.image er).2.2.mono hl
    rw [hr, Option.map_some, Option.map_some, Option.map_some, Option.some_or,
      Term.nameless_subst hτ.wellTyped (hτ.mono hl).idsBelow himage.wf himage.idsBelow]

/-- Puts the entries in front of `τ`, their images substituted by it. -/
def composeEntries (τ : Subst) : List (Replaceable × Term) → Fresh Subst
  | [] => return τ
  | (r, t) :: es => do
    let ρ ← composeEntries τ es
    return ρ.set r (← t.subst τ)

def andThen (σ τ : Subst) : Fresh Subst := composeEntries τ σ.entries

theorem composite_composeEntries (τ : Subst) (es : List (Replaceable × Term)) (m : Nat) :
    Composite m ((composeEntries τ es).run m).2 ⟨es⟩ τ ((composeEntries τ es).run m).1 := by
  induction es with
  | nil => exact ⟨Nat.le_refl m, fun _ _ e => (by cases e), fun _ _ => rfl⟩
  | cons e es ih =>
    rcases e with ⟨r, t⟩
    let l := ((composeEntries τ es).run m).2
    have hstep : (composeEntries τ ((r, t) :: es)).run m =
        (((composeEntries τ es).run m).1.set r ((t.subst τ).run l).1, ((t.subst τ).run l).2) := rfl
    have hle : l ≤ ((t.subst τ).run l).2 := Term.increasing_subst τ t l
    rw [hstep]
    refine ⟨Nat.le_trans ih.le hle, fun q image e => ?_, fun q e => ?_⟩
    · change ((r, t) :: es).lookup q = some image at e
      rw [lookup_cons] at e
      split at e
      · rename_i hq
        obtain rfl := Option.some.inj e
        exact ⟨l, ih.le, Nat.le_refl _, by rw [hq, get?_set_self]⟩
      · rename_i hq
        obtain ⟨j, hj, hjl, hget⟩ := ih.first q image e
        exact ⟨j, hj, Nat.le_trans hjl hle, by rw [get?_set_of_ne _ hq, hget]⟩
    · change ((r, t) :: es).lookup q = none at e
      rw [lookup_cons] at e
      split at e
      · cases e
      · rename_i hq
        rw [get?_set_of_ne _ hq, ih.second q e]

/-- Every two substitutions have a composite. -/
theorem composite_andThen (σ τ : Subst) (m : Nat) :
    Composite m ((σ.andThen τ).run m).2 σ τ ((σ.andThen τ).run m).1 :=
  composite_composeEntries τ σ.entries m

end Subst

namespace Term

variable {t : Term} {σ τ ρ : Subst} {i j k m n : Nat}

/-- Substituting by `σ` and then by `τ` is substituting by the composite, up to bound variables,
when no image of a meta-variable in `σ` has fewer leading abstractions than it has inputs. -/
theorem subst_subst (ht : Sound n t) (hσ : σ.Sound n) (hτ : τ.Sound m) (hnm : n ≤ m)
    (hlambdas : ∀ z image, σ.get? (.metaVar z) = some image → z.arity ≤ image.leadingLambdas)
    (hρ : Subst.Composite m k σ τ ρ) (hi : n ≤ i) (hij : ((t.subst σ).run i).2 ≤ j)
    (hmj : m ≤ j) :
    ((((t.subst σ).run i).1.subst τ).run j).1.alphaEquals ((t.subst ρ).run k).1 := by
  have hσm := hσ.mono hnm
  have hfirst := (subst_sound (hσ.mono hi) (ht.mono hi)).1.mono hij
  have hsecond := hρ.sound hσm hτ
  have htk := ht.mono (Nat.le_trans hnm hρ.le)
  have hlambdas' : ∀ z image, σ.nameless (.metaVar z) = some image →
      z.arity ≤ image.leadingLambdas := by
    intro z image e
    obtain ⟨s, hs, rfl⟩ := Option.map_eq_some_iff.mp e
    rw [nameless, leadingLambdas_namelessIn]
    exact hlambdas z s hs
  have honce : ((t.subst σ).run i).1.nameless = t.nameless.subst σ.nameless :=
    nameless_subst hσ.wellTyped (hσ.mono hi).idsBelow ht.wf (ht.mono hi).idsBelow
  have htwice : ((((t.subst σ).run i).1.subst τ).run j).1.nameless =
      ((t.subst σ).run i).1.nameless.subst τ.nameless :=
    nameless_subst hτ.wellTyped (hτ.mono hmj).idsBelow hfirst.wf hfirst.idsBelow
  have hcomposite : ((t.subst ρ).run k).1.nameless = t.nameless.subst ρ.nameless :=
    nameless_subst hsecond.wellTyped hsecond.idsBelow ht.wf htk.idsBelow
  rw [alphaEquals_iff, htwice, honce, hcomposite, hρ.nameless hσm hτ]
  exact subst_subst_namelessIn hτ.wellTyped.ofTerms ht.wf hlambdas' []

/-- `λw.Z[w]` with `Z := λv.f v` and then `f := λu.w`, whose free `w` no binder captures. -/
theorem subst_subst_under_binder :
    let o := SimpleType.base "o"
    let z : MetaVar := ⟨0, "Z", [o], o⟩
    let f : Var := ⟨1, "f", .arrow o o, false⟩
    let v : Var := ⟨2, "v", o, true⟩
    let w : Var := ⟨3, "w", o, true⟩
    let u : Var := ⟨4, "u", o, true⟩
    let t := lambda w (metaApp z [var w])
    let σ := Subst.set ∅ (.metaVar z) (lambda v (app (var f) [var v]))
    let τ := Subst.set ∅ (.var f) (lambda u (var w))
    let once := (t.subst σ).run 5
    let ρ := (σ.andThen τ).run 5
    ((once.1.subst τ).run once.2).1.alphaEquals ((t.subst ρ.1).run ρ.2).1 ∧
      ((t.subst ρ.1).run ρ.2).1.nameless =
        .lambda o (.app (.lambda o (.free w)) [.bound 0]) := by
  intro o z f v w u t σ τ once ρ
  have ht : Sound 5 t := sound_lambda_metaApp (Or.inr rfl) (by cbv) rfl (by decide) (by decide)
  have hfv : Sound 5 (lambda v (app (var f) [var v])) :=
    sound_lambda_app rfl rfl (by decide) (by decide)
  have huw : Sound 5 (lambda u (var w)) :=
    ⟨idsBelow_lambda_of (by decide) (idsBelow_var.mpr (by decide)), .lambda rfl (by simp) (.var w)⟩
  have hσ : σ.Sound 5 := (Subst.sound_empty 5).set (by decide) (by cbv) hfv
  have hτ : τ.Sound 5 := (Subst.sound_empty 5).set (by decide) (by cbv) huw
  have hlambdas : ∀ z' image, σ.get? (.metaVar z') = some image →
      z'.arity ≤ image.leadingLambdas := by
    intro z' image e
    rw [Subst.get?_set] at e
    split at e
    · rename_i hz
      obtain rfl := Replaceable.metaVar.inj hz
      obtain rfl := Option.some.inj e
      decide
    · cases e
  refine ⟨?_, by cbv⟩
  exact subst_subst ht hσ hτ (Nat.le_refl 5) hlambdas (Subst.composite_andThen σ τ 5)
    (Nat.le_refl 5) (Nat.le_refl _) (increasing_subst σ t 5)

end Term

end TermAlgebra
