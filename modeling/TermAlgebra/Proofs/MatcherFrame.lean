import Mathlib
import TermAlgebra.Proofs.MatcherRuns
import TermAlgebra.Proofs.Reading
import TermAlgebra.Proofs.Substitution

/-!
# The frame of the matcher

Whatever its outcome is, a run of the matcher leaves all images of the substitution that it starts
from, and adds images only for what is free in the pattern and no binder; a run that succeeds adds
one for each of these. The entries for binders of the pattern do not outlive the body that they
are made for. Main statement: `matchWith_frame`.
-/

namespace TermAlgebra

theorem OrderedSet.union_comm (s t : OrderedSet Replaceable) : s ∪ t = t ∪ s := by
  apply OrderedSet.ext
  intro r
  rw [OrderedSet.mem_union, OrderedSet.mem_union, or_comm]

namespace Subst

/-- Keeps all images of `σ` and adds images only for what is in `F`, except for binders. -/
structure Grows (F : OrderedSet Replaceable) (σ τ : Subst) : Prop where
  kept : ∀ r t, σ.get? r = some t → τ.get? r = some t
  added : ∀ r, σ.get? r = none → τ.get? r ≠ none → r ∈ F ∧ r.binder? = none

/-- Keeps all images of `σ` and adds images for what is in `F`, except for binders. -/
structure Extends (F : OrderedSet Replaceable) (σ τ : Subst) : Prop extends Grows F σ τ where
  covers : ∀ r ∈ F, r.binder? = none → τ.get? r ≠ none

variable {F G : OrderedSet Replaceable} {ρ σ τ : Subst}

theorem grows_refl (F : OrderedSet Replaceable) (σ : Subst) : Grows F σ σ :=
  ⟨fun _ _ h => h, fun _ h h' => absurd h h'⟩

theorem Grows.mono (h : Grows F σ τ) (hFG : ∀ r ∈ F, r ∈ G) : Grows G σ τ :=
  ⟨h.kept, fun r hr hr' => (h.added r hr hr').imp_left (hFG r)⟩

theorem Grows.trans (h : Grows F ρ σ) (h' : Grows F σ τ) : Grows F ρ τ := by
  constructor
  · exact fun r t e => h'.kept r t (h.kept r t e)
  · intro r hr hr'
    cases e : σ.get? r with
    | none => exact h'.added r e hr'
    | some t => exact h.added r hr (by simp [e])

theorem Grows.union (h : Grows F ρ σ) (h' : Grows G σ τ) : Grows (F ∪ G) ρ τ :=
  (h.mono fun _ hr => OrderedSet.mem_union.mpr (Or.inl hr)).trans
    (h'.mono fun _ hr => OrderedSet.mem_union.mpr (Or.inr hr))

theorem grows_set {r : Replaceable} (hr : r ∈ F) (hb : r.binder? = none)
    (hnone : σ.get? r = none) (t : Term) : Grows F σ (σ.set r t) := by
  constructor
  · intro q s e
    rwa [σ.get?_set_of_ne (by rintro rfl; simp [hnone] at e)]
  · intro q e hne
    rw [get?_set] at hne
    split at hne
    · rename_i hq
      exact hq ▸ ⟨hr, hb⟩
    · exact absurd e hne

/-- What is put in place of an image for a while leaves no trace. -/
theorem Grows.of_set {r : Replaceable} {t : Term} (h : Grows F (σ.set r t) τ) :
    Grows (F.erase r) σ (τ.update r (σ.get? r)) := by
  constructor
  · intro q s e
    by_cases hq : q = r
    · rw [hq, get?_update_self, ← hq, e]
    · rw [τ.get?_update_of_ne hq]
      exact h.kept q s ((σ.get?_set_of_ne hq t).trans e)
  · intro q e hne
    have hq : q ≠ r := by
      rintro rfl
      exact hne ((τ.get?_update_self q _).trans e)
    rw [τ.get?_update_of_ne hq] at hne
    rw [OrderedSet.mem_erase]
    exact (h.added q ((σ.get?_set_of_ne hq t).trans e) hne).imp_left fun hqF => ⟨hq, hqF⟩

/-- What is found first stays as it is. -/
theorem Extends.get?_eq (h : Extends F ρ σ) (h' : Extends G σ τ) {r : Replaceable} (hr : r ∈ F) :
    τ.get? r = σ.get? r := by
  cases e : σ.get? r with
  | some t => exact h'.kept r t e
  | none =>
    by_contra hne
    have hb := (h'.added r e hne).2
    exact h.covers r hr hb e

theorem mem_keys_iff (σ : Subst) (r : Replaceable) : r ∈ σ.keys ↔ σ.get? r ≠ none := by
  rw [← contains_iff, contains, Option.isSome_iff_ne_none]

end Subst

namespace Matcher

open Term

variable {α β : Type} {F G : OrderedSet Replaceable} {scope : Stack Var} {σ : Subst} {n : Nat}

/-- A run from `σ` adds images only for what is in `F`, and if it succeeds, for all of it. -/
structure Framed (F : OrderedSet Replaceable) (σ : Subst)
    (run : (Except MatchError α × Subst) × Nat) : Prop where
  grows : Subst.Grows F σ run.1.2
  covers : ∀ a, run.1.1 = .ok a → ∀ r ∈ F, r.binder? = none → run.1.2.get? r ≠ none

theorem Framed.extends {run : (Except MatchError α × Subst) × Nat} (h : Framed F σ run) {a : α}
    {τ : Subst} {k : Nat} (hok : run = ((.ok a, τ), k)) : Subst.Extends F σ τ := by
  subst hok
  exact ⟨h.grows, h.covers a rfl⟩

theorem framed_error (e : MatchError) :
    Framed F σ (((.error e, σ), n) : (Except MatchError α × Subst) × Nat) :=
  ⟨Subst.grows_refl F σ, fun _ h => nomatch h⟩

theorem framed_ok (hF : ∀ r ∈ F, r.binder? ≠ none) (a : α) : Framed F σ ((.ok a, σ), n) :=
  ⟨Subst.grows_refl F σ, fun _ _ r hr hb => absurd hb (hF r hr)⟩

theorem framed_bind {m : Matcher α} {f : α → Matcher β} (hm : Framed F σ (exec m σ n))
    (hf : ∀ a τ k, Framed G τ (exec (f a) τ k)) : Framed (F ∪ G) σ (exec (m >>= f) σ n) := by
  rw [exec_bind]
  rcases e : exec m σ n with ⟨⟨_ | a, τ⟩, k⟩
  · rw [e] at hm
    exact ⟨hm.grows.mono fun _ hr => OrderedSet.mem_union.mpr (Or.inl hr), fun _ h => nomatch h⟩
  · rw [e] at hm
    have hlast := hf a τ k
    refine ⟨hm.grows.union hlast.grows, fun b hb r hr hrb => ?_⟩
    rcases OrderedSet.mem_union.mp hr with hr | hr
    · obtain ⟨t, ht⟩ := Option.ne_none_iff_exists'.mp (hm.covers a rfl r hr hrb)
      simp [hlast.grows.kept r t ht]
    · exact hlast.covers b hb r hr hrb

/-- An assignment is within a frame that has no more than its key to cover. -/
theorem framed_assign {r : Replaceable} (hr : r ∈ F)
    (hnew : σ.get? r = none → r.binder? = none) (hrest : ∀ q ∈ F, q ≠ r → q.binder? ≠ none)
    (object : Term) : Framed F σ (exec (assign r object) σ n) := by
  have hcovers : ∀ {τ : Subst}, τ.get? r ≠ none → ∀ q ∈ F, q.binder? = none →
      τ.get? q ≠ none := by
    intro τ hτ q hq hb
    by_cases hqr : q = r
    · exact hqr ▸ hτ
    · exact absurd hb (hrest q hq hqr)
  rw [exec_assign]
  cases e : σ.get? r with
  | none =>
    exact ⟨Subst.grows_set hr (hnew e) e object,
      fun _ _ => hcovers (by simp [σ.get?_set_self r object])⟩
  | some image =>
    dsimp only
    split
    · exact ⟨Subst.grows_refl F σ, fun _ _ => hcovers (by simp [e])⟩
    · exact framed_error _

theorem framed_var (scope : Stack Var) (x : Var) (object : Term) (σ : Subst) (n : Nat) :
    Framed (Term.var x).free σ (exec (var scope x object) σ n) := by
  have hassign (hnew : σ.get? (.var x) = none → Replaceable.binder? (.var x) = none) :
      Framed (Term.var x).free σ (exec (assign (.var x) object) σ n) :=
    framed_assign (by simp) hnew (fun q hq hne => absurd (by simpa using hq) hne) object
  cases hx : σ.get? (.var x) with
  | some image =>
    rw [exec_var_of_some hx]
    exact hassign fun h => by simp [hx] at h
  | none =>
    cases hbinder : x.binder with
    | true =>
      rw [exec_var_of_binder hx hbinder]
      split
      · exact framed_ok (by simp [Replaceable.binder?, hbinder]) ()
      · exact framed_error _
    | false =>
      rw [exec_var_of_plain hx hbinder]
      split
      · exact framed_error _
      · exact hassign fun _ => by simp [Replaceable.binder?, hbinder]

/-- Arguments that stand for binders have nothing else free. -/
theorem binder_of_binderImages {args : List Term} {ys : List Var}
    (hys : args.map (binderImage σ) = ys.map some) {r : Replaceable} (hr : r ∈ freeAll args) :
    r.binder? ≠ none := by
  obtain ⟨t, ht, hrt⟩ := mem_freeAll.mp hr
  have hmem : binderImage σ t ∈ ys.map some := hys ▸ List.mem_map_of_mem ht
  obtain ⟨y, _, hy⟩ := List.mem_map.mp hmem
  obtain ⟨x, hx, _⟩ := Option.bind_eq_some_iff.mp hy.symm
  obtain ⟨rfl, hbinder⟩ := binder?_eq_some.mp hx
  obtain rfl : r = .var x := by simpa using hrt
  simp [Replaceable.binder?, hbinder]

theorem framed_metaApp (scope : Stack Var) (z : MetaVar) (args : List Term) (object : Term)
    (σ : Subst) (n : Nat) :
    Framed (Term.metaApp z args).free σ (exec (metaApp scope z args object) σ n) := by
  rcases exec_metaApp scope z args object σ n with ⟨e, he⟩ | ⟨ys, hys, _, he⟩
  · rw [he]
    exact framed_error e
  · rw [he]
    refine framed_assign (by simp) (fun _ => rfl) (fun q hq hne => ?_) _
    rw [free_metaApp, OrderedSet.mem_insert] at hq
    exact binder_of_binderImages hys (hq.resolve_left hne)

/-! ## Terms -/

theorem framed_of_ty {pattern object : Term}
    (h : pattern.ty = object.ty → Framed F σ (exec (term scope pattern object) σ n)) :
    Framed F σ (exec (term scope pattern object) σ n) := by
  by_cases hty : pattern.ty = object.ty
  · exact h hty
  · rw [exec_term_of_ty_ne hty]
    exact framed_error _

/-- The frame of every run on the pattern is what is free in it. -/
def FramedByFree (pattern : Term) : Prop :=
  ∀ (scope : Stack Var) (object : Term) (σ : Subst) (n : Nat),
    Framed pattern.free σ (exec (term scope pattern object) σ n)

theorem framed_lambda {x : Var} {body : Term} (ih : FramedByFree body) :
    FramedByFree (.lambda x body) := by
  intro scope object σ n
  refine framed_of_ty fun hty => ?_
  cases object with
  | lambda y objectBody =>
    have hbody := ih (scope.push y) objectBody (σ.set (.var x) (.var y)) n
    rw [exec_term_lambda hty, free_lambda]
    refine ⟨hbody.grows.of_set, fun a ha r hr hb => ?_⟩
    rw [OrderedSet.mem_erase] at hr
    rw [Subst.get?_update_of_ne _ hr.1]
    exact hbody.covers a ha r hr.2 hb
  | _ =>
    rw [exec_term_lambda_of_not hty rfl]
    exact framed_error _

theorem framed_terms {ps os : List Term} (hlen : ps.length = os.length)
    (ih : ∀ p ∈ ps, FramedByFree p) (σ : Subst) (n : Nat) :
    Framed (freeAll ps) σ (exec (terms scope ps os) σ n) := by
  induction ps generalizing os σ n with
  | nil =>
    rw [terms_nil_left]
    exact framed_ok (by simp [freeAll]) ()
  | cons p ps ihs =>
    cases os with
    | nil => cases hlen
    | cons o os =>
      rw [exec_terms_cons, freeAll, OrderedSet.union_comm]
      refine framed_bind (ihs (Nat.succ.inj hlen) (fun q hq => ih q (by simp [hq])) σ n) ?_
      exact fun _ τ k => ih p (by simp) scope o τ k

theorem framed_app {head : Term} {args : List Term} (ih : FramedByFree head)
    (ihs : ∀ p ∈ args, FramedByFree p) : FramedByFree (.app head args) := by
  intro scope object σ n
  refine framed_of_ty fun hty => ?_
  rw [exec_term_app hty]
  split
  · exact framed_error _
  · rename_i hlen
    have hcount : args.length =
        (object.args.drop (object.args.length - args.length)).length := by
      rw [List.length_drop]
      omega
    rw [free_app, OrderedSet.union_comm]
    exact framed_bind (framed_terms hcount ihs σ n) fun _ τ k => ih scope _ τ k

theorem framed_term (pattern : Term) : FramedByFree pattern := by
  induction pattern using Term.induction with
  | literal v =>
    intro scope object σ n
    refine framed_of_ty fun hty => ?_
    rw [exec_term_literal hty]
    split
    · exact framed_ok (by simp) ()
    · exact framed_error _
  | const c =>
    intro scope object σ n
    refine framed_of_ty fun hty => ?_
    rw [exec_term_const hty]
    split
    · exact framed_ok (by simp) ()
    · exact framed_error _
  | var x =>
    intro scope object σ n
    refine framed_of_ty fun hty => ?_
    rw [exec_term_var hty]
    exact framed_var scope x object σ n
  | lambda x body ih => exact framed_lambda ih
  | app head args ih ihs => exact framed_app ih ihs
  | metaApp z args _ =>
    intro scope object σ n
    refine framed_of_ty fun hty => ?_
    rw [exec_term_metaApp hty]
    exact framed_metaApp scope z args object σ n

theorem extends_of_term_ok {pattern object : Term} {τ : Subst} {k : Nat}
    (h : exec (term scope pattern object) σ n = ((.ok (), τ), k)) :
    Subst.Extends pattern.free σ τ :=
  (framed_term pattern scope object σ n).extends h

theorem extends_of_terms_ok {ps os : List Term} {τ : Subst} {k : Nat}
    (hlen : ps.length = os.length) (h : exec (terms scope ps os) σ n = ((.ok (), τ), k)) :
    Subst.Extends (freeAll ps) σ τ :=
  (framed_terms hlen (fun p _ => framed_term p) σ n).extends h

end Matcher

namespace Term

variable {pattern object : Term} {σ τ : Subst} {n n' : Nat}

theorem exec_of_success
    (h : (pattern.matchWith object σ).run n = ((.ok (.success ()), τ), n')) :
    Matcher.exec (Matcher.term ∅ pattern object) σ n = ((.ok (), τ), n') := by
  unfold matchWith at h
  cases hp : pattern.nonPattern? with
  | some t =>
    rw [hp] at h
    cases h
  | none =>
    rw [hp] at h
    dsimp only at h
    rw [Fresh.run_bind] at h
    change _ = _ at h
    unfold Matcher.exec
    rcases e : ((Matcher.term ∅ pattern object).run.run σ).run n with ⟨⟨(m | p) | _, ρ⟩, k⟩
    · rw [e] at h
      cases h
    · rw [e] at h
      cases h
    · rw [e] at h
      cases h
      rfl

/-- What is left is within the frame when the pattern is refused up front, and in each of the
three outcomes of the run. -/
theorem grows_matchWith (pattern object : Term) (σ : Subst) (n : Nat) :
    Subst.Grows pattern.free σ ((pattern.matchWith object σ).run n).1.2 := by
  have hrun := (Matcher.framed_term pattern ∅ object σ n).grows
  unfold matchWith
  cases pattern.nonPattern? with
  | some t => exact Subst.grows_refl pattern.free σ
  | none =>
    dsimp only
    rw [Fresh.run_bind]
    unfold Matcher.exec at hrun
    rcases e : ((Matcher.term ∅ pattern object).run.run σ).run n with ⟨⟨(m | p) | _, τ⟩, k⟩ <;>
      rw [e] at hrun <;> exact hrun

/-- Matching only extends the substitution, whatever the outcome is: all images stay, a key is
added only for a variable or a meta-variable that is free in the pattern and no binder, and after
a success there is a key for each of these. So a binder has the image that it had before, also if
the pattern binds it. -/
theorem matchWith_frame (pattern object : Term) (σ : Subst) (n : Nat) :
    let run := (pattern.matchWith object σ).run n
    let τ := run.1.2
    (∀ r ∈ σ.keys, τ.get? r = σ.get? r) ∧
      (∀ r ∈ τ.keys, r ∉ σ.keys → r ∈ pattern.free ∧ r.binder? = none) ∧
      (run.1.1 = .ok (.success ()) →
        ∀ r, r ∈ τ.keys ↔ r ∈ σ.keys ∨ r ∈ pattern.free ∧ r.binder? = none) ∧
      ∀ x : Var, x.binder → τ.get? (.var x) = σ.get? (.var x) := by
  intro run τ
  have hgrows : Subst.Grows pattern.free σ τ := grows_matchWith pattern object σ n
  have hkept : ∀ r ∈ σ.keys, τ.get? r = σ.get? r := by
    intro r hr
    obtain ⟨t, ht⟩ := Option.ne_none_iff_exists'.mp ((σ.mem_keys_iff r).mp hr)
    rw [ht, hgrows.kept r t ht]
  have hadded : ∀ r ∈ τ.keys, r ∉ σ.keys → r ∈ pattern.free ∧ r.binder? = none := by
    intro r hr hnot
    rw [Subst.mem_keys_iff] at hr hnot
    exact hgrows.added r (not_not.mp hnot) hr
  refine ⟨hkept, hadded, fun hsuccess r => ?_, fun x hx => ?_⟩
  · have hrun : (pattern.matchWith object σ).run n = ((.ok (.success ()), τ), run.2) :=
      Prod.ext (Prod.ext hsuccess rfl) rfl
    have hextends : Subst.Extends pattern.free σ τ :=
      Matcher.extends_of_term_ok (exec_of_success hrun)
    constructor
    · intro hr
      by_cases hold : r ∈ σ.keys
      · exact Or.inl hold
      · exact Or.inr (hadded r hr hold)
    · rintro (hold | ⟨hfree, hb⟩)
      · rw [Subst.mem_keys_iff, hkept r hold]
        exact (σ.mem_keys_iff r).mp hold
      · exact (τ.mem_keys_iff r).mpr (hextends.covers r hfree hb)
  · by_cases hold : .var x ∈ σ.keys
    · exact hkept _ hold
    · have hnew : .var x ∉ τ.keys := fun hnew => by
        simpa [Replaceable.binder?, hx] using (hadded _ hnew hold).2
      rw [Subst.mem_keys_iff, not_not] at hold hnew
      rw [hold, hnew]

/-- `λx.Z[x]` matches `λy.y` although `x` has an image. While the matcher is below `λx`, the image
is `y`; afterwards it is the literal again, and the one new key is `Z`. -/
theorem matchWith_frame_restored :
    let o := SimpleType.base "o"
    let z : MetaVar := ⟨0, "Z", [o], o⟩
    let x : Var := ⟨1, "x", o, true⟩
    let y : Var := ⟨2, "y", o, true⟩
    let pattern := lambda x (metaApp z [var x])
    let σ := Subst.set ∅ (.var x) (literal (.int 0))
    ∃ τ, (pattern.matchWith (lambda y (var y)) σ).run 3 = ((.ok (.success ()), τ), 3) ∧
      τ.get? (.var x) = some (literal (.int 0)) ∧
      ∀ r, r ∈ τ.keys ↔ r = .var x ∨ r = .metaVar z := by
  intro o z x y pattern σ
  have hrun : (pattern.matchWith (lambda y (var y)) σ).run 3 =
      ((.ok (.success ()), σ.set (.metaVar z) (lambda y (var y))), 3) := by cbv
  obtain ⟨_, _, hkeys, hbinder⟩ := matchWith_frame pattern (lambda y (var y)) σ 3
  simp only [hrun] at hkeys hbinder
  refine ⟨_, hrun, (hbinder x rfl).trans (by cbv), fun r => ?_⟩
  have hfree : pattern.free = .singleton (.metaVar z) := by cbv
  have hold : σ.keys = [.var x] := by cbv
  rw [hkeys trivial r, hfree, hold, OrderedSet.mem_singleton, List.mem_singleton]
  constructor
  · exact Or.imp_right And.left
  · exact Or.imp_right fun hr => ⟨hr, hr ▸ rfl⟩

end Term

end TermAlgebra
