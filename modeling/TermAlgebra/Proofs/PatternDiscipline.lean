import TermAlgebra.Proofs.MatchCompleteness
import TermAlgebra.Proofs.MatchInvariance

/-!
# The pattern discipline

The matcher asks for a pattern up front, and in four more places while it runs. For patterns
without free binders none of these is reached: the binders of the pattern in scope stay mapped to
distinct binders of the object in scope. Main statement: `patternRequired_iff`.
-/

namespace TermAlgebra

namespace Matcher

open Term

variable {α β : Type} {θ σ : Subst} {pattern object : Term} {scope : Stack Var} {k n : Nat}

/-- The outcome is not that a pattern is required. -/
def Orderly (result : Except MatchError α) : Prop := ∀ e, result ≠ .error (.pattern e)

theorem orderly_ok (a : α) : Orderly (.ok a) := fun _ h => by cases h

theorem orderly_mismatch (m : Mismatch) : Orderly (.error (.mismatch m) : Except MatchError α) :=
  fun _ h => by cases h

theorem orderly_bind {m : Matcher α} {f : α → Matcher β} (hm : Orderly (exec m σ k).1.1)
    (hf : ∀ a τ l, exec m σ k = ((.ok a, τ), l) → Orderly (exec (f a) τ l).1.1) :
    Orderly (exec (m >>= f) σ k).1.1 := by
  rw [exec_bind]
  rcases h : exec m σ k with ⟨⟨e | a, τ⟩, l⟩
  · rw [h] at hm
    intro e' he
    cases he
    exact hm e' rfl
  · exact hf a τ l h

theorem orderly_assign (r : Replaceable) (object : Term) (σ : Subst) (k : Nat) :
    Orderly (exec (assign r object) σ k).1.1 := by
  rw [exec_assign]
  cases σ.get? r with
  | none => exact orderly_ok ()
  | some image =>
    dsimp only
    split
    · exact orderly_ok ()
    · exact orderly_mismatch _

theorem orderly_var (scope : Stack Var) (x : Var) (object : Term) (σ : Subst) (k : Nat) :
    Orderly (exec (var scope x object) σ k).1.1 := by
  rw [exec_var]
  split
  · exact orderly_assign _ _ σ k
  · split
    · split
      · exact orderly_ok ()
      · exact orderly_mismatch _
    · split
      · exact orderly_mismatch _
      · exact orderly_assign _ _ σ k

/-- The arguments stand for distinct binders, and a binder that dangles is in scope. -/
theorem orderly_metaApp {z : MetaVar} {args : List Term} (h : Aligned θ σ (.metaApp z args) object)
    (hcovers : Covers scope object) : Orderly (exec (metaApp scope z args object) σ k).1.1 := by
  obtain ⟨xs, rfl, hxs, hxbinder⟩ := isPattern_metaApp h.isPattern
  have hfree : ∀ x ∈ xs, .var x ∈ (Term.metaApp z (xs.map .var)).free := fun x hx =>
    free_of_mem_metaApp (List.mem_map_of_mem hx) (by simp)
  obtain ⟨ys, hys, _, himages, _⟩ := exists_images hxs hxbinder
    (fun x hx => by
      obtain ⟨y, hy, _, hmapped⟩ := h.bound x (hfree x hx) (hxbinder x hx)
      exact ⟨y, hy, hmapped⟩)
    fun x hx x' hx' image => h.injective x x' image (hfree x hx) (hfree x' hx')
      (hxbinder x hx) (hxbinder x' hx')
  have hbinders := exec_binders_ok himages hys (.metaApp z (xs.map .var)) k
  cases hleaves : leaves scope (xs.map .var) ys object with
  | false =>
    rw [exec_metaApp_of_ok hbinders hleaves]
    exact orderly_assign _ _ σ _
  | true =>
    unfold leaves at hleaves
    cases hfind : object.freeVars.find? fun y => y.binder && !ys.contains y with
    | none =>
      rw [hfind] at hleaves
      cases hleaves
    | some y =>
      rw [hfind] at hleaves
      have hfree := mem_freeVars.mp (List.mem_of_find?_eq_some hfind)
      have hbinder : y.binder := (Bool.and_eq_true _ _ ▸ List.find?_some hfind).1
      rw [exec_metaApp_of_dangling scope hbinders hfind hleaves, if_pos (hcovers y hfree hbinder)]
      exact orderly_mismatch _

/-! ## Terms -/

/-- Runs on patterns whose binders in scope are mapped to those of the object are orderly. -/
def Disciplined (n : Nat) (pattern : Term) : Prop :=
  ∀ ⦃scope : Stack Var⦄ ⦃object : Term⦄ ⦃θ σ : Subst⦄ ⦃k : Nat⦄, Term.Sound n object → n ≤ k →
    σ.Sound k → Aligned θ σ pattern object → Covers scope object →
      Orderly (exec (term scope pattern object) σ k).1.1

theorem covers_headPart (h : Covers scope object) (i : Nat) : Covers scope (object.headPart i) :=
  fun y hy => h y (headPart_free hy)

theorem covers_arg (h : Covers scope object) {o : Term} (ho : o ∈ object.args) : Covers scope o :=
  fun y hy => h y (mem_free_head_args.mpr (Or.inr ⟨o, ho, hy⟩))

theorem disciplined_of_ty
    (h : ∀ (scope : Stack Var) (object : Term) (θ σ : Subst) (k : Nat), Term.Sound n object →
      n ≤ k → σ.Sound k → Aligned θ σ pattern object → Covers scope object →
      pattern.ty = object.ty → Orderly (exec (term scope pattern object) σ k).1.1) :
    Disciplined n pattern := by
  intro scope object θ σ k hobject hk hσ haligned hcovers
  by_cases hty : pattern.ty = object.ty
  · exact h scope object θ σ k hobject hk hσ haligned hcovers hty
  · rw [exec_term_of_ty_ne hty]
    exact orderly_mismatch _

theorem disciplined_lambda {x : Var} {body : Term} (hpattern : Term.Sound n (.lambda x body))
    (ih : Disciplined n body) : Disciplined n (.lambda x body) := by
  refine disciplined_of_ty fun scope object θ σ k hobject hk hσ h hcovers hty => ?_
  cases object with
  | lambda y objectBody =>
    have once : y ∉ objectBody.bound := by
      cases hobject.wf with
      | lambda _ once _ => exact once
    have hset := sound_set_binder hpattern hobject (binder_ty_eq hty) hk hσ
    rw [exec_term_lambda hty]
    exact ih hobject.lambda.2.2 hk hset (h.body hpattern.lambda.2.1 hobject.lambda.2.1 once)
      (covers_body hcovers)
  | _ =>
    rw [exec_term_lambda_of_not hty rfl]
    exact orderly_mismatch _

theorem orderly_terms {ps os : List Term} (hlen : ps.length = os.length)
    (hps : ∀ p ∈ ps, Term.Sound n p) (hos : ∀ o ∈ os, Term.Sound n o) (hk : n ≤ k)
    (hσ : σ.Sound k) (haligned : ∀ p ∈ ps, ∀ o ∈ os, Aligned θ σ p o)
    (hcovers : ∀ o ∈ os, Covers scope o) (ih : ∀ p ∈ ps, Disciplined n p) :
    Orderly (exec (terms scope ps os) σ k).1.1 := by
  induction ps generalizing os with
  | nil =>
    rw [terms_nil_left]
    exact orderly_ok ()
  | cons p ps ihs =>
    cases os with
    | nil => cases hlen
    | cons o os =>
      have hps' : ∀ q ∈ ps, Term.Sound n q := fun q hq => hps q (by simp [hq])
      have hos' : ∀ u ∈ os, Term.Sound n u := fun u hu => hos u (by simp [hu])
      rw [exec_terms_cons]
      refine orderly_bind ?_ fun _ τ l hrest => ?_
      · exact ihs (Nat.succ.inj hlen) hps' hos'
          (fun q hq u hu => haligned q (by simp [hq]) u (by simp [hu]))
          (fun u hu => hcovers u (by simp [hu])) fun q hq => ih q (by simp [hq])
      · obtain ⟨hle, hτ⟩ := sound_of_terms_ok hps' hos' hk hσ hrest
        have hextends := extends_of_terms_ok (Nat.succ.inj hlen) hrest
        exact ih p (by simp) (hos o (by simp)) (Nat.le_trans hk hle) hτ
          ((haligned p (by simp) o (by simp)).extends hextends) (hcovers o (by simp))

theorem disciplined_app {head : Term} {args : List Term}
    (hpattern : Term.Sound n (.app head args)) (ih : Disciplined n head)
    (ihs : ∀ p ∈ args, Disciplined n p) : Disciplined n (.app head args) := by
  refine disciplined_of_ty fun scope object θ σ k hobject hk hσ h hcovers hty => ?_
  rw [exec_term_app hty]
  split
  · exact orderly_mismatch _
  · obtain ⟨hhead, hargs⟩ := isPattern_app h.isPattern
    let i := object.args.length - args.length
    have hmem : ∀ o ∈ object.args.drop i, o ∈ object.args := fun o => List.mem_of_mem_drop
    have hos : ∀ o ∈ object.args.drop i, Term.Sound n o := fun o ho => hobject.args o (hmem o ho)
    have hlen : args.length = (object.args.drop i).length := by
      rw [List.length_drop]
      omega
    have haligned : ∀ p ∈ args, ∀ o ∈ object.args.drop i, Aligned θ σ p o := fun p hp o ho =>
      h.part (hargs p hp) (fun r hr => free_of_mem_app hp hr) fun y hy =>
        mem_bound_head_args.mpr (Or.inr ⟨o, hmem o ho, hy⟩)
    refine orderly_bind ?_ fun _ τ l hterms => ?_
    · exact orderly_terms hlen hpattern.args hos hk hσ haligned
        (fun o ho => covers_arg hcovers (hmem o ho)) ihs
    · obtain ⟨hle, hτ⟩ := sound_of_terms_ok hpattern.args hos hk hσ hterms
      have hextends := extends_of_terms_ok hlen hterms
      exact ih (headPart_sound hobject i) (Nat.le_trans hk hle) hτ
        ((h.extends hextends).part hhead (fun r hr => free_of_head hr) fun y hy =>
          headPart_bound hy) (covers_headPart hcovers i)

theorem disciplined_term (pattern : Term) (hpattern : Term.Sound n pattern) :
    Disciplined n pattern := by
  induction pattern using Term.induction with
  | literal v =>
    refine disciplined_of_ty fun scope object θ σ k _ _ _ _ _ hty => ?_
    rw [exec_term_literal hty]
    split
    · exact orderly_ok ()
    · exact orderly_mismatch _
  | const c =>
    refine disciplined_of_ty fun scope object θ σ k _ _ _ _ _ hty => ?_
    rw [exec_term_const hty]
    split
    · exact orderly_ok ()
    · exact orderly_mismatch _
  | var x =>
    refine disciplined_of_ty fun scope object θ σ k _ _ _ _ _ hty => ?_
    rw [exec_term_var hty]
    exact orderly_var scope x object σ k
  | lambda x body ih => exact disciplined_lambda hpattern (ih hpattern.lambda.2.2)
  | app head args ih ihs =>
    exact disciplined_app hpattern (ih hpattern.head) fun p hp => ihs p hp (hpattern.args p hp)
  | metaApp z args _ =>
    refine disciplined_of_ty fun scope object θ σ k _ _ _ h hcovers hty => ?_
    rw [exec_term_metaApp hty]
    exact orderly_metaApp h hcovers

/-- Where no binder is free there is nothing to map yet. -/
theorem aligned_of_scoped (hp : pattern.isPattern) (hscoped : pattern.Scoped) (object : Term) :
    Aligned ∅ ∅ pattern object := by
  have hnone : ∀ x, .var x ∈ pattern.free → ¬x.binder := fun x hx => by simp [hscoped x hx]
  refine ⟨hp, fun x hx hb => absurd hb (hnone x hx), fun x _ _ hx _ hb => absurd hb (hnone x hx), ?_⟩
  intro r hr _ image e y hy hm
  cases r with
  | metaVar z => cases e
  | var x =>
    obtain rfl := Option.some.inj e
    obtain rfl : x = y := hm
    exact hnone x hr hy

end Matcher

namespace Term

variable {pattern object : Term} {n : Nat}

theorem run_matchTerm_of_pattern (hpattern : Sound n pattern) (hobject : Sound n object)
    (hscoped : pattern.Scoped) (hscoped' : object.Scoped) (hp : pattern.isPattern) :
    ∀ e, ((pattern.matchTerm object).run n).1 ≠ .error e := by
  have hcovers : Matcher.Covers ∅ object := fun y hy hb => by
    rw [hscoped' y hy] at hb
    cases hb
  have horderly := Matcher.disciplined_term pattern hpattern hobject (Nat.le_refl n)
    (Subst.sound_empty n) (Matcher.aligned_of_scoped hp hscoped object) hcovers
  rw [run_matchTerm hp]
  rcases h : (Matcher.exec (Matcher.term ∅ pattern object) ∅ n).1 with ⟨(m | e) | _, σ⟩
  · exact fun _ h => by cases h
  · rw [h] at horderly
    exact absurd rfl (horderly e)
  · exact fun _ h => by cases h

/-- What is no pattern is refused at its first meta-application that breaks the discipline, before
anything is matched. -/
theorem run_matchWith_of_not (hp : ¬pattern.isPattern) (object : Term) (σ : Subst) (k : Nat) :
    ∃ t, pattern.nonPattern? = some t ∧
      (pattern.matchWith object σ).run k = ((.error ⟨t, .arguments⟩, σ), k) := by
  cases h : pattern.nonPattern? with
  | none => simp [isPattern, h] at hp
  | some t =>
    refine ⟨t, rfl, ?_⟩
    unfold matchWith
    rw [h]
    rfl

/-- Matching terms without free binders requires a pattern exactly when there is none; and what is
no pattern is refused whatever the object and the substitution are, which stays as it is. -/
theorem patternRequired_iff :
    (∀ (n : Nat) (pattern object : Term), Sound n pattern → Sound n object → pattern.Scoped →
      object.Scoped →
        ((∃ e, ((pattern.matchTerm object).run n).1 = .error e) ↔ ¬pattern.isPattern)) ∧
    ∀ (pattern object : Term) (σ : Subst) (k : Nat), ¬pattern.isPattern →
      ∃ t, pattern.nonPattern? = some t ∧
        (pattern.matchWith object σ).run k = ((.error ⟨t, .arguments⟩, σ), k) := by
  refine ⟨fun n pattern object hpattern hobject hscoped hscoped' => ⟨?_, ?_⟩,
    fun pattern object σ k hp => run_matchWith_of_not hp object σ k⟩
  · rintro ⟨e, he⟩ hp
    exact run_matchTerm_of_pattern hpattern hobject hscoped hscoped' hp e he
  · exact fun hp => run_matchTerm_of_not hp object n

/-- `λw.Z[w]` is a pattern, so against `λy.f y` no pattern is required; `Z[x]` for a variable `x`
that is no binder is refused, even against a literal of another type, and a former image stays. -/
theorem patternRequired_of_plain :
    let o := SimpleType.base "o"
    let z : MetaVar := ⟨0, "Z", [o], o⟩
    let f : Var := ⟨1, "f", .arrow o o, false⟩
    let y : Var := ⟨2, "y", o, true⟩
    let w : Var := ⟨3, "w", o, true⟩
    let x : Var := ⟨4, "x", o, false⟩
    let σ := Subst.set ∅ (.var x) (var x)
    (¬∃ e, (((lambda w (metaApp z [var w])).matchTerm (lambda y (app (var f) [var y]))).run 5).1 =
        .error e) ∧
      ((metaApp z [var x]).matchWith (literal (.int 0)) σ).run 5 =
        ((.error ⟨metaApp z [var x], .arguments⟩, σ), 5) := by
  intro o z f y w x σ
  have hpattern : Sound 5 (lambda w (metaApp z [var w])) :=
    sound_lambda_metaApp (Or.inr rfl) (by cbv) rfl (by decide) (by decide)
  have hobject : Sound 5 (lambda y (app (var f) [var y])) :=
    sound_lambda_app rfl rfl (by decide) (by decide)
  have hp : (lambda w (metaApp z [var w])).isPattern := by cbv
  refine ⟨fun h => ?_, ?_⟩
  · exact (patternRequired_iff.1 5 _ _ hpattern hobject scoped_lambda_metaApp
      (scoped_lambda_app rfl)).mp h hp
  · have hnone : (metaApp z [var x]).nonPattern? = some (metaApp z [var x]) := by cbv
    obtain ⟨t, ht, hrun⟩ := patternRequired_iff.2 (metaApp z [var x]) (literal (.int 0)) σ 5
      (by simp [isPattern, hnone])
    rw [hnone] at ht
    obtain rfl := Option.some.inj ht
    exact hrun

end Term

end TermAlgebra
