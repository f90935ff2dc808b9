import TermAlgebra.Proofs.Drawing
import TermAlgebra.Term.Matching

/-!
# Runs of the matcher

What each operation of the matcher does to the substitution, with one equation for each form of
pattern. The later proofs go by these equations alone.
-/

namespace TermAlgebra.Matcher

open Term

variable {α β : Type}

/-- The outcome of a run, the substitution that is left, and the next identifier. -/
def exec (m : Matcher α) (σ : Subst) (n : Nat) : (Except MatchError α × Subst) × Nat :=
  (m.run.run σ).run n

theorem exec_pure (a : α) (σ : Subst) (n : Nat) :
    exec (pure a) σ n = ((.ok a, σ), n) := rfl

theorem exec_mismatch (m : Mismatch) (σ : Subst) (n : Nat) :
    exec (mismatch m : Matcher α) σ n = ((.error (.mismatch m), σ), n) := rfl

theorem exec_violation (t : Term) (v : Violation) (σ : Subst) (n : Nat) :
    exec (violation t v : Matcher α) σ n = ((.error (.pattern ⟨t, v⟩), σ), n) := rfl

theorem exec_get (σ : Subst) (n : Nat) : exec get σ n = ((.ok σ, σ), n) := rfl

theorem exec_lift (m : Fresh α) (σ : Subst) (n : Nat) :
    exec (liftM m) σ n = ((.ok (m.run n).1, σ), (m.run n).2) := rfl

theorem exec_bind (m : Matcher α) (f : α → Matcher β) (σ : Subst) (n : Nat) :
    exec (m >>= f) σ n =
      match exec m σ n with
      | ((.ok a, τ), k) => exec (f a) τ k
      | ((.error e, τ), k) => ((.error e, τ), k) := by
  unfold exec
  rw [ExceptT.run_bind, StateT.run_bind, Fresh.run_bind]
  rcases (m.run.run σ).run n with ⟨⟨_ | _, _⟩, _⟩ <;> rfl

theorem exec_ite (c : Prop) [Decidable c] (m m' : Matcher α) (σ : Subst) (n : Nat) :
    exec (if c then m else m') σ n = if c then exec m σ n else exec m' σ n := by
  split <;> rfl

/-- The former image returns whatever the outcome is. -/
theorem exec_mapping (r : Replaceable) (t : Term) (m : Matcher α) (σ : Subst) (n : Nat) :
    exec (mapping r t m) σ n =
      (((exec m (σ.set r t) n).1.1, (exec m (σ.set r t) n).1.2.update r (σ.get? r)),
        (exec m (σ.set r t) n).2) := rfl

theorem exec_assign (r : Replaceable) (object : Term) (σ : Subst) (n : Nat) :
    exec (assign r object) σ n =
      match σ.get? r with
      | some image =>
        if image.alphaEquals object then ((.ok (), σ), n)
        else ((.error (.mismatch (.mapped r image object)), σ), n)
      | none => ((.ok (), σ.set r object), n) := by
  unfold assign
  rw [exec_bind, exec_get]
  dsimp only
  cases σ.get? r with
  | none => rfl
  | some image => exact exec_ite _ _ _ σ n

theorem exec_var (scope : Stack Var) (x : Var) (object : Term) (σ : Subst) (n : Nat) :
    exec (var scope x object) σ n =
      if σ.contains (.var x) then exec (assign (.var x) object) σ n
      else if x.binder then
        if object == .var x then ((.ok (), σ), n)
        else ((.error (.mismatch (.unboundBinder x object)), σ), n)
      else
        match object.freeVars.find? scope.contains with
        | some y => ((.error (.mismatch (.escapes x object y)), σ), n)
        | none => exec (assign (.var x) object) σ n := by
  unfold var
  rw [exec_bind, exec_get]
  dsimp only
  split
  · rfl
  · split
    · rw [exec_ite]
      rfl
    · cases object.freeVars.find? scope.contains <;> rfl

section

variable {scope : Stack Var} {x : Var} {object : Term} {σ : Subst}

theorem exec_var_of_some {image : Term} (h : σ.get? (.var x) = some image) (n : Nat) :
    exec (var scope x object) σ n = exec (assign (.var x) object) σ n := by
  rw [exec_var, if_pos (by simp [Subst.contains, h])]

theorem exec_var_of_binder (h : σ.get? (.var x) = none) (hx : x.binder) (n : Nat) :
    exec (var scope x object) σ n =
      if object == .var x then ((.ok (), σ), n)
      else ((.error (.mismatch (.unboundBinder x object)), σ), n) := by
  rw [exec_var, if_neg (by simp [Subst.contains, h]), if_pos hx]

theorem exec_var_of_plain (h : σ.get? (.var x) = none) (hx : x.binder = false) (n : Nat) :
    exec (var scope x object) σ n =
      match object.freeVars.find? scope.contains with
      | some y => ((.error (.mismatch (.escapes x object y)), σ), n)
      | none => exec (assign (.var x) object) σ n := by
  rw [exec_var, if_neg (by simp [Subst.contains, h]), if_neg (by simp [hx])]

end

/-! ## Meta-applications -/

theorem binder?_eq_some {t : Term} {v : Var} : t.binder? = some v ↔ t = .var v ∧ v.binder := by
  constructor
  · intro h
    cases t with
    | var x =>
      rw [Term.binder?, Option.ite_none_right_eq_some] at h
      obtain ⟨hx, e⟩ := h
      obtain rfl := Option.some.inj e
      exact ⟨rfl, hx⟩
    | _ => cases h
  · rintro ⟨rfl, hv⟩
    exact if_pos hv

/-- The binder that an argument of a meta-variable stands for. -/
def binderImage (σ : Subst) (arg : Term) : Option Var :=
  arg.binder?.bind fun x =>
    match σ.get? (.var x) with
    | none => some x
    | some image => image.binder?

theorem exec_binders_some {pattern arg : Term} {args : List Term} {images : List Var} {σ : Subst}
    {v : Var} (h : binderImage σ arg = some v) (n : Nat) :
    exec (binders pattern (arg :: args) images) σ n =
      if v ∈ images then ((.error (.pattern ⟨pattern, .repeated v⟩), σ), n)
      else exec (binders pattern args (v :: images)) σ n := by
  have htail : exec (do
      if images.contains v then violation pattern (.repeated v)
      binders pattern args (v :: images)) σ n =
        if v ∈ images then ((.error (.pattern ⟨pattern, .repeated v⟩), σ), n)
        else exec (binders pattern args (v :: images)) σ n := by
    by_cases hv : v ∈ images
    · simp [exec_bind, hv, exec_violation]
    · simp [hv]
  refine Eq.trans ?_ htail
  unfold binderImage at h
  conv => lhs; unfold binders
  cases hx : arg.binder? with
  | none =>
    rw [hx] at h
    cases h
  | some x =>
    rw [hx, Option.bind_some] at h
    simp only [exec_bind, exec_get]
    cases hy : σ.get? (.var x) with
    | none =>
      rw [hy] at h
      obtain rfl := Option.some.inj h
      simp only [exec_bind, exec_pure]
    | some image =>
      rw [hy] at h
      dsimp only at h ⊢
      simp only [h, exec_bind, exec_pure]

theorem exec_binders_none {pattern arg : Term} {args : List Term} {images : List Var} {σ : Subst}
    (h : binderImage σ arg = none) (n : Nat) :
    ∃ e, exec (binders pattern (arg :: args) images) σ n = ((.error e, σ), n) := by
  unfold binderImage at h
  unfold binders
  cases hx : arg.binder? with
  | none => exact ⟨_, rfl⟩
  | some x =>
    rw [hx, Option.bind_some] at h
    simp only [exec_bind, exec_get]
    cases hy : σ.get? (.var x) with
    | none =>
      rw [hy] at h
      cases h
    | some image =>
      rw [hy] at h
      dsimp only at h ⊢
      simp only [h, exec_bind, exec_violation]
      exact ⟨_, rfl⟩

/-- The arguments have to stand for distinct binders. -/
theorem exec_binders (pattern : Term) (args : List Term) (images : List Var) (σ : Subst)
    (n : Nat) :
    ∃ r, exec (binders pattern args images) σ n = ((r, σ), n) ∧
      ∀ ys, r = .ok ys ↔ ∃ vs, ys = images.reverse ++ vs ∧ args.map (binderImage σ) = vs.map some ∧
        vs.Nodup ∧ ∀ v ∈ vs, v ∉ images := by
  induction args generalizing images with
  | nil =>
    refine ⟨_, rfl, fun ys => ?_⟩
    constructor
    · intro h
      exact ⟨[], by simpa using (Except.ok.inj h).symm, rfl, .nil, by simp⟩
    · rintro ⟨vs, rfl, hvs, _, _⟩
      obtain rfl : vs = [] := by simpa using hvs.symm
      simp
  | cons arg args ih =>
    have hfail : ∀ e : MatchError, (∀ v, binderImage σ arg = some v → v ∈ images) →
        ∀ ys, (Except.error e : Except MatchError (List Var)) = .ok ys ↔
          ∃ vs, ys = images.reverse ++ vs ∧ (arg :: args).map (binderImage σ) = vs.map some ∧
            vs.Nodup ∧ ∀ v ∈ vs, v ∉ images := by
      intro e hold ys
      constructor
      · intro h
        cases h
      · rintro ⟨vs, _, hvs, _, hnot⟩
        cases vs with
        | nil => simp at hvs
        | cons w vs =>
          rw [List.map_cons, List.map_cons, List.cons.injEq] at hvs
          exact absurd (hold w hvs.1) (hnot w (by simp))
    cases hv : binderImage σ arg with
    | none =>
      obtain ⟨e, he⟩ := exec_binders_none hv n
      exact ⟨_, he, hfail e (by simp [hv])⟩
    | some v =>
      by_cases hmem : v ∈ images
      · refine ⟨_, (exec_binders_some hv n).trans (if_pos hmem), hfail _ ?_⟩
        intro w hw
        rw [hv] at hw
        obtain rfl := Option.some.inj hw
        exact hmem
      · obtain ⟨r, hr, hys⟩ := ih (v :: images)
        have he : exec (binders pattern (arg :: args) images) σ n =
            exec (binders pattern args (v :: images)) σ n :=
          (exec_binders_some hv n).trans (if_neg hmem)
        refine ⟨r, he.trans hr, fun ys => (hys ys).trans ?_⟩
        constructor
        · rintro ⟨vs, rfl, hvs, hnodup, hnot⟩
          refine ⟨v :: vs, by simp, by simp [hv, hvs], ?_, ?_⟩
          · exact List.nodup_cons.mpr ⟨fun hw => hnot v hw (by simp), hnodup⟩
          · intro w hw
            rcases List.mem_cons.mp hw with rfl | hw
            · exact hmem
            · exact fun hi => hnot w hw (by simp [hi])
        · rintro ⟨vs, rfl, hvs, hnodup, hnot⟩
          cases vs with
          | nil => simp at hvs
          | cons w vs =>
            rw [List.map_cons, List.map_cons, List.cons.injEq, hv] at hvs
            obtain ⟨hw, hvs⟩ := hvs
            obtain rfl := Option.some.inj hw
            obtain ⟨hnew, hnodup⟩ := List.nodup_cons.mp hnodup
            refine ⟨vs, by simp, hvs, hnodup, fun u hu hi => ?_⟩
            rcases List.mem_cons.mp hi with rfl | hi
            · exact hnew hu
            · exact hnot u (by simp [hu]) hi

/-- A free binder of the object that no argument stands for is accepted only below no binder of
its own, and only by a meta-variable without arguments. -/
def leaves (scope : Stack Var) (args : List Term) (ys : List Var) (object : Term) : Bool :=
  match object.freeVars.find? fun y => y.binder && !ys.contains y with
  | some y => scope.contains y || !args.isEmpty
  | none => false

theorem exec_foldlM_lift (f : β → α → Fresh β) (xs : List α) (b : β) (σ : Subst) (n : Nat) :
    exec (xs.foldlM (fun b a => liftM (f b a)) b) σ n =
      ((.ok ((xs.foldlM f b).run n).1, σ), ((xs.foldlM f b).run n).2) := by
  induction xs generalizing b n with
  | nil => rfl
  | cons x xs ih =>
    rw [List.foldlM_cons, List.foldlM_cons, exec_bind, exec_lift]
    exact ih _ _

/-- Abstracts over the binders, the first one outermost. -/
def abstractOver (ys : List Var) (object : Term) : Fresh Term :=
  ys.reverse.foldlM (fun body y => mkLambda y body) object

theorem exec_metaApp_of_ok {scope : Stack Var} {z : MetaVar} {args : List Term} {object : Term}
    {ys : List Var} {σ : Subst} {n : Nat}
    (h : exec (binders (.metaApp z args) args []) σ n = ((.ok ys, σ), n))
    (hleaves : leaves scope args ys object = false) :
    exec (metaApp scope z args object) σ n =
      exec (assign (.metaVar z) ((abstractOver ys object).run n).1) σ
        ((abstractOver ys object).run n).2 := by
  have hlift : exec (do
      assign (.metaVar z) (← ys.reverse.foldlM (fun body y => mkLambda y body) object)) σ n =
        exec (assign (.metaVar z) ((abstractOver ys object).run n).1) σ
          ((abstractOver ys object).run n).2 := by
    rw [exec_bind, exec_foldlM_lift]
    rfl
  unfold metaApp
  dsimp only
  rw [exec_bind, h]
  refine Eq.trans ?_ hlift
  unfold leaves at hleaves
  dsimp only
  cases hy : object.freeVars.find? fun y => y.binder && !ys.contains y with
  | none => rfl
  | some y =>
    rw [hy, Bool.or_eq_false_iff] at hleaves
    simp only [hleaves.1, hleaves.2]
    rfl

theorem exec_binders_ok {args : List Term} {ys : List Var} {σ : Subst}
    (hys : args.map (binderImage σ) = ys.map some) (hnodup : ys.Nodup) (pattern : Term) (n : Nat) :
    exec (binders pattern args []) σ n = ((.ok ys, σ), n) := by
  obtain ⟨r, hr, hok⟩ := exec_binders pattern args [] σ n
  obtain rfl : r = .ok ys := (hok ys).mpr ⟨ys, by simp, hys, hnodup, by simp⟩
  exact hr

theorem exec_metaApp_eq {scope : Stack Var} {z : MetaVar} {args : List Term} {object : Term}
    {ys : List Var} {σ : Subst} {n : Nat} (hys : args.map (binderImage σ) = ys.map some)
    (hnodup : ys.Nodup) (hleaves : leaves scope args ys object = false) :
    exec (metaApp scope z args object) σ n =
      exec (assign (.metaVar z) ((abstractOver ys object).run n).1) σ
        ((abstractOver ys object).run n).2 :=
  exec_metaApp_of_ok (exec_binders_ok hys hnodup (.metaApp z args) n) hleaves

/-- What goes wrong hangs on the first binder that no argument stands for. -/
theorem exec_metaApp_of_dangling (scope : Stack Var) {z : MetaVar} {args : List Term}
    {object : Term} {ys : List Var} {y : Var} {σ : Subst} {n : Nat}
    (h : exec (binders (.metaApp z args) args []) σ n = ((.ok ys, σ), n))
    (hfind : object.freeVars.find? (fun y => y.binder && !ys.contains y) = some y)
    (hleaves : scope.contains y || !args.isEmpty) :
    exec (metaApp scope z args object) σ n =
      ((.error (if scope.contains y then .mismatch (.dangling y object z)
        else .pattern ⟨.metaApp z args, .dangling y object z⟩), σ), n) := by
  unfold metaApp
  dsimp only
  rw [exec_bind, h]
  dsimp only
  rw [hfind]
  dsimp only
  by_cases hscope : scope.contains y = true
  · rw [if_pos hscope, if_pos hscope, exec_bind, exec_mismatch]
  · have hargs := ((Bool.or_eq_true _ _).mp hleaves).resolve_left hscope
    rw [if_neg hscope, if_neg hscope, if_pos hargs, exec_bind, exec_violation]

theorem exec_metaApp_of_leaves {scope : Stack Var} {z : MetaVar} {args : List Term}
    {object : Term} {ys : List Var} {σ : Subst} {n : Nat}
    (h : exec (binders (.metaApp z args) args []) σ n = ((.ok ys, σ), n))
    (hleaves : leaves scope args ys object = true) :
    ∃ e, exec (metaApp scope z args object) σ n = ((.error e, σ), n) := by
  unfold leaves at hleaves
  cases hfind : object.freeVars.find? fun y => y.binder && !ys.contains y with
  | none =>
    rw [hfind] at hleaves
    cases hleaves
  | some y =>
    rw [hfind] at hleaves
    exact ⟨_, exec_metaApp_of_dangling scope h hfind hleaves⟩

/-- A meta-application fails and changes nothing, or its image is assigned. -/
theorem exec_metaApp (scope : Stack Var) (z : MetaVar) (args : List Term) (object : Term)
    (σ : Subst) (n : Nat) :
    (∃ e, exec (metaApp scope z args object) σ n = ((.error e, σ), n)) ∨
      ∃ ys, args.map (binderImage σ) = ys.map some ∧ leaves scope args ys object = false ∧
        exec (metaApp scope z args object) σ n =
          exec (assign (.metaVar z) ((abstractOver ys object).run n).1) σ
            ((abstractOver ys object).run n).2 := by
  obtain ⟨r, hr, hok⟩ := exec_binders (.metaApp z args) args [] σ n
  cases r with
  | error e =>
    refine Or.inl ⟨e, ?_⟩
    unfold metaApp
    dsimp only
    rw [exec_bind, hr]
  | ok ys =>
    cases hleaves : leaves scope args ys object with
    | true => exact Or.inl (exec_metaApp_of_leaves hr hleaves)
    | false =>
      obtain ⟨vs, hvs, himages, _⟩ := (hok ys).mp rfl
      obtain rfl : ys = vs := by simpa using hvs
      exact Or.inr ⟨ys, himages, hleaves, exec_metaApp_of_ok hr hleaves⟩

/-! ## Terms -/

section

variable {scope : Stack Var} {pattern object : Term} {σ : Subst} {n : Nat}

theorem exec_term_of_ty_ne (h : pattern.ty ≠ object.ty) :
    exec (term scope pattern object) σ n =
      ((.error (.mismatch (.types pattern object)), σ), n) := by
  unfold term
  rw [if_pos h]
  rfl

theorem exec_term_literal {v : Literal} (h : (Term.literal v).ty = object.ty) :
    exec (term scope (.literal v) object) σ n =
      if object == .literal v then ((.ok (), σ), n)
      else ((.error (.mismatch (.differs (.literal v) object)), σ), n) := by
  unfold term
  rw [if_neg (not_not.mpr h)]
  exact exec_ite (object == .literal v) (pure ()) (mismatch (.differs (.literal v) object)) σ n

theorem exec_term_const {c : Constant} (h : (Term.const c).ty = object.ty) :
    exec (term scope (.const c) object) σ n =
      if object == .const c then ((.ok (), σ), n)
      else ((.error (.mismatch (.differs (.const c) object)), σ), n) := by
  unfold term
  rw [if_neg (not_not.mpr h)]
  exact exec_ite (object == .const c) (pure ()) (mismatch (.differs (.const c) object)) σ n

theorem exec_term_var {x : Var} (h : (Term.var x).ty = object.ty) :
    exec (term scope (.var x) object) σ n = exec (var scope x object) σ n := by
  unfold term
  rw [if_neg (not_not.mpr h)]

theorem exec_term_lambda {x y : Var} {body objectBody : Term}
    (h : (Term.lambda x body).ty = (Term.lambda y objectBody).ty) :
    exec (term scope (.lambda x body) (.lambda y objectBody)) σ n =
      let inner := exec (term (scope.push y) body objectBody) (σ.set (.var x) (.var y)) n
      ((inner.1.1, inner.1.2.update (.var x) (σ.get? (.var x))), inner.2) := by
  conv => lhs; unfold term
  rw [if_neg (not_not.mpr h)]
  exact exec_mapping (.var x) (.var y) (term (scope.push y) body objectBody) σ n

theorem exec_term_lambda_of_not {x : Var} {body : Term} (hty : (Term.lambda x body).ty = object.ty)
    (h : object.lambda? = none) :
    exec (term scope (.lambda x body) object) σ n =
      ((.error (.mismatch (.notLambda object)), σ), n) := by
  unfold term
  rw [if_neg (not_not.mpr hty)]
  cases object with
  | lambda y body => cases h
  | _ => rfl

theorem exec_term_app {head : Term} {args : List Term} (h : (Term.app head args).ty = object.ty) :
    exec (term scope (.app head args) object) σ n =
      if object.args.length < args.length then
        ((.error (.mismatch (.fewerArguments object args.length)), σ), n)
      else
        exec (do
          terms scope args (object.args.drop (object.args.length - args.length))
          term scope head (object.headPart (object.args.length - args.length))) σ n := by
  conv => lhs; unfold term
  rw [if_neg (not_not.mpr h)]
  dsimp only
  split <;> rfl

theorem exec_term_metaApp {z : MetaVar} {args : List Term}
    (h : (Term.metaApp z args).ty = object.ty) :
    exec (term scope (.metaApp z args) object) σ n = exec (metaApp scope z args object) σ n := by
  unfold term
  rw [if_neg (not_not.mpr h)]

theorem terms_nil_left (os : List Term) : terms scope [] os = pure () := by
  cases os <;> rfl

theorem terms_nil_right (ps : List Term) : terms scope ps [] = pure () := by
  cases ps <;> rfl

theorem exec_terms_cons {p o : Term} {ps os : List Term} :
    exec (terms scope (p :: ps) (o :: os)) σ n = exec (do
      terms scope ps os
      term scope p o) σ n := by
  rw [terms]

end

end TermAlgebra.Matcher
