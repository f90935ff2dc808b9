import TermAlgebra.Subst
import TermAlgebra.Term.Build

/-!
# Substitution

Capture-avoiding simultaneous substitution of variables and meta-variables. The image of a
meta-variable takes the substituted arguments in place of its leading binders. The equations at
the end say what a substitution does to each form of term.
-/

namespace TermAlgebra.Term

/-- Substitutes below a bound on the size of the term; renaming a body keeps its size. A binder
that would capture gets a fresh copy. Arguments come before the head. -/
def substBelow [Supply] (onMeta : MetaVar → List Term → Fresh Term) :
    Nat → Subst → Term → Fresh Term
  | 0, _, t => return t
  | bound + 1, σ, t =>
    if !σ.affects t then return t
    else match t with
    | literal v => return literal v
    | const c => return const c
    | var x => return (σ.get? (.var x)).getD (var x)
    | lambda x body => do
      let σ := σ.erase (.var x)
      if σ.captures x body then
        let y ← x.freshCopy
        let body ← body.renameVar x y
        mkLambda y (← substBelow onMeta bound σ body)
      else
        mkLambda x (← substBelow onMeta bound σ body)
    | app head args => do
      let args ← args.mapM (substBelow onMeta bound σ)
      mkApp (← substBelow onMeta bound σ head) args
    | metaApp z args => do
      onMeta z (← args.mapM (substBelow onMeta bound σ))

/-- Substitutes for variables, and lets a function build what becomes of a meta-application. -/
def substWith [Supply] (onMeta : MetaVar → List Term → Fresh Term) (σ : Subst) (t : Term) :
    Fresh Term :=
  substBelow onMeta t.size σ t

/-- Substitutes for variables only. -/
def substVars [Supply] (σ : Subst) (t : Term) : Fresh Term := substWith mkMetaApp σ t

/-- Pairs the leading binders of a term with arguments; yields the body behind them and the
arguments left over. -/
def openLambdas : Term → List Term → Subst → Subst × Term × List Term
  | lambda x body, arg :: args, σ => body.openLambdas args (σ.set (.var x) arg)
  | body, args, σ => (σ, body, args)

/-- Replaces the leading binders by arguments and applies the body to those left over. -/
def instantiate [Supply] (t : Term) (args : List Term) : Fresh Term := do
  let (σ, body, rest) := t.openLambdas args ∅
  mkApp (← body.substVars σ) rest

/-- Instantiates a meta-variable that has an image. -/
def instantiateMeta [Supply] (σ : Subst) (z : MetaVar) (args : List Term) : Fresh Term :=
  match σ.get? (.metaVar z) with
  | some image => image.instantiate args
  | none => mkMetaApp z args

/-- Applies a substitution. -/
def subst [Supply] (σ : Subst) (t : Term) : Fresh Term := substWith (instantiateMeta σ) σ t

/-! ## Equations -/

variable [Supply]

/-- The bound is of no account when it is at least the size. -/
theorem substBelow_congr (onMeta : MetaVar → List Term → Fresh Term) {m n : Nat} (σ : Subst)
    {t : Term} (hm : t.size ≤ m) (hn : t.size ≤ n) :
    substBelow onMeta m σ t = substBelow onMeta n σ t := by
  induction m generalizing n σ t with
  | zero =>
    have := t.size_pos
    omega
  | succ m ih =>
    cases n with
    | zero =>
      have := t.size_pos
      omega
    | succ n =>
      unfold substBelow
      split
      · rfl
      · cases t with
        | literal v => rfl
        | const c => rfl
        | var x => rfl
        | lambda x body =>
          have hsize := size_lambda x body
          have hbody (τ : Subst) {s : Term} (hs : s.size = body.size) :
              substBelow onMeta m τ s = substBelow onMeta n τ s :=
            ih τ (by omega) (by omega)
          simp only [hbody _ rfl]
          split
          · refine Fresh.bind_congr fun k => Fresh.bind_congr fun l => ?_
            rw [hbody _ (size_renameVar x _ body l)]
          · rfl
        | app head args =>
          have hsize := size_app head args
          have hargs : args.mapM (substBelow onMeta m σ) = args.mapM (substBelow onMeta n σ) :=
            Fresh.mapM_congr fun s hs => by
              have := size_le_sizeAll hs
              exact ih σ (by omega) (by omega)
          have hhead : substBelow onMeta m σ head = substBelow onMeta n σ head :=
            ih σ (by omega) (by omega)
          simp only [hargs, hhead]
        | metaApp z args =>
          have hsize := size_metaApp z args
          have hargs : args.mapM (substBelow onMeta m σ) = args.mapM (substBelow onMeta n σ) :=
            Fresh.mapM_congr fun s hs => by
              have := size_le_sizeAll hs
              exact ih σ (by omega) (by omega)
          simp only [hargs]

theorem substBelow_eq_substWith (onMeta : MetaVar → List Term → Fresh Term) {n : Nat}
    (σ : Subst) {t : Term} (h : t.size ≤ n) : substBelow onMeta n σ t = substWith onMeta σ t :=
  substBelow_congr onMeta σ h (Nat.le_refl t.size)

variable (onMeta : MetaVar → List Term → Fresh Term) (σ : Subst)

/-- A term without keys among its free variables and meta-variables stays as it is. -/
theorem substWith_of_not_affects {t : Term} (h : σ.affects t = false) :
    substWith onMeta σ t = pure t := by
  unfold substWith
  cases t.size with
  | zero => rfl
  | succ n =>
    unfold substBelow
    rw [h]
    rfl

theorem substWith_var (x : Var) :
    substWith onMeta σ (var x) = pure ((σ.get? (.var x)).getD (var x)) := by
  cases h : σ.affects (var x) with
  | true =>
    unfold substWith
    rw [size_var, substBelow, h]
    rfl
  | false =>
    rw [substWith_of_not_affects onMeta σ h]
    have hx : σ.get? (.var x) = none := by
      simpa [Subst.affects, Subst.contains, OrderedSet.singleton] using h
    rw [hx]
    rfl

/-- Below a binder its own image does not count; the binder gets a fresh copy if it is free in
an image that comes into its body. -/
theorem substWith_lambda {x : Var} {body : Term} (h : σ.affects (lambda x body) = true) :
    substWith onMeta σ (lambda x body) =
      (if (σ.erase (.var x)).captures x body then do
        let y ← x.freshCopy
        let body ← body.renameVar x y
        mkLambda y (← substWith onMeta (σ.erase (.var x)) body)
      else do
        mkLambda x (← substWith onMeta (σ.erase (.var x)) body)) := by
  have hsize : (lambda x body).size = body.size + 1 := by rw [size_lambda, Nat.add_comm]
  unfold substWith
  rw [hsize, substBelow, h]
  simp only [Bool.not_true, Bool.false_eq_true, if_false]
  split
  · refine Fresh.bind_congr fun k => Fresh.bind_congr fun l => ?_
    rw [substBelow_congr onMeta _ (Nat.le_of_eq (size_renameVar x _ body l)) (Nat.le_refl _)]
  · rfl

theorem substWith_app {head : Term} {args : List Term} (h : σ.affects (app head args) = true) :
    substWith onMeta σ (app head args) = (do
      let args ← args.mapM (substWith onMeta σ)
      mkApp (← substWith onMeta σ head) args) := by
  have hsize : (app head args).size = head.size + sizeAll args + 1 := by
    rw [size_app]
    omega
  have hargs : args.mapM (substBelow onMeta (head.size + sizeAll args) σ) =
      args.mapM (substWith onMeta σ) :=
    Fresh.mapM_congr fun s hs => by
      have := size_le_sizeAll hs
      exact substBelow_eq_substWith onMeta σ (by omega)
  have hhead : substBelow onMeta (head.size + sizeAll args) σ head = substWith onMeta σ head :=
    substBelow_eq_substWith onMeta σ (by omega)
  conv => lhs; unfold substWith
  rw [hsize, substBelow, h]
  simp only [hargs, hhead]
  rfl

theorem substWith_metaApp {z : MetaVar} {args : List Term}
    (h : σ.affects (metaApp z args) = true) :
    substWith onMeta σ (metaApp z args) = (do
      onMeta z (← args.mapM (substWith onMeta σ))) := by
  have hsize : (metaApp z args).size = sizeAll args + 1 := by rw [size_metaApp, Nat.add_comm]
  have hargs : args.mapM (substBelow onMeta (sizeAll args) σ) =
      args.mapM (substWith onMeta σ) :=
    Fresh.mapM_congr fun s hs =>
      substBelow_eq_substWith onMeta σ (size_le_sizeAll hs)
  conv => lhs; unfold substWith
  rw [hsize, substBelow, h]
  simp only [hargs]
  rfl

end TermAlgebra.Term
