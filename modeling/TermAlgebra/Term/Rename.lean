import TermAlgebra.Term.Basic

/-!
# Renaming

Renaming replaces free variables by variables and gives every binder a fresh copy. A term in which
there is nothing to do is given back as it is, so shared parts stay shared. Main statements: the
equations say what renaming does to each form of term, and the size of a term stays.
-/

namespace TermAlgebra

/-- What takes the place of each variable. -/
abbrev Renaming := Var → Var

namespace Renaming

/-- Sends `x` to `y` and everything else where it went before. -/
def update (ρ : Renaming) (x y : Var) : Renaming := fun v => if v = x then y else ρ v

/-- The term has no binder, and all its free variables stay. -/
def fixes (ρ : Renaming) (t : Term) : Bool := t.bound.isEmpty && t.freeVars.all fun x => ρ x == x

end Renaming

namespace Term

mutual

/-- Draws the copy of a binder before those in its body; arguments are renamed from left to
right, and the head after them. -/
def rename [Supply] (ρ : Renaming) (t : Term) : Fresh Term :=
  if ρ.fixes t then return t
  else match t with
  | literal v => return literal v
  | const c => return const c
  | var x => return var (ρ x)
  | lambda x body => do
    let y ← x.freshCopy
    return lambda y (← body.rename (ρ.update x y))
  | app head args => do
    let args ← renameAll ρ args
    return app (← head.rename ρ) args
  | metaApp z args => return metaApp z (← renameAll ρ args)

def renameAll [Supply] (ρ : Renaming) : List Term → Fresh (List Term)
  | [] => return []
  | t :: ts => do
    let t ← t.rename ρ
    return t :: (← renameAll ρ ts)

end

/-- Gives every binder a fresh copy; a term without binders stays as it is. -/
def refreshBinders [Supply] (t : Term) : Fresh Term := t.rename id

/-- Replaces the free occurrences of `x` by `y`, giving every binder a fresh copy. -/
def renameVar [Supply] (x y : Var) (t : Term) : Fresh Term := t.rename (Renaming.update id x y)

/-! ## Terms that stay -/

theorem fixes_iff {ρ : Renaming} {t : Term} :
    ρ.fixes t ↔ (∀ x, x ∉ t.bound) ∧ ∀ x, .var x ∈ t.free → ρ x = x := by
  unfold Renaming.fixes
  rw [Bool.and_eq_true]
  refine and_congr OrderedSet.isEmpty_iff ?_
  rw [List.all_eq_true]
  constructor
  · intro h x hx
    exact beq_iff_eq.mp (h x (List.mem_filterMap.mpr ⟨.var x, hx, rfl⟩))
  · intro h x hx
    obtain ⟨r, hr, e⟩ := List.mem_filterMap.mp hx
    cases r with
    | var y =>
      obtain rfl : y = x := Option.some.inj e
      exact beq_iff_eq.mpr (h y hr)
    | metaVar z => cases e

theorem rename_of_fixes [Supply] {ρ : Renaming} {t : Term} (h : ρ.fixes t) : t.rename ρ = pure t := by
  unfold rename
  rw [if_pos h]

theorem renameAll_of_fixes [Supply] {ρ : Renaming} {ts : List Term} (h : ∀ t ∈ ts, ρ.fixes t) :
    renameAll ρ ts = pure ts := by
  induction ts with
  | nil => rfl
  | cons t ts ih =>
    have hts : renameAll ρ ts = pure ts := ih fun s hs => h s (List.mem_cons_of_mem t hs)
    rw [renameAll, rename_of_fixes (h t List.mem_cons_self), hts]
    rfl

theorem fixes_of_app {ρ : Renaming} {head : Term} {args : List Term}
    (h : ρ.fixes (app head args)) : ρ.fixes head ∧ ∀ t ∈ args, ρ.fixes t := by
  obtain ⟨hb, hf⟩ := fixes_iff.mp h
  simp only [bound_app, OrderedSet.mem_union, mem_boundAll] at hb
  simp only [free_app, OrderedSet.mem_union, mem_freeAll] at hf
  constructor
  · exact fixes_iff.mpr ⟨fun x hx => hb x (Or.inl hx), fun x hx => hf x (Or.inl hx)⟩
  · intro t ht
    exact fixes_iff.mpr
      ⟨fun x hx => hb x (Or.inr ⟨t, ht, hx⟩), fun x hx => hf x (Or.inr ⟨t, ht, hx⟩)⟩

theorem fixes_of_metaApp {ρ : Renaming} {z : MetaVar} {args : List Term}
    (h : ρ.fixes (metaApp z args)) : ∀ t ∈ args, ρ.fixes t := by
  obtain ⟨hb, hf⟩ := fixes_iff.mp h
  simp only [bound_metaApp, mem_boundAll] at hb
  simp only [free_metaApp, OrderedSet.mem_insert, mem_freeAll] at hf
  intro t ht
  exact fixes_iff.mpr
    ⟨fun x hx => hb x ⟨t, ht, hx⟩, fun x hx => hf x (Or.inr ⟨t, ht, hx⟩)⟩

/-! ## Equations -/

variable [Supply] (ρ : Renaming)

theorem rename_literal (v : Literal) : (literal v).rename ρ = pure (literal v) := by
  unfold rename
  exact ite_self _

theorem rename_const (c : Constant) : (const c).rename ρ = pure (const c) := by
  unfold rename
  exact ite_self _

theorem rename_var (x : Var) : (var x).rename ρ = pure (var (ρ x)) := by
  by_cases h : ρ.fixes (var x)
  · have hx : ρ x = x := (fixes_iff.mp h).2 x (by simp)
    rw [rename_of_fixes h, hx]
  · unfold rename
    exact if_neg h

theorem rename_lambda (x : Var) (body : Term) :
    (lambda x body).rename ρ = (do
      let y ← x.freshCopy
      return lambda y (← body.rename (ρ.update x y))) := by
  have h : ¬ρ.fixes (lambda x body) := fun h => (fixes_iff.mp h).1 x (by simp)
  conv => lhs; unfold rename
  exact if_neg h

theorem rename_app (head : Term) (args : List Term) :
    (app head args).rename ρ = (do
      let args ← renameAll ρ args
      return app (← head.rename ρ) args) := by
  by_cases h : ρ.fixes (app head args)
  · rw [rename_of_fixes h, renameAll_of_fixes (fixes_of_app h).2,
      rename_of_fixes (fixes_of_app h).1]
    rfl
  · conv => lhs; unfold rename
    exact if_neg h

theorem rename_metaApp (z : MetaVar) (args : List Term) :
    (metaApp z args).rename ρ = (do return metaApp z (← renameAll ρ args)) := by
  by_cases h : ρ.fixes (metaApp z args)
  · rw [rename_of_fixes h, renameAll_of_fixes (fixes_of_metaApp h)]
    rfl
  · conv => lhs; unfold rename
    exact if_neg h

/-! ## Size -/

theorem sizeAll_renameAll {ts : List Term}
    (h : ∀ t ∈ ts, ∀ ρ n, ((t.rename ρ).run n).1.size = t.size) (ρ : Renaming) (n : Nat) :
    sizeAll ((renameAll ρ ts).run n).1 = sizeAll ts := by
  induction ts generalizing n with
  | nil => rfl
  | cons t ts ih =>
    have ht := h t (by simp) ρ n
    have hts := ih (fun s hs => h s (by simp [hs])) ((t.rename ρ).run n).2
    simp only [renameAll, sizeAll] at *
    exact congr (congrArg _ ht) hts

theorem size_rename (t : Term) (ρ : Renaming) (n : Nat) :
    ((t.rename ρ).run n).1.size = t.size := by
  induction t using Term.induction generalizing ρ n with
  | literal v =>
    rw [rename_literal]
    rfl
  | const c =>
    rw [rename_const]
    rfl
  | var x =>
    rw [rename_var]
    change (var _).size = (var _).size
    rw [size_var, size_var]
  | lambda x body ih =>
    have h := ih (ρ.update x ⟨n, x.name, x.ty, x.binder⟩) (Supply.next n)
    rw [rename_lambda]
    change (lambda _ _).size = (lambda _ _).size
    rw [size_lambda, size_lambda]
    exact congrArg (1 + ·) h
  | app head args ih ihs =>
    have hs := sizeAll_renameAll ihs ρ n
    have h := ih ρ ((renameAll ρ args).run n).2
    rw [rename_app]
    change (app _ _).size = (app _ _).size
    rw [size_app, size_app, ← h, ← hs]
    rfl
  | metaApp z args ihs =>
    rw [rename_metaApp]
    change (metaApp _ _).size = (metaApp _ _).size
    rw [size_metaApp, size_metaApp]
    exact congrArg (1 + ·) (sizeAll_renameAll ihs ρ n)

theorem size_renameVar (x y : Var) (t : Term) (n : Nat) :
    ((t.renameVar x y).run n).1.size = t.size :=
  t.size_rename _ n

end Term

end TermAlgebra
