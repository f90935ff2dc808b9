import TermAlgebra.Proofs.NamelessSubstitution
import TermAlgebra.Term.Rename
import TermAlgebra.Term.WellFormed

/-!
# Readings of terms

A valuation says what the free variables and meta-variables of a term stand for; the reading of a
term under it is a nameless term. Renaming and substitution change the valuation, so their effect
on a term is told by the reading alone. Main statements: a reading depends on the free
replaceables only, and the reading under the plain valuation is the nameless term.
-/

namespace TermAlgebra

structure Valuation where
  var : Var → Nameless
  metaVar : MetaVar → Option Nameless

namespace Valuation

/-- Every variable stands for itself, and no meta-variable has an image. -/
def plain : Valuation := ⟨.free, fun _ => none⟩

/-- The valuation below a binder. -/
def under (V : Valuation) (x : Var) : Valuation where
  var v := if v = x then .bound 0 else (V.var v).weaken
  metaVar z := (V.metaVar z).map Nameless.weaken

def unders (V : Valuation) : List Var → Valuation
  | [] => V
  | x :: xs => (V.unders xs).under x

def metaApp (V : Valuation) (z : MetaVar) (args : List Nameless) : Nameless :=
  match V.metaVar z with
  | some image => image.instantiate args
  | none => .metaApp z args

def relabel (V : Valuation) (ρ : Nameless.Label → Nameless.Label) : Valuation where
  var v := (V.var v).relabel ρ
  metaVar z := (V.metaVar z).map (Nameless.relabel ρ)

def fill (V : Valuation) (s : Nameless.Label → Nameless) : Valuation where
  var v := (V.var v).fill s
  metaVar _ := none

/-- Variables go by their new names. -/
def rename (V : Valuation) (ρ : Renaming) : Valuation := ⟨fun v => V.var (ρ v), V.metaVar⟩

/-- Variables stand for variables, and meta-variables for nothing but themselves. -/
structure Atomic (V : Valuation) : Prop where
  var : ∀ v, (V.var v).isVar
  metaVar : ∀ z, V.metaVar z = none

theorem plain_atomic : plain.Atomic := ⟨fun _ => rfl, fun _ => rfl⟩

theorem Atomic.under {V : Valuation} (h : V.Atomic) (x : Var) : (V.under x).Atomic := by
  constructor
  · intro v
    simp only [Valuation.under]
    split
    · rfl
    · exact Nameless.isVar_relabel (h.var v) _
  · intro z
    simp [Valuation.under, h.metaVar z]

theorem Atomic.unders {V : Valuation} (h : V.Atomic) (xs : List Var) : (V.unders xs).Atomic := by
  induction xs with
  | nil => exact h
  | cons x xs ih => exact ih.under x

end Valuation

namespace Term

mutual

def read (V : Valuation) : Term → Nameless
  | literal v => .literal v
  | const c => .const c.name c.ty
  | var x => V.var x
  | lambda x body => .lambda x.ty (body.read (V.under x))
  | app head args => (head.read V).apply (readAll V args)
  | metaApp z args => V.metaApp z (readAll V args)

def readAll (V : Valuation) : List Term → List Nameless
  | [] => []
  | t :: ts => t.read V :: readAll V ts

end

theorem readAll_eq_map (V : Valuation) (ts : List Term) : readAll V ts = ts.map (read V) := by
  induction ts with
  | nil => rfl
  | cons t ts ih => rw [readAll, ih, List.map_cons]

theorem read_app (V : Valuation) (head : Term) (args : List Term) :
    (app head args).read V = (head.read V).apply (args.map (read V)) := by
  rw [read, readAll_eq_map]

theorem read_metaApp (V : Valuation) (z : MetaVar) (args : List Term) :
    (metaApp z args).read V = V.metaApp z (args.map (read V)) := by
  rw [read, readAll_eq_map]

/-! ## Free occurrences -/

theorem free_of_mem_app {head t : Term} {args : List Term} (ht : t ∈ args) {r : Replaceable}
    (hr : r ∈ t.free) : r ∈ (app head args).free := by
  rw [free_app, OrderedSet.mem_union, mem_freeAll]
  exact Or.inr ⟨t, ht, hr⟩

theorem free_of_head {head : Term} {args : List Term} {r : Replaceable} (hr : r ∈ head.free) :
    r ∈ (app head args).free := by
  rw [free_app, OrderedSet.mem_union]
  exact Or.inl hr

theorem free_of_mem_metaApp {z : MetaVar} {t : Term} {args : List Term} (ht : t ∈ args)
    {r : Replaceable} (hr : r ∈ t.free) : r ∈ (metaApp z args).free := by
  rw [free_metaApp, OrderedSet.mem_insert, mem_freeAll]
  exact Or.inr ⟨t, ht, hr⟩

theorem free_metaVar (z : MetaVar) (args : List Term) :
    .metaVar z ∈ (metaApp z args).free := by
  simp

theorem free_of_body {x : Var} {body : Term} {r : Replaceable} (hr : r ∈ body.free)
    (hx : r ≠ .var x) : r ∈ (lambda x body).free := by
  simp [hr, hx]

/-- Valuations that agree on the free replaceables of a term give the same reading. -/
theorem read_congr (t : Term) {V W : Valuation}
    (hvar : ∀ v, .var v ∈ t.free → V.var v = W.var v)
    (hmeta : ∀ z, .metaVar z ∈ t.free → V.metaVar z = W.metaVar z) : t.read V = t.read W := by
  induction t using Term.induction generalizing V W with
  | literal v => rfl
  | const c => rfl
  | var x => exact hvar x (by simp)
  | lambda x body ih =>
    have hbody : body.read (V.under x) = body.read (W.under x) := by
      apply ih
      · intro v hv
        by_cases hvx : v = x
        · simp [Valuation.under, hvx]
        · have hfree := free_of_body hv (x := x) (by simpa using hvx)
          simp [Valuation.under, hvx, hvar v hfree]
      · intro z hz
        have hfree := free_of_body hz (x := x) (by simp)
        simp [Valuation.under, hmeta z hfree]
    rw [read, read, hbody]
  | app head args ih ihs =>
    have hhead : head.read V = head.read W :=
      ih (fun v hv => hvar v (free_of_head hv)) fun z hz => hmeta z (free_of_head hz)
    have hargs : args.map (read V) = args.map (read W) :=
      List.map_congr_left fun t ht => ihs t ht (fun v hv => hvar v (free_of_mem_app ht hv))
        fun z hz => hmeta z (free_of_mem_app ht hz)
    rw [read_app, read_app, hhead, hargs]
  | metaApp z args ihs =>
    have hargs : args.map (read V) = args.map (read W) :=
      List.map_congr_left fun t ht => ihs t ht (fun v hv => hvar v (free_of_mem_metaApp ht hv))
        fun z hz => hmeta z (free_of_mem_metaApp ht hz)
    rw [read_metaApp, read_metaApp, hargs, Valuation.metaApp, Valuation.metaApp,
      hmeta z (free_metaVar z args)]

/-! ## Labels -/

theorem relabel_under (V : Valuation) (x : Var) (ρ : Nameless.Label → Nameless.Label) :
    (V.under x).relabel (Nameless.Label.lift ρ) = (V.relabel ρ).under x := by
  simp only [Valuation.relabel, Valuation.under, Valuation.mk.injEq]
  constructor
  · funext v
    split
    · rfl
    · exact (Nameless.weaken_relabel (V.var v) ρ).symm
  · funext z
    rw [Option.map_map, Option.map_map]
    congr 1
    funext t
    exact (Nameless.weaken_relabel t ρ).symm

theorem metaApp_relabel (V : Valuation) (z : MetaVar) (args : List Nameless)
    (ρ : Nameless.Label → Nameless.Label) :
    (V.metaApp z args).relabel ρ = (V.relabel ρ).metaApp z (args.map (.relabel ρ)) := by
  simp only [Valuation.metaApp, Valuation.relabel]
  cases V.metaVar z with
  | none => simp [Nameless.relabel, Nameless.relabelAll_eq_map]
  | some image => simp [Nameless.instantiate_relabel]

theorem read_relabel (t : Term) (V : Valuation) (ρ : Nameless.Label → Nameless.Label) :
    t.read (V.relabel ρ) = (t.read V).relabel ρ := by
  induction t using Term.induction generalizing V ρ with
  | literal v => rfl
  | const c => rfl
  | var x => rfl
  | lambda x body ih => rw [read, read, Nameless.relabel, ← ih, relabel_under]
  | app head args ih ihs =>
    have hargs : args.map (read (V.relabel ρ)) = (args.map (read V)).map (.relabel ρ) := by
      rw [List.map_map]
      exact List.map_congr_left fun t ht => ihs t ht V ρ
    rw [read_app, read_app, Nameless.apply_relabel, ih, hargs]
  | metaApp z args ihs =>
    have hargs : args.map (read (V.relabel ρ)) = (args.map (read V)).map (.relabel ρ) := by
      rw [List.map_map]
      exact List.map_congr_left fun t ht => ihs t ht V ρ
    rw [read_metaApp, read_metaApp, hargs, metaApp_relabel]

/-- A variable that does not occur may be bound or not. -/
theorem read_under {t : Term} {x : Var} (hx : .var x ∉ t.free) (V : Valuation) :
    t.read (V.under x) = (t.read V).weaken := by
  rw [Nameless.weaken, ← read_relabel]
  apply read_congr
  · intro v hv
    have hvx : v ≠ x := fun e => hx (e ▸ hv)
    simp [Valuation.under, Valuation.relabel, hvx, Nameless.weaken]
  · intro z _
    rfl

theorem fill_under {V : Valuation} (x : Var) (s : Nameless.Label → Nameless) :
    (V.under x).fill (Nameless.under s) = (V.fill s).under x := by
  simp only [Valuation.fill, Valuation.under, Valuation.mk.injEq]
  constructor
  · funext v
    split
    · rfl
    · exact (Nameless.weaken_fill (V.var v) s).symm
  · rfl

theorem read_fill (t : Term) {V : Valuation} (hV : ∀ z, V.metaVar z = none)
    (s : Nameless.Label → Nameless) : t.read (V.fill s) = (t.read V).fill s := by
  induction t using Term.induction generalizing V s with
  | literal v => rfl
  | const c => rfl
  | var x => rfl
  | lambda x body ih =>
    have hVx : ∀ z, (V.under x).metaVar z = none := by simp [Valuation.under, hV]
    rw [read, read, Nameless.fill, ← ih hVx, fill_under]
  | app head args ih ihs =>
    have hargs : args.map (read (V.fill s)) = (args.map (read V)).map (.fill s) := by
      rw [List.map_map]
      exact List.map_congr_left fun t ht => ihs t ht hV s
    rw [read_app, read_app, Nameless.apply_fill, ih hV, hargs]
  | metaApp z args ihs =>
    have hargs : args.map (read (V.fill s)) = (args.map (read V)).map (.fill s) := by
      rw [List.map_map]
      exact List.map_congr_left fun t ht => ihs t ht hV s
    rw [read_metaApp, read_metaApp, hargs]
    simp [Valuation.metaApp, Valuation.fill, hV, Nameless.fill, Nameless.fillAll_eq_map]

/-! ## Nameless terms -/

theorem plain_unders_var (xs : List Var) (v : Var) :
    (Valuation.plain.unders xs).var v = .ofVar xs v := by
  induction xs with
  | nil => rfl
  | cons x xs ih =>
    rw [Valuation.unders]
    simp only [Valuation.under, ih, Nameless.ofVar, List.idxOf?_cons]
    by_cases h : v = x
    · simp [h]
    · have hx : (x == v) = false := beq_eq_false_iff_ne.mpr (Ne.symm h)
      rw [if_neg h, hx]
      cases xs.idxOf? v <;> rfl

theorem plain_unders_metaVar (xs : List Var) (z : MetaVar) :
    (Valuation.plain.unders xs).metaVar z = none := by
  induction xs with
  | nil => rfl
  | cons x xs ih => simp [Valuation.unders, Valuation.under, ih]

theorem isApp_read {t : Term} (ht : t.isApp = false) (xs : List Var) (args : List Nameless)
    (hargs : args ≠ []) :
    (namelessIn xs t).apply args = .app (namelessIn xs t) args := by
  cases args with
  | nil => exact absurd rfl hargs
  | cons a as =>
    cases t with
    | app head args => simp [isApp] at ht
    | var x =>
      rw [namelessIn, Nameless.ofVar]
      split <;> rfl
    | _ => rfl

/-- The reading of a well-formed term under the plain valuation is the nameless term. -/
theorem read_plain_unders {t : Term} (ht : t.WellFormed) (xs : List Var) :
    t.read (Valuation.plain.unders xs) = namelessIn xs t := by
  induction ht generalizing xs with
  | literal v => rfl
  | const c => rfl
  | var x => exact plain_unders_var xs x
  | @lambda x body _ _ _ ih => rw [read, namelessIn, ← ih, Valuation.unders]
  | @app head args flat nonempty _ _ _ _ ih ihs =>
    have hargs : args.map (read (Valuation.plain.unders xs)) = args.map (namelessIn xs) :=
      List.map_congr_left fun t ht => ihs t ht xs
    have hne : args.map (namelessIn xs) ≠ [] := by simpa using nonempty
    rw [read_app, ih, hargs, isApp_read flat xs _ hne, namelessIn, namelessAllIn_eq_map]
  | @metaApp z args _ _ _ ihs =>
    have hargs : args.map (read (Valuation.plain.unders xs)) = args.map (namelessIn xs) :=
      List.map_congr_left fun t ht => ihs t ht xs
    rw [read_metaApp, hargs, namelessIn, namelessAllIn_eq_map, Valuation.metaApp,
      plain_unders_metaVar]

theorem read_plain {t : Term} (ht : t.WellFormed) : t.read .plain = t.nameless :=
  read_plain_unders ht []

theorem relabel_read_plain (t : Term) {ρ : Nameless.Label → Nameless.Label}
    (hρ : Nameless.Label.Local ρ) : (t.read .plain).relabel ρ = t.read .plain := by
  rw [← read_relabel]
  apply read_congr
  · intro v _
    simp only [Valuation.relabel, Valuation.plain, Nameless.relabel, hρ.free, Nameless.ofLabel]
  · intro z _
    rfl

/-- Substitution in a reading replaces what the variables stand for. -/
theorem subst_read (t : Term) {U W : Valuation} {θ : Replaceable → Option Nameless}
    (closed : ∀ r image, θ r = some image → ∀ ρ, Nameless.Label.Local ρ → image.relabel ρ = image)
    (hvar : ∀ v, W.var v = (U.var v).subst θ) (hU : ∀ z, U.metaVar z = none)
    (hmeta : ∀ z, W.metaVar z = θ (.metaVar z)) : (t.read U).subst θ = t.read W := by
  induction t using Term.induction generalizing U W with
  | literal v => rfl
  | const c => rfl
  | var x => exact (hvar x).symm
  | lambda x body ih =>
    rw [read, read, Nameless.subst]
    congr 1
    apply ih
    · intro v
      simp only [Valuation.under]
      split
      · rfl
      · rw [hvar v]
        exact Nameless.subst_relabel closed (U.var v) (Nameless.Label.local_shift 1)
    · simp [Valuation.under, hU]
    · intro z
      simp only [Valuation.under, hmeta]
      cases h : θ (.metaVar z) with
      | none => rfl
      | some image => exact congrArg some (closed _ _ h _ (Nameless.Label.local_shift 1))
  | app head args ih ihs =>
    have hargs : (args.map (read U)).map (.subst θ) = args.map (read W) := by
      rw [List.map_map]
      exact List.map_congr_left fun t ht => ihs t ht hvar hU hmeta
    rw [read_app, read_app, Nameless.apply_subst, ih hvar hU hmeta, hargs]
  | metaApp z args ihs =>
    have hargs : (args.map (read U)).map (.subst θ) = args.map (read W) := by
      rw [List.map_map]
      exact List.map_congr_left fun t ht => ihs t ht hvar hU hmeta
    rw [read_metaApp, read_metaApp, Valuation.metaApp, Valuation.metaApp, hU, hmeta]
    cases h : θ (.metaVar z) with
    | none => simp only [Nameless.subst, Nameless.substAll_eq_map, hargs, h]
    | some image => simp only [Nameless.subst, Nameless.substAll_eq_map, hargs, h]

end Term

end TermAlgebra
