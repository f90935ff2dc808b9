import Mathlib.Data.List.Nodup
import TermAlgebra.Proofs.Opening
import TermAlgebra.Proofs.Reinsertion

/-!
# Fresh binders

Fresh binders are drawn one for each abstraction. The builders that put a renamed term together
find nothing to refresh, so that renaming through the builders, which refresh by renaming, needs no
second round. Main statement: `refreshBinders_apart`.
-/

namespace TermAlgebra

/-- Copies with consecutive identifiers from `n` on. -/
def Var.copies (n : Nat) (xs : List Var) : List Var :=
  (xs.zipIdx n).map fun p => { p.1 with id := p.2 }

namespace Var

theorem copies_cons (n : Nat) (x : Var) (xs : List Var) :
    copies n (x :: xs) = { x with id := n } :: copies (n + 1) xs := rfl

theorem copies_append (n : Nat) (xs ys : List Var) :
    copies n (xs ++ ys) = copies n xs ++ copies (n + xs.length) ys := by
  rw [copies, List.zipIdx_append, List.map_append]
  rfl

theorem map_id_copies (n : Nat) (xs : List Var) :
    (copies n xs).map Var.id = List.range' n xs.length := by
  induction xs generalizing n with
  | nil => rfl
  | cons x xs ih => rw [copies_cons, List.map_cons, ih, List.length_cons, List.range'_succ]

theorem nodup_copies (n : Nat) (xs : List Var) : (copies n xs).Nodup := by
  have hids : ((copies n xs).map Var.id).Nodup := by
    rw [map_id_copies]
    exact List.nodup_range'
  exact hids.of_map Var.id

theorem id_of_mem_copies {n : Nat} {xs : List Var} {y : Var} (hy : y ∈ copies n xs) :
    n ≤ y.id ∧ y.id < n + xs.length := by
  have hid : y.id ∈ (copies n xs).map Var.id := List.mem_map_of_mem hy
  rw [map_id_copies, List.mem_range'_1] at hid
  exact hid

theorem labels_copies (n : Nat) (xs : List Var) :
    List.Forall₂ (fun x y => y.name = x.name ∧ y.ty = x.ty ∧ y.binder = x.binder) xs
      (copies n xs) := by
  induction xs generalizing n with
  | nil => exact .nil
  | cons x xs ih => exact .cons ⟨rfl, rfl, rfl⟩ (ih (n + 1))

end Var

namespace Term

/-! ## Runs -/

section Runs

variable (ρ : Renaming) (n : Nat)

theorem run_rename_lambda (x : Var) (body : Term) : ((lambda x body).rename ρ).run n =
    let y := { x with id := n }
    let run := (body.rename (ρ.update x y)).run (n + 1)
    (lambda y run.1, run.2) := by
  rw [rename_lambda]
  rfl

theorem run_rename_app (head : Term) (args : List Term) : ((app head args).rename ρ).run n =
    let run := (renameAll ρ args).run n
    let run' := (head.rename ρ).run run.2
    (app run'.1 run.1, run'.2) := by
  rw [rename_app]
  rfl

theorem run_rename_metaApp (z : MetaVar) (args : List Term) :
    ((metaApp z args).rename ρ).run n =
      let run := (renameAll ρ args).run n
      (metaApp z run.1, run.2) := by
  rw [rename_metaApp]
  rfl

end Runs

/-! ## Binders in the order of drawing -/

mutual

/-- The binders of the abstractions: outer ones before inner ones, those in the arguments from left
to right before those in the head. -/
def binders : Term → List Var
  | literal _ => []
  | const _ => []
  | var _ => []
  | lambda x body => x :: body.binders
  | app head args => bindersAll args ++ head.binders
  | metaApp _ args => bindersAll args

def bindersAll : List Term → List Var
  | [] => []
  | t :: ts => t.binders ++ bindersAll ts

end

/-- Renaming gives the binders of a term consecutive copies. -/
structure Copies (n : Nat) (xs : List Var) (ys : List Var) (n' : Nat) : Prop where
  binders : ys = Var.copies n xs
  next : n' = n + xs.length

namespace Copies

theorem nil (n : Nat) : Copies n [] [] n := ⟨rfl, rfl⟩

theorem append {n n' n'' : Nat} {xs xs' ys ys' : List Var} (h : Copies n xs ys n')
    (h' : Copies n' xs' ys' n'') : Copies n (xs ++ xs') (ys ++ ys') n'' := by
  obtain ⟨rfl, rfl⟩ := h
  obtain ⟨rfl, rfl⟩ := h'
  refine ⟨(Var.copies_append n xs xs').symm, ?_⟩
  rw [List.length_append, Nat.add_assoc]

theorem cons {n n' : Nat} (x : Var) {xs ys : List Var} (h : Copies (n + 1) xs ys n') :
    Copies n (x :: xs) ({ x with id := n } :: ys) n' := by
  obtain ⟨rfl, rfl⟩ := h
  refine ⟨rfl, ?_⟩
  rw [List.length_cons]
  omega

end Copies

theorem copies_renameAll {ρ : Renaming} {ts : List Term} (h : ∀ t ∈ ts, ∀ n,
    Copies n t.binders ((t.rename ρ).run n).1.binders ((t.rename ρ).run n).2) (n : Nat) :
    Copies n (bindersAll ts) (bindersAll ((renameAll ρ ts).run n).1) ((renameAll ρ ts).run n).2 := by
  induction ts generalizing n with
  | nil => exact .nil n
  | cons t ts ih =>
    have ht := h t List.mem_cons_self n
    have hts := ih (fun s hs => h s (List.mem_cons_of_mem t hs)) ((t.rename ρ).run n).2
    rw [renameAll]
    exact ht.append hts

theorem copies_rename (t : Term) (ρ : Renaming) (n : Nat) :
    Copies n t.binders ((t.rename ρ).run n).1.binders ((t.rename ρ).run n).2 := by
  induction t using Term.induction generalizing ρ n with
  | literal v =>
    rw [rename_literal]
    exact .nil n
  | const c =>
    rw [rename_const]
    exact .nil n
  | var x =>
    rw [rename_var]
    exact .nil n
  | lambda x body ih =>
    rw [run_rename_lambda]
    exact (ih (ρ.update x { x with id := n }) (n + 1)).cons x
  | app head args ih ihs =>
    rw [run_rename_app]
    exact (copies_renameAll (fun t ht => ihs t ht ρ) n).append (ih ρ _)
  | metaApp z args ihs =>
    rw [run_rename_metaApp]
    exact copies_renameAll (fun t ht => ihs t ht ρ) n

/-! ## Renaming through the builders -/

/-- Draws identifiers, and may give up. -/
abbrev Attempt := ExceptT Unit Fresh

section Builders

variable (refresh : Term → Attempt Term)

/-- Fresh binders, as the given computation makes them, if some of them is among the variables. -/
def refreshAgainstBy (taken : OrderedSet Var) (t : Term) : Attempt Term :=
  if t.bound.intersects taken then refresh t else pure t

def mkLambdaBy (x : Var) (body : Term) : Attempt Term :=
  return lambda x (← if body.bound.contains x then refresh body else pure body)

def mkAppBy (t : Term) (args : List Term) : Attempt Term :=
  if args.isEmpty then return t
  else do
    let all := t.args ++ args
    let taken := freeBinders (t.head :: all)
    let head ← refreshAgainstBy refresh taken t.head
    return app head (← all.mapM (refreshAgainstBy refresh taken))

def mkMetaAppBy (z : MetaVar) (args : List Term) : Attempt Term :=
  return metaApp z (← args.mapM (refreshAgainstBy refresh (freeBinders args)))

mutual

/-- Renaming that puts the renamed parts together by the builders. -/
def renameBy (ρ : Renaming) (t : Term) : Attempt Term :=
  if ρ.fixes t then return t
  else match t with
  | literal v => return literal v
  | const c => return const c
  | var x => return var (ρ x)
  | lambda x body => do
    let y ← x.freshCopy
    mkLambdaBy refresh y (← renameBy (ρ.update x y) body)
  | app head args => do
    let args ← renameAllBy ρ args
    mkAppBy refresh (← renameBy ρ head) args
  | metaApp z args => do mkMetaAppBy refresh z (← renameAllBy ρ args)

def renameAllBy (ρ : Renaming) : List Term → Attempt (List Term)
  | [] => return []
  | t :: ts => do
    let t ← renameBy ρ t
    return t :: (← renameAllBy ρ ts)

end

end Builders

/-- Refreshing by renaming, whose builders refresh by renaming in turn, down to a depth where it
gives up. -/
def refreshWithin : Nat → Term → Attempt Term
  | 0, _ => throw ()
  | depth + 1, t => renameBy (refreshWithin depth) id t

section Builders

variable {refresh : Term → Attempt Term}

/-! ### Nothing to refresh -/

theorem refreshAgainstBy_self {taken : OrderedSet Var} {t : Term} (h : ∀ x ∈ taken, x ∉ t.bound) :
    refreshAgainstBy refresh taken t = pure t := by
  refine if_neg fun hclash => ?_
  obtain ⟨x, hb, hx⟩ := OrderedSet.intersects_iff.mp hclash
  exact h x hx hb

theorem mapM_refreshAgainstBy_self {taken : OrderedSet Var} {ts : List Term}
    (h : ∀ t ∈ ts, ∀ x ∈ taken, x ∉ t.bound) :
    ts.mapM (refreshAgainstBy refresh taken) = pure ts := by
  induction ts with
  | nil => rfl
  | cons t ts ih =>
    rw [List.mapM_cons, refreshAgainstBy_self (h t List.mem_cons_self), pure_bind,
      ih fun s hs => h s (List.mem_cons_of_mem t hs), pure_bind]

theorem mkLambdaBy_self {x : Var} {body : Term} (h : (lambda x body).WellFormed) :
    mkLambdaBy refresh x body = pure (lambda x body) := by
  cases h with
  | lambda _ once _ =>
    unfold mkLambdaBy
    rw [if_neg fun hb => once (OrderedSet.contains_iff.mp hb), pure_bind]

theorem mkAppBy_self {head : Term} {args : List Term} (h : (app head args).WellFormed) :
    mkAppBy refresh head args = pure (app head args) := by
  have hparts := h.parts_apart
  cases h with
  | app flat nonempty =>
    obtain ⟨hhead, hargs⟩ := head_args_of_flat flat
    unfold mkAppBy
    rw [if_neg (by simpa using nonempty), hhead, hargs, List.nil_append]
    dsimp only
    rw [refreshAgainstBy_self (hparts head (by simp)), pure_bind,
      mapM_refreshAgainstBy_self fun s hs => hparts s (by simp [hs]), pure_bind]

theorem mkMetaAppBy_self {z : MetaVar} {args : List Term} (h : (metaApp z args).WellFormed) :
    mkMetaAppBy refresh z args = pure (metaApp z args) := by
  unfold mkMetaAppBy
  rw [mapM_refreshAgainstBy_self h.metaArgs_apart, pure_bind]

theorem renameAllBy_eq {ρ : Renaming} {ts : List Term} {n : Nat} (h : ∀ t ∈ ts, ∀ m, n ≤ m →
    Fresh.attempt (renameBy refresh ρ t) m = (.ok ((t.rename ρ).run m).1, ((t.rename ρ).run m).2)) :
    Fresh.attempt (renameAllBy refresh ρ ts) n =
      (.ok ((renameAll ρ ts).run n).1, ((renameAll ρ ts).run n).2) := by
  induction ts generalizing n with
  | nil => rfl
  | cons t ts ih =>
    have hle := t.increasing_rename ρ n
    have hts := ih fun s hs m hm => h s (List.mem_cons_of_mem t hs) m (Nat.le_trans hle hm)
    rw [renameAllBy, renameAll, Fresh.attempt_bind, h t List.mem_cons_self n (Nat.le_refl n)]
    dsimp only
    rw [Fresh.attempt_bind, hts]
    rfl

/-- Renamed parts are put together without a clash: what is bound in them is newer than what is
free, whatever the builders would do about a clash. -/
theorem renameBy_eq (t : Term) {ρ : Renaming} {n : Nat} (hwf : t.WellFormed) (hfit : ρ.Fits n t) :
    Fresh.attempt (renameBy refresh ρ t) n =
      (.ok ((t.rename ρ).run n).1, ((t.rename ρ).run n).2) := by
  induction t using Term.induction generalizing ρ n with
  | literal v =>
    rw [rename_literal]
    unfold renameBy
    split <;> rfl
  | const c =>
    rw [rename_const]
    unfold renameBy
    split <;> rfl
  | var x =>
    rw [rename_var]
    unfold renameBy
    split
    · next h => rw [(fixes_iff.mp h).2 x (by simp)]; rfl
    · rfl
  | lambda x body ih =>
    have hbuilt := (rename_spec _ hfit).wf hwf
    have hfixes : ¬ρ.fixes (lambda x body) := fun h => (fixes_iff.mp h).1 x (by simp)
    rw [run_rename_lambda] at hbuilt ⊢
    unfold renameBy
    rw [if_neg hfixes]
    dsimp only
    rw [Fresh.attempt_bind, Fresh.attempt_lift, Var.run_freshCopy]
    dsimp only
    rw [Fresh.attempt_bind, ih hwf.body hfit.body]
    dsimp only
    rw [mkLambdaBy_self hbuilt]
    rfl
  | app head args ih ihs =>
    by_cases hfixes : ρ.fixes (app head args)
    · rw [rename_of_fixes hfixes]
      unfold renameBy
      rw [if_pos hfixes]
      rfl
    · have hbuilt := (rename_spec _ hfit).wf hwf
      have hargs := fun t ht m (hm : n ≤ m) =>
        ihs t ht (hwf.args t ht) ((hfit.arg ht).mono hm)
      have hle := Fresh.increasing_mapM (fun t (_ : t ∈ args) => t.increasing_rename ρ) n
      rw [run_rename_app] at hbuilt ⊢
      rw [← renameAll_eq_mapM] at hle
      unfold renameBy
      rw [if_neg hfixes]
      dsimp only
      rw [Fresh.attempt_bind, renameAllBy_eq hargs]
      dsimp only
      rw [Fresh.attempt_bind, ih hwf.head (hfit.head.mono hle)]
      dsimp only
      rw [mkAppBy_self hbuilt]
      rfl
  | metaApp z args ihs =>
    by_cases hfixes : ρ.fixes (metaApp z args)
    · rw [rename_of_fixes hfixes]
      unfold renameBy
      rw [if_pos hfixes]
      rfl
    · have hbuilt := (rename_spec _ hfit).wf hwf
      have hargs := fun t ht m (hm : n ≤ m) =>
        ihs t ht (hwf.metaArgs t ht) ((hfit.metaArg ht).mono hm)
      rw [run_rename_metaApp] at hbuilt ⊢
      unfold renameBy
      rw [if_neg hfixes]
      dsimp only
      rw [Fresh.attempt_bind, renameAllBy_eq hargs]
      dsimp only
      rw [mkMetaAppBy_self hbuilt]
      rfl

end Builders

/-! ### The builders of the program

The builders are those that refresh by renaming without the builders. -/

theorem refreshAgainstBy_refreshBinders (taken : OrderedSet Var) :
    refreshAgainstBy (fun t => liftM t.refreshBinders) taken =
      fun t => liftM (t.refreshAgainst taken) := by
  funext t
  unfold refreshAgainstBy refreshAgainst
  split <;> rfl

theorem mapM_lift (f : Term → Fresh Term) (ts : List Term) :
    ts.mapM (fun t => (liftM (f t) : Attempt Term)) = liftM (ts.mapM f) := by
  induction ts with
  | nil => rfl
  | cons t ts ih =>
    rw [List.mapM_cons, List.mapM_cons, ih]
    simp only [liftM_bind, liftM_pure]

theorem mkLambdaBy_refreshBinders (x : Var) (body : Term) :
    mkLambdaBy (fun t => liftM t.refreshBinders) x body = liftM (mkLambda x body) := by
  unfold mkLambdaBy mkLambda
  split <;> rfl

theorem mkAppBy_refreshBinders (t : Term) (args : List Term) :
    mkAppBy (fun t => liftM t.refreshBinders) t args = liftM (mkApp t args) := by
  unfold mkAppBy mkApp
  split
  · rfl
  · simp only [refreshAgainstBy_refreshBinders, mapM_lift, liftM_bind, liftM_pure]

theorem mkMetaAppBy_refreshBinders (z : MetaVar) (args : List Term) :
    mkMetaAppBy (fun t => liftM t.refreshBinders) z args = liftM (mkMetaApp z args) := by
  unfold mkMetaAppBy mkMetaApp
  simp only [refreshAgainstBy_refreshBinders, mapM_lift, liftM_bind, liftM_pure]

mutual

/-- Renaming that puts the renamed parts together by the builders of the program. -/
def renameBuilding (ρ : Renaming) (t : Term) : Fresh Term :=
  if ρ.fixes t then return t
  else match t with
  | literal v => return literal v
  | const c => return const c
  | var x => return var (ρ x)
  | lambda x body => do
    let y ← x.freshCopy
    mkLambda y (← renameBuilding (ρ.update x y) body)
  | app head args => do
    let args ← renameAllBuilding ρ args
    mkApp (← renameBuilding ρ head) args
  | metaApp z args => do mkMetaApp z (← renameAllBuilding ρ args)

def renameAllBuilding (ρ : Renaming) : List Term → Fresh (List Term)
  | [] => return []
  | t :: ts => do
    let t ← renameBuilding ρ t
    return t :: (← renameAllBuilding ρ ts)

end

theorem renameAllBy_refreshBinders {ρ : Renaming} {ts : List Term} (h : ∀ t ∈ ts,
    renameBy (fun t => liftM t.refreshBinders) ρ t = liftM (renameBuilding ρ t)) :
    renameAllBy (fun t => liftM t.refreshBinders) ρ ts = liftM (renameAllBuilding ρ ts) := by
  induction ts with
  | nil => rfl
  | cons t ts ih =>
    rw [renameAllBy, renameAllBuilding, h t List.mem_cons_self,
      ih fun s hs => h s (List.mem_cons_of_mem t hs)]
    simp only [liftM_bind, liftM_pure]

theorem renameBy_refreshBinders (ρ : Renaming) (t : Term) :
    renameBy (fun t => liftM t.refreshBinders) ρ t = liftM (renameBuilding ρ t) := by
  induction t using Term.induction generalizing ρ with
  | literal v | const c | var x =>
    unfold renameBy renameBuilding
    split <;> rfl
  | lambda x body ih =>
    unfold renameBy renameBuilding
    split
    · rfl
    · simp only [ih, mkLambdaBy_refreshBinders, liftM_bind]
  | app head args ih ihs =>
    unfold renameBy renameBuilding
    split
    · rfl
    · simp only [ih, renameAllBy_refreshBinders fun t ht => ihs t ht ρ, mkAppBy_refreshBinders,
        liftM_bind]
  | metaApp z args ihs =>
    unfold renameBy renameBuilding
    split
    · rfl
    · simp only [renameAllBy_refreshBinders fun t ht => ihs t ht ρ, mkMetaAppBy_refreshBinders,
        liftM_bind]

/-- The builders of the program have nothing to refresh when a renamed term is put together, so that
they may be left out. -/
theorem renameBuilding_eq {t : Term} {ρ : Renaming} {n : Nat} (hwf : t.WellFormed)
    (hfit : ρ.Fits n t) : (renameBuilding ρ t).run n = (t.rename ρ).run n := by
  have hbuilt : Fresh.attempt (renameBy (fun t => liftM t.refreshBinders) ρ t) n =
      (.ok ((t.rename ρ).run n).1, ((t.rename ρ).run n).2) := renameBy_eq t hwf hfit
  rw [renameBy_refreshBinders, Fresh.attempt_lift] at hbuilt
  obtain ⟨hterm, hnext⟩ := Prod.mk.inj hbuilt
  exact Prod.ext (Except.ok.inj hterm) hnext

/-! ## Renaming apart -/

theorem mem_bindersAll {ts : List Term} {x : Var} :
    x ∈ bindersAll ts ↔ ∃ t ∈ ts, x ∈ t.binders := by
  induction ts with
  | nil => simp [bindersAll]
  | cons t ts ih => simp [bindersAll, ih]

theorem mem_binders {t : Term} {x : Var} : x ∈ t.binders ↔ x ∈ t.bound := by
  induction t using Term.induction with
  | literal v => simp [binders]
  | const c => simp [binders]
  | var y => simp [binders]
  | lambda y body ih => rw [binders, List.mem_cons, bound_lambda, OrderedSet.mem_insert, ih]
  | app head args ih ihs =>
    rw [binders, List.mem_append, mem_bindersAll, bound_app, OrderedSet.mem_union, mem_boundAll,
      ih, Or.comm]
    exact or_congr_right (exists_congr fun t => and_congr_right (ihs t))
  | metaApp z args ihs =>
    rw [binders, mem_bindersAll, bound_metaApp, mem_boundAll]
    exact exists_congr fun t => and_congr_right (ihs t)

/-- The second term is the first with all binders renamed apart, and the identifiers of the new
binders are those from `n` on. -/
structure RenamedApart (n : Nat) (t t' : Term) : Prop where
  alphaEquals : t.alphaEquals t'
  ty : t'.ty = t.ty
  free : t'.free = t.free
  ids : t'.binders.map Var.id = List.range' n t.binders.length
  distinct : t'.binders.Nodup
  newer : ∀ x ∈ t'.bound, n ≤ x.id
  labels : List.Forall₂ (fun x y => y.name = x.name ∧ y.ty = x.ty ∧ y.binder = x.binder)
    t.binders t'.binders

theorem Refreshed.alphaEquals {n n' : Nat} {t t' : Term} (h : Refreshed n n' t t')
    (hwf : t.WellFormed) : t.alphaEquals t' := by
  rw [alphaEquals_iff, ← read_plain hwf, ← read_plain (h.wf hwf), h.read]

theorem renamedApart_refreshBinders {t : Term} {n : Nat} (h : Sound n t) :
    RenamedApart n t (t.refreshBinders.run n).1 := by
  have hren := (refreshBinders_renamed h.idsBelow).refreshed
  have hcopies := (t.copies_rename id n).binders
  refine ⟨hren.alphaEquals h.wf, hren.ty, hren.free, ?_, ?_, fun x hx => ?_, ?_⟩
  · rw [refreshBinders, hcopies, Var.map_id_copies]
  · rw [refreshBinders, hcopies]
    exact Var.nodup_copies n t.binders
  · rw [← mem_binders, refreshBinders, hcopies] at hx
    exact (Var.id_of_mem_copies hx).1
  · rw [refreshBinders, hcopies]
    exact Var.labels_copies n t.binders

/-- Fresh binders rename a term apart, with one identifier for each abstraction. Renaming through
the builders does the same whatever the builders do about a clash, so it also ends when they rename
in turn. -/
theorem refreshBinders_apart {t : Term} {n : Nat} (h : Sound n t) :
    ∃ t', t.refreshBinders.run n = (t', n + t.binders.length) ∧ RenamedApart n t t' ∧
      (∀ refresh, Fresh.attempt (renameBy refresh id t) n = (.ok t', n + t.binders.length)) ∧
      ∀ depth, Fresh.attempt (refreshWithin (depth + 1) t) n = (.ok t', n + t.binders.length) := by
  have hnext : ((t.rename id).run n).2 = n + t.binders.length := (t.copies_rename id n).next
  have hbuilt : ∀ refresh, Fresh.attempt (renameBy refresh id t) n =
      (.ok (t.refreshBinders.run n).1, n + t.binders.length) := by
    intro refresh
    rw [renameBy_eq t h.wf (fits_id h.idsBelow), hnext]
    rfl
  exact ⟨_, Prod.ext rfl hnext, renamedApart_refreshBinders h, hbuilt,
    fun depth => hbuilt (refreshWithin depth)⟩

/-- In `f(λx.x, λx.λy.x)`, where both abstractions bind the same `x`, the new binders are drawn
from left to right, the outer one before the inner one. -/
theorem refreshBinders_apart_shared :
    let o := SimpleType.base "o"
    let f : Constant := ⟨"f", .arrow (.arrow o o) (.arrow (.arrow o (.arrow o o)) o), false, none⟩
    let x : Var := ⟨0, "x", o, true⟩
    let y : Var := ⟨1, "y", o, true⟩
    let t := app (const f) [lambda x (var x), lambda x (lambda y (var x))]
    Sound 2 t ∧ ∃ t', t.refreshBinders.run 2 = (t', 5) ∧ RenamedApart 2 t t' ∧
      t'.binders.map (fun v => (v.id, v.name)) = [(2, "x"), (3, "x"), (4, "y")] := by
  intro o f x y t
  have hx : Sound 2 (lambda x (var x)) :=
    sound_lambda (by decide) rfl (by simp) (sound_var (by decide))
  have hxy : Sound 2 (lambda x (lambda y (var x))) := by
    refine ⟨⟨?_, by simp [x, y]⟩, .lambda rfl (by simp [x, y]) (.lambda rfl (by simp) (.var x))⟩
    simp +contextual
  have ht : Sound 2 t := by
    refine sound_app_of_apart ?_ rfl (by simp) rfl fun v hv => ?_
    · simp [sound_const, hx, hxy]
    · simp only [free_app, free_const, freeAll, free_lambda, free_var, OrderedSet.mem_union,
        OrderedSet.mem_erase, OrderedSet.mem_singleton, OrderedSet.not_mem_empty] at hv
      grind
  obtain ⟨t', hrun, hapart, -, -⟩ := refreshBinders_apart ht
  have hcount : t.binders.length = 3 := rfl
  rw [hcount] at hrun
  refine ⟨ht, t', hrun, hapart, ?_⟩
  obtain rfl := (Prod.ext_iff.mp hrun).1
  have hcopies := (t.copies_rename id 2).binders
  rw [refreshBinders, hcopies]
  rfl

end Term

end TermAlgebra
