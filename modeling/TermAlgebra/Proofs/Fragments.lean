import TermAlgebra.Proofs.Counterparts
import TermAlgebra.Proofs.Instances
import TermAlgebra.Proofs.Reinsertion

/-!
# Fragments under substitution

Applicative terms have no binders, so nothing in them is renamed, and a substitution of applicative
images leaves an applicative term without drawing an identifier. A first-order term is one whose
heads are constants and whose variables and arguments are of base type. Patterns are seen in the
nameless reading, where a substitution for variables that are no binders does not come near the
arguments of a meta-variable.
-/

namespace TermAlgebra

theorem Fresh.mapM_eq_pure {f : Term → Fresh Term} {P : Term → Term → Prop} {ts : List Term}
    (h : ∀ t ∈ ts, ∃ u, f t = pure u ∧ P t u) : ∃ us, ts.mapM f = pure us ∧ List.Forall₂ P ts us := by
  induction ts with
  | nil => exact ⟨[], rfl, .nil⟩
  | cons t ts ih =>
    obtain ⟨u, hu, hP⟩ := h t List.mem_cons_self
    obtain ⟨us, hus, hPs⟩ := ih fun s hs => h s (List.mem_cons_of_mem t hs)
    refine ⟨u :: us, ?_, .cons hP hPs⟩
    rw [List.mapM_cons, hu, hus]
    rfl

namespace Term

/-! ## Applicative terms -/

/-- Built by application from literals, constants, variables and meta-variables without inputs. -/
inductive Curried : Term → Prop
  | literal (v : Literal) : Curried (literal v)
  | const (c : Constant) : Curried (const c)
  | var (x : Var) : Curried (var x)
  | metaVar {z : MetaVar} (inputs : z.inputs = []) : Curried (metaApp z [])
  | app {head : Term} {args : List Term} (hhead : Curried head) (hargs : ∀ t ∈ args, Curried t) :
      Curried (app head args)

theorem areApplicative_iff {ts : List Term} : areApplicative ts ↔ ∀ t ∈ ts, t.isApplicative := by
  induction ts with
  | nil => simp [areApplicative]
  | cons t ts ih => simp [areApplicative, ih]

theorem curried_iff {t : Term} (ht : t.WellFormed) : t.isApplicative ↔ t.Curried := by
  induction ht with
  | literal v => exact iff_of_true rfl (.literal v)
  | const c => exact iff_of_true rfl (.const c)
  | var x => exact iff_of_true rfl (.var x)
  | lambda => exact iff_of_false Bool.false_ne_true nofun
  | app _ _ _ _ _ _ ih ihs =>
    rw [isApplicative, Bool.and_eq_true, ih, areApplicative_iff]
    constructor
    · intro ⟨hhead, hargs⟩
      exact .app hhead fun t ht => (ihs t ht).mp (hargs t ht)
    · intro h
      cases h with
      | app hhead hargs => exact ⟨hhead, fun t ht => (ihs t ht).mpr (hargs t ht)⟩
  | @metaApp z args fits _ _ _ =>
    have harity : (metaApp z args).isApplicative ↔ z.inputs = [] := by
      simp [isApplicative, MetaVar.arity]
    rw [harity]
    constructor
    · intro hz
      have hargs : args = [] := List.map_eq_nil_iff.mp (fits.trans hz)
      rw [hargs]
      exact .metaVar hz
    · intro h
      cases h with
      | metaVar inputs => exact inputs

variable {σ : Subst} {t : Term} {ts : List Term}

theorem Curried.not_bound (h : t.Curried) (x : Var) : x ∉ t.bound := by
  induction h with
  | literal | const | var => simp
  | metaVar => simp [boundAll]
  | app _ _ ih ihs =>
    simp only [bound_app, OrderedSet.mem_union, mem_boundAll, not_or, not_exists, not_and]
    exact ⟨ih, ihs⟩

theorem Curried.head (h : t.Curried) : t.head.Curried := by
  cases h with
  | app hhead _ => exact hhead
  | literal v => exact .literal v
  | const c => exact .const c
  | var x => exact .var x
  | metaVar inputs => exact .metaVar inputs

theorem Curried.args (h : t.Curried) : ∀ s ∈ t.args, s.Curried := by
  cases h with
  | app _ hargs => exact hargs
  | _ => exact fun s hs => absurd hs List.not_mem_nil

/-- Where nothing is bound, nothing clashes. -/
theorem mkApp_of_curried (ht : t.Curried) (hts : ∀ s ∈ ts, s.Curried) (hne : ts ≠ []) :
    mkApp t ts = pure (app t.head (t.args ++ ts)) := by
  have hself : ∀ taken, ∀ s ∈ t.head :: (t.args ++ ts), s.refreshAgainst taken = pure s := by
    intro taken s hs
    have hcurried : s.Curried := by
      simp only [List.mem_cons, List.mem_append] at hs
      obtain rfl | hs | hs := hs
      · exact ht.head
      · exact ht.args s hs
      · exact hts s hs
    exact refreshAgainst_self fun x _ => hcurried.not_bound x
  unfold mkApp
  rw [if_neg (by simpa using hne)]
  dsimp only
  rw [hself _ t.head List.mem_cons_self, pure_bind,
    Fresh.mapM_eq_self fun s hs => hself _ s (List.mem_cons_of_mem _ hs)]
  rfl

/-! ## Substitution in applicative terms -/

theorem subst_of_not_affects (h : σ.affects t = false) : t.subst σ = pure t :=
  substWith_of_not_affects _ σ h

theorem instantiate_nil (image : Term) : image.instantiate [] = pure image := by
  have hkeep : image.substVars ∅ = pure image := by
    refine substWith_of_not_affects _ ∅ ?_
    simp [Subst.affects, Subst.contains, Subst.get?_empty]
  have hopen : image.openLambdas [] ∅ = (∅, image, []) := by
    cases image <;> rfl
  unfold instantiate
  rw [hopen]
  dsimp only
  rw [hkeep]
  rfl

theorem subst_of_free_eq_empty (h : t.free = ∅) : t.subst σ = pure t :=
  subst_of_not_affects (by simp [Subst.affects, h])

/-- A variable, or a meta-variable without arguments, becomes its image. -/
theorem subst_toTerm (σ : Subst) (r : Replaceable) :
    r.toTerm.subst σ = pure ((σ.get? r).getD r.toTerm) := by
  cases r with
  | var x => exact substWith_var _ σ x
  | metaVar z =>
    change (metaApp z []).subst σ = pure ((σ.get? (.metaVar z)).getD (metaApp z []))
    cases e : σ.get? (.metaVar z) with
    | none =>
      refine subst_of_not_affects ?_
      rw [Bool.eq_false_iff, Ne, Subst.affects_iff]
      simp [freeAll, e]
    | some image =>
      have haff : σ.affects (metaApp z []) := by
        rw [Subst.affects_iff]
        simp [freeAll, e]
      unfold subst
      rw [substWith_metaApp _ σ haff, List.mapM_nil, pure_bind, instantiateMeta, e]
      exact instantiate_nil image

theorem exists_subst_toTerm {P : Term → Prop} {r : Replaceable} (hself : P r.toTerm)
    (himage : ∀ image, σ.get? r = some image → P image) :
    ∃ u, r.toTerm.subst σ = pure u ∧ P u := by
  refine ⟨_, subst_toTerm σ r, ?_⟩
  cases e : σ.get? r with
  | none => exact hself
  | some image => exact himage image e

theorem subst_app_of_pure {head u : Term} {us : List Term} (hhead : head.subst σ = pure u)
    (hts : ts.mapM (subst σ) = pure us) (haff : σ.affects (app head ts)) :
    (app head ts).subst σ = mkApp u us := by
  unfold subst at hhead hts ⊢
  rw [substWith_app _ σ haff, hts, pure_bind, hhead, pure_bind]

/-- The images of what is free in an applicative term are applicative. -/
theorem Curried.subst (ht : t.Curried)
    (hσ : ∀ r ∈ t.free, ∀ image, σ.get? r = some image → image.Curried) :
    ∃ u, t.subst σ = pure u ∧ u.Curried := by
  induction ht with
  | literal v => exact ⟨_, subst_of_free_eq_empty (free_literal v), .literal v⟩
  | const c => exact ⟨_, subst_of_free_eq_empty (free_const c), .const c⟩
  | var x => exact exists_subst_toTerm (.var x) (hσ (.var x) (by simp))
  | @metaVar z inputs => exact exists_subst_toTerm (.metaVar inputs) (hσ (.metaVar z) (by simp))
  | @app head args hhead hargs ih ihs =>
    simp only [free_app, OrderedSet.mem_union, mem_freeAll] at hσ
    cases haff : σ.affects (Term.app head args) with
    | false => exact ⟨_, subst_of_not_affects haff, .app hhead hargs⟩
    | true =>
      obtain ⟨u, hu, hucurried⟩ := ih fun r hr => hσ r (.inl hr)
      obtain ⟨us, hus, hcurried⟩ := Fresh.mapM_eq_pure (P := fun _ u => u.Curried)
        fun s hs => ihs s hs fun r hr => hσ r (.inr ⟨s, hs, hr⟩)
      have huscurried : ∀ s ∈ us, s.Curried := by
        intro s hs
        obtain ⟨_, _, h⟩ := Fresh.exists_of_mem_right hcurried hs
        exact h
      rw [subst_app_of_pure hu hus haff]
      by_cases hne : us = []
      · subst hne
        exact ⟨u, rfl, hucurried⟩
      · refine ⟨_, mkApp_of_curried hucurried huscurried hne, .app hucurried.head ?_⟩
        intro s hs
        obtain hs | hs := List.mem_append.mp hs
        · exact hucurried.args s hs
        · exact huscurried s hs

/-! ## First-order terms -/

/-- First-order up to the type of the whole: heads are constants of first-order type, and below them
everything is of base type. -/
inductive FirstOrder : Term → Prop
  | literal (v : Literal) : FirstOrder (literal v)
  | const {c : Constant} (order : c.ty.order ≤ 1) : FirstOrder (const c)
  | var {x : Var} (base : x.ty.isBase) : FirstOrder (var x)
  | metaVar {z : MetaVar} (inputs : z.inputs = []) (base : z.output.isBase) :
      FirstOrder (metaApp z [])
  | app {c : Constant} {args : List Term} (order : c.ty.order ≤ 1)
      (firstOrder : ∀ t ∈ args, FirstOrder t) (base : ∀ t ∈ args, t.ty.isBase) :
      FirstOrder (app (const c) args)

theorem areFirstOrder_iff : areFirstOrder ts ↔ ∀ t ∈ ts, t.isFirstOrder := by
  induction ts with
  | nil => simp [areFirstOrder]
  | cons t ts ih => simp [areFirstOrder, isFirstOrder, ih]

theorem firstOrder_iff (ht : t.WellFormed) : t.isFirstOrder ↔ t.FirstOrder ∧ t.ty.isBase := by
  induction ht with
  | literal v => simp [isFirstOrder, hasFirstOrderShape, FirstOrder.literal]
  | const c =>
    rw [isFirstOrder, hasFirstOrderShape, Bool.and_eq_true, and_comm, decide_eq_true_eq]
    refine and_congr_left fun _ => ⟨.const, fun h => ?_⟩
    cases h with
    | const order => exact order
  | var x =>
    rw [isFirstOrder, hasFirstOrderShape, Bool.and_true, ty]
    exact ⟨fun hx => ⟨.var hx, hx⟩, And.right⟩
  | lambda =>
    refine iff_of_false (by simp [isFirstOrder, hasFirstOrderShape]) fun h => ?_
    cases h.1
  | @app head args _ _ _ _ _ _ _ ihs =>
    rw [isFirstOrder, hasFirstOrderShape, Bool.and_eq_true, and_comm]
    refine and_congr_left fun _ => ?_
    simp only [Bool.and_eq_true, areFirstOrder_iff]
    constructor
    · intro h
      obtain ⟨⟨hconst, horder⟩, hargs⟩ := h
      cases head with
      | const c =>
        have hboth := fun t ht => (ihs t ht).mp (hargs t ht)
        exact .app (by simpa [hasFirstOrderShape] using horder) (fun t ht => (hboth t ht).1)
          fun t ht => (hboth t ht).2
      | _ => cases hconst
    · intro h
      cases h with
      | app order firstOrder base =>
        exact ⟨⟨rfl, by simpa [hasFirstOrderShape] using order⟩,
          fun t ht => (ihs t ht).mpr ⟨firstOrder t ht, base t ht⟩⟩
  | @metaApp z args fits _ _ _ =>
    rw [isFirstOrder, hasFirstOrderShape, Bool.and_eq_true, and_comm]
    refine and_congr_left fun hbase => ?_
    rw [ty] at hbase
    constructor
    · intro harity
      have hz : z.inputs = [] := by simpa [MetaVar.arity] using harity
      have hargs : args = [] := List.map_eq_nil_iff.mp (fits.trans hz)
      rw [hargs]
      exact .metaVar hz hbase
    · intro h
      cases h with
      | metaVar inputs _ => simp [MetaVar.arity, inputs]

theorem FirstOrder.curried (h : t.FirstOrder) : t.Curried := by
  induction h with
  | literal v => exact .literal v
  | const _ => exact .const _
  | var _ => exact .var _
  | metaVar inputs _ => exact .metaVar inputs
  | app _ _ _ ihs => exact .app (.const _) ihs

theorem FirstOrder.args (h : t.FirstOrder) : ∀ s ∈ t.args, s.FirstOrder ∧ s.ty.isBase := by
  cases h with
  | app _ firstOrder base => exact fun s hs => ⟨firstOrder s hs, base s hs⟩
  | _ => exact fun s hs => absurd hs List.not_mem_nil

theorem FirstOrder.headPart (h : t.FirstOrder) (i : Nat) : (t.headPart i).FirstOrder := by
  cases h with
  | @app c args order firstOrder base =>
    obtain ⟨_, e⟩ | ⟨_, e⟩ | ⟨_, _, e⟩ := headPart_cases (Term.app (.const c) args) i
    · rw [e]
      exact .app order firstOrder base
    · rw [e]
      exact .const order
    · rw [e]
      exact .app order (fun s hs => firstOrder s (List.mem_of_mem_take hs))
        fun s hs => base s (List.mem_of_mem_take hs)
  | literal v => exact .literal v
  | const order => exact .const order
  | var base => exact .var base
  | metaVar inputs base => exact .metaVar inputs base

/-- A substitution leaves a first-order term of base type where there was one. -/
theorem FirstOrder.subst (ht : t.FirstOrder)
    (hσ : ∀ r ∈ t.free, ∀ image, σ.get? r = some image → image.FirstOrder ∧ image.ty.isBase) :
    ∃ u, t.subst σ = pure u ∧ u.FirstOrder ∧ u.ty.isBase = t.ty.isBase := by
  induction ht with
  | literal v => exact ⟨_, subst_of_free_eq_empty (free_literal v), .literal v, rfl⟩
  | const order => exact ⟨_, subst_of_free_eq_empty (free_const _), .const order, rfl⟩
  | @var x base =>
    rw [ty, base]
    exact exists_subst_toTerm ⟨.var base, by rwa [Replaceable.toTerm, ty]⟩ (hσ (.var x) (by simp))
  | @metaVar z inputs base =>
    rw [ty, base]
    exact exists_subst_toTerm ⟨.metaVar inputs base, by rwa [Replaceable.toTerm, ty]⟩
      (hσ (.metaVar z) (by simp))
  | @app c args order firstOrder base ihs =>
    simp only [free_app, OrderedSet.mem_union, mem_freeAll] at hσ
    cases haff : σ.affects (Term.app (.const c) args) with
    | false => exact ⟨_, subst_of_not_affects haff, .app order firstOrder base, rfl⟩
    | true =>
      have hconst : (Term.const c).subst σ = pure (.const c) :=
        subst_of_free_eq_empty (free_const c)
      obtain ⟨us, hus, hall⟩ := Fresh.mapM_eq_pure
        (P := fun s u => u.FirstOrder ∧ u.ty.isBase = s.ty.isBase)
        fun s hs => ihs s hs fun r hr => hσ r (.inr ⟨s, hs, hr⟩)
      have hboth : ∀ u ∈ us, u.FirstOrder ∧ u.ty.isBase := by
        intro u hu
        obtain ⟨s, hs, hfirst, hty⟩ := Fresh.exists_of_mem_right hall hu
        exact ⟨hfirst, hty.trans (base s hs)⟩
      have hcurried : ∀ u ∈ us, u.Curried := fun u hu => (hboth u hu).1.curried
      have hlen : args.length = us.length := hall.length_eq
      rw [subst_app_of_pure hconst hus haff]
      by_cases hne : us = []
      · subst hne
        obtain rfl := List.length_eq_zero_iff.mp hlen
        refine ⟨_, rfl, .const order, ?_⟩
        simp [ty, SimpleType.dropInputs]
      · refine ⟨_, mkApp_of_curried (.const c) hcurried hne, ?_, ?_⟩
        · exact .app order (fun u hu => (hboth u hu).1) fun u hu => (hboth u hu).2
        · rw [ty, ty, hlen]
          rfl

end Term

namespace Nameless

/-! ## Patterns -/

/-- Meta-variables are applied to labels of binders, no two of them equal. -/
inductive Patterned : Nameless → Prop
  | literal (v : Literal) : Patterned (literal v)
  | const (c : String) (τ : SimpleType) : Patterned (const c τ)
  | free (x : Var) : Patterned (free x)
  | bound (i : Nat) : Patterned (bound i)
  | lambda {τ : SimpleType} {body : Nameless} (hbody : Patterned body) : Patterned (lambda τ body)
  | app {head : Nameless} {args : List Nameless} (hhead : Patterned head)
      (hargs : ∀ t ∈ args, Patterned t) : Patterned (app head args)
  | metaApp {z : MetaVar} {labels : List Label} (distinct : labels.Nodup)
      (binders : ∀ x, .free x ∈ labels → x.binder) :
      Patterned (metaApp z (labels.map ofLabel))

theorem Patterned.apply {t : Nameless} {args : List Nameless} (ht : t.Patterned)
    (hargs : ∀ a ∈ args, a.Patterned) : (t.apply args).Patterned := by
  cases args with
  | nil =>
    rw [apply_nil]
    exact ht
  | cons a as =>
    cases ht with
    | @app head bs hhead hbs =>
      rw [apply_app]
      refine .app hhead fun b hb => ?_
      obtain hb | hb := List.mem_append.mp hb
      · exact hbs b hb
      · exact hargs b hb
    | literal v => exact .app (.literal v) hargs
    | const c τ => exact .app (.const c τ) hargs
    | free x => exact .app (.free x) hargs
    | bound i => exact .app (.bound i) hargs
    | lambda hbody => exact .app (.lambda hbody) hargs
    | metaApp distinct binders => exact .app (.metaApp distinct binders) hargs

/-- Arguments of meta-variables are binders, so a substitution for other variables keeps them. -/
theorem Patterned.subst {t : Nameless} {θ : Replaceable → Option Nameless} (ht : t.Patterned)
    (hkeys : ∀ r, t.occurs r → ∀ image, θ r = some image → ∃ x, r = .var x ∧ x.binder = false)
    (himages : ∀ r, t.occurs r → ∀ image, θ r = some image → image.Patterned) :
    (t.subst θ).Patterned := by
  induction ht with
  | literal v => exact .literal v
  | const c τ => exact .const c τ
  | free x =>
    rw [Nameless.subst]
    cases e : θ (.var x) with
    | none => exact .free x
    | some image => exact himages _ rfl image e
  | bound i => exact .bound i
  | lambda _ ih => exact .lambda (ih hkeys himages)
  | app _ _ ih ihs =>
    simp only [occurs, occursAny_iff] at hkeys himages
    rw [Nameless.subst, substAll_eq_map]
    refine (ih (fun r hr => hkeys r (.inl hr)) fun r hr => himages r (.inl hr)).apply ?_
    intro u hu
    obtain ⟨t, ht, rfl⟩ := List.mem_map.mp hu
    exact ihs t ht (fun r hr => hkeys r (.inr ⟨t, ht, hr⟩))
      fun r hr => himages r (.inr ⟨t, ht, hr⟩)
  | @metaApp z labels distinct binders =>
    simp only [occurs, occursAny_iff] at hkeys
    have hz : θ (.metaVar z) = none := by
      rw [Option.eq_none_iff_forall_ne_some]
      intro image e
      obtain ⟨x, hx, _⟩ := hkeys _ (.inl rfl) image e
      cases hx
    have hlabels : (labels.map ofLabel).map (Nameless.subst θ) = labels.map ofLabel := by
      rw [List.map_map]
      refine List.map_congr_left fun l hl => ?_
      cases l with
      | bound i => rfl
      | free x =>
        have hx : θ (.var x) = none := by
          rw [Option.eq_none_iff_forall_ne_some]
          intro image e
          have hoccurs : (ofLabel (.free x)).occurs (.var x) := rfl
          obtain ⟨y, hy, hbinder⟩ := hkeys _ (.inr ⟨_, List.mem_map_of_mem hl, hoccurs⟩) image e
          obtain rfl := Replaceable.var.inj hy
          rw [binders x hl] at hbinder
          cases hbinder
        simp [ofLabel, Nameless.subst, hx]
    rw [Nameless.subst, hz, substAll_eq_map, hlabels]
    exact .metaApp distinct binders

end Nameless

namespace Term

open Nameless

/-- Only variables are read as labels. -/
theorem exists_map_var {scope : List Var} {args : List Term} {labels : List Label}
    (h : args.map (namelessIn scope) = labels.map ofLabel) :
    ∃ xs : List Var, args = xs.map var ∧ xs.map (ofVar scope) = labels.map ofLabel := by
  have hvar : ∀ a ∈ args, a ∈ Set.range var := by
    intro a ha
    obtain ⟨l, _, e⟩ := List.mem_map.mp (h ▸ List.mem_map_of_mem ha)
    cases a with
    | var x => exact ⟨x, rfl⟩
    | _ => cases l <;> cases e
  have hvars : args ∈ Set.range (List.map var) := by
    rw [Set.range_list_map]
    exact hvar
  obtain ⟨xs, rfl⟩ := hvars
  refine ⟨xs, rfl, ?_⟩
  rw [← h, List.map_map]
  rfl

/-- Read below binders, a term is a pattern as it is by itself. -/
theorem patterned_iff {t : Term} (ht : t.WellFormed) {scope : List Var}
    (hscope : ∀ y ∈ scope, y.binder) : (namelessIn scope t).Patterned ↔ t.isPattern := by
  induction ht generalizing scope with
  | literal v => exact iff_of_true (.literal v) rfl
  | const c => exact iff_of_true (.const c.name c.ty) rfl
  | var x =>
    refine iff_of_true ?_ rfl
    rw [namelessIn, ofVar]
    split
    · exact .bound _
    · exact .free x
  | @lambda x body binder _ _ ih =>
    have hentered : ∀ y ∈ x :: scope, y.binder := by simpa using ⟨binder, hscope⟩
    have hbody := ih hentered
    constructor
    · intro h
      cases h with
      | lambda h => exact hbody.mp h
    · exact fun h => .lambda (hbody.mpr h)
  | @app head args _ _ _ _ _ _ ih ihs =>
    rw [namelessIn, namelessAllIn_eq_map]
    constructor
    · intro h
      cases h with
      | app hhead hargs =>
        refine isPattern_app_of ((ih hscope).mp hhead) fun t ht => ?_
        exact (ihs t ht hscope).mp (hargs _ (List.mem_map_of_mem ht))
    · intro h
      obtain ⟨hhead, hargs⟩ := isPattern_app h
      refine .app ((ih hscope).mpr hhead) fun u hu => ?_
      obtain ⟨t, ht, rfl⟩ := List.mem_map.mp hu
      exact (ihs t ht hscope).mpr (hargs t ht)
  | @metaApp z args _ _ _ _ =>
    rw [namelessIn, namelessAllIn_eq_map]
    constructor
    · intro h
      generalize hread : args.map (namelessIn scope) = us at h
      cases h with
      | @metaApp _ labels distinct binders =>
        obtain ⟨xs, rfl, hxs⟩ := exists_map_var hread
        have hnodup : (xs.map (ofVar scope)).Nodup := by
          rw [hxs]
          exact distinct.map fun _ _ => ofLabel_injective
        refine isPattern_metaApp_of hnodup.of_map fun x hx => ?_
        by_cases hmem : x ∈ scope
        · exact hscope x hmem
        · have hlabel : ofVar scope x ∈ labels.map ofLabel := hxs ▸ List.mem_map_of_mem hx
          rw [ofVar_of_not_mem hmem] at hlabel
          obtain ⟨l, hl, e⟩ := List.mem_map.mp hlabel
          obtain rfl : l = .free x := ofLabel_injective e
          exact binders x hl
    · intro h
      obtain ⟨xs, rfl, hxs, hbinders⟩ := isPattern_metaApp h
      have hread : (xs.map Term.var).map (namelessIn scope) =
          (xs.map fun x => closing scope (.free x)).map ofLabel := by
        simp only [List.map_map]
        exact List.map_congr_left fun x _ => (ofLabel_closing scope x).symm
      rw [hread]
      refine .metaApp (hxs.map fun x y hxy => ofVar_injective scope ?_) fun x hx => ?_
      · rw [← ofLabel_closing, ← ofLabel_closing, hxy]
      · obtain ⟨v, hv, e⟩ := List.mem_map.mp hx
        have hfree : ofVar scope v = .free x := by
          rw [← ofLabel_closing, e]
          rfl
        rw [← (ofVar_eq_free.mp hfree).1]
        exact hbinders v hv

/-- Substituting patterns for variables that are no binders leaves a pattern. -/
theorem isPattern_subst {n : Nat} {t : Term} {σ : Subst} (ht : Sound n t) (hσ : σ.Sound n)
    (hpattern : t.isPattern)
    (hkeys : ∀ r ∈ t.free, ∀ image, σ.get? r = some image → ∃ x, r = .var x ∧ x.binder = false)
    (himages : ∀ r ∈ t.free, ∀ image, σ.get? r = some image → image.isPattern) :
    ((t.subst σ).run n).1.isPattern := by
  have himage : ∀ r, t.nameless.occurs r → ∀ d, (σ.get? r).map Term.nameless = some d →
      ∃ image, σ.get? r = some image ∧ d = image.nameless ∧ r ∈ t.free := by
    intro r hr d hd
    obtain ⟨image, e, rfl⟩ := Option.map_eq_some_iff.mp hd
    exact ⟨image, e, rfl, (occurs_nameless ht.wf).mp hr⟩
  have hresult : ((t.subst σ).run n).1.nameless.Patterned := by
    rw [nameless_subst hσ.wellTyped hσ.idsBelow ht.wf ht.idsBelow]
    refine ((patterned_iff ht.wf (by simp)).mpr hpattern).subst ?_ ?_
    · intro r hr d hd
      obtain ⟨image, e, _, hfree⟩ := himage r hr d hd
      exact hkeys r hfree image e
    · intro r hr d hd
      obtain ⟨image, e, rfl, hfree⟩ := himage r hr d hd
      exact (patterned_iff (hσ.image e).2.2.wf (by simp)).mpr (himages r hfree image e)
  exact (patterned_iff (subst_sound hσ ht).1.wf (by simp)).mp hresult

end Term

end TermAlgebra
