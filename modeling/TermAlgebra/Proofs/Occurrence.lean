import TermAlgebra.Proofs.Typing

/-!
# Types and occurrences, from the tree alone

What the nodes keep is compared with definitions that go through the whole tree. Main statements:
the kept type of a well-formed term is the one that the typing rules give, and the kept sets are
those of the variables that occur.
-/

namespace TermAlgebra.Term

/-- The typing rules. -/
inductive HasType : Term → SimpleType → Prop
  | literal (v : Literal) : HasType (literal v) v.sort
  | const (c : Constant) : HasType (const c) c.ty
  | var (x : Var) : HasType (var x) x.ty
  | lambda {x : Var} {body : Term} {τ : SimpleType} (hbody : HasType body τ) :
      HasType (lambda x body) (.arrow x.ty τ)
  | app {head : Term} {args : List Term} {τ : SimpleType} (σs : List SimpleType)
      (hhead : HasType head (.arrows σs τ)) (hlen : args.length = σs.length)
      (hargs : ∀ p ∈ args.zip σs, HasType p.1 p.2) : HasType (app head args) τ
  | metaApp {z : MetaVar} {args : List Term} (hlen : args.length = z.inputs.length)
      (hargs : ∀ p ∈ args.zip z.inputs, HasType p.1 p.2) : HasType (metaApp z args) z.output

inductive OccursFree (r : Replaceable) : Term → Prop
  | var {x : Var} (h : r = .var x) : OccursFree r (var x)
  | body {x : Var} {body : Term} (hx : r ≠ .var x) (h : OccursFree r body) :
      OccursFree r (lambda x body)
  | head {head : Term} {args : List Term} (h : OccursFree r head) : OccursFree r (app head args)
  | arg {head t : Term} {args : List Term} (ht : t ∈ args) (h : OccursFree r t) :
      OccursFree r (app head args)
  | metaVar {z : MetaVar} {args : List Term} (h : r = .metaVar z) : OccursFree r (metaApp z args)
  | metaArg {z : MetaVar} {t : Term} {args : List Term} (ht : t ∈ args) (h : OccursFree r t) :
      OccursFree r (metaApp z args)

inductive OccursBound (x : Var) : Term → Prop
  | here {body : Term} : OccursBound x (lambda x body)
  | body {y : Var} {body : Term} (h : OccursBound x body) : OccursBound x (lambda y body)
  | head {head : Term} {args : List Term} (h : OccursBound x head) : OccursBound x (app head args)
  | arg {head t : Term} {args : List Term} (ht : t ∈ args) (h : OccursBound x t) :
      OccursBound x (app head args)
  | metaArg {z : MetaVar} {t : Term} {args : List Term} (ht : t ∈ args) (h : OccursBound x t) :
      OccursBound x (metaApp z args)

/-- A node of the tree below a term, the term itself included. -/
inductive NodeOf (u : Term) : Term → Prop
  | here : NodeOf u u
  | body {x : Var} {body : Term} (h : NodeOf u body) : NodeOf u (lambda x body)
  | head {head : Term} {args : List Term} (h : NodeOf u head) : NodeOf u (app head args)
  | arg {head t : Term} {args : List Term} (ht : t ∈ args) (h : NodeOf u t) :
      NodeOf u (app head args)
  | metaArg {z : MetaVar} {t : Term} {args : List Term} (ht : t ∈ args) (h : NodeOf u t) :
      NodeOf u (metaApp z args)

theorem NodeOf.trans {t u v : Term} (h : NodeOf u v) (h' : NodeOf v t) : NodeOf u t := by
  induction h' with
  | here => exact h
  | body _ ih => exact .body ih
  | head _ ih => exact .head ih
  | arg ht _ ih => exact .arg ht ih
  | metaArg ht _ ih => exact .metaArg ht ih

theorem mem_free_iff (t : Term) (r : Replaceable) : r ∈ t.free ↔ OccursFree r t := by
  constructor
  · induction t using Term.induction with
    | literal v => simp
    | const c => simp
    | var x =>
      intro h
      exact .var (by simpa using h)
    | lambda x body ih =>
      intro h
      rw [free_lambda, OrderedSet.mem_erase] at h
      exact .body h.1 (ih h.2)
    | app head args ih ihs =>
      intro h
      rw [free_app, OrderedSet.mem_union, mem_freeAll] at h
      rcases h with h | ⟨t, ht, h⟩
      · exact .head (ih h)
      · exact .arg ht (ihs t ht h)
    | metaApp z args ihs =>
      intro h
      rw [free_metaApp, OrderedSet.mem_insert, mem_freeAll] at h
      rcases h with h | ⟨t, ht, h⟩
      · exact .metaVar h
      · exact .metaArg ht (ihs t ht h)
  · intro h
    induction h with
    | var h => simp [h]
    | body hx _ ih => simp [hx, ih]
    | head _ ih => simp [ih]
    | arg ht _ ih =>
      rw [free_app, OrderedSet.mem_union, mem_freeAll]
      exact Or.inr ⟨_, ht, ih⟩
    | metaVar h => simp [h]
    | metaArg ht _ ih =>
      rw [free_metaApp, OrderedSet.mem_insert, mem_freeAll]
      exact Or.inr ⟨_, ht, ih⟩

theorem mem_bound_iff (t : Term) (x : Var) : x ∈ t.bound ↔ OccursBound x t := by
  constructor
  · induction t using Term.induction with
    | literal v => simp
    | const c => simp
    | var y => simp
    | lambda y body ih =>
      intro h
      rw [bound_lambda, OrderedSet.mem_insert] at h
      rcases h with rfl | h
      · exact .here
      · exact .body (ih h)
    | app head args ih ihs =>
      intro h
      rw [bound_app, OrderedSet.mem_union, mem_boundAll] at h
      rcases h with h | ⟨t, ht, h⟩
      · exact .head (ih h)
      · exact .arg ht (ihs t ht h)
    | metaApp z args ihs =>
      intro h
      rw [bound_metaApp, mem_boundAll] at h
      obtain ⟨t, ht, h⟩ := h
      exact .metaArg ht (ihs t ht h)
  · intro h
    induction h with
    | here => simp
    | body _ ih => simp [ih]
    | head _ ih => simp [ih]
    | arg ht _ ih =>
      rw [bound_app, OrderedSet.mem_union, mem_boundAll]
      exact Or.inr ⟨_, ht, ih⟩
    | metaArg ht _ ih =>
      rw [bound_metaApp, mem_boundAll]
      exact ⟨_, ht, ih⟩

theorem zip_map_ty {args : List Term} (h : ∀ t ∈ args, HasType t t.ty) :
    ∀ p ∈ args.zip (args.map ty), HasType p.1 p.2 := by
  intro p hp
  have hzip : args.zip (args.map ty) = args.map fun t => (t, t.ty) := by
    conv => lhs; rw [← List.map_id args, List.map_map, List.zip_map']
    rfl
  rw [hzip] at hp
  obtain ⟨t, ht, rfl⟩ := List.mem_map.mp hp
  exact h t ht

theorem WellFormed.hasType {t : Term} (h : t.WellFormed) : HasType t t.ty := by
  induction h with
  | literal v =>
    rw [ty]
    exact .literal v
  | const c =>
    rw [ty]
    exact .const c
  | var x =>
    rw [ty]
    exact .var x
  | lambda _ _ _ ih =>
    rw [ty]
    exact .lambda ih
  | @app head args _ _ fits _ _ _ ih ihs =>
    obtain ⟨τ, hτ⟩ := fits_iff.mp fits
    rw [ty_app hτ]
    rw [hτ] at ih
    exact .app _ ih (List.length_map ty).symm (zip_map_ty ihs)
  | @metaApp z args fits _ _ ihs =>
    rw [ty]
    refine .metaApp ?_ ?_
    · rw [← fits, List.length_map]
    · rw [← fits]
      exact zip_map_ty ihs

theorem WellFormed.node {t u : Term} (h : t.WellFormed) (hu : NodeOf u t) : u.WellFormed := by
  induction hu with
  | here => exact h
  | body _ ih => exact ih h.body
  | head _ ih => exact ih h.head
  | arg ht _ ih => exact ih (h.args _ ht)
  | metaArg ht _ ih => exact ih (h.metaArgs _ ht)

/-- What every node keeps to: an application has a head that is none and some argument, a binder is
bound once, what the node keeps is what its tree says, and no variable occurs free and bound. -/
structure Regular (t : Term) : Prop where
  flat : ∀ head args, t = app head args → head.isApp = false ∧ args ≠ []
  once : ∀ x body, t = lambda x body → x.binder ∧ ¬OccursBound x body
  hasType : HasType t t.ty
  free : ∀ r, r ∈ t.free ↔ OccursFree r t
  bound : ∀ x, x ∈ t.bound ↔ OccursBound x t
  apart : ∀ x, ¬(OccursFree (.var x) t ∧ OccursBound x t)

theorem WellFormed.regular {t : Term} (h : t.WellFormed) : Regular t := by
  refine ⟨?_, ?_, h.hasType, mem_free_iff t, mem_bound_iff t, ?_⟩
  · rintro head args rfl
    cases h with
    | app flat nonempty => exact ⟨flat, nonempty⟩
  · rintro x body rfl
    cases h with
    | lambda binder once => exact ⟨binder, fun hb => once ((mem_bound_iff body x).mpr hb)⟩
  · rintro x ⟨hf, hb⟩
    exact h.isApart x ((mem_free_iff t _).mpr hf) ((mem_bound_iff t x).mpr hb)

end TermAlgebra.Term
