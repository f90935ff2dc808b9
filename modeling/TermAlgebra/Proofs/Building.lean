import TermAlgebra.Proofs.Renaming
import TermAlgebra.Proofs.Typing
import TermAlgebra.Term.Build

/-!
# What building keeps

The builders give some parts other binders and put a node on top. Main statements: `mkLambda_spec`,
`mkApp_spec` and `mkMetaApp_spec` say which parts the new node has; its type, free replaceables,
reading and well-formedness follow from those of the parts that were given.
-/

namespace TermAlgebra.Term

/-- A well-formed term whose variables were drawn before `n`. -/
structure Sound (n : Nat) (t : Term) : Prop where
  idsBelow : IdsBelow n t
  wf : t.WellFormed

theorem IdsBelow.mono {m n : Nat} {t : Term} (h : IdsBelow m t) (hmn : m ≤ n) : IdsBelow n t :=
  ⟨fun r hr => Nat.lt_of_lt_of_le (h.1 r hr) hmn, fun x hx => Nat.lt_of_lt_of_le (h.2 x hx) hmn⟩

theorem Sound.mono {m n : Nat} {t : Term} (h : Sound m t) (hmn : m ≤ n) : Sound n t :=
  ⟨h.idsBelow.mono hmn, h.wf⟩

theorem IdsBelow.refreshed {n n' : Nat} {t t' : Term} (h : IdsBelow n t)
    (hr : Refreshed n n' t t') (hn : n ≤ n') : IdsBelow n' t' := by
  constructor
  · intro r hf
    rw [hr.free] at hf
    exact Nat.lt_of_lt_of_le (h.1 r hf) hn
  · intro x hx
    rcases hr.bound x hx with hb | hb
    · exact Nat.lt_of_lt_of_le (h.2 x hb) hn
    · exact hb.2

theorem idsBelow_var {n : Nat} {x : Var} : IdsBelow n (.var x) ↔ x.id < n := by
  simp [IdsBelow, Replaceable.id]

theorem idsBelow_lambda {n : Nat} {x : Var} {body : Term} :
    IdsBelow n (.lambda x body) → IdsBelow (max n (x.id + 1)) body := by
  intro h
  constructor
  · intro r hr
    by_cases hx : r = .var x
    · subst hx
      simp only [Replaceable.id]
      omega
    · have hlt := h.1 r (free_of_body hr hx)
      omega
  · intro v hv
    have hlt := h.2 v (by simp [hv])
    omega

theorem IdsBelow.body {n : Nat} {x : Var} {body : Term} (h : IdsBelow n (.lambda x body)) :
    IdsBelow n body := by
  have hx := h.2 x (by simp)
  have hb := idsBelow_lambda h
  rwa [Nat.max_eq_left (by omega)] at hb

theorem idsBelow_lambda_of {n : Nat} {x : Var} {body : Term} (hx : x.id < n)
    (h : IdsBelow n body) : IdsBelow n (.lambda x body) := by
  constructor
  · intro r hr
    rw [free_lambda, OrderedSet.mem_erase] at hr
    exact h.1 r hr.2
  · intro v hv
    rw [bound_lambda, OrderedSet.mem_insert] at hv
    rcases hv with rfl | hv
    · exact hx
    · exact h.2 v hv

theorem idsBelow_app {n : Nat} {head : Term} {args : List Term} :
    IdsBelow n (.app head args) ↔ IdsBelow n head ∧ ∀ t ∈ args, IdsBelow n t := by
  simp only [IdsBelow, free_app, bound_app, OrderedSet.mem_union, mem_freeAll, mem_boundAll]
  constructor
  · intro h
    refine ⟨⟨fun r hr => h.1 r (Or.inl hr), fun x hx => h.2 x (Or.inl hx)⟩, fun t ht => ?_⟩
    exact ⟨fun r hr => h.1 r (Or.inr ⟨t, ht, hr⟩), fun x hx => h.2 x (Or.inr ⟨t, ht, hx⟩)⟩
  · rintro ⟨hhead, hargs⟩
    constructor
    · rintro r (hr | ⟨t, ht, hr⟩)
      · exact hhead.1 r hr
      · exact (hargs t ht).1 r hr
    · rintro x (hx | ⟨t, ht, hx⟩)
      · exact hhead.2 x hx
      · exact (hargs t ht).2 x hx

theorem idsBelow_metaApp {n : Nat} {z : MetaVar} {args : List Term} :
    IdsBelow n (.metaApp z args) ↔ z.id < n ∧ ∀ t ∈ args, IdsBelow n t := by
  simp only [IdsBelow, free_metaApp, bound_metaApp, OrderedSet.mem_insert, mem_freeAll,
    mem_boundAll]
  constructor
  · intro h
    refine ⟨h.1 _ (Or.inl rfl), fun t ht => ?_⟩
    exact ⟨fun r hr => h.1 r (Or.inr ⟨t, ht, hr⟩), fun x hx => h.2 x ⟨t, ht, hx⟩⟩
  · rintro ⟨hz, hargs⟩
    constructor
    · rintro r (rfl | ⟨t, ht, hr⟩)
      · exact hz
      · exact (hargs t ht).1 r hr
    · rintro x ⟨t, ht, hx⟩
      exact (hargs t ht).2 x hx

theorem idsBelow_head {n : Nat} {t : Term} (h : IdsBelow n t) : IdsBelow n t.head := by
  cases t with
  | app head args => exact (idsBelow_app.mp h).1
  | _ => exact h

theorem idsBelow_args {n : Nat} {t : Term} (h : IdsBelow n t) : ∀ s ∈ t.args, IdsBelow n s := by
  cases t with
  | app head args => exact (idsBelow_app.mp h).2
  | _ => simp [args]

/-! ## Parts -/

theorem increasing_refreshAgainst (taken : OrderedSet Var) (t : Term) :
    Fresh.Increasing (t.refreshAgainst taken) :=
  .ite t.increasing_refreshBinders (Fresh.increasing_pure t)

theorem refreshAgainst_spec {taken : OrderedSet Var} {t : Term} {n : Nat} (h : IdsBelow n t)
    (htaken : ∀ x ∈ taken, x.id < n) :
    Refreshed n ((t.refreshAgainst taken).run n).2 t ((t.refreshAgainst taken).run n).1 ∧
      ∀ x ∈ taken, x ∉ ((t.refreshAgainst taken).run n).1.bound := by
  unfold refreshAgainst
  split
  · have hren := refreshBinders_renamed h
    refine ⟨hren.refreshed, fun x hx hb => ?_⟩
    have hlt := htaken x hx
    have hle := (hren.bound x hb).1
    omega
  · rename_i hdisj
    refine ⟨.refl n n t, fun x hx hb => hdisj ?_⟩
    exact OrderedSet.intersects_iff.mpr ⟨x, hb, hx⟩

theorem mem_freeBinders {ts : List Term} {x : Var} :
    x ∈ freeBinders ts ↔ .var x ∈ freeAll ts ∧ x.binder := by
  unfold freeBinders
  rw [OrderedSet.mem_ofList, List.mem_filterMap]
  constructor
  · rintro ⟨r, hr, e⟩
    cases r with
    | var y =>
      by_cases hy : y.binder
      · simp only [Replaceable.binder?, hy, if_true, Option.some.injEq] at e
        subst e
        exact ⟨hr, hy⟩
      · simp [Replaceable.binder?, hy] at e
    | metaVar z => simp [Replaceable.binder?] at e
  · rintro ⟨hr, hx⟩
    exact ⟨.var x, hr, by simp [Replaceable.binder?, hx]⟩

theorem freeBinders_lt {ts : List Term} {n : Nat} (h : ∀ t ∈ ts, IdsBelow n t) :
    ∀ x ∈ freeBinders ts, x.id < n := by
  intro x hx
  obtain ⟨t, ht, hr⟩ := mem_freeAll.mp (mem_freeBinders.mp hx).1
  exact (h t ht).1 _ hr

theorem Refreshed.widen {m m' n n' : Nat} {t t' : Term} (h : Refreshed m m' t t') (hn : n ≤ m)
    (hn' : m' ≤ n') : Refreshed n n' t t' := by
  refine ⟨h.ty, h.free, ?_, h.isApp, h.wf, h.read⟩
  intro x hx
  rcases h.bound x hx with hb | hb
  · exact Or.inl hb
  · exact Or.inr ⟨by omega, by omega⟩

/-- Parts that have been kept apart from the taken binders. -/
theorem mapM_refreshAgainst {taken : OrderedSet Var} {l : List Term} {n : Nat}
    (h : ∀ t ∈ l, IdsBelow n t) (htaken : ∀ x ∈ taken, x.id < n) :
    List.Forall₂ (fun t t' => Refreshed n ((l.mapM (refreshAgainst taken)).run n).2 t t' ∧
      ∀ x ∈ taken, x ∉ t'.bound) l ((l.mapM (refreshAgainst taken)).run n).1 := by
  refine (Fresh.forall₂_mapM (fun t _ => increasing_refreshAgainst taken t) n).imp ?_
  rintro t t' ⟨ht, m, hm, rfl, hend⟩
  have hspec := refreshAgainst_spec ((h t ht).mono hm) fun x hx =>
    Nat.lt_of_lt_of_le (htaken x hx) hm
  exact ⟨hspec.1.widen hm hend, hspec.2⟩

theorem freeAll_refreshed {n n' : Nat} {ts ts' : List Term}
    (h : List.Forall₂ (Refreshed n n') ts ts') : freeAll ts' = freeAll ts := by
  induction h with
  | nil => rfl
  | cons ht _ ih => rw [freeAll, freeAll, ht.free, ih]

/-! ## Nodes -/

theorem increasing_mkLambda (x : Var) (body : Term) : Fresh.Increasing (mkLambda x body) := by
  unfold mkLambda
  split
  · exact body.increasing_refreshBinders.bind fun s => Fresh.increasing_pure _
  · exact Fresh.increasing_pure _

theorem increasing_mkApp (t : Term) (args : List Term) : Fresh.Increasing (mkApp t args) := by
  unfold mkApp
  refine .ite (Fresh.increasing_pure t) ?_
  refine (increasing_refreshAgainst _ t.head).bind fun head => ?_
  refine (Fresh.increasing_mapM fun s _ => increasing_refreshAgainst _ s).bind fun all => ?_
  exact Fresh.increasing_pure _

theorem increasing_mkMetaApp (z : MetaVar) (args : List Term) :
    Fresh.Increasing (mkMetaApp z args) := by
  unfold mkMetaApp
  refine (Fresh.increasing_mapM fun s _ => increasing_refreshAgainst _ s).bind fun all => ?_
  exact Fresh.increasing_pure _

theorem mkLambda_spec {x : Var} {body : Term} {n : Nat} (h : IdsBelow n body) (hx : x.id < n) :
    ∃ body', ((mkLambda x body).run n).1 = .lambda x body' ∧
      Refreshed n ((mkLambda x body).run n).2 body body' ∧ x ∉ body'.bound := by
  unfold mkLambda
  by_cases hb : body.bound.contains x
  · rw [if_pos hb]
    have hren := refreshBinders_renamed h
    refine ⟨_, rfl, hren.refreshed, fun hmem => ?_⟩
    have hle := (hren.bound x hmem).1
    omega
  · rw [if_neg hb]
    exact ⟨body, rfl, .refl n _ body, fun hmem => hb (OrderedSet.contains_iff.mpr hmem)⟩

theorem mkApp_spec {t : Term} {args : List Term} {n : Nat} (h : IdsBelow n t)
    (hargs : ∀ s ∈ args, IdsBelow n s) (hne : args ≠ []) :
    ∃ head' all', ((mkApp t args).run n).1 = .app head' all' ∧
      Refreshed n ((mkApp t args).run n).2 t.head head' ∧
      List.Forall₂ (Refreshed n ((mkApp t args).run n).2) (t.args ++ args) all' ∧
      ∀ x, .var x ∈ freeAll (t.head :: (t.args ++ args)) → x.binder →
        ∀ s ∈ head' :: all', x ∉ s.bound := by
  have hparts : ∀ s ∈ t.head :: (t.args ++ args), IdsBelow n s := by
    intro s hs
    simp only [List.mem_cons, List.mem_append] at hs
    rcases hs with rfl | hs | hs
    · exact idsBelow_head h
    · exact idsBelow_args h s hs
    · exact hargs s hs
  have htaken := freeBinders_lt hparts
  unfold mkApp
  rw [if_neg (by simpa using hne)]
  simp only [Fresh.run_bind, Fresh.run_pure]
  generalize htk : freeBinders (t.head :: (t.args ++ args)) = taken at htaken
  have hhead := refreshAgainst_spec (hparts t.head (by simp)) htaken
  have hle := increasing_refreshAgainst taken t.head n
  have hall := mapM_refreshAgainst (n := ((t.head.refreshAgainst taken).run n).2)
    (l := t.args ++ args) (fun s hs => (hparts s (by simp [hs])).mono hle)
    fun x hx => Nat.lt_of_lt_of_le (htaken x hx) hle
  have hend := Fresh.increasing_mapM (l := t.args ++ args)
    (fun s _ => increasing_refreshAgainst taken s) ((t.head.refreshAgainst taken).run n).2
  refine ⟨_, _, rfl, hhead.1.widen (Nat.le_refl n) hend,
    hall.imp fun _ _ hs => hs.1.widen hle (Nat.le_refl _), ?_⟩
  intro x hx hbinder s hs
  have hxt : x ∈ taken := htk ▸ mem_freeBinders.mpr ⟨hx, hbinder⟩
  rcases List.mem_cons.mp hs with rfl | hs
  · exact hhead.2 x hxt
  · obtain ⟨s₀, _, hs₀⟩ := Fresh.exists_of_mem_right hall hs
    exact hs₀.2 x hxt

theorem mkMetaApp_spec {z : MetaVar} {args : List Term} {n : Nat}
    (hargs : ∀ s ∈ args, IdsBelow n s) :
    ∃ args', ((mkMetaApp z args).run n).1 = .metaApp z args' ∧
      List.Forall₂ (Refreshed n ((mkMetaApp z args).run n).2) args args' ∧
      ∀ x, .var x ∈ freeAll args → x.binder → ∀ s ∈ args', x ∉ s.bound := by
  have hall := mapM_refreshAgainst hargs (freeBinders_lt hargs)
  refine ⟨_, rfl, hall.imp fun _ _ hs => hs.1, ?_⟩
  intro x hx hbinder s hs
  obtain ⟨s₀, _, hs₀⟩ := Fresh.exists_of_mem_right hall hs
  exact hs₀.2 x (mem_freeBinders.mpr ⟨hx, hbinder⟩)

/-! ## Identifiers -/

theorem idsBelow_of_refreshed {n n' : Nat} {ts ts' : List Term} (hn : n ≤ n')
    (h : ∀ t ∈ ts, IdsBelow n t) (hr : List.Forall₂ (Refreshed n n') ts ts') :
    ∀ t ∈ ts', IdsBelow n' t := by
  intro t' ht'
  obtain ⟨t, ht, href⟩ := Fresh.exists_of_mem_right hr ht'
  exact (h t ht).refreshed href hn

theorem mkLambda_idsBelow {x : Var} {body : Term} {n : Nat} (h : IdsBelow n body)
    (hx : x.id < n) : IdsBelow ((mkLambda x body).run n).2 ((mkLambda x body).run n).1 := by
  have hn := increasing_mkLambda x body n
  obtain ⟨body', e, hr, _⟩ := mkLambda_spec h hx
  rw [e]
  exact idsBelow_lambda_of (by omega) (h.refreshed hr hn)

theorem mkApp_idsBelow {t : Term} {args : List Term} {n : Nat} (h : IdsBelow n t)
    (hargs : ∀ s ∈ args, IdsBelow n s) :
    IdsBelow ((mkApp t args).run n).2 ((mkApp t args).run n).1 := by
  by_cases hne : args = []
  · subst hne
    exact h
  · have hn := increasing_mkApp t args n
    obtain ⟨head', all', e, hhead, hall, _⟩ := mkApp_spec h hargs hne
    rw [e]
    refine idsBelow_app.mpr ⟨(idsBelow_head h).refreshed hhead hn, ?_⟩
    refine idsBelow_of_refreshed hn ?_ hall
    intro s hs
    rcases List.mem_append.mp hs with hs | hs
    · exact idsBelow_args h s hs
    · exact hargs s hs

theorem mkMetaApp_idsBelow {z : MetaVar} {args : List Term} {n : Nat} (hz : z.id < n)
    (hargs : ∀ s ∈ args, IdsBelow n s) :
    IdsBelow ((mkMetaApp z args).run n).2 ((mkMetaApp z args).run n).1 := by
  have hn := increasing_mkMetaApp z args n
  obtain ⟨args', e, hr, _⟩ := mkMetaApp_spec (z := z) hargs
  rw [e]
  exact idsBelow_metaApp.mpr ⟨by omega, idsBelow_of_refreshed hn hargs hr⟩

/-! ## Readings -/

theorem map_read_refreshed {n n' : Nat} {ts ts' : List Term} (V : Valuation)
    (hr : List.Forall₂ (Refreshed n n') ts ts') : ts'.map (read V) = ts.map (read V) :=
  Fresh.map_eq_map (hr.imp fun _ _ h => h.read V)

theorem mkLambda_read {x : Var} {body : Term} {n : Nat} (h : IdsBelow n body) (hx : x.id < n)
    (V : Valuation) :
    ((mkLambda x body).run n).1.read V = .lambda x.ty (body.read (V.under x)) := by
  obtain ⟨body', e, hr, _⟩ := mkLambda_spec h hx
  rw [e, read, hr.read]

theorem read_head_args (t : Term) (V : Valuation) :
    (t.head.read V).apply (t.args.map (read V)) = t.read V := by
  cases t with
  | app h args => exact (read_app V h args).symm
  | _ => exact Nameless.apply_nil _

theorem mkApp_read {t : Term} {args : List Term} {n : Nat} (h : IdsBelow n t)
    (hargs : ∀ s ∈ args, IdsBelow n s) (V : Valuation) :
    ((mkApp t args).run n).1.read V = (t.read V).apply (args.map (read V)) := by
  by_cases hne : args = []
  · subst hne
    exact (Nameless.apply_nil _).symm
  · obtain ⟨head', all', e, hhead, hall, _⟩ := mkApp_spec h hargs hne
    rw [e, read_app, hhead.read, map_read_refreshed V hall, List.map_append,
      ← Nameless.apply_apply, read_head_args]

theorem mkMetaApp_read {z : MetaVar} {args : List Term} {n : Nat}
    (hargs : ∀ s ∈ args, IdsBelow n s) (V : Valuation) :
    ((mkMetaApp z args).run n).1.read V = V.metaApp z (args.map (read V)) := by
  obtain ⟨args', e, hr, _⟩ := mkMetaApp_spec (z := z) hargs
  rw [e, read_metaApp, map_read_refreshed V hr]

/-! ## Types and well-formedness -/

theorem map_ty_refreshed {n n' : Nat} {ts ts' : List Term}
    (hr : List.Forall₂ (Refreshed n n') ts ts') : ts'.map ty = ts.map ty :=
  Fresh.map_eq_map (hr.imp fun _ _ h => h.ty)

theorem wellFormed_refreshed {n n' : Nat} {ts ts' : List Term}
    (hr : List.Forall₂ (Refreshed n n') ts ts') (h : ∀ t ∈ ts, t.WellFormed) :
    ∀ t ∈ ts', t.WellFormed := by
  intro t' ht'
  obtain ⟨t, ht, href⟩ := Fresh.exists_of_mem_right hr ht'
  exact href.wf (h t ht)

theorem mkLambda_ty {x : Var} {body : Term} {n : Nat} (h : IdsBelow n body) (hx : x.id < n) :
    ((mkLambda x body).run n).1.ty = .arrow x.ty body.ty := by
  obtain ⟨body', e, hr, _⟩ := mkLambda_spec h hx
  rw [e, ty, hr.ty]

theorem mkLambda_wellFormed {x : Var} {body : Term} {n : Nat} (h : IdsBelow n body)
    (hx : x.id < n) (hbinder : x.binder) (hwf : body.WellFormed) :
    ((mkLambda x body).run n).1.WellFormed := by
  obtain ⟨body', e, hr, honce⟩ := mkLambda_spec h hx
  rw [e]
  exact .lambda hbinder honce (hr.wf hwf)

/-- The head and all arguments of what `mkApp` builds, and their types. -/
theorem mkApp_fits {t : Term} {args all' : List Term} {head' : Term} {n n' : Nat}
    {τ : SimpleType} (hwf : t.WellFormed) (hty : t.ty = .arrows (args.map ty) τ)
    (hhead : Refreshed n n' t.head head')
    (hall : List.Forall₂ (Refreshed n n') (t.args ++ args) all') :
    head'.ty = .arrows (all'.map ty) τ := by
  rw [hhead.ty, map_ty_refreshed hall, hwf.ty_head, hty, List.map_append,
    SimpleType.arrows_append]

theorem mkApp_ty {t : Term} {args : List Term} {n : Nat} {τ : SimpleType} (h : IdsBelow n t)
    (hargs : ∀ s ∈ args, IdsBelow n s) (hwf : t.WellFormed)
    (hty : t.ty = .arrows (args.map ty) τ) : ((mkApp t args).run n).1.ty = τ := by
  by_cases hne : args = []
  · subst hne
    exact hty
  · obtain ⟨head', all', e, hhead, hall, _⟩ := mkApp_spec h hargs hne
    rw [e]
    exact ty_app (mkApp_fits hwf hty hhead hall)

/-- Well-formed parts are apart as soon as no binder among their free variables is bound. -/
theorem apart_of_parts {ts ts' : List Term} {n n' : Nat}
    (hr : List.Forall₂ (Refreshed n n') ts ts') (hwf : ∀ t ∈ ts', t.WellFormed)
    (h : ∀ x, .var x ∈ freeAll ts → x.binder → ∀ s ∈ ts', x ∉ s.bound) :
    ∀ x, .var x ∈ freeAll ts' → x ∉ boundAll ts' := by
  intro x hx hb
  obtain ⟨s, hs, hxs⟩ := mem_boundAll.mp hb
  rw [freeAll_refreshed hr] at hx
  exact h x hx ((hwf s hs).binder_of_bound hxs) s hs hxs

theorem mkApp_wellFormed {t : Term} {args : List Term} {n : Nat} {τ : SimpleType}
    (h : IdsBelow n t) (hargs : ∀ s ∈ args, IdsBelow n s) (hwf : t.WellFormed)
    (hargsWf : ∀ s ∈ args, s.WellFormed) (hty : t.ty = .arrows (args.map ty) τ) :
    ((mkApp t args).run n).1.WellFormed := by
  by_cases hne : args = []
  · subst hne
    exact hwf
  · obtain ⟨head', all', e, hhead, hall, hapart⟩ := mkApp_spec h hargs hne
    have hpartsWf : ∀ s ∈ t.args ++ args, s.WellFormed := by
      intro s hs
      rcases List.mem_append.mp hs with hs | hs
      · exact hwf.args s hs
      · exact hargsWf s hs
    have hheadWf := hhead.wf hwf.head
    have hallWf := wellFormed_refreshed hall hpartsWf
    rw [e]
    refine .app (hhead.isApp.trans hwf.head_isApp) ?_
      (fits_iff.mpr ⟨τ, mkApp_fits hwf hty hhead hall⟩) hheadWf hallWf ?_
    · rintro rfl
      have hlen := hall.length_eq
      simp [hne] at hlen
    · have hwf' : ∀ s ∈ head' :: all', s.WellFormed := by
        intro s hs
        rcases List.mem_cons.mp hs with rfl | hs
        · exact hheadWf
        · exact hallWf s hs
      intro x hx hb
      rw [free_app] at hx
      rw [bound_app] at hb
      exact apart_of_parts (.cons hhead hall) hwf' hapart x hx hb

theorem mkMetaApp_ty {z : MetaVar} {args : List Term} {n : Nat}
    (hargs : ∀ s ∈ args, IdsBelow n s) : ((mkMetaApp z args).run n).1.ty = z.output := by
  obtain ⟨args', e, _, _⟩ := mkMetaApp_spec (z := z) hargs
  rw [e, ty]

theorem mkMetaApp_wellFormed {z : MetaVar} {args : List Term} {n : Nat}
    (hargs : ∀ s ∈ args, IdsBelow n s) (hwf : ∀ s ∈ args, s.WellFormed)
    (fits : args.map ty = z.inputs) : ((mkMetaApp z args).run n).1.WellFormed := by
  obtain ⟨args', e, hr, hapart⟩ := mkMetaApp_spec (z := z) hargs
  have hwf' := wellFormed_refreshed hr hwf
  rw [e]
  refine .metaApp ((map_ty_refreshed hr).trans fits) hwf' ?_
  intro x hx hb
  rw [free_metaApp, OrderedSet.mem_insert] at hx
  rw [bound_metaApp] at hb
  rcases hx with hx | hx
  · cases hx
  · exact apart_of_parts hr hwf' hapart x hx hb

/-! ## Terms built for a reading -/

/-- A well-formed term with identifiers below `n`, of the given type and reading. -/
structure Built (n : Nat) (τ : SimpleType) (reading : Valuation → Nameless) (t : Term) :
    Prop where
  idsBelow : IdsBelow n t
  wf : t.WellFormed
  ty : t.ty = τ
  read : ∀ V : Valuation, V.Atomic → t.read V = reading V

theorem Built.mono {m n : Nat} {τ : SimpleType} {reading : Valuation → Nameless} {t : Term}
    (h : Built m τ reading t) (hmn : m ≤ n) : Built n τ reading t :=
  ⟨h.idsBelow.mono hmn, h.wf, h.ty, h.read⟩

theorem Built.sound {n : Nat} {τ : SimpleType} {reading : Valuation → Nameless} {t : Term}
    (h : Built n τ reading t) : Sound n t :=
  ⟨h.idsBelow, h.wf⟩

theorem mkLambda_built {x : Var} {body : Term} {n : Nat} {τ : SimpleType}
    {reading : Valuation → Nameless} (h : Built n τ reading body) (hx : x.id < n)
    (hbinder : x.binder) :
    Built ((mkLambda x body).run n).2 (.arrow x.ty τ) (fun V => .lambda x.ty (reading (V.under x)))
      ((mkLambda x body).run n).1 := by
  refine ⟨mkLambda_idsBelow h.idsBelow hx, mkLambda_wellFormed h.idsBelow hx hbinder h.wf, ?_, ?_⟩
  · rw [mkLambda_ty h.idsBelow hx, h.ty]
  · intro V hV
    rw [mkLambda_read h.idsBelow hx, h.read _ (hV.under x)]

theorem mkApp_built {t : Term} {args : List Term} {n : Nat} {τ : SimpleType}
    {reading : Valuation → Nameless} (h : Built n (.arrows (args.map Term.ty) τ) reading t)
    (hargs : ∀ s ∈ args, Sound n s) :
    Built ((mkApp t args).run n).2 τ (fun V => (reading V).apply (args.map (Term.read V)))
      ((mkApp t args).run n).1 := by
  have hids : ∀ s ∈ args, IdsBelow n s := fun s hs => (hargs s hs).1
  have hwf : ∀ s ∈ args, s.WellFormed := fun s hs => (hargs s hs).2
  refine ⟨mkApp_idsBelow h.idsBelow hids, mkApp_wellFormed h.idsBelow hids h.wf hwf h.ty,
    mkApp_ty h.idsBelow hids h.wf h.ty, ?_⟩
  intro V hV
  rw [mkApp_read h.idsBelow hids, h.read V hV]

theorem mkMetaApp_built {z : MetaVar} {args : List Term} {n : Nat} (hz : z.id < n)
    (hargs : ∀ s ∈ args, Sound n s) (fits : args.map Term.ty = z.inputs) :
    Built ((mkMetaApp z args).run n).2 z.output (fun V => V.metaApp z (args.map (Term.read V)))
      ((mkMetaApp z args).run n).1 := by
  have hids : ∀ s ∈ args, IdsBelow n s := fun s hs => (hargs s hs).1
  have hwf : ∀ s ∈ args, s.WellFormed := fun s hs => (hargs s hs).2
  exact ⟨mkMetaApp_idsBelow hz hids, mkMetaApp_wellFormed hids hwf fits, mkMetaApp_ty hids,
    fun V _ => mkMetaApp_read hids V⟩

theorem mkApp_free {t : Term} {args : List Term} {n : Nat} (h : IdsBelow n t)
    (hargs : ∀ s ∈ args, IdsBelow n s) (hne : args ≠ []) :
    ((mkApp t args).run n).1.free = freeAll (t.head :: (t.args ++ args)) := by
  obtain ⟨head', all', e, hhead, hall, _⟩ := mkApp_spec h hargs hne
  rw [e, free_app, hhead.free, freeAll_refreshed hall, freeAll]

theorem mkMetaApp_free {z : MetaVar} {args : List Term} {n : Nat}
    (hargs : ∀ s ∈ args, IdsBelow n s) :
    ((mkMetaApp z args).run n).1.free = (freeAll args).insert (.metaVar z) := by
  obtain ⟨args', e, hr, _⟩ := mkMetaApp_spec (z := z) hargs
  rw [e, free_metaApp, freeAll_refreshed hr]

/-! ## Sound terms -/

theorem Sound.built {n : Nat} {t : Term} (h : Sound n t) : Built n t.ty (fun V => t.read V) t :=
  ⟨h.idsBelow, h.wf, rfl, fun _ _ => rfl⟩

theorem Sound.head {n : Nat} {t : Term} (h : Sound n t) : Sound n t.head :=
  ⟨idsBelow_head h.idsBelow, h.wf.head⟩

theorem Sound.args {n : Nat} {t : Term} (h : Sound n t) : ∀ s ∈ t.args, Sound n s :=
  fun s hs => ⟨idsBelow_args h.idsBelow s hs, h.wf.args s hs⟩

theorem Sound.lambda {n : Nat} {x : Var} {body : Term} (h : Sound n (.lambda x body)) :
    x.id < n ∧ x.binder ∧ Sound n body := by
  have hx := h.idsBelow.2 x (by simp)
  cases h.wf with
  | lambda binder _ wf => exact ⟨hx, binder, h.idsBelow.body, wf⟩

theorem Sound.metaApp {n : Nat} {z : MetaVar} {args : List Term} (h : Sound n (.metaApp z args)) :
    z.id < n ∧ args.map Term.ty = z.inputs ∧ ∀ s ∈ args, Sound n s := by
  obtain ⟨hz, hids⟩ := idsBelow_metaApp.mp h.idsBelow
  cases h.wf with
  | metaApp fits argsWf _ => exact ⟨hz, fits, fun s hs => ⟨hids s hs, argsWf s hs⟩⟩

/-- A sound term of type `τ`. -/
def SoundAt (n : Nat) (τ : SimpleType) (t : Term) : Prop := Sound n t ∧ t.ty = τ

theorem Built.soundAt {n : Nat} {τ : SimpleType} {reading : Valuation → Nameless} {t : Term}
    (h : Built n τ reading t) : SoundAt n τ t :=
  ⟨h.sound, h.ty⟩

theorem mkLambda_sound {n : Nat} {x : Var} {body : Term} (h : Sound n body) (hx : x.id < n)
    (hbinder : x.binder) :
    SoundAt ((mkLambda x body).run n).2 (.arrow x.ty body.ty) ((mkLambda x body).run n).1 :=
  (mkLambda_built h.built hx hbinder).soundAt

theorem mkApp_sound {n : Nat} {t : Term} {args : List Term} {τ : SimpleType} (h : Sound n t)
    (hargs : ∀ s ∈ args, Sound n s) (hty : t.ty = .arrows (args.map Term.ty) τ) :
    SoundAt ((mkApp t args).run n).2 τ ((mkApp t args).run n).1 := by
  have hbuilt := h.built
  rw [hty] at hbuilt
  exact (mkApp_built hbuilt hargs).soundAt

theorem mkMetaApp_sound {n : Nat} {z : MetaVar} {args : List Term} (hz : z.id < n)
    (hargs : ∀ s ∈ args, Sound n s) (fits : args.map Term.ty = z.inputs) :
    SoundAt ((mkMetaApp z args).run n).2 z.output ((mkMetaApp z args).run n).1 :=
  (mkMetaApp_built hz hargs fits).soundAt

theorem refreshBinders_sound {n : Nat} {t : Term} (h : Sound n t) :
    SoundAt (t.refreshBinders.run n).2 t.ty (t.refreshBinders.run n).1 := by
  have hren := refreshBinders_renamed h.idsBelow
  have hids := h.idsBelow.refreshed hren.refreshed (t.increasing_refreshBinders n)
  exact ⟨⟨hids, hren.wf h.wf⟩, hren.ty⟩

/-! ## Checked building -/

theorem rising_abstract (x : Var) (body : Term) : Fresh.Rising (Term.abstract x body) := by
  unfold Term.abstract
  exact .ite (increasing_mkLambda x body).rising (Fresh.rising_throw _)

theorem abstract_sound {n n' : Nat} {x : Var} {body t : Term} (h : Sound n body) (hx : x.id < n)
    (e : Fresh.attempt (Term.abstract x body) n = (.ok t, n')) :
    SoundAt n' (.arrow x.ty body.ty) t := by
  unfold Term.abstract at e
  rw [Fresh.attempt_ite] at e
  split at e
  · rename_i hbinder
    obtain ⟨rfl, rfl⟩ := e
    exact mkLambda_sound h hx hbinder
  · cases e

theorem rising_abstractAll (xs : List Var) (body : Term) :
    Fresh.Rising (abstractAll xs body) := by
  unfold abstractAll
  generalize xs.reverse = xs
  induction xs generalizing body with
  | nil => exact Fresh.rising_pure body
  | cons x xs ih =>
    rw [List.foldlM_cons]
    exact (rising_abstract x body).bind ih

theorem abstractAll_sound {n n' : Nat} {xs : List Var} {body t : Term} (h : Sound n body)
    (hxs : ∀ x ∈ xs, x.id < n) (e : Fresh.attempt (abstractAll xs body) n = (.ok t, n')) :
    Sound n' t := by
  unfold abstractAll at e
  have hxs' : ∀ x ∈ xs.reverse, x.id < n := by simpa using hxs
  clear hxs
  generalize xs.reverse = xs at e hxs'
  induction xs generalizing body n with
  | nil =>
    obtain ⟨rfl, rfl⟩ := e
    exact h
  | cons x xs ih =>
    rw [List.foldlM_cons, Fresh.attempt_bind] at e
    have hle := rising_abstract x body n
    rcases hs : Fresh.attempt (Term.abstract x body) n with ⟨_ | s, m⟩
    · rw [hs] at e
      cases e
    · rw [hs] at e hle
      have hs' := abstract_sound h (hxs' x (by simp)) hs
      exact ih hs'.1 e fun y hy => Nat.lt_of_lt_of_le (hxs' y (by simp [hy])) hle

/-- Arguments that pass the check have the expected types. -/
theorem map_ty_of_checkArguments {σs : List SimpleType} {args : List Term}
    (h : checkArguments σs args = .ok ()) (hlen : args.length ≤ σs.length) :
    args.map Term.ty = σs.take args.length := by
  induction args generalizing σs with
  | nil => rfl
  | cons t ts ih =>
    cases σs with
    | nil => simp at hlen
    | cons σ σs =>
      unfold checkArguments at h
      split at h
      · rename_i hty
        rw [List.map_cons, List.length_cons, List.take_succ_cons, hty,
          ih h (by simpa using hlen)]
      · cases h

theorem rising_apply (t : Term) (args : List Term) : Fresh.Rising (t.apply args) := by
  have hrest := (Fresh.rising_except (checkArguments t.ty.inputs args)).bind fun _ =>
    (increasing_mkApp t args).rising
  unfold Term.apply
  exact .ite ((Fresh.rising_throw _).bind fun _ => hrest) hrest

/-- Applying succeeds when the arguments have the types of the first inputs. -/
theorem apply_eq_ok {n n' : Nat} {t s : Term} {args : List Term}
    (e : Fresh.attempt (t.apply args) n = (.ok s, n')) :
    (mkApp t args).run n = (s, n') ∧ ∃ τ, t.ty = .arrows (args.map Term.ty) τ := by
  unfold Term.apply at e
  simp only [Fresh.attempt_ite, Fresh.attempt_bind, Fresh.attempt_throw, Fresh.attempt_except,
    Fresh.attempt_lift] at e
  split at e
  · cases e
  · rename_i hlen
    cases hcheck : checkArguments t.ty.inputs args with
    | error err =>
      rw [hcheck] at e
      cases e
    | ok u =>
      rw [hcheck] at e
      obtain ⟨rfl, rfl⟩ := e
      exact ⟨rfl, fits_iff.mp (map_ty_of_checkArguments hcheck (Nat.not_lt.mp hlen))⟩

theorem apply_sound {n n' : Nat} {t s : Term} {args : List Term} (h : Sound n t)
    (hargs : ∀ s ∈ args, Sound n s) (e : Fresh.attempt (t.apply args) n = (.ok s, n')) :
    Sound n' s := by
  obtain ⟨hrun, τ, hτ⟩ := apply_eq_ok e
  have hbuilt := (mkApp_sound h hargs hτ).1
  rwa [hrun] at hbuilt

theorem rising_applyMeta (z : MetaVar) (args : List Term) : Fresh.Rising (applyMeta z args) := by
  have hrest := (Fresh.rising_except (checkArguments z.inputs args)).bind fun _ =>
    (increasing_mkMetaApp z args).rising
  unfold applyMeta
  exact .ite ((Fresh.rising_throw _).bind fun _ => hrest) hrest

theorem applyMeta_eq_ok {n n' : Nat} {z : MetaVar} {s : Term} {args : List Term}
    (e : Fresh.attempt (applyMeta z args) n = (.ok s, n')) :
    (mkMetaApp z args).run n = (s, n') ∧ args.map Term.ty = z.inputs := by
  unfold applyMeta at e
  simp only [Fresh.attempt_ite, Fresh.attempt_bind, Fresh.attempt_throw, Fresh.attempt_except,
    Fresh.attempt_lift] at e
  split at e
  · cases e
  · rename_i hlen
    have hlen' : z.inputs.length = args.length := not_not.mp hlen
    cases hcheck : checkArguments z.inputs args with
    | error err =>
      rw [hcheck] at e
      cases e
    | ok u =>
      rw [hcheck] at e
      obtain ⟨rfl, rfl⟩ := e
      have hfits := map_ty_of_checkArguments hcheck (Nat.le_of_eq hlen'.symm)
      rw [← hlen', List.take_length] at hfits
      exact ⟨rfl, hfits⟩

theorem applyMeta_sound {n n' : Nat} {z : MetaVar} {s : Term} {args : List Term} (hz : z.id < n)
    (hargs : ∀ s ∈ args, Sound n s) (e : Fresh.attempt (applyMeta z args) n = (.ok s, n')) :
    Sound n' s := by
  obtain ⟨hrun, fits⟩ := applyMeta_eq_ok e
  have hbuilt := (mkMetaApp_sound hz hargs fits).1
  rwa [hrun] at hbuilt

/-! ## Small terms -/

theorem sound_var {n : Nat} {x : Var} (hx : x.id < n) : Sound n (var x) :=
  ⟨idsBelow_var.mpr hx, .var x⟩

theorem sound_const (n : Nat) (c : Constant) : Sound n (const c) :=
  ⟨⟨by simp, by simp⟩, .const c⟩

theorem sound_app_of_apart {n : Nat} {head : Term} {args : List Term}
    (hsound : ∀ a ∈ head :: args, Sound n a) (flat : head.isApp = false) (nonempty : args ≠ [])
    (fits : args.map ty = head.ty.inputs.take args.length) (apart : Apart (app head args)) :
    Sound n (app head args) := by
  have hhead := hsound head (by simp)
  have hargs : ∀ a ∈ args, Sound n a := fun a ha => hsound a (by simp [ha])
  exact ⟨idsBelow_app.mpr ⟨hhead.idsBelow, fun a ha => (hargs a ha).idsBelow⟩,
    .app flat nonempty fits hhead.wf (fun a ha => (hargs a ha).wf) apart⟩

/-- An application without binders. -/
theorem sound_app {n : Nat} {head : Term} {args : List Term}
    (hsound : ∀ a ∈ head :: args, Sound n a) (flat : head.isApp = false) (nonempty : args ≠ [])
    (fits : args.map ty = head.ty.inputs.take args.length) (hbound : (app head args).bound = ∅) :
    Sound n (app head args) :=
  sound_app_of_apart hsound flat nonempty fits fun x _ hx =>
    OrderedSet.not_mem_empty x (hbound ▸ hx)

/-- An abstraction with no further binders. -/
theorem sound_lambda {n : Nat} {x : Var} {body : Term} (hx : x.id < n) (hbinder : x.binder)
    (hbound : body.bound = ∅) (h : Sound n body) : Sound n (lambda x body) :=
  ⟨idsBelow_lambda_of hx h.idsBelow,
    .lambda hbinder (fun hmem => OrderedSet.not_mem_empty x (hbound ▸ hmem)) h.wf⟩

/-- A meta-application without binders. -/
theorem sound_metaApp {n : Nat} {z : MetaVar} {args : List Term} (hz : z.id < n)
    (hargs : ∀ a ∈ args, Sound n a) (fits : args.map ty = z.inputs)
    (hbound : boundAll args = ∅) : Sound n (metaApp z args) := by
  refine ⟨idsBelow_metaApp.mpr ⟨hz, fun a ha => (hargs a ha).idsBelow⟩,
    .metaApp fits (fun a ha => (hargs a ha).wf) fun x _ hx => ?_⟩
  rw [bound_metaApp, hbound] at hx
  exact OrderedSet.not_mem_empty x hx

theorem sound_app_var {n : Nat} {f x : Var} {τ : SimpleType} (hty : f.ty = .arrow x.ty τ)
    (hfn : f.id < n) (hxn : x.id < n) : Sound n (app (var f) [var x]) := by
  have fits : [var x].map ty = (var f).ty.inputs.take 1 := by
    rw [List.map_singleton, ty, ty, hty, SimpleType.inputs]
    rfl
  refine sound_app ?_ rfl (by simp) fits (OrderedSet.ext fun y => by simp [boundAll])
  simp [sound_var hfn, sound_var hxn]

theorem sound_lambda_app {n : Nat} {f y : Var} {τ : SimpleType} (hty : f.ty = .arrow y.ty τ)
    (hy : y.binder) (hfn : f.id < n) (hyn : y.id < n) : Sound n (lambda y (app (var f) [var y])) :=
  sound_lambda hyn hy (OrderedSet.ext fun x => by simp [boundAll]) (sound_app_var hty hfn hyn)

theorem sound_lambda_metaApp {n : Nat} {w : Var} {z : MetaVar} {args : List Term}
    (hargs : args = [] ∨ args = [var w]) (fits : args.map ty = z.inputs) (hw : w.binder)
    (hwn : w.id < n) (hzn : z.id < n) : Sound n (lambda w (metaApp z args)) := by
  have hall : ∀ a ∈ args, Sound n a := by
    rcases hargs with rfl | rfl <;> simp [sound_var hwn]
  have hbound : boundAll args = ∅ := by
    apply OrderedSet.ext
    rcases hargs with rfl | rfl <;> simp [boundAll]
  refine sound_lambda hwn hw ?_ (sound_metaApp hzn hall fits hbound)
  rw [bound_metaApp, hbound]

end TermAlgebra.Term
