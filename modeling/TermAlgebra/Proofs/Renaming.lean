import TermAlgebra.Proofs.Drawing
import TermAlgebra.Proofs.Reading

/-!
# What renaming keeps

A renamed term has the type and shape of the term, its free variables go by their new names, and
every binder in it is new. Main statement: `rename_spec`, from which the laws of refreshed terms
follow.
-/

namespace TermAlgebra

theorem Var.run_make (name : String) (ty : SimpleType) (binder : Bool) (n : Nat) :
    (Var.make name ty binder).run n = (⟨n, name, ty, binder⟩, n + 1) := rfl

theorem MetaVar.run_make (name : String) (inputs : List SimpleType) (output : SimpleType)
    (n : Nat) : (MetaVar.make name inputs output).run n = (⟨n, name, inputs, output⟩, n + 1) := rfl

theorem Var.run_freshCopy (x : Var) (n : Nat) : x.freshCopy.run n = ({ x with id := n }, n + 1) :=
  rfl

theorem Var.increasing_freshCopy (x : Var) : Fresh.Increasing x.freshCopy := fun n => Nat.le_succ n

def Replaceable.rename (ρ : Renaming) : Replaceable → Replaceable
  | var x => var (ρ x)
  | metaVar z => metaVar z

theorem Renaming.replaceable_id (r : Replaceable) : r.rename id = r := by cases r <;> rfl

/-- Free variables go to variables of their type that are no newer than `n`. -/
def Renaming.Fits (ρ : Renaming) (n : Nat) (t : Term) : Prop :=
  ∀ x, .var x ∈ t.free → (ρ x).ty = x.ty ∧ (ρ x).id < n

theorem Renaming.Fits.mono {ρ : Renaming} {m n : Nat} {t : Term} (h : ρ.Fits m t) (hmn : m ≤ n) :
    ρ.Fits n t := by
  intro x hx
  have hfit := h x hx
  exact ⟨hfit.1, by omega⟩

theorem Renaming.Fits.body {ρ : Renaming} {n : Nat} {x : Var} {body : Term}
    (h : ρ.Fits n (.lambda x body)) : (ρ.update x { x with id := n }).Fits (n + 1) body := by
  intro v hv
  by_cases hvx : v = x
  · simp [Renaming.update, hvx]
  · have hfit := h v (Term.free_of_body hv (by simpa using hvx))
    simp only [Renaming.update, if_neg hvx]
    exact ⟨hfit.1, by omega⟩

theorem Renaming.Fits.head {ρ : Renaming} {n : Nat} {head : Term} {args : List Term}
    (h : ρ.Fits n (.app head args)) : ρ.Fits n head :=
  fun x hx => h x (Term.free_of_head hx)

theorem Renaming.Fits.arg {ρ : Renaming} {n : Nat} {head t : Term} {args : List Term}
    (h : ρ.Fits n (.app head args)) (ht : t ∈ args) : ρ.Fits n t :=
  fun x hx => h x (Term.free_of_mem_app ht hx)

theorem Renaming.Fits.metaArg {ρ : Renaming} {n : Nat} {z : MetaVar} {t : Term}
    {args : List Term} (h : ρ.Fits n (.metaApp z args)) (ht : t ∈ args) : ρ.Fits n t :=
  fun x hx => h x (Term.free_of_mem_metaApp ht hx)

theorem Renaming.Fits.id_lt {ρ : Renaming} {n : Nat} {t t' : Term} (h : ρ.Fits n t)
    (hfree : ∀ r, r ∈ t'.free ↔ ∃ s ∈ t.free, r = s.rename ρ) :
    ∀ x, .var x ∈ t'.free → x.id < n := by
  intro x hx
  obtain ⟨s, hs, e⟩ := (hfree _).mp hx
  cases s with
  | var y =>
    obtain rfl := Replaceable.var.inj e
    exact (h y hs).2
  | metaVar z => cases e

namespace Term

theorem renameAll_eq_mapM (ρ : Renaming) (ts : List Term) : renameAll ρ ts = ts.mapM (rename ρ) := by
  induction ts with
  | nil => rfl
  | cons t ts ih => rw [renameAll, ih, List.mapM_cons]

theorem increasing_rename (t : Term) (ρ : Renaming) : Fresh.Increasing (t.rename ρ) := by
  induction t using Term.induction generalizing ρ with
  | literal v =>
    rw [rename_literal]
    exact Fresh.increasing_pure _
  | const c =>
    rw [rename_const]
    exact Fresh.increasing_pure _
  | var x =>
    rw [rename_var]
    exact Fresh.increasing_pure _
  | lambda x body ih =>
    rw [rename_lambda]
    exact x.increasing_freshCopy.bind fun y => (ih _).bind fun s => Fresh.increasing_pure _
  | app head args ih ihs =>
    rw [rename_app, renameAll_eq_mapM]
    have hargs := Fresh.increasing_mapM fun t ht => ihs t ht ρ
    exact hargs.bind fun ts => (ih ρ).bind fun s => Fresh.increasing_pure _
  | metaApp z args ihs =>
    rw [rename_metaApp, renameAll_eq_mapM]
    have hargs := Fresh.increasing_mapM fun t ht => ihs t ht ρ
    exact hargs.bind fun ts => Fresh.increasing_pure _

theorem increasing_refreshBinders (t : Term) : Fresh.Increasing t.refreshBinders :=
  t.increasing_rename id

theorem increasing_renameVar (x y : Var) (t : Term) : Fresh.Increasing (t.renameVar x y) :=
  t.increasing_rename _

/-- What a renaming that runs from `n` to `n'` makes of a term. -/
structure Renamed (ρ : Renaming) (n n' : Nat) (t t' : Term) : Prop where
  ty : t'.ty = t.ty
  free : ∀ r, r ∈ t'.free ↔ ∃ s ∈ t.free, r = s.rename ρ
  bound : ∀ x ∈ t'.bound, n ≤ x.id ∧ x.id < n'
  isApp : t'.isApp = t.isApp
  wf : t.WellFormed → t'.WellFormed
  read : ∀ V : Valuation, t'.read V = t.read (V.rename ρ)

namespace Renamed

variable {ρ : Renaming} {m m' n n' : Nat}

theorem widen {t t' : Term} (h : Renamed ρ m m' t t') (hn : n ≤ m) (hn' : m' ≤ n') :
    Renamed ρ n n' t t' := by
  refine ⟨h.ty, h.free, ?_, h.isApp, h.wf, h.read⟩
  intro x hx
  have hb := h.bound x hx
  omega

theorem lambda {x : Var} {body body' : Term} (hfit : ρ.Fits n (.lambda x body))
    (h : Renamed (ρ.update x { x with id := n }) (n + 1) n' body body') (hn : n + 1 ≤ n') :
    Renamed ρ n n' (.lambda x body) (.lambda { x with id := n } body') := by
  have hnew : ∀ v, .var v ∈ (Term.lambda x body).free → ρ v ≠ { x with id := n } := by
    intro v hv e
    have hid := (hfit v hv).2
    rw [e] at hid
    exact Nat.lt_irrefl n hid
  constructor
  · rw [Term.ty, Term.ty, h.ty]
  · intro r
    simp only [free_lambda, OrderedSet.mem_erase, h.free]
    constructor
    · rintro ⟨hr, s, hs, rfl⟩
      have hsx : s ≠ .var x := by
        rintro rfl
        exact hr (by simp [Replaceable.rename, Renaming.update])
      refine ⟨s, ⟨hsx, hs⟩, ?_⟩
      cases s with
      | var v =>
        have hvx : v ≠ x := by simpa using hsx
        simp [Replaceable.rename, Renaming.update, hvx]
      | metaVar z => rfl
    · rintro ⟨s, ⟨hsx, hs⟩, rfl⟩
      cases s with
      | var v =>
        have hvx : v ≠ x := by simpa using hsx
        refine ⟨?_, .var v, hs, by simp [Replaceable.rename, Renaming.update, hvx]⟩
        simpa [Replaceable.rename] using hnew v (free_of_body hs hsx)
      | metaVar z => exact ⟨by simp [Replaceable.rename], .metaVar z, hs, rfl⟩
  · intro v hv
    rw [bound_lambda, OrderedSet.mem_insert] at hv
    rcases hv with rfl | hv
    · exact ⟨Nat.le_refl n, hn⟩
    · have hb := h.bound v hv
      omega
  · rfl
  · intro hwf
    cases hwf with
    | lambda binder _ wf =>
      refine WellFormed.lambda binder ?_ (h.wf wf)
      intro hb
      have hid := (h.bound _ hb).1
      simp only at hid
      omega
  · intro V
    rw [Term.read, Term.read, h.read]
    congr 1
    apply read_congr
    · intro v hv
      by_cases hvx : v = x
      · simp [Valuation.rename, Valuation.under, Renaming.update, hvx]
      · have hv' := hnew v (free_of_body hv (by simpa using hvx))
        simp [Valuation.rename, Valuation.under, Renaming.update, hvx, hv']
    · intro z _
      rfl

theorem freeAll_iff {ts ts' : List Term} (h : List.Forall₂ (Renamed ρ n n') ts ts')
    (r : Replaceable) : r ∈ freeAll ts' ↔ ∃ s ∈ freeAll ts, r = s.rename ρ := by
  simp only [mem_freeAll]
  constructor
  · rintro ⟨t', ht', hr⟩
    obtain ⟨t, ht, hren⟩ := Fresh.exists_of_mem_right h ht'
    obtain ⟨s, hs, rfl⟩ := (hren.free r).mp hr
    exact ⟨s, ⟨t, ht, hs⟩, rfl⟩
  · rintro ⟨s, ⟨t, ht, hs⟩, rfl⟩
    obtain ⟨t', ht', hren⟩ := Fresh.exists_of_mem_left h ht
    exact ⟨t', ht', (hren.free _).mpr ⟨s, hs, rfl⟩⟩

theorem boundAll_range {ts ts' : List Term} (h : List.Forall₂ (Renamed ρ n n') ts ts') :
    ∀ x ∈ boundAll ts', n ≤ x.id ∧ x.id < n' := by
  intro x hx
  obtain ⟨t', ht', hb⟩ := mem_boundAll.mp hx
  obtain ⟨t, _, hren⟩ := Fresh.exists_of_mem_right h ht'
  exact hren.bound x hb

theorem map_ty {ts ts' : List Term} (h : List.Forall₂ (Renamed ρ n n') ts ts') :
    ts'.map Term.ty = ts.map Term.ty :=
  Fresh.map_eq_map (h.imp fun _ _ hren => hren.ty)

theorem map_read {ts ts' : List Term} (h : List.Forall₂ (Renamed ρ n n') ts ts')
    (V : Valuation) : ts'.map (Term.read V) = ts.map (Term.read (V.rename ρ)) :=
  Fresh.map_eq_map (h.imp fun _ _ hren => hren.read V)

theorem wellFormed_all {ts ts' : List Term} (h : List.Forall₂ (Renamed ρ n n') ts ts')
    (hwf : ∀ t ∈ ts, t.WellFormed) : ∀ t ∈ ts', t.WellFormed := by
  intro t' ht'
  obtain ⟨t, ht, hren⟩ := Fresh.exists_of_mem_right h ht'
  exact hren.wf (hwf t ht)

end Renamed

/-- All binders are newer than the variables that occur free. -/
theorem apart_of_ids {n : Nat} {t : Term} (hfree : ∀ x, .var x ∈ t.free → x.id < n)
    (hbound : ∀ x ∈ t.bound, n ≤ x.id) : t.Apart := by
  intro x hx hb
  have hlt := hfree x hx
  have hle := hbound x hb
  omega

theorem forall₂_renameAll {ρ : Renaming} {l : List Term} {n : Nat}
    (h : ∀ t ∈ l, ∀ m, n ≤ m → Renamed ρ m ((t.rename ρ).run m).2 t ((t.rename ρ).run m).1) :
    List.Forall₂ (Renamed ρ n ((renameAll ρ l).run n).2) l ((renameAll ρ l).run n).1 := by
  rw [renameAll_eq_mapM]
  refine (Fresh.forall₂_mapM (fun t _ => t.increasing_rename ρ) n).imp ?_
  rintro t t' ⟨ht, m, hm, rfl, hend⟩
  exact (h t ht m hm).widen hm hend

theorem Renamed.app {ρ : Renaming} {n n' : Nat} {head head' : Term} {args args' : List Term}
    (hfit : ρ.Fits n (.app head args)) (hhead : Renamed ρ n n' head head')
    (hargs : List.Forall₂ (Renamed ρ n n') args args') :
    Renamed ρ n n' (.app head args) (.app head' args') := by
  have hlen : args'.length = args.length := hargs.length_eq.symm
  have hfree : ∀ r, r ∈ (Term.app head' args').free ↔
      ∃ s ∈ (Term.app head args).free, r = s.rename ρ := by
    intro r
    simp only [free_app, OrderedSet.mem_union, hhead.free, Renamed.freeAll_iff hargs]
    constructor
    · rintro (⟨s, hs, rfl⟩ | ⟨s, hs, rfl⟩)
      · exact ⟨s, Or.inl hs, rfl⟩
      · exact ⟨s, Or.inr hs, rfl⟩
    · rintro ⟨s, hs | hs, rfl⟩
      · exact Or.inl ⟨s, hs, rfl⟩
      · exact Or.inr ⟨s, hs, rfl⟩
  have hbound : ∀ x ∈ (Term.app head' args').bound, n ≤ x.id ∧ x.id < n' := by
    intro x hx
    rw [bound_app, OrderedSet.mem_union] at hx
    rcases hx with hx | hx
    · exact hhead.bound x hx
    · exact Renamed.boundAll_range hargs x hx
  constructor
  · rw [Term.ty, Term.ty, hlen, hhead.ty]
  · exact hfree
  · exact hbound
  · rfl
  · intro hwf
    cases hwf with
    | app flat nonempty fits wf argsWf _ =>
      refine WellFormed.app (hhead.isApp.trans flat) ?_ ?_ (hhead.wf wf)
        (Renamed.wellFormed_all hargs argsWf) ?_
      · rintro rfl
        exact nonempty (List.length_eq_zero_iff.mp hlen.symm)
      · rw [Renamed.map_ty hargs, hhead.ty, hlen]
        exact fits
      · exact apart_of_ids (hfit.id_lt hfree) fun x hx => (hbound x hx).1
  · intro V
    rw [read_app, read_app, hhead.read, Renamed.map_read hargs]

theorem Renamed.metaApp {ρ : Renaming} {n n' : Nat} {z : MetaVar} {args args' : List Term}
    (hfit : ρ.Fits n (.metaApp z args)) (hargs : List.Forall₂ (Renamed ρ n n') args args') :
    Renamed ρ n n' (.metaApp z args) (.metaApp z args') := by
  have hfree : ∀ r, r ∈ (Term.metaApp z args').free ↔
      ∃ s ∈ (Term.metaApp z args).free, r = s.rename ρ := by
    intro r
    simp only [free_metaApp, OrderedSet.mem_insert, Renamed.freeAll_iff hargs]
    constructor
    · rintro (rfl | ⟨s, hs, rfl⟩)
      · exact ⟨.metaVar z, Or.inl rfl, rfl⟩
      · exact ⟨s, Or.inr hs, rfl⟩
    · rintro ⟨s, rfl | hs, rfl⟩
      · exact Or.inl rfl
      · exact Or.inr ⟨s, hs, rfl⟩
  have hbound : ∀ x ∈ (Term.metaApp z args').bound, n ≤ x.id ∧ x.id < n' := by
    intro x hx
    rw [bound_metaApp] at hx
    exact Renamed.boundAll_range hargs x hx
  constructor
  · rw [Term.ty, Term.ty]
  · exact hfree
  · exact hbound
  · rfl
  · intro hwf
    cases hwf with
    | metaApp fits argsWf _ =>
      refine WellFormed.metaApp ?_ (Renamed.wellFormed_all hargs argsWf) ?_
      · rw [Renamed.map_ty hargs]
        exact fits
      · exact apart_of_ids (hfit.id_lt hfree) fun x hx => (hbound x hx).1
  · intro V
    rw [read_metaApp, read_metaApp, Renamed.map_read hargs]
    rfl

theorem Renamed.leaf {ρ : Renaming} {n : Nat} {t : Term} (hfree : t.free = ∅)
    (hbound : t.bound = ∅) : Renamed ρ n n t t := by
  refine ⟨rfl, ?_, ?_, rfl, id, ?_⟩
  · simp [hfree]
  · simp [hbound]
  · intro V
    apply read_congr <;> simp [hfree]

/-- Renaming from `n` on, when no variable gets a name that is yet to be drawn. -/
theorem rename_spec (t : Term) {ρ : Renaming} {n : Nat} (hfit : ρ.Fits n t) :
    Renamed ρ n ((t.rename ρ).run n).2 t ((t.rename ρ).run n).1 := by
  induction t using Term.induction generalizing ρ n with
  | literal v =>
    rw [rename_literal]
    exact .leaf (free_literal v) (bound_literal v)
  | const c =>
    rw [rename_const]
    exact .leaf (free_const c) (bound_const c)
  | var x =>
    rw [rename_var]
    refine ⟨?_, ?_, ?_, rfl, fun _ => .var (ρ x), fun V => rfl⟩
    · change (Term.var (ρ x)).ty = (Term.var x).ty
      rw [Term.ty, Term.ty]
      exact (hfit x (by simp)).1
    · change ∀ r, r ∈ (Term.var (ρ x)).free ↔ _
      simp [Replaceable.rename]
    · change ∀ y ∈ (Term.var (ρ x)).bound, _
      simp
  | lambda x body ih =>
    rw [rename_lambda]
    have hbody := ih hfit.body
    exact .lambda hfit hbody (body.increasing_rename _ _)
  | app head args ih ihs =>
    rw [rename_app]
    have hargs := forall₂_renameAll (ρ := ρ) (n := n) (l := args) fun t ht m hm =>
      ihs t ht ((hfit.arg ht).mono hm)
    have hle : n ≤ ((renameAll ρ args).run n).2 := by
      rw [renameAll_eq_mapM]
      exact Fresh.increasing_mapM (fun t _ => t.increasing_rename ρ) n
    have hhead := ih (hfit.head.mono hle)
    have hend := head.increasing_rename ρ ((renameAll ρ args).run n).2
    exact .app hfit (hhead.widen hle (Nat.le_refl _))
      (hargs.imp fun _ _ h => h.widen (Nat.le_refl n) hend)
  | metaApp z args ihs =>
    rw [rename_metaApp]
    have hargs := forall₂_renameAll (ρ := ρ) (n := n) (l := args) fun t ht m hm =>
      ihs t ht ((hfit.metaArg ht).mono hm)
    exact .metaApp hfit hargs

/-! ## Fresh binders -/

/-- The term with other binders: they were there before, or are as new as the run. -/
structure Refreshed (n n' : Nat) (t t' : Term) : Prop where
  ty : t'.ty = t.ty
  free : t'.free = t.free
  bound : ∀ x ∈ t'.bound, x ∈ t.bound ∨ n ≤ x.id ∧ x.id < n'
  isApp : t'.isApp = t.isApp
  wf : t.WellFormed → t'.WellFormed
  read : ∀ V : Valuation, t'.read V = t.read V

theorem Refreshed.refl (n n' : Nat) (t : Term) : Refreshed n n' t t :=
  ⟨rfl, rfl, fun _ hx => Or.inl hx, rfl, id, fun _ => rfl⟩

theorem fits_id {n : Nat} {t : Term} (h : IdsBelow n t) : Renaming.Fits id n t :=
  fun _ hx => ⟨rfl, h.1 _ hx⟩

theorem refreshBinders_renamed {n : Nat} {t : Term} (h : IdsBelow n t) :
    Renamed id n (t.refreshBinders.run n).2 t (t.refreshBinders.run n).1 :=
  rename_spec t (fits_id h)

theorem Renamed.refreshed {n n' : Nat} {t t' : Term} (h : Renamed id n n' t t') :
    Refreshed n n' t t' := by
  refine ⟨h.ty, ?_, fun x hx => Or.inr (h.bound x hx), h.isApp, h.wf, h.read⟩
  ext r
  rw [h.free]
  simp [Renaming.replaceable_id]

end Term

end TermAlgebra
