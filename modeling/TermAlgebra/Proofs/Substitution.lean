import TermAlgebra.Proofs.Building
import TermAlgebra.Term.Substitution

/-!
# Substitution is simultaneous and avoids capture

The reading of a substituted term is the reading of the term under the images of its free
variables. Main statement: without names, substitution is `Nameless.subst`.
-/

namespace TermAlgebra

namespace Subst

theorem get?_set_self (σ : Subst) (r : Replaceable) (t : Term) : (σ.set r t).get? r = some t := by
  simp [get?_set]

theorem get?_set_of_ne (σ : Subst) {q r : Replaceable} (h : q ≠ r) (t : Term) :
    (σ.set r t).get? q = σ.get? q := by
  simp [get?_set, h]

theorem get?_update_self (σ : Subst) (r : Replaceable) (image : Option Term) :
    (σ.update r image).get? r = image := by
  simp [get?_update]

theorem get?_update_of_ne (σ : Subst) {q r : Replaceable} (h : q ≠ r) (image : Option Term) :
    (σ.update r image).get? q = σ.get? q := by
  simp [get?_update, h]

/-- Every image is well-formed and of the type of its key. -/
def WellTyped (σ : Subst) : Prop := ∀ r t, σ.get? r = some t → r.ty = t.ty ∧ t.WellFormed

def IdsBelow (n : Nat) (σ : Subst) : Prop :=
  ∀ r t, σ.get? r = some t → r.id < n ∧ Term.IdsBelow n t

/-- A well-typed substitution whose variables were drawn before `n`. -/
structure Sound (n : Nat) (σ : Subst) : Prop where
  wellTyped : σ.WellTyped
  idsBelow : σ.IdsBelow n

variable {σ : Subst} {m n : Nat}

theorem wellTyped_empty : WellTyped ∅ := fun _ _ h => nomatch h

theorem idsBelow_empty (n : Nat) : IdsBelow n ∅ := fun _ _ h => nomatch h

theorem IdsBelow.mono (h : σ.IdsBelow m) (hmn : m ≤ n) : σ.IdsBelow n := by
  intro r t e
  have hr := h r t e
  exact ⟨by omega, hr.2.mono hmn⟩

theorem get?_of_erase {r q : Replaceable} {t : Term} (h : (σ.erase r).get? q = some t) :
    q ≠ r ∧ σ.get? q = some t := by
  rw [get?_erase] at h
  split at h
  · cases h
  · rename_i hq
    exact ⟨hq, h⟩

theorem WellTyped.erase (h : σ.WellTyped) (r : Replaceable) : (σ.erase r).WellTyped :=
  fun q t e => h q t (get?_of_erase e).2

theorem IdsBelow.erase (h : σ.IdsBelow n) (r : Replaceable) : (σ.erase r).IdsBelow n :=
  fun q t e => h q t (get?_of_erase e).2

theorem WellTyped.set (h : σ.WellTyped) {r : Replaceable} {t : Term} (hty : r.ty = t.ty)
    (hwf : t.WellFormed) : (σ.set r t).WellTyped := by
  intro q s e
  rw [get?_set] at e
  split at e
  · rename_i hq
    obtain rfl := Option.some.inj e
    exact ⟨hq ▸ hty, hwf⟩
  · exact h q s e

theorem IdsBelow.set (h : σ.IdsBelow n) {r : Replaceable} {t : Term} (hr : r.id < n)
    (ht : Term.IdsBelow n t) : (σ.set r t).IdsBelow n := by
  intro q s e
  rw [get?_set] at e
  split at e
  · rename_i hq
    obtain rfl := Option.some.inj e
    exact ⟨hq ▸ hr, ht⟩
  · exact h q s e

theorem sound_empty (n : Nat) : Sound n ∅ := ⟨wellTyped_empty, idsBelow_empty n⟩

theorem Sound.mono (h : σ.Sound m) (hmn : m ≤ n) : σ.Sound n := ⟨h.wellTyped, h.idsBelow.mono hmn⟩

theorem Sound.erase (h : σ.Sound n) (r : Replaceable) : (σ.erase r).Sound n :=
  ⟨h.wellTyped.erase r, h.idsBelow.erase r⟩

theorem Sound.set (h : σ.Sound n) {r : Replaceable} {t : Term} (hr : r.id < n)
    (hty : r.ty = t.ty) (ht : Term.Sound n t) : (σ.set r t).Sound n :=
  ⟨h.wellTyped.set hty ht.wf, h.idsBelow.set hr ht.idsBelow⟩

theorem Sound.image (h : σ.Sound n) {r : Replaceable} {t : Term} (e : σ.get? r = some t) :
    r.id < n ∧ r.ty = t.ty ∧ Term.Sound n t :=
  ⟨(h.idsBelow r t e).1, (h.wellTyped r t e).1, (h.idsBelow r t e).2, (h.wellTyped r t e).2⟩

end Subst

/-- Keys of a substitution stand for the readings of their images. -/
def Valuation.comp (V : Valuation) (σ : Subst) : Valuation where
  var v := ((σ.get? (.var v)).map (Term.read V)).getD (V.var v)
  metaVar z := ((σ.get? (.metaVar z)).map (Term.read V)).or (V.metaVar z)

namespace Term

variable {onMeta : MetaVar → List Term → Fresh Term} {σ : Subst} {n : Nat}

/-- Below a binder that no image contains, a substitution goes on without the key. -/
theorem read_comp_under {V : Valuation} {x y : Var} {body : Term}
    (hkey : (σ.erase (.var x)).get? (.var y) = none)
    (hnew : ∀ v, .var v ∈ body.free → v ≠ x → v ≠ y)
    (hcap : ∀ r ∈ body.free, ∀ image, (σ.erase (.var x)).get? r = some image →
      .var y ∉ image.free) :
    body.read (((V.under y).comp (σ.erase (.var x))).rename (Renaming.update id x y)) =
      body.read ((V.comp σ).under x) := by
  apply read_congr
  · intro v hv
    by_cases hvx : v = x
    · simp [Valuation.rename, Renaming.update, Valuation.comp, Valuation.under, hvx, hkey]
    · have hget : (σ.erase (.var x)).get? (.var v) = σ.get? (.var v) := by
        simp [Subst.get?_erase, hvx]
      have hvy := hnew v hv hvx
      simp only [Valuation.rename, Renaming.update, if_neg hvx, Valuation.comp, Valuation.under,
        hget, id]
      cases e : σ.get? (.var v) with
      | none => simp [hvy]
      | some image => exact read_under (hcap _ hv image (hget.trans e)) V
  · intro z hz
    have hget : (σ.erase (.var x)).get? (.metaVar z) = σ.get? (.metaVar z) := by
      simp [Subst.get?_erase]
    simp only [Valuation.rename, Valuation.comp, Valuation.under, hget]
    cases e : σ.get? (.metaVar z) with
    | none => rfl
    | some image => exact congrArg some (read_under (hcap _ hz image (hget.trans e)) V)

theorem read_comp_of_not_affects {t : Term} (h : σ.affects t = false) (V : Valuation) :
    t.read (V.comp σ) = t.read V := by
  have hnone : ∀ r ∈ t.free, σ.get? r = none := by
    intro r hr
    cases e : σ.get? r with
    | none => rfl
    | some image =>
      have haff := (σ.affects_iff t).mpr ⟨r, hr, by simp [e]⟩
      rw [h] at haff
      cases haff
  apply read_congr
  · intro v hv
    simp [Valuation.comp, hnone _ hv]
  · intro z hz
    simp [Valuation.comp, hnone _ hz]

theorem increasing_substBelow (hmeta : ∀ z args, Fresh.Increasing (onMeta z args)) (k : Nat)
    (σ : Subst) (t : Term) : Fresh.Increasing (substBelow onMeta k σ t) := by
  induction k generalizing σ t with
  | zero => exact Fresh.increasing_pure t
  | succ k ih =>
    unfold substBelow
    split
    · exact Fresh.increasing_pure t
    · cases t with
      | literal v => exact Fresh.increasing_pure _
      | const c => exact Fresh.increasing_pure _
      | var x => exact Fresh.increasing_pure _
      | lambda x body =>
        dsimp only
        split
        · refine x.increasing_freshCopy.bind fun y => ?_
          refine (increasing_renameVar x y body).bind fun s => ?_
          exact (ih _ s).bind fun s' => increasing_mkLambda y s'
        · exact (ih _ body).bind fun s => increasing_mkLambda x s
      | app head args =>
        refine (Fresh.increasing_mapM fun s _ => ih σ s).bind fun as => ?_
        exact (ih σ head).bind fun s => increasing_mkApp s as
      | metaApp z args =>
        exact (Fresh.increasing_mapM fun s _ => ih σ s).bind fun as => hmeta z as

theorem increasing_substWith (hmeta : ∀ z args, Fresh.Increasing (onMeta z args)) (σ : Subst)
    (t : Term) : Fresh.Increasing (substWith onMeta σ t) :=
  increasing_substBelow hmeta t.size σ t

/-- From `n` on, meta-applications of substituted arguments become what their images say. -/
structure Instantiates (onMeta : MetaVar → List Term → Fresh Term) (σ : Subst) (n : Nat) :
    Prop where
  increasing : ∀ z args, Fresh.Increasing (onMeta z args)
  built : ∀ z args m, n ≤ m → z.id < m → (∀ s ∈ args, Sound m s) →
    args.map Term.ty = z.inputs →
      Built ((onMeta z args).run m).2 z.output
        (fun V => (V.comp σ).metaApp z (args.map (Term.read V))) ((onMeta z args).run m).1

theorem Instantiates.mono {m : Nat} (h : Instantiates onMeta σ m) (hmn : m ≤ n) :
    Instantiates onMeta σ n :=
  ⟨h.increasing, fun z args k hk => h.built z args k (Nat.le_trans hmn hk)⟩

theorem Instantiates.erase (h : Instantiates onMeta σ n) (x : Var) :
    Instantiates onMeta (σ.erase (.var x)) n := by
  refine ⟨h.increasing, fun z args m hm hz hargs fits => ?_⟩
  have hbuilt := h.built z args m hm hz hargs fits
  have hget : (σ.erase (.var x)).get? (.metaVar z) = σ.get? (.metaVar z) := by
    simp [Subst.get?_erase]
  refine ⟨hbuilt.idsBelow, hbuilt.wf, hbuilt.ty, fun V hV => ?_⟩
  rw [hbuilt.read V hV]
  simp only [Valuation.metaApp, Valuation.comp, hget]

/-- The reading after a substitution. -/
abbrev readBefore (σ : Subst) (t : Term) (V : Valuation) : Nameless := t.read (V.comp σ)

theorem built_of_not_affects {t : Term} (h : σ.affects t = false) (hwf : t.WellFormed)
    (hids : IdsBelow n t) : Built n t.ty (readBefore σ t) t :=
  ⟨hids, hwf, rfl, fun V _ => (read_comp_of_not_affects h V).symm⟩

theorem idsBelow_renamed {ρ : Renaming} {m m' : Nat} {t t' : Term} (h : Renamed ρ m m' t t')
    (hfit : ρ.Fits m t) (hids : IdsBelow m t) (hle : m ≤ m') : IdsBelow m' t' := by
  constructor
  · intro r hr
    obtain ⟨s, hs, rfl⟩ := (h.free r).mp hr
    have hs' := hids.1 s hs
    cases s with
    | var v =>
      have hv := (hfit v hs).2
      simp only [Replaceable.rename, Replaceable.id]
      omega
    | metaVar z =>
      simp only [Replaceable.rename, Replaceable.id] at hs' ⊢
      omega
  · intro v hv
    exact (h.bound v hv).2

/-- Every substitution builds from the term what reads as the term under its images. -/
def SubstBuilt (onMeta : MetaVar → List Term → Fresh Term) (t : Term) : Prop :=
  ∀ ⦃σ : Subst⦄ ⦃n : Nat⦄, Instantiates onMeta σ n → σ.WellTyped → σ.IdsBelow n →
    t.WellFormed → IdsBelow n t →
      Built ((substWith onMeta σ t).run n).2 t.ty (readBefore σ t)
        ((substWith onMeta σ t).run n).1

/-- Terms of a list are substituted one after the other. -/
theorem forall₂_substWith {args : List Term} (hmeta : Instantiates onMeta σ n)
    (hσ : σ.WellTyped) (hσids : σ.IdsBelow n) (hwf : ∀ s ∈ args, s.WellFormed)
    (hids : ∀ s ∈ args, IdsBelow n s) (ih : ∀ s ∈ args, SubstBuilt onMeta s) :
    List.Forall₂ (fun s s' => Built ((args.mapM (substWith onMeta σ)).run n).2 s.ty
      (readBefore σ s) s') args ((args.mapM (substWith onMeta σ)).run n).1 := by
  refine (Fresh.forall₂_mapM (fun s _ => increasing_substWith hmeta.increasing σ s) n).imp ?_
  rintro s s' ⟨hs, m, hm, rfl, hend⟩
  have hbuilt := ih s hs (hmeta.mono hm) hσ (hσids.mono hm) (hwf s hs) ((hids s hs).mono hm)
  exact hbuilt.mono hend

section

variable {ss ss' : List Term} {σ : Subst}

theorem map_ty_built (h : List.Forall₂ (fun s s' => Built n s.ty (readBefore σ s) s') ss ss') :
    ss'.map Term.ty = ss.map Term.ty :=
  Fresh.map_eq_map (h.imp fun _ _ hs => hs.ty)

theorem map_read_built (h : List.Forall₂ (fun s s' => Built n s.ty (readBefore σ s) s') ss ss')
    {V : Valuation} (hV : V.Atomic) : ss'.map (Term.read V) = ss.map (Term.read (V.comp σ)) :=
  Fresh.map_eq_map (h.imp fun _ _ hs => hs.read V hV)

theorem sound_built (h : List.Forall₂ (fun s s' => Built n s.ty (readBefore σ s) s') ss ss') :
    ∀ s ∈ ss', Sound n s := by
  intro s' hs'
  obtain ⟨s, _, hs⟩ := Fresh.exists_of_mem_right h hs'
  exact hs.sound

end

/-- The binder `y` takes the place of `x`, whether it is a fresh copy or `x` itself. -/
theorem mkLambda_substWith {x y : Var} {body body₁ s : Term} {m : Nat}
    (hs : Built m body.ty (readBefore (σ.erase (.var x)) body₁) s) (hy : y.id < m)
    (hbinder : y.binder) (hty : y.ty = x.ty)
    (hread : ∀ V : Valuation, body₁.read V = body.read (V.rename (Renaming.update id x y)))
    (hkey : (σ.erase (.var x)).get? (.var y) = none)
    (hnew : ∀ v, .var v ∈ body.free → v ≠ x → v ≠ y)
    (hcap : ∀ r ∈ body.free, ∀ image, (σ.erase (.var x)).get? r = some image →
      .var y ∉ image.free) :
    Built ((mkLambda y s).run m).2 (lambda x body).ty (readBefore σ (lambda x body))
      ((mkLambda y s).run m).1 := by
  have hbuilt := mkLambda_built hs hy hbinder
  refine ⟨hbuilt.idsBelow, hbuilt.wf, ?_, fun V hV => ?_⟩
  · rw [hbuilt.ty, hty, Term.ty]
  · rw [hbuilt.read V hV, readBefore, readBefore, hread, read_comp_under hkey hnew hcap, hty,
      Term.read]

theorem substBuilt_var (x : Var) : SubstBuilt onMeta (.var x) := by
  intro σ n _ hσ hσids _ hids
  rw [substWith_var]
  cases e : σ.get? (.var x) with
  | none =>
    refine ⟨hids, .var x, rfl, fun V _ => ?_⟩
    change V.var x = (V.comp σ).var x
    simp [Valuation.comp, e]
  | some image =>
    have himage := hσ _ _ e
    refine ⟨(hσids _ _ e).2, himage.2, ?_, fun V _ => ?_⟩
    · rw [Term.ty]
      exact himage.1.symm
    · change image.read V = (V.comp σ).var x
      simp [Valuation.comp, e]

theorem substBuilt_lambda {x : Var} {body : Term}
    (ih : ∀ s : Term, s.size = body.size → SubstBuilt onMeta s) :
    SubstBuilt onMeta (.lambda x body) := by
  intro σ n hmeta hσ hσids hwf hids
  cases haff : σ.affects (.lambda x body) with
  | false =>
    rw [substWith_of_not_affects onMeta σ haff]
    exact built_of_not_affects haff hwf hids
  | true =>
    cases hwf with
    | lambda binder once wf =>
      rw [substWith_lambda onMeta σ haff]
      have hx := hids.2 x (by simp)
      have hbody := hids.body
      have hkeys := hσids.erase (.var x)
      split
      · let y : Var := { x with id := n }
        have hfit : (Renaming.update id x y).Fits (n + 1) body := (fits_id hids).body
        have hren := rename_spec body hfit
        have hle : n + 1 ≤ ((body.renameVar x y).run (n + 1)).2 := body.increasing_rename _ _
        have hle' : n ≤ ((body.renameVar x y).run (n + 1)).2 := by omega
        have hids₁ := idsBelow_renamed hren hfit (hbody.mono (Nat.le_succ n)) hle
        have hs := ih _ (size_renameVar x y body (n + 1)) ((hmeta.erase x).mono hle') (hσ.erase _)
          (hkeys.mono hle') (hren.wf wf) hids₁
        have hle₂ := increasing_substWith hmeta.increasing (σ.erase (.var x))
          ((body.renameVar x y).run (n + 1)).1 ((body.renameVar x y).run (n + 1)).2
        have hty : ((body.renameVar x y).run (n + 1)).1.ty = body.ty := hren.ty
        rw [hty] at hs
        refine mkLambda_substWith hs (y := y) ?_ binder rfl hren.read ?_ ?_ ?_
        · exact Nat.lt_of_lt_of_le (Nat.lt_succ_self n) (Nat.le_trans hle hle₂)
        · cases e : (σ.erase (.var x)).get? (.var y) with
          | none => rfl
          | some image => exact absurd (hkeys _ _ e).1 (Nat.lt_irrefl n)
        · rintro v hv hvx rfl
          exact Nat.lt_irrefl n (hids.1 _ (free_of_body hv (by simpa using hvx)))
        · intro r _ image e hy
          exact Nat.lt_irrefl n ((hkeys _ _ e).2.1 _ hy)
      · rename_i hcap
        have hs := ih body rfl (hmeta.erase x) (hσ.erase _) hkeys wf hbody
        have hle := increasing_substWith hmeta.increasing (σ.erase (.var x)) body n
        refine mkLambda_substWith hs (Nat.lt_of_lt_of_le hx hle) binder rfl ?_ ?_ ?_ ?_
        · intro V
          have hid : Renaming.update id x x = id := by
            funext v
            by_cases hvx : v = x <;> simp [Renaming.update, hvx]
          rw [hid]
          rfl
        · simp [Subst.get?_erase]
        · exact fun v _ hvx => hvx
        · intro r hr image e hx
          exact hcap (((σ.erase _).captures_iff x body).mpr ⟨r, hr, image, e, hx⟩)

theorem substBuilt_app {head : Term} {args : List Term} (ih : SubstBuilt onMeta head)
    (ihs : ∀ s ∈ args, SubstBuilt onMeta s) : SubstBuilt onMeta (.app head args) := by
  intro σ n hmeta hσ hσids hwf hids
  cases haff : σ.affects (.app head args) with
  | false =>
    rw [substWith_of_not_affects onMeta σ haff]
    exact built_of_not_affects haff hwf hids
  | true =>
    cases hwf with
    | app flat nonempty fits wf argsWf apart =>
      rw [substWith_app onMeta σ haff]
      obtain ⟨hheadIds, hargsIds⟩ := idsBelow_app.mp hids
      have hargs := forall₂_substWith hmeta hσ hσids argsWf hargsIds ihs
      have hle := Fresh.increasing_mapM (l := args)
        (fun s _ => increasing_substWith hmeta.increasing σ s) n
      have hhead := ih (hmeta.mono hle) hσ (hσids.mono hle) wf (hheadIds.mono hle)
      have hle' := increasing_substWith hmeta.increasing σ head
        ((args.mapM (substWith onMeta σ)).run n).2
      obtain ⟨τ, hτ⟩ := fits_iff.mp fits
      rw [hτ, ← map_ty_built hargs] at hhead
      have hbuilt := mkApp_built hhead fun s hs => (sound_built hargs s hs).mono hle'
      refine ⟨hbuilt.idsBelow, hbuilt.wf, hbuilt.ty.trans (ty_app hτ).symm, fun V hV => ?_⟩
      refine (hbuilt.read V hV).trans ?_
      rw [map_read_built hargs hV, readBefore, readBefore, read_app]

theorem substBuilt_metaApp {z : MetaVar} {args : List Term}
    (ihs : ∀ s ∈ args, SubstBuilt onMeta s) : SubstBuilt onMeta (.metaApp z args) := by
  intro σ n hmeta hσ hσids hwf hids
  cases haff : σ.affects (.metaApp z args) with
  | false =>
    rw [substWith_of_not_affects onMeta σ haff]
    exact built_of_not_affects haff hwf hids
  | true =>
    cases hwf with
    | metaApp fits argsWf apart =>
      rw [substWith_metaApp onMeta σ haff]
      obtain ⟨hz, hargsIds⟩ := idsBelow_metaApp.mp hids
      have hargs := forall₂_substWith hmeta hσ hσids argsWf hargsIds ihs
      have hle := Fresh.increasing_mapM (l := args)
        (fun s _ => increasing_substWith hmeta.increasing σ s) n
      have hbuilt := hmeta.built z _ _ hle (Nat.lt_of_lt_of_le hz hle)
        (sound_built hargs) ((map_ty_built hargs).trans fits)
      refine ⟨hbuilt.idsBelow, hbuilt.wf, hbuilt.ty.trans ?_, fun V hV => ?_⟩
      · rw [Term.ty]
      · refine (hbuilt.read V hV).trans ?_
        rw [map_read_built hargs hV, readBefore, read_metaApp]

theorem substBuilt_leaf {t : Term} (hfree : t.free = ∅) : SubstBuilt onMeta t := by
  intro σ n _ _ _ hwf hids
  have haff : σ.affects t = false := by
    unfold Subst.affects
    rw [hfree]
    rfl
  rw [substWith_of_not_affects onMeta σ haff]
  exact built_of_not_affects haff hwf hids

theorem substWith_built (t : Term) : SubstBuilt onMeta t := by
  induction h : t.size using Nat.strongRecOn generalizing t with
  | ind k ih =>
    cases t with
    | literal v => exact substBuilt_leaf (free_literal v)
    | const c => exact substBuilt_leaf (free_const c)
    | var x => exact substBuilt_var x
    | lambda x body =>
      rw [size_lambda] at h
      exact substBuilt_lambda fun s hs => ih s.size (by omega) s rfl
    | app head args =>
      rw [size_app] at h
      refine substBuilt_app (ih head.size (by omega) head rfl) fun s hs => ?_
      have hle := size_le_sizeAll hs
      exact ih s.size (by omega) s rfl
    | metaApp z args =>
      rw [size_metaApp] at h
      refine substBuilt_metaApp fun s hs => ?_
      have hle := size_le_sizeAll hs
      exact ih s.size (by omega) s rfl

/-! ## Meta-variables -/

/-- Replaces leading binders, after those that the substitution replaces already. -/
def instantiateFrom (t : Term) (args : List Term) (σ : Subst) : Fresh Term := do
  let (σ, body, rest) := t.openLambdas args σ
  mkApp (← body.substVars σ) rest

theorem instantiateFrom_nil (t : Term) (σ : Subst) : t.instantiateFrom [] σ = (do
    mkApp (← t.substVars σ) []) := by
  cases t <;> rfl

theorem instantiateFrom_of_not_lambda {t : Term} (h : t.lambda? = none) (args : List Term)
    (σ : Subst) : t.instantiateFrom args σ = (do mkApp (← t.substVars σ) args) := by
  cases t with
  | lambda x body => cases h
  | _ => rfl

theorem increasing_substVars (σ : Subst) (t : Term) : Fresh.Increasing (t.substVars σ) :=
  increasing_substWith increasing_mkMetaApp σ t

theorem increasing_instantiateFrom (t : Term) (args : List Term) (σ : Subst) :
    Fresh.Increasing (t.instantiateFrom args σ) :=
  (increasing_substVars _ _).bind fun s => increasing_mkApp s _

theorem increasing_instantiateMeta (σ : Subst) (z : MetaVar) (args : List Term) :
    Fresh.Increasing (instantiateMeta σ z args) := by
  unfold instantiateMeta
  split
  · rename_i image _
    exact increasing_instantiateFrom image args ∅
  · exact increasing_mkMetaApp z args

theorem increasing_subst (σ : Subst) (t : Term) : Fresh.Increasing (t.subst σ) :=
  increasing_substWith (increasing_instantiateMeta σ) σ t

/-- The substitution replaces the binders `xs` by the terms `as`, innermost first. -/
structure Replaces (σ : Subst) (xs : List Var) (as : List Term) : Prop where
  metaVar : ∀ z, σ.get? (.metaVar z) = none
  var : ∀ V : Valuation, V.Atomic → ∀ v,
    ((V.unders xs).var v).fill (Nameless.environment (as.map (read V))) = (V.comp σ).var v

theorem replaces_empty : Replaces ∅ [] [] := by
  refine ⟨fun _ => rfl, fun V hV v => ?_⟩
  have hv := hV.var v
  change (V.var v).fill (Nameless.environment []) = V.var v
  cases h : V.var v with
  | free x => rfl
  | bound i => rfl
  | _ =>
    rw [h] at hv
    cases hv

theorem Replaces.set {xs : List Var} {as : List Term} (h : Replaces σ xs as) (x : Var) (a : Term) :
    Replaces (σ.set (.var x) a) (x :: xs) (a :: as) := by
  constructor
  · intro z
    simp [Subst.get?_set, h.metaVar]
  · intro V hV v
    by_cases hvx : v = x
    · simp [Valuation.unders, Valuation.under, Valuation.comp, Subst.get?_set, hvx, Nameless.fill,
        Nameless.environment]
    · have hv := h.var V hV v
      have henv : Nameless.environment ((a :: as).map (read V)) ∘ Nameless.Label.shift 1 =
          Nameless.environment (as.map (read V)) := by
        funext l
        exact Nameless.environment_cons_shift _ _ l
      simp only [Valuation.unders, Valuation.under, if_neg hvx, Nameless.weaken,
        Nameless.fill_relabel, henv, hv]
      simp [Valuation.comp, Subst.get?_set, hvx]

theorem Replaces.fill {xs : List Var} {as : List Term} (h : Replaces σ xs as) (t : Term)
    {V : Valuation} (hV : V.Atomic) :
    (t.read (V.unders xs)).fill (Nameless.environment (as.map (read V))) = readBefore σ t V := by
  rw [← read_fill t (hV.unders xs).metaVar]
  apply read_congr
  · exact fun v _ => h.var V hV v
  · intro z _
    simp [Valuation.fill, Valuation.comp, h.metaVar, hV.metaVar]

theorem mkMetaApp_instantiates (h : ∀ z, σ.get? (.metaVar z) = none) (n : Nat) :
    Instantiates mkMetaApp σ n := by
  refine ⟨increasing_mkMetaApp, fun z args m _ hz hargs fits => ?_⟩
  have hbuilt := mkMetaApp_built hz hargs fits
  refine ⟨hbuilt.idsBelow, hbuilt.wf, hbuilt.ty, fun V hV => (hbuilt.read V hV).trans ?_⟩
  simp only [Valuation.metaApp, Valuation.comp, h]
  rfl

/-- Only abstractions are read as abstractions. -/
theorem isLambda_read {t : Term} (hwf : t.WellFormed) (ht : t.lambda? = none) {V : Valuation}
    (hV : V.Atomic) : (t.read V).isLambda = false := by
  cases hwf with
  | literal v => rfl
  | const c => rfl
  | var x => exact Nameless.isLambda_of_isVar (hV.var x)
  | lambda => cases ht
  | @app head args _ nonempty =>
    rw [read_app]
    cases args with
    | nil => exact absurd rfl nonempty
    | cons a as => cases head.read V <;> rfl
  | metaApp =>
    rw [read_metaApp, Valuation.metaApp, hV.metaVar]
    rfl

/-- The body behind the leading binders, with the arguments left over. -/
theorem substVars_built {t : Term} {args as : List Term} {xs : List Var} {τ : SimpleType}
    (hfill : Replaces σ xs as) (hσ : σ.WellTyped) (hσids : σ.IdsBelow n) (hwf : t.WellFormed)
    (hids : IdsBelow n t) (hargs : ∀ s ∈ args, Sound n s)
    (hty : t.ty = .arrows (args.map Term.ty) τ) :
    Built (((do mkApp (← t.substVars σ) args : Fresh Term)).run n).2 τ
      (fun V => ((t.read (V.unders xs)).fill (Nameless.environment (as.map (read V)))).apply
        (args.map (read V)))
      (((do mkApp (← t.substVars σ) args : Fresh Term)).run n).1 := by
  have hbody := substWith_built t (mkMetaApp_instantiates hfill.metaVar n) hσ hσids hwf hids
  have hle := increasing_substVars σ t n
  rw [hty] at hbody
  have hbuilt := mkApp_built hbody fun s hs => (hargs s hs).mono hle
  refine ⟨hbuilt.idsBelow, hbuilt.wf, hbuilt.ty, fun V hV => (hbuilt.read V hV).trans ?_⟩
  rw [hfill.fill t hV]

theorem instantiateFrom_built (args : List Term) {t : Term} {as : List Term} {xs : List Var}
    {σ : Subst} {τ : SimpleType} (hfill : Replaces σ xs as) (hσ : σ.WellTyped)
    (hσids : σ.IdsBelow n) (hwf : t.WellFormed) (hids : IdsBelow n t)
    (hargs : ∀ s ∈ args, Sound n s)
    (hty : t.ty = .arrows (args.map Term.ty) τ) :
    Built ((t.instantiateFrom args σ).run n).2 τ
      (fun V => (t.read (V.unders xs)).openLambdas (args.map (read V)) (as.map (read V)))
      ((t.instantiateFrom args σ).run n).1 := by
  induction args generalizing t as xs σ with
  | nil =>
    have hbuilt := substVars_built hfill hσ hσids hwf hids hargs hty
    rw [instantiateFrom_nil]
    refine ⟨hbuilt.idsBelow, hbuilt.wf, hbuilt.ty, fun V hV => (hbuilt.read V hV).trans ?_⟩
    simp [Nameless.openLambdas_nil]
  | cons arg args ih =>
    cases hl : t.lambda? with
    | none =>
      have hbuilt := substVars_built hfill hσ hσids hwf hids hargs hty
      rw [instantiateFrom_of_not_lambda hl]
      refine ⟨hbuilt.idsBelow, hbuilt.wf, hbuilt.ty, fun V hV => (hbuilt.read V hV).trans ?_⟩
      rw [Nameless.openLambdas_of_not_lambda (isLambda_read hwf hl (hV.unders xs))]
    | some xb =>
      cases hwf with
      | @lambda x body _ _ wf =>
        rw [Term.ty] at hty
        obtain ⟨hx, hbody⟩ := SimpleType.arrow.inj hty
        have harg := hargs arg (by simp)
        have hxids := hids.2 x (by simp)
        exact ih (hfill.set x arg) (hσ.set hx harg.2) (hσids.set hxids harg.1) wf hids.body
          (fun s hs => hargs s (by simp [hs])) hbody
      | _ => cases hl

theorem instantiate_built {t : Term} {args : List Term} {τ : SimpleType} (hwf : t.WellFormed)
    (hids : IdsBelow n t) (hargs : ∀ s ∈ args, Sound n s)
    (hty : t.ty = .arrows (args.map Term.ty) τ) :
    Built ((t.instantiate args).run n).2 τ
      (fun V => (t.read V).instantiate (args.map (read V))) ((t.instantiate args).run n).1 :=
  instantiateFrom_built args replaces_empty Subst.wellTyped_empty (Subst.idsBelow_empty n) hwf
    hids hargs hty

theorem instantiateMeta_instantiates (hσ : σ.WellTyped) (hσids : σ.IdsBelow n) :
    Instantiates (instantiateMeta σ) σ n := by
  refine ⟨increasing_instantiateMeta σ, fun z args m hm hz hargs fits => ?_⟩
  unfold instantiateMeta
  cases e : σ.get? (.metaVar z) with
  | none =>
    have hbuilt := mkMetaApp_built hz hargs fits
    refine ⟨hbuilt.idsBelow, hbuilt.wf, hbuilt.ty, fun V hV => (hbuilt.read V hV).trans ?_⟩
    simp only [Valuation.metaApp, Valuation.comp, e]
    rfl
  | some image =>
    have himage := hσ _ _ e
    have hty : image.ty = .arrows (args.map Term.ty) z.output := by
      rw [fits]
      exact himage.1.symm
    have hbuilt := instantiate_built himage.2 ((hσids _ _ e).2.mono hm) hargs hty
    refine ⟨hbuilt.idsBelow, hbuilt.wf, hbuilt.ty, fun V hV => (hbuilt.read V hV).trans ?_⟩
    simp only [Valuation.metaApp, Valuation.comp, e]
    rfl

theorem subst_built {t : Term} (hσ : σ.WellTyped) (hσids : σ.IdsBelow n) (hwf : t.WellFormed)
    (hids : IdsBelow n t) :
    Built ((t.subst σ).run n).2 t.ty (readBefore σ t) ((t.subst σ).run n).1 :=
  substWith_built t (instantiateMeta_instantiates hσ hσids) hσ hσids hwf hids

theorem subst_sound {t : Term} (hσ : σ.Sound n) (ht : Sound n t) :
    SoundAt ((t.subst σ).run n).2 t.ty ((t.subst σ).run n).1 :=
  (subst_built hσ.wellTyped hσ.idsBelow ht.wf ht.idsBelow).soundAt

theorem nameless_instance {t : Term} (hσ : σ.Sound n) (ht : Sound n t) :
    ((t.subst σ).run n).1.nameless = readBefore σ t .plain := by
  have hbuilt := subst_built hσ.wellTyped hσ.idsBelow ht.wf ht.idsBelow
  rw [← read_plain hbuilt.wf, hbuilt.read _ Valuation.plain_atomic]

/-- Without names, substitution replaces variables and meta-variables by the nameless images:
nothing is captured, and no bound occurrence is touched. -/
theorem nameless_subst {t : Term} (hσ : σ.WellTyped) (hσids : σ.IdsBelow n)
    (hwf : t.WellFormed) (hids : IdsBelow n t) :
    ((t.subst σ).run n).1.nameless =
      t.nameless.subst fun r => (σ.get? r).map Term.nameless := by
  have hget : ∀ r, (σ.get? r).map (read .plain) = (σ.get? r).map Term.nameless := by
    intro r
    cases e : σ.get? r with
    | none => rfl
    | some image => exact congrArg some (read_plain (hσ r image e).2)
  rw [nameless_instance ⟨hσ, hσids⟩ ⟨hids, hwf⟩, ← read_plain hwf]
  symm
  apply subst_read
  · intro r image e ρ hρ
    rw [← hget] at e
    obtain ⟨image, _, rfl⟩ := Option.map_eq_some_iff.mp e
    exact relabel_read_plain image hρ
  · intro v
    simp only [Valuation.comp, Nameless.subst, Valuation.plain, ← hget]
  · exact fun _ => rfl
  · intro z
    rw [← hget]
    exact Option.or_none

/-- The free `y` of an image stays free below a binder `y`. -/
theorem nameless_subst_under_binder :
    let o := SimpleType.base "o"
    let x : Var := ⟨0, "x", o, false⟩
    let y : Var := ⟨1, "y", o, true⟩
    let w : Var := ⟨2, "w", o, true⟩
    let z : MetaVar := ⟨3, "Z", [o], o⟩
    let σ := (Subst.set ∅ (.var x) (var y)).set (.metaVar z) (lambda w (var w))
    (((lambda y (metaApp z [var x])).subst σ).run 4).1.nameless = .lambda o (.free y) := by
  intro o x y w z σ
  have hw : (lambda w (var w)).WellFormed := .lambda rfl (by simp) (.var w)
  have hwids : IdsBelow 4 (lambda w (var w)) :=
    idsBelow_lambda_of (by decide) (idsBelow_var.mpr (by decide))
  have hσ : σ.WellTyped := (Subst.wellTyped_empty.set rfl (.var y)).set (by decide) hw
  have hσids : σ.IdsBelow 4 :=
    ((Subst.idsBelow_empty 4).set (by decide) (idsBelow_var.mpr (by decide))).set (by decide) hwids
  have hwf : (lambda y (metaApp z [var x])).WellFormed := by
    refine .lambda rfl (by simp [boundAll]) (.metaApp (by decide) ?_ ?_)
    · simp [WellFormed.var]
    · simp [Apart, boundAll]
  have hids : IdsBelow 4 (lambda y (metaApp z [var x])) := by
    refine idsBelow_lambda_of (by decide) (idsBelow_metaApp.mpr ⟨by decide, ?_⟩)
    simpa using idsBelow_var.mpr (by decide)
  exact (nameless_subst hσ hσids hwf hids).trans rfl

end Term

end TermAlgebra
