import TermAlgebra.Proofs.Building
import TermAlgebra.Proofs.Mirroring
import TermAlgebra.Proofs.RenumberedText

/-!
# Building and substituting on another supply

Renaming, the builders and substitution do the same on other identifiers.
-/

namespace TermAlgebra

variable {e : Relocation}

/-! ## Variables -/

theorem Var.mirrors_make (name : String) (ty : SimpleType) (binder : Bool) :
    e.Mirrors (Var.renumber e · = ·) (Var.make name ty binder) (Var.make name ty binder) := by
  refine Relocation.Mirrors.draw.bind ?_
  rintro n _ rfl
  exact .pure rfl

theorem Var.mirrors_freshCopy (x : Var) :
    e.Mirrors (Var.renumber e · = ·) x.freshCopy (x.renumber e).freshCopy :=
  mirrors_make x.name x.ty x.binder

theorem MetaVar.mirrors_make (name : String) (inputs : List SimpleType) (output : SimpleType) :
    e.Mirrors (MetaVar.renumber e · = ·) (MetaVar.make name inputs output)
      (MetaVar.make name inputs output) := by
  refine Relocation.Mirrors.draw.bind ?_
  rintro n _ rfl
  exact .pure rfl

namespace Term

open Relocation

/-! ## Renaming -/

theorem mirrors_renameAll {ts : List Term} {ρ ρ' : Renaming}
    (h : ∀ t ∈ ts, e.Mirrors (renumber e · = ·) (t.rename ρ) ((t.renumber e).rename ρ')) :
    e.Mirrors (List.map (renumber e) · = ·) (renameAll ρ ts)
      (renameAll ρ' (ts.map (renumber e))) := by
  induction ts with
  | nil => exact .pure rfl
  | cons t ts ih =>
    refine (h t List.mem_cons_self).bind ?_
    rintro s _ rfl
    refine (ih fun u hu => h u (List.mem_cons_of_mem t hu)).bind ?_
    rintro ss _ rfl
    exact .pure rfl

theorem mirrors_rename (t : Term) {ρ ρ' : Renaming}
    (h : ∀ x, ρ' (x.renumber e) = (ρ x).renumber e) :
    e.Mirrors (renumber e · = ·) (t.rename ρ) ((t.renumber e).rename ρ') := by
  induction t using Term.induction generalizing ρ ρ' with
  | literal v => exact .congr (rename_literal ρ v) (rename_literal ρ' v) (.pure rfl)
  | const c => exact .congr (rename_const ρ c) (rename_const ρ' c) (.pure rfl)
  | var x =>
    refine .congr (rename_var ρ x) (rename_var ρ' _) (.pure ?_)
    rw [h, renumber_var]
  | lambda x body ih =>
    refine .congr (rename_lambda ρ x body) (rename_lambda ρ' _ _) ?_
    -- Both runs draw a copy of the binder, and the copies correspond as the binders do.
    refine (Var.mirrors_freshCopy x).bind ?_
    rintro y _ rfl
    have hupdate : ∀ v : Var, ρ'.update (x.renumber e) (y.renumber e) (v.renumber e) =
        (ρ.update x y v).renumber e := by
      intro v
      simp only [Renaming.update, Var.renumber_inj, h]
      split <;> rfl
    refine (ih hupdate).bind ?_
    rintro s _ rfl
    exact .pure rfl
  | app head args ih ihs =>
    rw [renumber_app]
    refine .congr (rename_app ρ head args) (rename_app ρ' _ _) ?_
    refine (mirrors_renameAll fun t ht => ihs t ht h).bind ?_
    rintro ss _ rfl
    refine (ih h).bind ?_
    rintro s _ rfl
    exact .pure (renumber_app e s ss)
  | metaApp z args ihs =>
    rw [renumber_metaApp]
    refine .congr (rename_metaApp ρ z args) (rename_metaApp ρ' _ _) ?_
    refine (mirrors_renameAll fun t ht => ihs t ht h).bind ?_
    rintro ss _ rfl
    exact .pure (renumber_metaApp e z ss)

theorem mirrors_refreshBinders (t : Term) :
    e.Mirrors (renumber e · = ·) t.refreshBinders (t.renumber e).refreshBinders :=
  mirrors_rename t fun _ => rfl

theorem mirrors_renameVar (x y : Var) (t : Term) :
    e.Mirrors (renumber e · = ·) (t.renameVar x y)
      ((t.renumber e).renameVar (x.renumber e) (y.renumber e)) := by
  refine mirrors_rename t fun v => ?_
  simp only [Renaming.update, Var.renumber_inj, id]
  split <;> rfl

/-! ## Builders -/

theorem mem_freeAll_renumber (ts : List Term) (r : Replaceable) :
    r.renumber e ∈ freeAll (ts.map (renumber e)) ↔ r ∈ freeAll ts := by
  simp [mem_freeAll, mem_free_renumber]

theorem freeBinders_renumber (ts : List Term) (x : Var) :
    x.renumber e ∈ freeBinders (ts.map (renumber e)) ↔ x ∈ freeBinders ts := by
  rw [mem_freeBinders, mem_freeBinders, Var.renumber_binder]
  exact and_congr_left fun _ => mem_freeAll_renumber ts (.var x)

theorem intersects_renumber {taken taken' : OrderedSet Var}
    (h : ∀ x : Var, x.renumber e ∈ taken' ↔ x ∈ taken) (t : Term) :
    (t.renumber e).bound.intersects taken' = t.bound.intersects taken := by
  rw [Bool.eq_iff_iff, OrderedSet.intersects_iff, OrderedSet.intersects_iff]
  constructor
  · rintro ⟨y, hy, htaken⟩
    obtain ⟨x, hx, rfl⟩ := (mem_bound_renumber _).mp hy
    exact ⟨x, hx, (h x).mp htaken⟩
  · rintro ⟨x, hx, htaken⟩
    exact ⟨_, (mem_bound_renumber _).mpr ⟨x, hx, rfl⟩, (h x).mpr htaken⟩

theorem mirrors_refreshAgainst {taken taken' : OrderedSet Var}
    (h : ∀ x : Var, x.renumber e ∈ taken' ↔ x ∈ taken) (t : Term) :
    e.Mirrors (renumber e · = ·) (t.refreshAgainst taken)
      ((t.renumber e).refreshAgainst taken') :=
  .ite (by rw [intersects_renumber h]) (fun _ => mirrors_refreshBinders t) fun _ => .pure rfl

theorem mirrors_mapM_refreshAgainst {taken taken' : OrderedSet Var}
    (h : ∀ x : Var, x.renumber e ∈ taken' ↔ x ∈ taken) (ts : List Term) :
    e.Mirrors (List.map (renumber e) · = ·) (ts.mapM (refreshAgainst taken))
      ((ts.map (renumber e)).mapM (refreshAgainst taken')) :=
  .mapM fun t _ => mirrors_refreshAgainst h t

theorem mirrors_mkLambda (x : Var) (body : Term) :
    e.Mirrors (renumber e · = ·) (mkLambda x body)
      (mkLambda (x.renumber e) (body.renumber e)) := by
  refine .ite (by rw [bound_contains_renumber]) (fun _ => ?_) fun _ => .pure rfl
  refine (mirrors_refreshBinders body).bind ?_
  rintro s _ rfl
  exact .pure rfl

theorem mirrors_mkApp (t : Term) (args : List Term) :
    e.Mirrors (renumber e · = ·) (t.mkApp args)
      ((t.renumber e).mkApp (args.map (renumber e))) := by
  refine .ite (by rw [List.isEmpty_map]) (fun _ => .pure rfl) fun _ => ?_
  have htaken := freeBinders_renumber (e := e) (t.head :: (t.args ++ args))
  rw [List.map_cons, List.map_append, ← head_renumber, ← args_renumber] at htaken
  have hhead := mirrors_refreshAgainst htaken t.head
  rw [← head_renumber] at hhead
  refine hhead.bind ?_
  rintro head _ rfl
  have hargs := mirrors_mapM_refreshAgainst htaken (t.args ++ args)
  rw [List.map_append, ← args_renumber] at hargs
  refine hargs.bind ?_
  rintro ss _ rfl
  exact .pure (renumber_app e head ss)

theorem mirrors_mkMetaApp (z : MetaVar) (args : List Term) :
    e.Mirrors (renumber e · = ·) (mkMetaApp z args)
      (mkMetaApp (z.renumber e) (args.map (renumber e))) := by
  refine (mirrors_mapM_refreshAgainst (freeBinders_renumber args) args).bind ?_
  rintro ss _ rfl
  exact .pure (renumber_metaApp e z ss)

theorem checkArguments_renumber (σs : List SimpleType) (ts : List Term) :
    Results (TypeError.renumber e · = ·) (fun _ _ => True) (checkArguments σs ts)
      (checkArguments σs (ts.map (renumber e))) := by
  induction σs generalizing ts with
  | nil => exact .ok trivial
  | cons σ σs ih =>
    cases ts with
    | nil => exact .ok trivial
    | cons t ts =>
      rw [List.map_cons, checkArguments, checkArguments, ty_renumber]
      split
      · exact ih ts
      · exact .error rfl

theorem mirrors_abstract (x : Var) (body : Term) :
    e.MirrorsAttempt (TypeError.renumber e · = ·) (renumber e · = ·) (abstract x body)
      (abstract (x.renumber e) (body.renumber e)) :=
  .ite (by rw [Var.renumber_binder]) (fun _ => .lift (mirrors_mkLambda x body)) fun _ => .throw rfl

theorem mirrors_apply (t : Term) (args : List Term) :
    e.MirrorsAttempt (TypeError.renumber e · = ·) (renumber e · = ·) (t.apply args)
      ((t.renumber e).apply (args.map (renumber e))) := by
  have hbuild : e.MirrorsAttempt (TypeError.renumber e · = ·) (renumber e · = ·)
      (do liftM (checkArguments t.ty.inputs args); liftM (t.mkApp args))
      (do
        liftM (checkArguments (t.renumber e).ty.inputs (args.map (renumber e)))
        liftM ((t.renumber e).mkApp (args.map (renumber e)))) := by
    rw [ty_renumber]
    refine .bind (.except (checkArguments_renumber t.ty.inputs args)) fun _ _ _ => ?_
    exact .lift (mirrors_mkApp t args)
  refine .ite (by rw [ty_renumber, List.length_map]) (fun _ => ?_) fun _ => hbuild
  refine .throw_bind ?_
  simp [TypeError.renumber]

theorem mirrors_applyMeta (z : MetaVar) (args : List Term) :
    e.MirrorsAttempt (TypeError.renumber e · = ·) (renumber e · = ·) (applyMeta z args)
      (applyMeta (z.renumber e) (args.map (renumber e))) := by
  have hbuild : e.MirrorsAttempt (TypeError.renumber e · = ·) (renumber e · = ·)
      (do liftM (checkArguments z.inputs args); liftM (mkMetaApp z args))
      (do
        liftM (checkArguments (z.renumber e).inputs (args.map (renumber e)))
        liftM (mkMetaApp (z.renumber e) (args.map (renumber e)))) := by
    refine .bind (.except (checkArguments_renumber z.inputs args)) fun _ _ _ => ?_
    exact .lift (mirrors_mkMetaApp z args)
  refine .ite (by rw [MetaVar.renumber_arity, List.length_map]) (fun _ => ?_) fun _ => hbuild
  refine .throw_bind ?_
  simp [TypeError.renumber]

/-! ## Substitution -/

section Substitution

variable {onMeta onMeta' : [Supply] → MetaVar → List Term → Fresh Term} {σ σ' : Subst}

/-- The second substitution may list its keys in another order, since it is only asked for
images. -/
theorem mirrors_substBelow
    (hmeta : ∀ z args, e.Mirrors (renumber e · = ·) (onMeta z args)
      (onMeta' (z.renumber e) (args.map (renumber e)))) (bound : Nat) (h : σ.Renumbered e σ')
    (t : Term) :
    e.Mirrors (renumber e · = ·) (substBelow onMeta bound σ t)
      (substBelow onMeta' bound σ' (t.renumber e)) := by
  induction bound generalizing σ σ' t with
  | zero => exact .pure rfl
  | succ bound ih =>
    refine .ite (by rw [h.affects_eq]) (fun _ => .pure rfl) fun _ => ?_
    cases t with
    | literal v => exact .pure rfl
    | const c => exact .pure rfl
    | var x =>
      refine .pure ?_
      rw [← Replaceable.renumber_var, h (.var x)]
      cases σ.get? (.var x) <;> rfl
    | lambda x body =>
      have herase := h.erase (.var x)
      -- Whether the binder would capture something does not depend on the identifiers.
      refine .ite ?_ (fun _ => ?_) fun _ => ?_
      · rw [← Replaceable.renumber_var, herase.captures_eq]
      · refine (Var.mirrors_freshCopy x).bind ?_
        rintro y _ rfl
        refine (mirrors_renameVar x y body).bind ?_
        rintro body _ rfl
        refine (ih herase body).bind ?_
        rintro s _ rfl
        exact mirrors_mkLambda y s
      · refine (ih herase body).bind ?_
        rintro s _ rfl
        exact mirrors_mkLambda x s
    | app head args =>
      rw [renumber_app]
      refine (Mirrors.mapM fun s _ => ih h s).bind ?_
      rintro ss _ rfl
      refine (ih h head).bind ?_
      rintro s _ rfl
      exact mirrors_mkApp s ss
    | metaApp z args =>
      rw [renumber_metaApp]
      refine (Mirrors.mapM fun s _ => ih h s).bind ?_
      rintro ss _ rfl
      exact hmeta z ss

theorem mirrors_substWith
    (hmeta : ∀ z args, e.Mirrors (renumber e · = ·) (onMeta z args)
      (onMeta' (z.renumber e) (args.map (renumber e)))) (h : σ.Renumbered e σ') (t : Term) :
    e.Mirrors (renumber e · = ·) (substWith onMeta σ t) (substWith onMeta' σ' (t.renumber e)) := by
  unfold substWith
  rw [size_renumber]
  exact mirrors_substBelow hmeta t.size h t

theorem mirrors_substVars (h : σ.Renumbered e σ') (t : Term) :
    e.Mirrors (renumber e · = ·) (substVars σ t) (substVars σ' (t.renumber e)) :=
  mirrors_substWith mirrors_mkMetaApp h t

theorem openLambdas_renumber (h : σ.Renumbered e σ') (t : Term) (args : List Term) :
    let p := t.openLambdas args σ
    let p' := (t.renumber e).openLambdas (args.map (renumber e)) σ'
    p.1.Renumbered e p'.1 ∧ p'.2.1 = p.2.1.renumber e ∧ p'.2.2 = p.2.2.map (renumber e) := by
  induction args generalizing t σ σ' with
  | nil => cases t <;> simpa [openLambdas] using h
  | cons arg args ih =>
    cases t with
    | lambda x body =>
      rw [renumber_lambda, List.map_cons, openLambdas, openLambdas]
      exact ih (h.set (.var x) arg) body
    | _ => simpa [openLambdas] using h

theorem mirrors_instantiate (t : Term) (args : List Term) :
    e.Mirrors (renumber e · = ·) (t.instantiate args)
      ((t.renumber e).instantiate (args.map (renumber e))) := by
  have hopen := openLambdas_renumber (Subst.renumbered_renumber e ∅) t args
  rw [Subst.renumber_empty] at hopen
  unfold instantiate
  generalize t.openLambdas args ∅ = p at hopen ⊢
  generalize (t.renumber e).openLambdas (args.map (renumber e)) ∅ = p' at hopen ⊢
  obtain ⟨⟨σ, body, rest⟩, ⟨σ', _, _⟩⟩ := p, p'
  obtain ⟨himages, rfl, rfl⟩ := hopen
  refine (mirrors_substVars himages body).bind ?_
  rintro s _ rfl
  exact mirrors_mkApp s rest

theorem mirrors_instantiateMeta (h : σ.Renumbered e σ') (z : MetaVar) (args : List Term) :
    e.Mirrors (renumber e · = ·) (instantiateMeta σ z args)
      (instantiateMeta σ' (z.renumber e) (args.map (renumber e))) := by
  have hget := h (.metaVar z)
  unfold instantiateMeta
  rw [← Replaceable.renumber_metaVar, hget]
  cases σ.get? (.metaVar z) with
  | none => exact mirrors_mkMetaApp z args
  | some image => exact mirrors_instantiate image args

theorem mirrors_subst (h : σ.Renumbered e σ') (t : Term) :
    e.Mirrors (renumber e · = ·) (subst σ t) (subst σ' (t.renumber e)) :=
  mirrors_substWith (mirrors_instantiateMeta h) h t

end Substitution

end Term

end TermAlgebra
