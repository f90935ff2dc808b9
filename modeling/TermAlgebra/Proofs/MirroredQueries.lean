import TermAlgebra.Proofs.MirroredTerms

/-!
# Matching and unification on another supply

Both go the same way on other identifiers. The matcher names the first variable that escapes, so
that the order of identifiers matters to it; unification goes through the images of a substitution
in an order that is taken along.
-/

namespace TermAlgebra

open Relocation

variable {e : Relocation}

/-! ## Matching -/

section Scope

variable (π : Renumbering)

def Stack.renumber (scope : Stack Var) : Stack Var := ⟨scope.toList.map (Var.renumber π)⟩

theorem Stack.contains_renumber (scope : Stack Var) (x : Var) :
    (scope.renumber π).contains (x.renumber π) = scope.contains x :=
  decide_eq_decide.mpr (List.mem_map_of_injective (Var.renumber_injective π))

/-- The same variable is found first. -/
theorem Var.find?_renumber {p p' : Var → Bool} (h : ∀ x : Var, p' (x.renumber π) = p x)
    (xs : List Var) : (xs.map (renumber π)).find? p' = (xs.find? p).map (renumber π) := by
  rw [List.find?_map]
  exact congrArg (fun q => (xs.find? q).map (renumber π)) (funext h)

end Scope

namespace Matcher

variable {α β : Type} {R : α → β → Prop}

/-- Both runs keep the same substitution and fail for the same reason. -/
def Mirrors (e : Relocation) (R : α → β → Prop) (m : [Supply] → Matcher α)
    (m' : [Supply] → Matcher β) : Prop :=
  e.MirrorsExec (Subst.renumber e · = ·) (MatchError.renumber e · = ·) R m m'

theorem mirrors_done : Mirrors e (fun _ _ : Unit => True) (pure ()) (pure ()) := .pure trivial

theorem mirrors_mismatch {m m' : Mismatch} (h : m.renumber e = m') :
    Mirrors e R (mismatch m) (mismatch m') :=
  .throw (congrArg MatchError.mismatch h)

theorem mirrors_violation {t t' : Term} {v v' : Violation} (ht : t.renumber e = t')
    (hv : v.renumber e = v') : Mirrors e R (violation t v) (violation t' v') := by
  subst ht hv
  exact .throw rfl

theorem mirrors_mapping [e.Increasing] {m : [Supply] → Matcher α} {m' : [Supply] → Matcher β}
    (h : Mirrors e R m m') (r : Replaceable) (t : Term) :
    Mirrors e R (mapping r t m) (mapping (r.renumber e) (t.renumber e) m') := by
  rintro σ _ rfl
  have hrun : e.Mirrors
      (fun r r' => Results (MatchError.renumber e · = ·) R r.1 r'.1 ∧ r.2.renumber e = r'.2)
      (m.run.run (σ.set r t) >>= fun p => pure (p.1, p.2.update r (σ.get? r)))
      (m'.run.run ((σ.renumber e).set (r.renumber e) (t.renumber e)) >>= fun p =>
        pure (p.1, p.2.update (r.renumber e) ((σ.renumber e).get? (r.renumber e)))) := by
    refine (h _ _ (Subst.set_renumber e σ r t).symm).bind ?_
    rintro ⟨result, τ⟩ ⟨result', _⟩ ⟨hresult, rfl⟩
    refine .pure ⟨hresult, ?_⟩
    rw [Subst.get?_renumber, Subst.update_renumber]
  exact hrun

theorem mirrors_assign [e.Increasing] (r : Replaceable) (object : Term) :
    Mirrors e (fun _ _ => True) (assign r object) (assign (r.renumber e) (object.renumber e)) := by
  refine MirrorsExec.get.bind ?_
  rintro σ _ rfl
  rw [Subst.get?_renumber]
  cases σ.get? r with
  | none =>
    refine .modify ?_
    rintro σ _ rfl
    exact (Subst.set_renumber e σ r object).symm
  | some image =>
    refine .ite ?_ (fun _ => mirrors_done) fun _ => mirrors_mismatch rfl
    rw [Term.alphaEquals_renumber]

theorem mirrors_var [e.Increasing] (scope : Stack Var) (x : Var) (object : Term) :
    Mirrors e (fun _ _ => True) (var scope x object)
      (var (scope.renumber e) (x.renumber e) (object.renumber e)) := by
  refine MirrorsExec.get.bind ?_
  rintro σ _ rfl
  refine .ite ?_ (fun _ => mirrors_assign (.var x) object) fun _ => ?_
  · rw [← Replaceable.renumber_var, Subst.contains_renumber]
  refine .ite Iff.rfl (fun _ => ?_) fun _ => ?_
  · refine .ite ?_ (fun _ => mirrors_done) fun _ => mirrors_mismatch rfl
    rw [← Term.renumber_var, Term.beq_renumber]
  · rw [Term.freeVars_renumber, Var.find?_renumber e.toRenumbering (scope.contains_renumber _)]
    cases object.freeVars.find? scope.contains with
    | none => exact mirrors_assign (.var x) object
    | some y => exact mirrors_mismatch rfl

theorem mirrors_binders (pattern : Term) (args : List Term) (images : List Var) :
    Mirrors e (List.map (Var.renumber e) · = ·) (binders pattern args images)
      (binders (pattern.renumber e) (args.map (Term.renumber e))
        (images.map (Var.renumber e))) := by
  induction args generalizing images with
  | nil => exact .pure List.map_reverse
  | cons arg args ih =>
    have hrest : ∀ y : Var, Mirrors e (List.map (Var.renumber e) · = ·)
        (do
          if images.contains y then violation pattern (.repeated y)
          binders pattern args (y :: images))
        (do
          if (images.map (Var.renumber e)).contains (y.renumber e) then
            violation (pattern.renumber e) (.repeated (y.renumber e))
          binders (pattern.renumber e) (args.map (Term.renumber e))
            (y.renumber e :: images.map (Var.renumber e))) := by
      intro y
      refine .ite ?_ (fun _ => .throw_bind rfl) fun _ => ih (y :: images)
      rw [Term.contains_map_renumber]
    rw [List.map_cons, binders, binders, Term.binder?_renumber]
    cases arg.binder? with
    | none => exact mirrors_violation rfl rfl
    | some x =>
      refine MirrorsExec.get.bind ?_
      rintro σ _ rfl
      rw [← Replaceable.renumber_var, Subst.get?_renumber]
      cases σ.get? (.var x) with
      | none => exact hrest x
      | some image =>
        have himage := Term.binder?_renumber e image
        dsimp only [Option.map_some]
        rw [himage]
        cases image.binder? with
        | none => exact .throw_bind rfl
        | some y => exact hrest y

theorem mirrors_foldlM_mkLambda (ys : List Var) (object : Term) :
    Mirrors e (Term.renumber e · = ·) (ys.foldlM (fun body y => Term.mkLambda y body) object)
      ((ys.map (Var.renumber e)).foldlM (fun body y => Term.mkLambda y body)
        (object.renumber e)) := by
  induction ys generalizing object with
  | nil => exact .pure rfl
  | cons y ys ih =>
    refine .congr List.foldlM_cons List.foldlM_cons ?_
    refine (MirrorsExec.liftFresh (Term.mirrors_mkLambda y object)).bind ?_
    rintro body _ rfl
    exact ih body

theorem mirrors_metaApp [e.Increasing] (scope : Stack Var) (z : MetaVar) (args : List Term)
    (object : Term) :
    Mirrors e (fun _ _ => True) (metaApp scope z args object)
      (metaApp (scope.renumber e) (z.renumber e) (args.map (Term.renumber e))
        (object.renumber e)) := by
  have hpattern := Term.renumber_metaApp e z args
  unfold metaApp
  dsimp only
  rw [← hpattern]
  refine MirrorsExec.bind (mirrors_binders _ args []) ?_
  rintro images _ rfl
  have hassign : Mirrors e (fun _ _ => True)
      (do
        let image ← images.reverse.foldlM (fun body y => liftM (Term.mkLambda y body)) object
        assign (.metaVar z) image)
      (do
        let image ← (images.map (Var.renumber e)).reverse.foldlM
          (fun body y => liftM (Term.mkLambda y body)) (object.renumber e)
        assign (.metaVar (z.renumber e)) image) := by
    rw [← List.map_reverse]
    refine MirrorsExec.bind (mirrors_foldlM_mkLambda images.reverse object) ?_
    rintro image _ rfl
    exact mirrors_assign (.metaVar z) image
  rw [Term.freeVars_renumber, Var.find?_renumber e.toRenumbering
    (p := fun y => y.binder && !images.contains y) fun x => by
      rw [Var.renumber_binder, Term.contains_map_renumber]]
  cases object.freeVars.find? fun y => y.binder && !images.contains y with
  | none => exact hassign
  | some y =>
    refine .ite (by rw [Stack.contains_renumber]) (fun _ => .throw_bind rfl) fun _ => ?_
    refine .ite (by rw [List.isEmpty_map]) (fun _ => .throw_bind rfl) fun _ => ?_
    exact hassign

theorem mirrors_terms {ps : List Term}
    (h : ∀ p ∈ ps, ∀ (scope : Stack Var) (o : Term), Mirrors e (fun _ _ => True) (term scope p o)
      (term (scope.renumber e) (p.renumber e) (o.renumber e))) (scope : Stack Var)
    (os : List Term) :
    Mirrors e (fun _ _ => True) (terms scope ps os)
      (terms (scope.renumber e) (ps.map (Term.renumber e)) (os.map (Term.renumber e))) := by
  induction ps generalizing os with
  | nil => cases os <;> exact mirrors_done
  | cons p ps ih =>
    cases os with
    | nil => exact mirrors_done
    | cons o os =>
      have hrest := ih (fun q hq => h q (List.mem_cons_of_mem p hq)) os
      exact hrest.bind fun _ _ _ => h p List.mem_cons_self scope o

theorem mirrors_term [e.Increasing] (scope : Stack Var) (pattern object : Term) :
    Mirrors e (fun _ _ => True) (term scope pattern object)
      (term (scope.renumber e) (pattern.renumber e) (object.renumber e)) := by
  have hty : ∀ p o : Term, (p.renumber e).ty ≠ (o.renumber e).ty ↔ p.ty ≠ o.ty := by simp
  induction pattern using Term.induction generalizing scope object with
  | literal v =>
    refine .ite (hty _ object) (fun _ => .throw_bind rfl) fun _ => ?_
    refine .ite ?_ (fun _ => mirrors_done) fun _ => mirrors_mismatch rfl
    exact Bool.eq_iff_iff.mp (Term.beq_renumber e object (.literal v))
  | const c =>
    refine .ite (hty _ object) (fun _ => .throw_bind rfl) fun _ => ?_
    refine .ite ?_ (fun _ => mirrors_done) fun _ => mirrors_mismatch rfl
    exact Bool.eq_iff_iff.mp (Term.beq_renumber e object (.const c))
  | var x =>
    refine .ite (hty _ object) (fun _ => .throw_bind rfl) fun _ => ?_
    exact mirrors_var scope x object
  | lambda x body ih =>
    refine .ite (hty _ object) (fun _ => .throw_bind rfl) fun _ => ?_
    cases object with
    | lambda y objectBody =>
      exact mirrors_mapping (ih (scope.push y) objectBody) (.var x) (.var y)
    | _ => exact mirrors_mismatch rfl
  | app head args ih ihs =>
    rw [Term.renumber_app]
    refine .ite (by simpa using hty (.app head args) object) (fun _ => .throw_bind ?_) fun _ => ?_
    · rw [← Term.renumber_app]
      rfl
    dsimp only
    rw [Term.args_renumber, List.length_map, List.length_map]
    refine .ite Iff.rfl (fun _ => .throw_bind rfl) fun _ => ?_
    rw [← List.map_drop, Term.headPart_renumber]
    refine MirrorsExec.bind (mirrors_terms (fun t ht scope o => ihs t ht scope o) scope _) ?_
    rintro _ _ -
    exact ih scope _
  | metaApp z args ihs =>
    rw [Term.renumber_metaApp]
    refine .ite (by simpa using hty (.metaApp z args) object) (fun _ => .throw_bind ?_) fun _ => ?_
    · rw [← Term.renumber_metaApp]
      rfl
    exact mirrors_metaApp scope z args object

end Matcher

namespace Term

def MatchOutcome.renumber {α : Type} (π : Renumbering) (f : α → α) : MatchOutcome α → MatchOutcome α
  | success a => success (f a)
  | failure m => failure (m.renumber π)

theorem mirrors_matchWith [e.Increasing] (pattern object : Term) (σ : Subst) :
    e.Mirrors
      (fun r r' => Results (PatternRequired.renumber e · = ·) (MatchOutcome.renumber e id · = ·)
        r.1 r'.1 ∧ r.2.renumber e = r'.2)
      (pattern.matchWith object σ)
      ((pattern.renumber e).matchWith (object.renumber e) (σ.renumber e)) := by
  unfold matchWith
  rw [nonPattern?_renumber]
  cases pattern.nonPattern? with
  | some t => exact .pure ⟨.error rfl, rfl⟩
  | none =>
    refine (Matcher.mirrors_term ∅ pattern object σ _ rfl).bind ?_
    rintro ⟨r, σ⟩ ⟨r', _⟩ ⟨hr, rfl⟩
    cases hr with
    | ok => exact .pure ⟨.ok rfl, rfl⟩
    | @error d d' hd =>
      subst hd
      cases d with
      | mismatch m => exact .pure ⟨.ok rfl, rfl⟩
      | pattern p => exact .pure ⟨.error rfl, rfl⟩

theorem mirrors_matchTerm [e.Increasing] (pattern object : Term) :
    e.Mirrors (Results (PatternRequired.renumber e · = ·)
        (MatchOutcome.renumber e (Subst.renumber e) · = ·))
      (pattern.matchTerm object) ((pattern.renumber e).matchTerm (object.renumber e)) := by
  refine (mirrors_matchWith pattern object ∅).bind ?_
  rintro ⟨r, σ⟩ ⟨r', _⟩ ⟨hr, rfl⟩
  cases hr with
  | error hd => exact .pure (.error hd)
  | @ok a b hab =>
    subst hab
    cases a with
    | success => exact .pure (.ok rfl)
    | failure m => exact .pure (.ok rfl)

/-! ## Unification -/

theorem flexible?_renumber (t : Term) :
    (t.renumber e).flexible? = t.flexible?.map (Replaceable.renumber e) := by
  cases t with
  | var x => cases h : x.binder <;> simp [flexible?, h]
  | metaApp z args => cases args <;> simp [flexible?]
  | _ => simp [flexible?]

end Term

/-! ## Orders of iteration -/

instance : Nonempty Replaceable := ⟨.var ⟨0, "", .base "", false⟩⟩

theorem Subst.keys_renumber (π : Renumbering) (σ : Subst) :
    (σ.renumber π).keys = σ.keys.map (Replaceable.renumber π) := by
  simp [keys, renumber]

namespace Iteration

variable (π : Renumbering) (I : Iteration)

/-- Every key comes when the renumbered one does. -/
@[reducible]
noncomputable def along : Iteration where
  keys σ := (I.keys (σ.renumber π)).map (Function.invFun (Replaceable.renumber π))
  perm σ := by
    have hinverse : Function.invFun (Replaceable.renumber π) ∘ Replaceable.renumber π = id :=
      Function.invFun_comp (Replaceable.renumber_injective π)
    have hperm := (I.perm (σ.renumber π)).map (Function.invFun (Replaceable.renumber π))
    rw [Subst.keys_renumber, List.map_map, hinverse, List.map_id] at hperm
    exact hperm

theorem map_keys_along (σ : Subst) :
    ((I.along π).keys σ).map (Replaceable.renumber π) = I.keys (σ.renumber π) := by
  change ((I.keys (σ.renumber π)).map _).map _ = _
  rw [List.map_map]
  refine (List.map_congr_left fun r hr => ?_).trans (List.map_id _)
  have hmem := (I.perm (σ.renumber π)).mem_iff.mp hr
  rw [Subst.keys_renumber, List.mem_map] at hmem
  obtain ⟨q, _, hq⟩ := hmem
  exact Function.invFun_eq ⟨q, hq⟩

end Iteration

namespace Subst

variable (π : Renumbering) (I : Iteration) (σ : Subst)

theorem iterate_renumber : (σ.renumber π).iterate (I := I) =
    (σ.iterate (I := I.along π)).map fun p => (p.1.renumber π, p.2.renumber π) := by
  unfold iterate
  rw [← I.map_keys_along π σ, List.filterMap_map, List.map_filterMap]
  refine List.filterMap_congr fun r _ => ?_
  rw [Function.comp, get?_renumber, Option.map_map, Option.map_map]
  rfl

theorem overwrite_renumber (images : List (Replaceable × Term)) :
    (σ.renumber π).overwrite (images.map fun p => (p.1.renumber π, p.2.renumber π)) =
      (σ.overwrite images).renumber π := by
  refine congrArg Subst.mk ?_
  rw [renumber, overwrite, List.map_map, List.map_map]
  refine List.map_congr_left fun e _ => Prod.ext rfl ?_
  have hget := get?_renumber π ⟨images⟩ e.1
  change List.lookup _ (images.map _) = (images.lookup e.1).map _ at hget
  dsimp only [Function.comp]
  rw [hget]
  cases images.lookup e.1 <;> rfl

end Subst

namespace Unifier

section Problem

variable (π : Renumbering)

def renumberEquation (p : Term × Term) : Term × Term := (p.1.renumber π, p.2.renumber π)

def renumber (u : Unifier) : Unifier where
  subst := u.subst.renumber π
  locals := u.locals.map (Var.renumber π)
  equations := u.equations.map (renumberEquation π)

def Progress.renumber : Progress → Progress
  | solved => solved
  | clash => clash
  | simpler u => simpler (u.renumber π)
  | bound u => bound (u.renumber π)

def Verdict.renumber : Verdict → Verdict
  | unifier σ => unifier (σ.renumber π)
  | clash => clash
  | exhausted => exhausted

theorem renumber_identity (u : Unifier) : u.renumber .identity = u := by
  obtain ⟨σ, locals, equations⟩ := u
  have hequation : ∀ p, renumberEquation .identity p = p := fun p =>
    Prod.ext p.1.renumber_identity p.2.renumber_identity
  rw [renumber, Subst.renumber_identity, List.map_id'' Var.renumber_identity,
    List.map_id'' hequation]

theorem renumber_comp (ρ : Renumbering) (u : Unifier) :
    u.renumber (π.comp ρ) = (u.renumber ρ).renumber π := by
  obtain ⟨σ, locals, equations⟩ := u
  rw [renumber, renumber, renumber, Subst.renumber_comp, List.map_map, List.map_map]
  refine congrArg (Unifier.mk _ _) (List.map_congr_left fun p _ => Prod.ext ?_ ?_)
  · exact p.1.renumber_comp π ρ
  · exact p.2.renumber_comp π ρ

theorem Progress.renumber_identity (p : Progress) : p.renumber .identity = p := by
  cases p with
  | solved | clash => rfl
  | simpler u => exact congrArg simpler u.renumber_identity
  | bound u => exact congrArg bound u.renumber_identity

theorem Progress.renumber_comp (ρ : Renumbering) (p : Progress) :
    p.renumber (π.comp ρ) = (p.renumber ρ).renumber π := by
  cases p with
  | solved | clash => rfl
  | simpler u => exact congrArg simpler (u.renumber_comp π ρ)
  | bound u => exact congrArg bound (u.renumber_comp π ρ)

/-- The second problem is the first one with other identifiers. The place of the new key is left
open. -/
inductive Progress.Follows : Progress → Progress → Prop
  | solved : Follows solved solved
  | clash : Follows clash clash
  | simpler (u : Unifier) : Follows (simpler u) (simpler (u.renumber π))
  | bound (σ : Subst) (r : Replaceable) (t : Term) (locals : List Var)
      (equations : List (Term × Term)) :
      Follows (bound ⟨σ.set r t, locals, equations⟩)
        (bound ⟨(σ.renumber π).set (r.renumber π) (t.renumber π), locals.map (Var.renumber π),
          equations.map (renumberEquation π)⟩)

variable {π} in
theorem Progress.Follows.of_eq_simpler {u u' : Unifier} (h : u.renumber π = u') :
    Progress.Follows π (.simpler u) (.simpler u') := h ▸ .simpler u

variable {π} in
/-- If the keys keep their order, the new key gets the same place. -/
theorem Progress.Follows.renumber_eq {p p' : Progress} (h : Progress.Follows π p p')
    (hkeys : ∀ u, p = .bound u → ∀ r ∈ u.subst.keys, ∀ q ∈ u.subst.keys,
      (π r.id < π q.id ↔ r.id < q.id)) : p.renumber π = p' := by
  cases h with
  | solved | clash | simpler => rfl
  | bound σ r t locals equations =>
    have hset := Subst.set_renumber_of_lt_iff π σ r t fun q hq =>
      hkeys _ rfl r ((Subst.mem_keys_set σ r t r).mpr (.inl rfl)) q
        ((Subst.mem_keys_set σ r t q).mpr (.inr hq))
    rw [hset]
    rfl

theorem equationsSize_renumber (equations : List (Term × Term)) :
    equationsSize (equations.map (renumberEquation π)) = equationsSize equations := by
  induction equations with
  | nil => rfl
  | cons p ps ih =>
    rw [List.map_cons, renumberEquation, equationsSize, equationsSize, ih]
    simp

theorem imageSize_renumber (entries : List (Replaceable × Term)) :
    imageSize (entries.map fun p => (p.1.renumber π, p.2.renumber π)) = imageSize entries := by
  induction entries with
  | nil => rfl
  | cons p ps ih =>
    rw [List.map_cons, imageSize, imageSize, ih]
    simp

theorem weight_renumber (u : Unifier) : (u.renumber π).weight = u.weight := by
  unfold weight renumber Subst.renumber
  rw [equationsSize_renumber, imageSize_renumber]

end Problem

theorem mirrors_updateImage (r : Replaceable) (t image : Term) :
    e.Mirrors (Term.renumber e · = ·) (updateImage r t image)
      (updateImage (r.renumber e) (t.renumber e) (image.renumber e)) := by
  refine .ite (by rw [Term.free_contains_renumber]) (fun _ => ?_) fun _ => .pure rfl
  have hset := (Subst.renumbered_renumber e ∅).set r t
  rw [Subst.renumber_empty] at hset
  exact Term.mirrors_subst hset image

theorem mirrors_updateImages (r : Replaceable) (t : Term) (entries : List (Replaceable × Term)) :
    e.Mirrors (List.map (fun p => (p.1.renumber e, p.2.renumber e)) · = ·)
      (updateImages r t entries)
      (updateImages (r.renumber e) (t.renumber e)
        (entries.map fun p => (p.1.renumber e, p.2.renumber e))) := by
  induction entries with
  | nil => exact .pure rfl
  | cons p ps ih =>
    refine (mirrors_updateImage r t p.2).bind ?_
    rintro image _ rfl
    refine ih.bind ?_
    rintro ps _ rfl
    exact .pure rfl

/-- The second run may go through the images in any order, if the first one goes through them in
the same order. -/
theorem mirrors_bind (I : Iteration) (u : Unifier) (r : Replaceable) (t : Term) :
    e.Mirrors (Progress.Follows e) (u.bind (I := I.along e) r t)
      ((u.renumber e).bind (I := I) (r.renumber e) (t.renumber e)) := by
  refine .ite ?_ (fun _ => .pure .clash) fun _ => .ite ?_ (fun _ => .pure .clash) fun _ => ?_
  · rw [Term.free_contains_renumber]
  · have hlocals : (u.renumber e).locals = u.locals.map (Var.renumber e) := rfl
    rw [hlocals, Term.any_freeVars_renumber e t (Term.contains_map_renumber e u.locals)]
  · have himages := mirrors_updateImages (e := e) r t (u.subst.iterate (I := I.along e))
    rw [← Subst.iterate_renumber] at himages
    refine himages.bind ?_
    rintro images _ rfl
    refine .pure ?_
    change Progress.Follows e _ (.bound ⟨((u.subst.renumber e).overwrite _).set _ _, _, _⟩)
    rw [Subst.overwrite_renumber]
    exact .bound _ r t u.locals u.equations

/-- The last arguments of both terms, and what stands in front of them. -/
theorem mirrors_parts (u : Unifier) (s t : Term) :
    e.Mirrors (Progress.Follows e)
      (let (n, m) := (s.args.length, t.args.length)
        let k := min n m
        if k = 0 then return .clash
        else
          let heads := (s.headPart (n - k), t.headPart (m - k))
          let pairs := (s.args.drop (n - k)).zip (t.args.drop (m - k))
          return .simpler { u with equations := pairs.reverse ++ heads :: u.equations })
      (let s := s.renumber e
        let t := t.renumber e
        let (n, m) := (s.args.length, t.args.length)
        let k := min n m
        if k = 0 then return .clash
        else
          let heads := (s.headPart (n - k), t.headPart (m - k))
          let pairs := (s.args.drop (n - k)).zip (t.args.drop (m - k))
          return .simpler { u.renumber e with
            equations := pairs.reverse ++ heads :: (u.renumber e).equations }) := by
  simp only [Term.args_renumber, List.length_map]
  refine .ite Iff.rfl (fun _ => .pure .clash) fun _ => .pure (.of_eq_simpler ?_)
  simp only [renumber, Term.headPart_renumber, ← List.map_drop, List.zip_map, List.map_append,
    List.map_cons, List.map_reverse]
  rfl

theorem mirrors_decompose (u : Unifier) (s t : Term) :
    e.Mirrors (Progress.Follows e) (u.decompose s t)
      ((u.renumber e).decompose (s.renumber e) (t.renumber e)) := by
  have hparts := mirrors_parts (e := e) u s t
  cases s with
  | lambda x s =>
    cases t with
    | lambda y t =>
      refine (Var.mirrors_freshCopy x).bind ?_
      rintro z _ rfl
      refine (Term.mirrors_renameVar x z s).bind ?_
      rintro s _ rfl
      refine (Term.mirrors_renameVar y z t).bind ?_
      rintro t _ rfl
      exact .pure (.simpler _)
    | _ => exact hparts
  | metaApp z ss =>
    cases t with
    | metaApp w ts =>
      rw [Term.renumber_metaApp, Term.renumber_metaApp]
      refine .ite ?_ (fun _ => .pure (.of_eq_simpler ?_)) fun _ => .pure .clash
      · rw [MetaVar.renumber_inj]
      · rw [renumber, List.map_append, List.map_reverse, List.zip_map]
        rfl
    | _ => exact hparts
  | _ => exact hparts

theorem mirrors_step (I : Iteration) (u : Unifier) :
    e.Mirrors (Progress.Follows e) (u.step (I := I.along e)) ((u.renumber e).step (I := I)) := by
  obtain ⟨σ, locals, equations⟩ := u
  cases equations with
  | nil => exact .pure .solved
  | cons p equations =>
    obtain ⟨s, t⟩ := p
    refine (Term.mirrors_subst (σ.renumbered_renumber e) s).bind ?_
    rintro s _ rfl
    refine (Term.mirrors_subst (σ.renumbered_renumber e) t).bind ?_
    rintro t _ rfl
    refine .ite (by simp) (fun _ => .pure .clash) fun _ => ?_
    refine .ite (by rw [Term.alphaEquals_renumber]) (fun _ => .pure (.simpler _)) fun _ => ?_
    rw [Term.flexible?_renumber, Term.flexible?_renumber]
    cases s.flexible? with
    | some r => exact mirrors_bind I ⟨σ, locals, equations⟩ r t
    | none =>
      cases t.flexible? with
      | some r => exact mirrors_bind I ⟨σ, locals, equations⟩ r s
      | none => exact mirrors_decompose ⟨σ, locals, equations⟩ s t

/-! ### Runs -/

variable [e.Increasing]

theorem Progress.Follows.of_increasing {p p' : Progress} (h : Progress.Follows e p p') :
    p.renumber e = p' :=
  h.renumber_eq fun _ _ _ _ _ _ => Renumbering.lt_iff _

theorem mirrors_phase (I : Iteration) {next next' : [Supply] → Unifier → Fresh Verdict}
    (hnext : ∀ u, e.Mirrors (Verdict.renumber e · = ·) (next u) (next' (u.renumber e)))
    (steps : Nat) (u : Unifier) :
    e.Mirrors (Verdict.renumber e · = ·) (phase (I := I.along e) next steps u)
      (phase (I := I) next' steps (u.renumber e)) := by
  induction steps generalizing u with
  | zero => exact .pure rfl
  | succ steps ih =>
    refine (mirrors_step I u).bind fun p p' hp => ?_
    obtain rfl := hp.of_increasing
    cases p with
    | solved => exact .pure rfl
    | clash => exact .pure rfl
    | simpler u => exact ih u
    | bound u => exact hnext u

theorem mirrors_solve (I : Iteration) (bindings : Nat) (u : Unifier) :
    e.Mirrors (Verdict.renumber e · = ·) (solve (I := I.along e) bindings u)
      (solve (I := I) bindings (u.renumber e)) := by
  induction bindings generalizing u with
  | zero =>
    let give : [Supply] → Unifier → Fresh Verdict := fun _ => return .exhausted
    have hgive : ∀ v, e.Mirrors (Verdict.renumber e · = ·) (give v) (give (v.renumber e)) :=
      fun _ => .pure rfl
    have hphase := mirrors_phase I hgive u.weight u
    unfold solve
    rw [weight_renumber]
    exact hphase
  | succ bindings ih =>
    have hphase := mirrors_phase I ih u.weight u
    unfold solve
    rw [weight_renumber]
    exact hphase

end Unifier

theorem Term.size_free_union_renumber (π : Renumbering) (s t : Term) :
    ((s.renumber π).free ∪ (t.renumber π).free).size = (s.free ∪ t.free).size := by
  refine OrderedSet.size_eq_of_injective (Replaceable.renumber_injective π) fun r => ?_
  simp only [OrderedSet.mem_union, mem_free_renumber, or_and_right, exists_or]

theorem Term.mirrors_unify [e.Increasing] (I : Iteration) (s t : Term) :
    e.Mirrors (Option.map (Subst.renumber e) · = ·) (s.unify (I := I.along e) t)
      ((s.renumber e).unify (I := I) (t.renumber e)) := by
  have hsolve := Unifier.mirrors_solve (e := e) I (s.free ∪ t.free).size ⟨∅, [], [(s, t)]⟩
  unfold unify
  rw [size_free_union_renumber]
  refine .congr (map_eq_pure_bind _ _) (map_eq_pure_bind _ _) ?_
  refine hsolve.bind ?_
  rintro v _ rfl
  cases v <;> exact .pure rfl

/-! ## Queries -/

theorem Term.subtermAt_renumber (π : Renumbering) (t : Term) (p : Position) :
    Results (IndexError.renumber π · = ·) (renumber π · = ·) (t.subtermAt p)
      ((t.renumber π).subtermAt p) := by
  unfold subtermAt
  rw [descend?_renumber]
  cases t.descend? p.steps with
  | none => exact .error rfl
  | some s => exact .ok rfl

namespace Query

def renumber (π : Renumbering) : Query → Query
  | matching p o => matching (p.renumber π) (o.renumber π)
  | unify s t => unify (s.renumber π) (t.renumber π)
  | alpha s t => alpha (s.renumber π) (t.renumber π)
  | subst t σ => subst (t.renumber π) (σ.renumber π)
  | positions t => positions (t.renumber π)

end Query

end TermAlgebra
