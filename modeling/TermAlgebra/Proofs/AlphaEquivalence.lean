import Mathlib
import TermAlgebra.Proofs.Absorption

/-!
# Alpha-equivalence is a congruence

Terms are equal up to bound variables exactly when their nameless readings are the same. What is
built from terms, and what a substitution makes of a term, is determined by nameless readings; so
equality up to bound variables is an equivalence that building and substitution keep.
-/

namespace TermAlgebra

/-- The same keys, and images that are equal up to bound variables. -/
structure Subst.Alike (σ τ : Subst) : Prop where
  keys : ∀ r, r ∈ σ.keys ↔ r ∈ τ.keys
  images : ∀ r s t, σ.get? r = some s → τ.get? r = some t → s.alphaEquals t

theorem Subst.Alike.map_nameless {σ τ : Subst} (h : σ.Alike τ) (r : Replaceable) :
    (σ.get? r).map Term.nameless = (τ.get? r).map Term.nameless := by
  have hkeys := h.keys r
  rw [← contains_iff, ← contains_iff, contains, contains] at hkeys
  cases e : σ.get? r with
  | none =>
    cases e' : τ.get? r with
    | none => rfl
    | some t => simp [e, e'] at hkeys
  | some s =>
    cases e' : τ.get? r with
    | none => simp [e, e'] at hkeys
    | some t =>
      exact congrArg some ((Term.alphaEquals_iff s t).mp (h.images r s t e e'))

theorem Subst.alike_of_map_nameless {σ τ : Subst}
    (h : ∀ r, (σ.get? r).map Term.nameless = (τ.get? r).map Term.nameless) : σ.Alike τ := by
  constructor
  · intro r
    rw [← contains_iff, ← contains_iff, contains, contains, ← Option.isSome_map, h r,
      Option.isSome_map]
  · intro r s t hs ht
    have hr := h r
    rw [hs, ht] at hr
    exact (Term.alphaEquals_iff s t).mpr (Option.some.inj hr)

namespace Term

variable {m n m' : Nat} {s t s' : Term}

/-! ## Substitution -/

theorem comp_eq_of_alike {σ τ : Subst} (hσ : σ.WellTyped) (hτ : τ.WellTyped) (h : σ.Alike τ) :
    Valuation.plain.comp σ = Valuation.plain.comp τ := by
  have hread : ∀ {υ : Subst}, υ.WellTyped → ∀ r,
      (υ.get? r).map (read .plain) = (υ.get? r).map nameless := by
    intro υ hυ r
    cases e : υ.get? r with
    | none => rfl
    | some image => exact congrArg some (read_plain (hυ r image e).2)
  simp only [Valuation.comp, hread hσ, hread hτ, h.map_nameless]

theorem subst_alphaEquals {σ τ : Subst} (hσ : σ.Sound m) (hτ : τ.Sound n) (hs : Sound m s)
    (ht : Sound n t) (h : σ.Alike τ) (hst : s.alphaEquals t) :
    ((s.subst σ).run m).1.alphaEquals ((t.subst τ).run n).1 := by
  rw [alphaEquals_iff] at hst ⊢
  rw [nameless_instance hσ hs, nameless_instance hτ ht, readBefore, readBefore,
    comp_eq_of_alike hσ.wellTyped hτ.wellTyped h]
  exact read_congr_nameless hs.wf ht.wf (Valuation.closed_comp τ) hst

/-! ## Building -/

theorem nameless_mkLambda {x : Var} (hs : Sound n s) (hx : x.id < n) (hbinder : x.binder) :
    ((mkLambda x s).run n).1.nameless =
      .lambda x.ty (s.nameless.relabel (Nameless.closing [x])) := by
  have hunder : Valuation.plain.under x = Valuation.plain.unders [x] := rfl
  rw [← read_plain (mkLambda_sound hs hx hbinder).1.wf, mkLambda_read hs.idsBelow hx, hunder,
    read_plain_unders hs.wf, namelessIn_eq hs.wf]

theorem map_read_plain {args : List Term} (h : ∀ a ∈ args, Sound n a) :
    args.map (read .plain) = args.map nameless :=
  List.map_congr_left fun a ha => read_plain (h a ha).wf

theorem nameless_mkApp {args : List Term} {τ : SimpleType} (hs : Sound n s)
    (hargs : ∀ a ∈ args, Sound n a) (hty : s.ty = .arrows (args.map ty) τ) :
    ((mkApp s args).run n).1.nameless = s.nameless.apply (args.map nameless) := by
  rw [← read_plain (mkApp_sound hs hargs hty).1.wf,
    mkApp_read hs.idsBelow fun a ha => (hargs a ha).idsBelow, read_plain hs.wf,
    map_read_plain hargs]

theorem nameless_mkMetaApp {z : MetaVar} {args : List Term} (hz : z.id < n)
    (hargs : ∀ a ∈ args, Sound n a) (fits : args.map ty = z.inputs) :
    ((mkMetaApp z args).run n).1.nameless = .metaApp z (args.map nameless) := by
  rw [← read_plain (mkMetaApp_sound hz hargs fits).1.wf,
    mkMetaApp_read fun a ha => (hargs a ha).idsBelow, map_read_plain hargs]
  rfl

theorem map_eq_of_alphaEquals {ss ts : List Term}
    (h : List.Forall₂ (fun s t => s.alphaEquals t) ss ts) :
    ss.map nameless = ts.map nameless ∧ ss.map ty = ts.map ty := by
  have hnameless : List.Forall₂ (fun s t => s.nameless = t.nameless) ss ts :=
    h.imp fun s t hst => (alphaEquals_iff s t).mp hst
  exact ⟨(Fresh.map_eq_map (hnameless.imp fun _ _ e => e.symm)).symm,
    (Fresh.map_eq_map (hnameless.imp fun _ _ e => (ty_eq_of_nameless e).symm)).symm⟩

theorem checkArguments_of_map_ty {σs : List SimpleType} {args : List Term}
    (h : args.map ty = σs.take args.length) : checkArguments σs args = .ok () := by
  induction args generalizing σs with
  | nil => cases σs <;> rfl
  | cons a as ih =>
    cases σs with
    | nil => simp at h
    | cons σ σs =>
      rw [List.map_cons, List.length_cons, List.take_succ_cons, List.cons.injEq] at h
      rw [checkArguments, if_pos h.1, ih h.2]

theorem attempt_abstract {x : Var} (hbinder : x.binder) (s : Term) (n : Nat) :
    Fresh.attempt (Term.abstract x s) n =
      (.ok ((mkLambda x s).run n).1, ((mkLambda x s).run n).2) := by
  unfold Term.abstract
  rw [if_pos hbinder]
  rfl

theorem attempt_apply {args : List Term} {τ : SimpleType}
    (hty : s.ty = .arrows (args.map ty) τ) (n : Nat) :
    Fresh.attempt (s.apply args) n =
      (.ok ((mkApp s args).run n).1, ((mkApp s args).run n).2) := by
  have hfits := fits_iff.mpr ⟨τ, hty⟩
  have hlen : ¬s.ty.arity < args.length := by
    have hlength := congrArg List.length hfits
    rw [List.length_map, List.length_take] at hlength
    unfold SimpleType.arity
    omega
  unfold Term.apply
  simp only [Fresh.attempt_bind, Fresh.attempt_except, if_neg hlen,
    checkArguments_of_map_ty hfits]
  rfl

theorem attempt_applyMeta {z : MetaVar} {args : List Term} (fits : args.map ty = z.inputs)
    (n : Nat) :
    Fresh.attempt (applyMeta z args) n =
      (.ok ((mkMetaApp z args).run n).1, ((mkMetaApp z args).run n).2) := by
  have hlen : ¬z.arity ≠ args.length := by
    rw [MetaVar.arity, ← fits, List.length_map]
    exact fun h => h rfl
  have htake : args.map ty = z.inputs.take args.length := by
    rw [← List.length_map ty, fits, List.take_length]
  unfold applyMeta
  simp only [Fresh.attempt_bind, Fresh.attempt_except, if_neg hlen,
    checkArguments_of_map_ty htake]
  rfl

theorem abstract_alphaEquals {x : Var} (hs : Sound m s) (ht : Sound n t) (hxm : x.id < m)
    (hxn : x.id < n) (hst : s.alphaEquals t)
    (h : Fresh.attempt (Term.abstract x s) m = (.ok s', m')) :
    ∃ t' n', Fresh.attempt (Term.abstract x t) n = (.ok t', n') ∧ s'.alphaEquals t' := by
  cases hbinder : x.binder with
  | true =>
    rw [attempt_abstract hbinder] at h
    obtain ⟨rfl, rfl⟩ := h
    refine ⟨_, _, attempt_abstract hbinder t n, ?_⟩
    rw [alphaEquals_iff] at hst ⊢
    rw [nameless_mkLambda hs hxm hbinder, nameless_mkLambda ht hxn hbinder, hst]
  | false =>
    unfold Term.abstract at h
    rw [if_neg (by simp [hbinder])] at h
    cases h

theorem apply_alphaEquals {ss ts : List Term} (hs : Sound m s) (ht : Sound n t)
    (hss : ∀ a ∈ ss, Sound m a) (hts : ∀ a ∈ ts, Sound n a) (hst : s.alphaEquals t)
    (hargs : List.Forall₂ (fun s t => s.alphaEquals t) ss ts)
    (h : Fresh.attempt (s.apply ss) m = (.ok s', m')) :
    ∃ t' n', Fresh.attempt (t.apply ts) n = (.ok t', n') ∧ s'.alphaEquals t' := by
  obtain ⟨hrun, τ, hty⟩ := apply_eq_ok h
  obtain ⟨hnameless, htypes⟩ := map_eq_of_alphaEquals hargs
  rw [alphaEquals_iff] at hst
  have hty' : t.ty = .arrows (ts.map ty) τ := by rw [← ty_eq_of_nameless hst, hty, htypes]
  have hresult := nameless_mkApp hs hss hty
  rw [hrun] at hresult
  refine ⟨_, _, attempt_apply hty' n, ?_⟩
  rw [alphaEquals_iff, hresult, nameless_mkApp ht hts hty', hst, hnameless]

theorem applyMeta_alphaEquals {z : MetaVar} {ss ts : List Term} (hzm : z.id < m) (hzn : z.id < n)
    (hss : ∀ a ∈ ss, Sound m a) (hts : ∀ a ∈ ts, Sound n a)
    (hargs : List.Forall₂ (fun s t => s.alphaEquals t) ss ts)
    (h : Fresh.attempt (applyMeta z ss) m = (.ok s', m')) :
    ∃ t' n', Fresh.attempt (applyMeta z ts) n = (.ok t', n') ∧ s'.alphaEquals t' := by
  obtain ⟨hrun, fits⟩ := applyMeta_eq_ok h
  obtain ⟨hnameless, htypes⟩ := map_eq_of_alphaEquals hargs
  have fits' : ts.map ty = z.inputs := by rw [← htypes, fits]
  have hresult := nameless_mkMetaApp hzm hss fits
  rw [hrun] at hresult
  refine ⟨_, _, attempt_applyMeta fits' n, ?_⟩
  rw [alphaEquals_iff, hresult, nameless_mkMetaApp hzn hts fits', hnameless]

/-- An equivalence of terms that building and substitution keep, whatever has been drawn before
either of two runs. -/
structure Congruence (R : Term → Term → Prop) : Prop where
  equivalence : Equivalence R
  abstract : ∀ {m n m' : Nat} {x : Var} {s t s' : Term}, Sound m s → Sound n t → x.id < m →
    x.id < n → R s t → Fresh.attempt (Term.abstract x s) m = (.ok s', m') →
      ∃ t' n', Fresh.attempt (Term.abstract x t) n = (.ok t', n') ∧ R s' t'
  apply : ∀ {m n m' : Nat} {s t s' : Term} {ss ts : List Term}, Sound m s → Sound n t →
    (∀ a ∈ ss, Sound m a) → (∀ a ∈ ts, Sound n a) → R s t → List.Forall₂ R ss ts →
      Fresh.attempt (s.apply ss) m = (.ok s', m') →
        ∃ t' n', Fresh.attempt (t.apply ts) n = (.ok t', n') ∧ R s' t'
  applyMeta : ∀ {m n m' : Nat} {z : MetaVar} {s' : Term} {ss ts : List Term}, z.id < m →
    z.id < n → (∀ a ∈ ss, Sound m a) → (∀ a ∈ ts, Sound n a) → List.Forall₂ R ss ts →
      Fresh.attempt (Term.applyMeta z ss) m = (.ok s', m') →
        ∃ t' n', Fresh.attempt (Term.applyMeta z ts) n = (.ok t', n') ∧ R s' t'
  subst : ∀ {m n : Nat} {σ τ : Subst} {s t : Term}, σ.Sound m → τ.Sound n → Sound m s →
    Sound n t → (∀ r, r ∈ σ.keys ↔ r ∈ τ.keys) →
      (∀ r s t, σ.get? r = some s → τ.get? r = some t → R s t) → R s t →
        R ((s.subst σ).run m).1 ((t.subst τ).run n).1

/-- Equality up to bound variables is equality of nameless readings; it is an equivalence, and
what is built from equal terms and by equal substitutions is equal. -/
theorem alphaEquals_congruence :
    (∀ s t : Term, s.alphaEquals t ↔ s.nameless = t.nameless) ∧
      Congruence fun s t => s.alphaEquals t := by
  refine ⟨alphaEquals_iff, ?_, abstract_alphaEquals, apply_alphaEquals, applyMeta_alphaEquals, ?_⟩
  · refine ⟨fun s => (alphaEquals_iff s s).mpr rfl, fun {s t} h => ?_, fun {s t u} h h' => ?_⟩
    · exact (alphaEquals_iff t s).mpr ((alphaEquals_iff s t).mp h).symm
    · exact (alphaEquals_iff s u).mpr
        (((alphaEquals_iff s t).mp h).trans ((alphaEquals_iff t u).mp h'))
  · exact fun hσ hτ hs ht hkeys himages hst =>
      subst_alphaEquals hσ hτ hs ht ⟨hkeys, himages⟩ hst

/-- The free `u` that replaces `X` would be captured in `λu.X` and not in `λw.X`. -/
theorem alphaEquals_congruence_capture :
    let o := SimpleType.base "o"
    let u : Var := ⟨0, "u", o, true⟩
    let w : Var := ⟨1, "w", o, true⟩
    let x : Var := ⟨2, "X", o, false⟩
    let σ := Subst.set ∅ (.var x) (var u)
    (((lambda u (var x)).subst σ).run 3).1.bound ≠ (((lambda w (var x)).subst σ).run 3).1.bound ∧
      (((lambda u (var x)).subst σ).run 3).1.alphaEquals
        (((lambda w (var x)).subst σ).run 3).1 := by
  intro o u w x σ
  have hsound : ∀ v : Var, v.binder → v.id < 3 → Sound 3 (lambda v (var x)) := fun v hbinder hv =>
    ⟨idsBelow_lambda_of hv (idsBelow_var.mpr (by decide)), .lambda hbinder (by simp) (.var x)⟩
  have hσ : σ.Sound 3 := (Subst.sound_empty 3).set (by decide) (by cbv)
    ⟨idsBelow_var.mpr (by decide), .var u⟩
  have himages : ∀ r s t, σ.get? r = some s → σ.get? r = some t → s.alphaEquals t := by
    intro r s t hs ht
    rw [Option.some.inj (hs.symm.trans ht)]
    exact alphaEquals_congruence.2.equivalence.refl t
  have hequal : (lambda u (var x)).alphaEquals (lambda w (var x)) := by cbv
  refine ⟨?_, alphaEquals_congruence.2.subst hσ hσ (hsound u rfl (by decide))
    (hsound w rfl (by decide)) (fun r => Iff.rfl) himages hequal⟩
  have hu : (((lambda u (var x)).subst σ).run 3).1.bound = .singleton { u with id := 3 } := by cbv
  have hw : (((lambda w (var x)).subst σ).run 3).1.bound = .singleton w := by cbv
  rw [hu, hw]
  exact fun h => absurd (congrArg OrderedSet.toList h) (by decide)

end Term

end TermAlgebra
