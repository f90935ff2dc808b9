import TermAlgebra.Proofs.Absorption
import TermAlgebra.Proofs.UnifierSoundness

/-!
# Candidate solutions

What a unifier is compared with: the readings that come from substitutions for solvable variables.
Main statements: under such a reading no value is that of a larger term, equations between terms
that are not solvable amount to equations between their parts, and those between terms of
different form have no solution.
-/

namespace TermAlgebra

namespace Nameless

/-- The form of a nameless term; it is that of any term read as it. -/
def kind : Nameless → Term.Kind
  | literal _ => .literal
  | const _ _ => .constant
  | free _ => .variable
  | bound _ => .variable
  | lambda _ _ => .lambda
  | app _ _ => .app
  | metaApp _ _ => .metaApp

theorem kind_apply (t : Nameless) {args : List Nameless} (h : args ≠ []) :
    (t.apply args).kind = .app := by
  obtain ⟨a, as, rfl⟩ := List.exists_cons_of_ne_nil h
  cases t <;> rfl

end Nameless

/-- What a substitution for solvable variables makes of variables and meta-variables, when what
was drawn before `m` gets images made of what was drawn before `m`. -/
structure Valuation.Candidate (m : Nat) (V : Valuation) : Prop where
  closed : V.Closed
  rigid : V.Rigid
  proper : ∀ r, (V.value r).Proper
  fixed : ∀ r : Replaceable, ¬r.Solvable → V.value r = Valuation.plain.value r
  old : ∀ r q : Replaceable, r.id < m → (V.value r).occurs q → q.id < m
  typed : ∀ {n : Nat} {s t : Term}, Term.Sound n s → Term.Sound n t → s.read V = t.read V →
    s.ty = t.ty

theorem Valuation.proper_plain_value (r : Replaceable) : (Valuation.plain.value r).Proper := by
  intro head h
  cases r <;> cases h

theorem Subst.Sound.candidate {σ : Subst} {m n : Nat} (hσ : σ.Sound n) (hsimple : σ.Simple)
    (hold : ∀ r image, σ.get? r = some image → ∀ q ∈ image.free, q.id < m) :
    (Valuation.plain.comp σ).Candidate m := by
  have hvalue : ∀ r, σ.get? r = none ∧
      (Valuation.plain.comp σ).value r = Valuation.plain.value r ∨
        ∃ image, σ.get? r = some image ∧ image.WellFormed ∧
          (Valuation.plain.comp σ).value r = image.nameless := by
    intro r
    cases e : σ.get? r with
    | none => exact Or.inl ⟨rfl, value_of_none e⟩
    | some image =>
      have hwf := (hσ.image e).2.2.wf
      exact Or.inr ⟨image, rfl, hwf, value_of_some e hwf⟩
  refine ⟨Valuation.closed_comp σ, hsimple.rigid, ?_, ?_, ?_, ?_⟩
  · intro r
    rcases hvalue r with ⟨_, e⟩ | ⟨image, _, hwf, e⟩
    · rw [e]
      exact Valuation.proper_plain_value r
    · rw [e]
      exact Term.nameless_proper hwf
  · intro r hr
    rcases hvalue r with ⟨_, e⟩ | ⟨image, hget, _⟩
    · exact e
    · exact absurd (hsimple r image hget) hr
  · intro r q hr hq
    rcases hvalue r with ⟨_, e⟩ | ⟨image, hget, hwf, e⟩
    · rw [e, Valuation.occurs_plain_value] at hq
      rwa [hq]
    · rw [e, Term.occurs_nameless hwf] at hq
      exact hold r image hget q hq
  · intro k s t hs ht h
    have hσ' := hσ.mono (Nat.le_max_left n k)
    have hs' := hs.mono (Nat.le_max_right n k)
    have ht' := ht.mono (Nat.le_max_right n k)
    have hnameless := (Term.nameless_instance hσ' hs').trans
      (h.trans (Term.nameless_instance hσ' ht').symm)
    rw [← (Term.subst_sound hσ' hs').2, ← (Term.subst_sound hσ' ht').2]
    exact Term.ty_eq_of_nameless hnameless

namespace Term

variable {V : Valuation} {m n : Nat}

theorem proper_read {t : Term} (ht : t.WellFormed) (hV : V.Candidate m) : (t.read V).Proper := by
  intro head h
  cases ht with
  | literal v => cases h
  | const c => cases h
  | var x => exact hV.proper (.var x) head h
  | lambda => cases h
  | @app hd args _ nonempty =>
    have hargs := congrArg Nameless.args h
    rw [read_app, Nameless.args_apply] at hargs
    exact nonempty (List.map_eq_nil_iff.mp (List.append_eq_nil_iff.mp hargs).2)
  | @metaApp z args fits =>
    rcases metaApp_cases fits with ⟨_, rfl⟩ | ⟨hz, _⟩
    · rw [read_metaApp] at h
      exact hV.proper (.metaVar z) head h
    · rw [read_rigid_metaApp hV.rigid hz] at h
      cases h

/-! ## Solvable terms -/

theorem flexible?_eq_some {t : Term} {r : Replaceable} (ht : t.WellFormed)
    (h : t.flexible? = some r) : t = r.toTerm ∧ r.Solvable := by
  cases ht with
  | var x =>
    rw [flexible?, Option.ite_none_left_eq_some] at h
    obtain rfl := Option.some.inj h.2
    exact ⟨rfl, Replaceable.solvable_var.mpr (by simpa using h.1)⟩
  | @metaApp z args fits =>
    cases args with
    | nil =>
      obtain rfl := Option.some.inj h
      exact ⟨rfl, Replaceable.solvable_metaVar.mpr fits.symm⟩
    | cons a as => cases h
  | _ => cases h

theorem binder_of_flexible?_eq_none {x : Var} (h : (var x).flexible? = none) : x.binder := by
  by_contra hx
  simp [flexible?, hx] at h

theorem inputs_of_flexible?_eq_none {z : MetaVar} {args : List Term}
    (h : (metaApp z args).flexible? = none) (fits : args.map ty = z.inputs) : z.inputs ≠ [] := by
  rcases metaApp_cases fits with ⟨_, rfl⟩ | ⟨hz, _⟩
  · cases h
  · exact hz

theorem read_binder (hV : V.Candidate m) {x : Var} (hx : x.binder) :
    (var x).read V = .free x := by
  refine hV.fixed (.var x) fun h => ?_
  rw [Replaceable.solvable_var, hx] at h
  cases h

/-- The value of a solvable variable is not that of a larger term that it comes into. -/
theorem value_ne_of_occurs {t : Term} (ht : t.WellFormed) (hV : V.Candidate m) {r : Replaceable}
    (hr : r ∈ t.free) (hne : t ≠ r.toTerm) : V.value r ≠ t.read V := by
  intro h
  rcases size_value_lt ht hV.rigid hr with e | hlt
  · exact hne e
  · rw [h] at hlt
    exact Nat.lt_irrefl _ hlt

/-! ## Equations between other terms -/

theorem kind_read {t : Term} (ht : t.WellFormed) (hV : V.Candidate m) (h : t.flexible? = none) :
    (t.read V).kind = t.nameless.kind := by
  cases ht with
  | literal v => rfl
  | const c => rfl
  | var x =>
    rw [read_binder hV (binder_of_flexible?_eq_none h)]
    rfl
  | lambda => rfl
  | app _ nonempty =>
    rw [read_app, Nameless.kind_apply _ (by simpa using nonempty)]
    rfl
  | metaApp fits =>
    rw [read_rigid_metaApp hV.rigid (inputs_of_flexible?_eq_none h fits)]
    rfl

/-- Different terms that have no parts in common to compare do not read the same. -/
theorem read_ne_of_no_args {s t : Term} (hs : s.WellFormed) (ht : t.WellFormed)
    (hV : V.Candidate m) (hsflex : s.flexible? = none) (htflex : t.flexible? = none)
    (hargs : s.args = [] ∨ t.args = [])
    (hlambda : ∀ x s' y t', s = lambda x s' → t = lambda y t' → False)
    (hmeta : ∀ z ss w ts, s = metaApp z ss → t = metaApp w ts → False)
    (halpha : s.alphaEquals t = false) : s.read V ≠ t.read V := by
  intro h
  have hne : s.nameless ≠ t.nameless := by
    intro e
    rw [(alphaEquals_iff s t).mpr e] at halpha
    cases halpha
  have hkind : s.nameless.kind = t.nameless.kind := by
    rw [← kind_read hs hV hsflex, h, kind_read ht hV htflex]
  cases hs with
  | literal v =>
    cases t with
    | literal w => exact hne h
    | _ => cases hkind
  | const c =>
    cases t with
    | const d => exact hne h
    | _ => cases hkind
  | var x =>
    cases t with
    | var y =>
      rw [read_binder hV (binder_of_flexible?_eq_none hsflex),
        read_binder hV (binder_of_flexible?_eq_none htflex)] at h
      exact hne h
    | _ => cases hkind
  | lambda =>
    cases t with
    | lambda y t' => exact hlambda _ _ y t' rfl rfl
    | _ => cases hkind
  | app _ nonempty =>
    cases ht with
    | app _ nonempty' => exact hargs.elim nonempty nonempty'
    | _ => cases hkind
  | metaApp =>
    cases t with
    | metaApp w ts => exact hmeta _ _ w ts rfl rfl
    | _ => cases hkind

/-- Lists of terms read the same exactly when their members do one by one. -/
theorem map_read_eq_iff {ss ts : List Term} (hlen : ss.length = ts.length) :
    ss.map (read V) = ts.map (read V) ↔ ∀ e ∈ ss.zip ts, e.1.read V = e.2.read V := by
  induction ss generalizing ts with
  | nil =>
    obtain rfl := List.length_eq_zero_iff.mp hlen.symm
    simp
  | cons s ss ih =>
    cases ts with
    | nil => cases hlen
    | cons t ts =>
      rw [List.map_cons, List.map_cons, List.cons.injEq, ih (Nat.succ.inj hlen)]
      simp

/-- Applications read the same exactly when the same number of last arguments do, and what they
are arguments of. -/
theorem read_eq_iff_of_headPart {s t : Term} (hs : s.WellFormed) (ht : t.WellFormed)
    (hV : V.Candidate m) {i j : Nat} (hlen : (s.args.drop i).length = (t.args.drop j).length) :
    s.read V = t.read V ↔
      (s.headPart i).read V = (t.headPart j).read V ∧
        ∀ e ∈ (s.args.drop i).zip (t.args.drop j), e.1.read V = e.2.read V := by
  rw [← map_read_eq_iff hlen, ← read_headPart s i, ← read_headPart t j]
  constructor
  · intro h
    exact Nameless.apply_injective (proper_read (headPart_wellFormed hs i) hV)
      (proper_read (headPart_wellFormed ht j) hV) (by simpa using hlen) h
  · rintro ⟨hhead, hargs⟩
    rw [hhead, hargs]

theorem read_metaApp_eq_iff (hV : V.Rigid) {z w : MetaVar} {ss ts : List Term}
    (hz : z.inputs ≠ []) (hw : w.inputs ≠ []) (hss : ss.map ty = z.inputs)
    (hts : ts.map ty = w.inputs) :
    (metaApp z ss).read V = (metaApp w ts).read V ↔
      z = w ∧ ∀ e ∈ ss.zip ts, e.1.read V = e.2.read V := by
  rw [read_rigid_metaApp hV hz, read_rigid_metaApp hV hw, Nameless.metaApp.injEq]
  refine and_congr_right fun e => map_read_eq_iff ?_
  have hlen : ss.map ty = ts.map ty := by rw [hss, hts, e]
  simpa using congrArg List.length hlen

/-- The body of an abstraction, opened by a fresh binder. -/
theorem read_renameVar {x z : Var} {body : Term} (hbody : Sound n body) (hz : z.id < n)
    (hzbinder : z.binder) (hty : z.ty = x.ty) (hV : V.Candidate m) :
    ((body.renameVar x z).run n).1.read V =
      (body.read (V.under x)).relabel (Nameless.opening [z]) := by
  have hread := (rename_spec body (Unifier.fits_update hbody hz hty)).read V
  rw [renameVar, hread, read_opening]
  apply read_congr
  · intro v _
    by_cases hvx : v = x
    · simp only [Valuation.rename, Renaming.update, Valuation.update, hvx, if_true]
      exact read_binder hV hzbinder
    · simp [Valuation.rename, Renaming.update, Valuation.update, hvx]
  · exact fun w _ => rfl

end Term

end TermAlgebra
