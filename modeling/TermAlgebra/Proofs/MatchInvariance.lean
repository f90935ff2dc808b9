import TermAlgebra.Proofs.MatchesInStep

/-!
# Matching and the choice of bound names

Main statement: `matchTerm_alike`, matches of terms that differ in bound names only have results of
one kind, and find alike substitutions, as long as no binder is free in the pattern and bound in an
object, and no free binder of an object hides a bound one from a meta-variable.
-/

namespace TermAlgebra

namespace Matcher

open Term Nameless

variable {es : List (Var × Var)}

/-! ## Objects that hide nothing -/

theorem Meets.free_of_part {pattern object part : Term} {es' : List (Var × Var)} {z : MetaVar}
    {args : List Term} (h : Meets es pattern object es' z args part) {v : Var}
    (hv : .var v ∈ part.free) (hout : v ∉ es'.map Prod.snd) :
    .var v ∈ object.free ∧ v ∉ es.map Prod.snd := by
  induction h with
  | here => exact ⟨hv, hout⟩
  | body _ ih =>
    obtain ⟨hfree, hnot⟩ := ih hv hout
    rw [List.map_cons, List.mem_cons, not_or] at hnot
    exact ⟨free_of_body hfree (by simpa using hnot.1), hnot.2⟩
  | head _ ih =>
    obtain ⟨hfree, hnot⟩ := ih hv hout
    exact ⟨headPart_free hfree, hnot⟩
  | arg _ ho _ ih =>
    obtain ⟨hfree, hnot⟩ := ih hv hout
    exact ⟨mem_free_head_args.mpr (Or.inr ⟨_, ho, hfree⟩), hnot⟩

theorem Meets.bound_of_scope {pattern object part : Term} {es' : List (Var × Var)} {z : MetaVar}
    {args : List Term} (h : Meets es pattern object es' z args part) {y : Var}
    (hy : y ∈ es'.map Prod.snd) : y ∈ object.bound ∨ y ∈ es.map Prod.snd := by
  induction h with
  | here => exact Or.inr hy
  | body _ ih =>
    rcases ih hy with hbound | hin
    · exact Or.inl (by simp [hbound])
    · rcases List.mem_cons.mp hin with rfl | hin
      · exact Or.inl (by simp)
      · exact Or.inr hin
  | head _ ih => exact (ih hy).imp_left headPart_bound
  | arg _ ho _ ih =>
    exact (ih hy).imp_left fun hbound => mem_bound_head_args.mpr (Or.inr ⟨_, ho, hbound⟩)

/-- Free binders that are younger than what the object binds hide nothing. -/
theorem unhidden_of_younger {object : Term} (pattern : Term)
    (h : ∀ v, .var v ∈ object.free → v.binder → ∀ y ∈ object.bound, y.id < v.id) :
    Unhidden [] pattern object := by
  intro es' z args part hmeets ⟨y, hy, hdangles⟩ v hv hout
  have hfree := (hmeets.free_of_part hv.1 hout).1
  have hbound := (hmeets.bound_of_scope hy).resolve_right (by simp)
  exact ⟨y, hy, hdangles, h v hfree hv.2.1 y hbound⟩

end Matcher

namespace Term

variable {pattern pattern' object object' : Term} {m n : Nat}

/-- Results of one kind, with substitutions that are alike after success. -/
inductive SameResult : Except PatternRequired (MatchOutcome Subst) →
    Except PatternRequired (MatchOutcome Subst) → Prop where
  | success {σ τ : Subst} : σ.Alike τ → SameResult (.ok (.success σ)) (.ok (.success τ))
  | failure (e e' : Mismatch) : SameResult (.ok (.failure e)) (.ok (.failure e'))
  | patternRequired (e e' : PatternRequired) : SameResult (.error e) (.error e')

theorem alike_of_agree {B C : OrderedSet Var} {σ τ : Subst} (h : Matcher.Agree B C [] [] σ τ) :
    σ.Alike τ := by
  refine Subst.alike_of_map_nameless fun r => ?_
  cases hr : r.binder? with
  | none => exact h.images r hr
  | some x =>
    cases r with
    | metaVar z => cases hr
    | var v =>
      have hv : v.binder := by
        by_contra hplain
        simp [Replaceable.binder?, hplain] at hr
      rw [h.left.get?_of_not_mem (by simp) hv, h.right.get?_of_not_mem (by simp) hv]

theorem placed_of_sound (hpattern : Sound n pattern) (hp : pattern.isPattern)
    (hobject : Sound n object) (hapart : ∀ x, .var x ∈ pattern.free → x.binder → x ∉ object.bound)
    (hunhidden : Matcher.Unhidden [] pattern object) :
    Matcher.Placed n object.bound [] pattern object where
  patternSound := hpattern
  isPattern := hp
  objectSound := hobject
  binders := by simp
  nodup := .nil
  bound y hy := ⟨hy, by simp⟩
  free y hy _ := hobject.wf.isApart y hy
  apart x hx hbinder _ := hapart x hx hbinder
  unhidden := hunhidden

/-- The result of matching when the matcher has run. -/
def ofOutcome : Except MatchError Unit × Subst → Except PatternRequired (MatchOutcome Subst)
  | (.ok (), σ) => .ok (.success σ)
  | (.error (.mismatch e), _) => .ok (.failure e)
  | (.error (.pattern e), _) => .error e

theorem run_matchTerm (hp : pattern.isPattern) (object : Term) (n : Nat) :
    ((pattern.matchTerm object).run n).1 =
      ofOutcome (Matcher.exec (Matcher.term ∅ pattern object) ∅ n).1 := by
  have hnone : pattern.nonPattern? = none := by simpa [isPattern] using hp
  unfold matchTerm matchWith Matcher.exec
  rw [hnone, Fresh.run_bind]
  dsimp only
  rw [Fresh.run_bind]
  rcases ((Matcher.term ∅ pattern object).run.run ∅).run n with ⟨⟨(e | e) | _, σ⟩, k⟩ <;> rfl

theorem run_matchTerm_of_not (hp : ¬pattern.isPattern) (object : Term) (n : Nat) :
    ∃ e, ((pattern.matchTerm object).run n).1 = .error e := by
  cases h : pattern.nonPattern? with
  | none => simp [isPattern, h] at hp
  | some t =>
    refine ⟨⟨t, .arguments⟩, ?_⟩
    unfold matchTerm matchWith
    rw [h]
    rfl

theorem sameResult_of_alike {B C : OrderedSet Var} {a b : Except MatchError Unit × Subst}
    (h : Matcher.Alike (Matcher.Agree B C [] []) a b) :
    SameResult (ofOutcome a) (ofOutcome b) := by
  cases h with
  | ok h => exact .success (alike_of_agree h)
  | mismatch e e' _ _ => exact .failure e e'
  | pattern e e' _ _ => exact .patternRequired e e'

/-- Matching does not see the choice of bound names, unless a binder is free in the pattern and
bound in an object, or a free binder of an object hides a bound one where a meta-variable is met:
terms that are equal up to bound variables give results of one kind, and alike substitutions. -/
theorem matchTerm_alike (hpattern : Sound m pattern) (hobject : Sound m object)
    (hpattern' : Sound n pattern') (hobject' : Sound n object')
    (hpatterns : pattern.alphaEquals pattern') (hobjects : object.alphaEquals object')
    (hapart : ∀ x, .var x ∈ pattern.free → x.binder → x ∉ object.bound ∧ x ∉ object'.bound)
    (hunhidden : Matcher.Unhidden [] pattern object)
    (hunhidden' : Matcher.Unhidden [] pattern' object') :
    SameResult ((pattern.matchTerm object).run m).1 ((pattern'.matchTerm object').run n).1 := by
  have hread : pattern.nameless = pattern'.nameless := (alphaEquals_iff _ _).mp hpatterns
  have hpp : Twins [] [] pattern pattern' := ⟨rfl, hread⟩
  have hoo : Twins [] [] object object' := ⟨rfl, (alphaEquals_iff _ _).mp hobjects⟩
  have hiff : pattern.isPattern ↔ pattern'.isPattern :=
    ⟨hpp.isPattern hpattern.wf hpattern'.wf (by simp),
      hpp.symm.isPattern hpattern'.wf hpattern.wf (by simp)⟩
  by_cases hp : pattern.isPattern
  · have hapart' : ∀ x, .var x ∈ pattern'.free → x.binder → x ∉ object'.bound := by
      intro x hx hbinder
      rw [← mentions_nameless hpattern'.wf, ← hread, mentions_nameless hpattern.wf] at hx
      exact (hapart x hx hbinder).2
    have hplaced := placed_of_sound hpattern hp hobject
      (fun x hx hbinder => (hapart x hx hbinder).1) hunhidden
    have hplaced' := placed_of_sound hpattern' (hiff.mp hp) hobject' hapart' hunhidden'
    have hnothing : Matcher.Agree object.bound object'.bound [] [] ∅ ∅ :=
      ⟨Matcher.tracks_empty _, Matcher.tracks_empty _, fun _ _ => rfl⟩
    have halike := Matcher.unnamed_term pattern ⟨hplaced, hplaced', hpp, hoo⟩ ∅ ∅ m n
      (Nat.le_refl m) (Nat.le_refl n) (Subst.sound_empty m) (Subst.sound_empty n) hnothing
    rw [run_matchTerm hp, run_matchTerm (hiff.mp hp)]
    exact sameResult_of_alike halike
  · obtain ⟨e, he⟩ := run_matchTerm_of_not hp object m
    obtain ⟨e', he'⟩ := run_matchTerm_of_not (mt hiff.mpr hp) object' n
    rw [he, he']
    exact .patternRequired e e'

/-- `λw.Z[w]` against `λy.f y`, and `λy.Z[y]` against `λu.f u`. -/
theorem matchTerm_alike_applied :
    let o := SimpleType.base "o"
    let z : MetaVar := ⟨0, "Z", [o], o⟩
    let f : Var := ⟨1, "f", .arrow o o, false⟩
    let y : Var := ⟨2, "y", o, true⟩
    let w : Var := ⟨3, "w", o, true⟩
    let u : Var := ⟨4, "u", o, true⟩
    let pattern := fun v => lambda v (metaApp z [var v])
    let object := fun v => lambda v (app (var f) [var v])
    let γ := fun v => Subst.set ∅ (.metaVar z) (object v)
    (((pattern w).matchTerm (object y)).run 5).1 = .ok (.success (γ y)) ∧
      (((pattern y).matchTerm (object u)).run 5).1 = .ok (.success (γ u)) ∧
      (γ y).Alike (γ u) := by
  intro o z f y w u pattern object γ
  have hpattern : ∀ v : Var, v.ty = o → v.binder → v.id < 5 → Sound 5 (pattern v) :=
    fun v hty hv hid => sound_lambda_metaApp (Or.inr rfl)
      (by rw [List.map_singleton, ty, hty]) hv hid (by decide)
  have hobject : ∀ v : Var, v.ty = o → v.binder → v.id < 5 → Sound 5 (object v) :=
    fun v hty hv hid => sound_lambda_app (by rw [hty]) hv (by decide) hid
  have hapart : ∀ x, .var x ∈ (pattern w).free → x.binder → x ∉ (object y).bound ∧
      x ∉ (object u).bound := by
    have hfree : (pattern w).free = .singleton (.metaVar z) := by cbv
    intro x hx
    rw [hfree, OrderedSet.mem_singleton] at hx
    cases hx
  have hunhidden : ∀ v p, (object v).free = .singleton (.var f) →
      Matcher.Unhidden [] p (object v) := by
    refine fun v p hfree => Matcher.unhidden_of_younger p fun x hx hbinder => ?_
    rw [hfree, OrderedSet.mem_singleton] at hx
    rw [Replaceable.var.inj hx] at hbinder
    cases hbinder
  have hrun : (((pattern w).matchTerm (object y)).run 5).1 = .ok (.success (γ y)) := by cbv
  have hrun' : (((pattern y).matchTerm (object u)).run 5).1 = .ok (.success (γ u)) := by cbv
  have hsame := matchTerm_alike (hpattern w rfl rfl (by decide)) (hobject y rfl rfl (by decide))
    (hpattern y rfl rfl (by decide)) (hobject u rfl rfl (by decide)) (by cbv) (by cbv) hapart
    (hunhidden y _ (by cbv)) (hunhidden u _ (by cbv))
  rw [hrun, hrun'] at hsame
  cases hsame with
  | success h => exact ⟨hrun, hrun', h⟩

/-- The free binder `f` hides the `y` of `λy.f y` from `λw.Z`, but not the older `u` of `λu.f u`. -/
theorem not_sameResult_of_hidden :
    let o := SimpleType.base "o"
    let z : MetaVar := ⟨0, "Z", [], o⟩
    let u : Var := ⟨1, "u", o, true⟩
    let f : Var := ⟨2, "f", .arrow o o, true⟩
    let y : Var := ⟨3, "y", o, true⟩
    let w : Var := ⟨4, "w", o, true⟩
    let pattern := lambda w (metaApp z [])
    let object := fun v => lambda v (app (var f) [var v])
    Sound 5 pattern ∧ Sound 5 (object y) ∧ Sound 5 (object u) ∧
      (object y).alphaEquals (object u) ∧
      ¬SameResult ((pattern.matchTerm (object y)).run 5).1
        ((pattern.matchTerm (object u)).run 5).1 := by
  intro o z u f y w pattern object
  have hrun : ((pattern.matchTerm (object y)).run 5).1 =
      .ok (.success (Subst.set ∅ (.metaVar z) (app (var f) [var y]))) := by cbv
  have hrun' : ((pattern.matchTerm (object u)).run 5).1 =
      .ok (.failure (.dangling u (app (var f) [var u]) z)) := by cbv
  refine ⟨?_, ?_, ?_, by cbv, ?_⟩
  · exact sound_lambda_metaApp (Or.inl rfl) rfl rfl (by decide) (by decide)
  · exact sound_lambda_app rfl rfl (by decide) (by decide)
  · exact sound_lambda_app rfl rfl (by decide) (by decide)
  · rw [hrun, hrun']
    intro h
    cases h

-- a binder that is free in the pattern matches itself where the object binds it
example :
    let o := SimpleType.base "o"
    let w : Var := ⟨0, "w", o, true⟩
    let x : Var := ⟨1, "x", o, true⟩
    let y : Var := ⟨2, "y", o, true⟩
    let pattern := lambda w (var x)
    ((pattern.matchTerm (lambda x (var x))).run 3).1 = .ok (.success ∅) ∧
      ((pattern.matchTerm (lambda y (var y))).run 3).1 =
        .ok (.failure (.unboundBinder x (var y))) := by
  cbv

end Term

end TermAlgebra
