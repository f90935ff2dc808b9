import TermAlgebra.Proofs.MostGeneralUnifier
import TermAlgebra.Proofs.ScopedQueries

/-!
# Unification ends

The solver iterates a step as long as there are equations. Every iteration binds a variable, or
binds none and leaves equations that are smaller under the substitution. Main statement: the
iterations come to an end, whatever identifiers they draw and in whatever order images are updated,
and the bounds of `solve` are high enough.
-/

namespace TermAlgebra

/-! ## Runs on another supply from some point on -/

namespace Relocation

variable [Supply] {n : Nat}

/-- What has been drawn before `n` stays, and the supply goes on with `n`. -/
def resumed (n : Nat) : Relocation := @continuation .identity _ n n fun _ hi => hi

instance : (resumed n).Increasing := increasing_continuation

theorem resumed_start : (resumed n).toFun n = n := continuation_start

theorem resumed_agrees : Renumbering.AgreeBelow n (resumed n) .identity :=
  fun _ hi => continuation_of_lt hi

theorem renumber_resumed {t : Term} (ht : t.IdsBelow n) : t.renumber (resumed n) = t :=
  (t.renumber_congr resumed_agrees ht).trans t.renumber_identity

end Relocation

namespace Unifier

/-- An iteration after which the solver goes on; a state has the identifier to be drawn next. -/
inductive Iterates [Supply] [I : Iteration] : Unifier × Nat → Unifier × Nat → Prop
  | simpler {u u' : Unifier} {n n' : Nat} (h : u.step.run n = (.simpler u', n')) :
      Iterates (u, n) (u', n')
  | bound {u u' : Unifier} {n n' : Nat} (h : u.step.run n = (.bound u', n')) :
      Iterates (u, n) (u', n')

/-- The solver comes to a verdict, without any bound on its iterations. -/
inductive Ends [Supply] [I : Iteration] : Unifier × Nat → Verdict × Nat → Prop
  | solved {u : Unifier} {n n' : Nat} (h : u.step.run n = (.solved, n')) :
      Ends (u, n) (.unifier u.subst, n')
  | clash {u : Unifier} {n n' : Nat} (h : u.step.run n = (.clash, n')) : Ends (u, n) (.clash, n')
  | next {a b : Unifier × Nat} {r : Verdict × Nat} (h : Iterates a b) (rest : Ends b r) : Ends a r

/-! ## Less to do -/

section Measure

variable {F : OrderedSet Replaceable} {m : Nat} {a b : Unifier × Nat}

/-- What is left to do: the variables to bind, and then the equations under the substitution. -/
def remaining (F : OrderedSet Replaceable) (u : Unifier) : Nat ×ₗ Nat :=
  toLex (unbound F u.subst, load u)

/-- A state of the solver on a problem over `F` whose variables were drawn before `m`. -/
def Valid (F : OrderedSet Replaceable) (m : Nat) (a : Unifier × Nat) : Prop :=
  m ≤ a.2 ∧ Invariant F m a.2 a.1

theorem valid_problem {s t : Term} {n : Nat} (hs : Term.Sound n s) (ht : Term.Sound n t) :
    Valid (s.free ∪ t.free) n (problem s t, n) :=
  ⟨Nat.le_refl n, Term.invariant_problem hs ht⟩

theorem Iterates.keeps [I : Iteration] (hF : ∀ r ∈ F, r.id < m) (h : Iterates a b)
    (ha : Valid F m a) :
    Valid F m b ∧ remaining F b.1 < remaining F a.1 := by
  obtain ⟨hm, hinv⟩ := ha
  cases h with
  | simpler h =>
    have hle := increasing_step _ _ |>.trans_eq (congrArg Prod.snd h)
    have hstep := step_correct hF hm hinv
    rw [h] at hstep
    obtain ⟨hinv', hsubst, hload, _⟩ := hstep
    refine ⟨⟨hm.trans hle, hinv'⟩, Prod.Lex.toLex_lt_toLex.mpr (.inr ⟨?_, hload⟩)⟩
    rw [hsubst]
  | bound h =>
    have hle := increasing_step _ _ |>.trans_eq (congrArg Prod.snd h)
    have hstep := step_correct hF hm hinv
    rw [h] at hstep
    obtain ⟨hinv', hunbound, _⟩ := hstep
    exact ⟨⟨hm.trans hle, hinv'⟩, Prod.Lex.toLex_lt_toLex.mpr (.inl hunbound)⟩

end Measure

/-! ## Other supplies -/

section Supplies

variable {e : Relocation} [e.Increasing] {I : Iteration} {F : OrderedSet Replaceable} {m : Nat}

/-- The state with other identifiers. -/
def relocate (e : Relocation) (a : Unifier × Nat) : Unifier × Nat :=
  (a.1.renumber e, e.toFun a.2)

/-- What another supply makes of an iteration comes from what consecutive identifiers make of it. -/
theorem Iterates.of_relocate {a b' : Unifier × Nat} (ha : e.start ≤ a.2)
    (h : @Iterates e.supply I (relocate e a) b') :
    ∃ b, Iterates (I := I.along e) a b ∧ e.start ≤ b.2 ∧ b' = relocate e b := by
  obtain ⟨u, n⟩ := a
  have hmirror := mirrors_step (e := e) I u n ha
  rcases hrun : (u.step (I := I.along e)).run n with ⟨p, k⟩
  rw [hrun] at hmirror
  obtain ⟨hfollows, hk, hnext⟩ := hmirror
  have hp := hfollows.of_increasing
  cases h with
  | simpler h =>
    rw [h] at hp hnext
    cases p with
    | simpler u' =>
      obtain rfl := Progress.simpler.inj hp
      exact ⟨(u', k), .simpler (I := I.along e) hrun, hk, Prod.ext rfl hnext⟩
    | _ => cases hp
  | bound h =>
    rw [h] at hp hnext
    cases p with
    | bound u' =>
      obtain rfl := Progress.bound.inj hp
      exact ⟨(u', k), .bound (I := I.along e) hrun, hk, Prod.ext rfl hnext⟩
    | _ => cases hp

/-- No run of iterations goes on for ever. -/
theorem acc_relocate (hF : ∀ r ∈ F, r.id < m) {a : Unifier × Nat} (hstart : e.start ≤ a.2)
    (ha : Valid F m a) : Acc (fun c b => @Iterates e.supply I b c) (relocate e a) := by
  induction hrest : remaining F a.1 using WellFoundedLT.induction generalizing a with
  | _ rest ih =>
    subst hrest
    refine .intro _ fun b' h => ?_
    obtain ⟨b, hb, hstart', rfl⟩ := h.of_relocate hstart
    obtain ⟨hvalid, hless⟩ := hb.keeps (I := I.along e) hF ha
    exact ih _ hless hstart' hvalid rfl

end Supplies

/-! ## Bounded runs -/

section Bounded

variable [Supply] [Iteration] {u : Unifier} {n k : Nat} {v : Verdict}

/-- A run that does not meet its bound is one of the unbounded loop. -/
theorem ends_of_phase {next : Unifier → Fresh Verdict} {steps : Nat}
    (hnext : ∀ {u n v k}, (next u).run n = (v, k) → v ≠ .exhausted → Ends (u, n) (v, k))
    (h : (phase next steps u).run n = (v, k)) (hv : v ≠ .exhausted) : Ends (u, n) (v, k) := by
  induction steps generalizing u n with
  | zero =>
    obtain ⟨rfl, rfl⟩ := Prod.mk.inj h
    exact absurd rfl hv
  | succ steps ih =>
    rw [phase, Fresh.run_bind] at h
    rcases hstep : u.step.run n with ⟨_ | _ | u' | u', n'⟩
    · rw [hstep] at h
      obtain ⟨rfl, rfl⟩ := Prod.mk.inj h
      exact .solved hstep
    · rw [hstep] at h
      obtain ⟨rfl, rfl⟩ := Prod.mk.inj h
      exact .clash hstep
    · rw [hstep] at h
      exact .next (.simpler hstep) (ih h)
    · rw [hstep] at h
      exact .next (.bound hstep) (hnext h hv)

theorem ends_of_solve {bindings : Nat} (h : (solve bindings u).run n = (v, k))
    (hv : v ≠ .exhausted) : Ends (u, n) (v, k) := by
  induction bindings generalizing u n v k with
  | zero =>
    refine ends_of_phase (fun h hv => ?_) h hv
    obtain ⟨rfl, rfl⟩ := Prod.mk.inj h
    exact absurd rfl hv
  | succ bindings ih => exact ends_of_phase ih h hv

end Bounded

end Unifier

namespace Term

open Unifier

variable {s t : Term} {n : Nat}

theorem relocate_problem [Supply] (hs : Sound n s) (ht : Sound n t) :
    relocate (.resumed n) (problem s t, n) = (problem s t, n) := by
  have hequations : renumberEquation (Relocation.resumed n).toRenumbering (s, t) = (s, t) :=
    Prod.ext (Relocation.renumber_resumed hs.idsBelow) (Relocation.renumber_resumed ht.idsBelow)
  refine Prod.ext ?_ Relocation.resumed_start
  exact congrArg (fun e => (⟨∅, [], [e]⟩ : Unifier)) hequations

/-- The bounds of the solver are high enough. -/
theorem solve_problem_ne_exhausted [Supply] [I : Iteration] (hs : Sound n s) (ht : Sound n t) :
    ((solve (s.free ∪ t.free).size (problem s t)).run n).1 ≠ .exhausted := by
  have hrun := solve_problem_correct (I := I.along (Relocation.resumed n)) hs ht
  have hmirror := (mirrors_solve (e := .resumed n) I (s.free ∪ t.free).size (problem s t) n
    (Nat.le_refl n)).1
  obtain ⟨hproblem, hstart⟩ := Prod.mk.inj (relocate_problem hs ht)
  rw [hproblem, hstart] at hmirror
  intro hexhausted
  have hrenumber := hmirror.trans hexhausted
  revert hrun hrenumber
  dsimp only
  cases ((@solve .consecutive (I.along (Relocation.resumed n)) (s.free ∪ t.free).size
    (problem s t)).run n).1 with
  | exhausted => exact fun h _ => h
  | _ => exact fun _ h => nomatch h

/-- No run of the solver goes on for ever, and its bounded form comes to the verdict of the
unbounded loop. -/
theorem unify_terminates [Supply] [I : Iteration] (hs : Sound n s) (ht : Sound n t) :
    Acc (fun b a => Iterates a b) (problem s t, n) ∧
      ∃ v k, Ends (problem s t, n) (v, k) ∧
        (solve (s.free ∪ t.free).size (problem s t)).run n = (v, k) ∧
          (s.unify t).run n = (v.subst?, k) := by
  constructor
  · have hstart : (Relocation.resumed n).start ≤ n := Nat.le_refl n
    have hacc := acc_relocate (I := I) (id_lt_of_mem_free_union hs ht) hstart (valid_problem hs ht)
    rwa [relocate_problem hs ht] at hacc
  · rcases hrun : (solve (s.free ∪ t.free).size (problem s t)).run n with ⟨v, k⟩
    have hv : v ≠ .exhausted := by
      have hne := solve_problem_ne_exhausted hs ht
      rwa [hrun] at hne
    refine ⟨v, k, ends_of_solve hrun hv, rfl, ?_⟩
    change ((solve _ (problem s t)).run n).map Verdict.subst? id = _
    rw [hrun]
    rfl

/-- `λu.X(Z[f(u, Y)])` and `λw.f(b, Z[f(w, V)])` are opened and taken apart, also where every second
identifier that is drawn is somebody else's. -/
theorem unify_terminates_opened :
    let o := SimpleType.base "o"
    let x : Var := ⟨0, "X", .arrow o o, false⟩
    let y : Var := ⟨1, "Y", o, false⟩
    let v : Var := ⟨2, "V", o, false⟩
    let z : MetaVar := ⟨3, "Z", [o], o⟩
    let u : Var := ⟨4, "u", o, true⟩
    let w : Var := ⟨5, "w", o, true⟩
    let f := const ⟨"f", .arrow o (.arrow o o), false, none⟩
    let b := const ⟨"b", o, false, none⟩
    let s := lambda u (app (var x) [metaApp z [app f [var u, var y]]])
    let t := lambda w (app f [b, metaApp z [app f [var w, var v]]])
    let σ := (Subst.set ∅ (.var x) (app f [b])).set (.var y) (var v)
    let everySecond : Supply := ⟨(· + 2), fun _ => Nat.lt_add_of_pos_right Nat.zero_lt_two⟩
    Acc (fun b a => @Iterates everySecond .byKey a b) (problem s t, 6) ∧
      @Ends everySecond .byKey (problem s t, 6) (.unifier σ, 8) := by
  intro o x y v z u w f b s t σ everySecond
  have hu : Sound 6 (metaApp z [app f [var u, var y]]) := by
    have harg : Sound 6 (app f [var u, var y]) :=
      sound_app (by simp [sound_const, sound_var, f, u, y]) rfl (by simp) (by cbv) (by cbv)
    exact sound_metaApp (by decide) (by simpa using harg) (by cbv) (by cbv)
  have hw : Sound 6 (metaApp z [app f [var w, var v]]) := by
    have harg : Sound 6 (app f [var w, var v]) :=
      sound_app (by simp [sound_const, sound_var, f, w, v]) rfl (by simp) (by cbv) (by cbv)
    exact sound_metaApp (by decide) (by simpa using harg) (by cbv) (by cbv)
  have hs : Sound 6 s := by
    refine sound_lambda (by decide) rfl (by cbv) (sound_app ?_ rfl (by simp) (by cbv) (by cbv))
    simp [hu, sound_var, x]
  have ht : Sound 6 t := by
    refine sound_lambda (by decide) rfl (by cbv) (sound_app ?_ rfl (by simp) (by cbv) (by cbv))
    simp [hw, sound_const, f, b]
  have hrun : (@solve everySecond .byKey (s.free ∪ t.free).size (problem s t)).run 6 =
      (.unifier σ, 8) := by
    dsimp +zetaDelta only
    cbv
  obtain ⟨hacc, v, k, hends, hsolve, _⟩ := @unify_terminates s t 6 everySecond .byKey hs ht
  obtain ⟨rfl, rfl⟩ := Prod.mk.inj (hsolve.symm.trans hrun)
  exact ⟨hacc, hends⟩

end Term

end TermAlgebra
