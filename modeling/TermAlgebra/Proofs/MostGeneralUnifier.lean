import TermAlgebra.Proofs.UnifierSteps

/-!
# Most general unifiers

A run of the unifier ends with a substitution that is absorbed by exactly the solutions of the
problem, or finds that there is no solution. Main statements: `unify_alphaEquals`, a unifier makes
the terms equal up to bound variables, and `unify_mostGeneral`, every solution comes from it.
-/

namespace TermAlgebra

namespace Unifier

variable {F : OrderedSet Replaceable} {m n : Nat} {u : Unifier}

/-! ## Runs -/

/-- What a run from `u` has to come to. -/
def Verdict.Correct (F : OrderedSet Replaceable) (m n : Nat) (u : Unifier) : Verdict → Prop
  | unifier σ => σ.Sound n ∧ σ.Solved F ∧
      ∀ V : Valuation, V.Candidate m → (Solution V u ↔ V.Absorbs σ)
  | clash => ∀ V : Valuation, V.Candidate m → ¬Solution V u
  | exhausted => False

theorem Verdict.Correct.congr {u' : Unifier} {v : Verdict} (h : v.Correct F m n u)
    (hiff : ∀ V : Valuation, V.Candidate m → (Solution V u ↔ Solution V u')) :
    v.Correct F m n u' := by
  cases v with
  | unifier σ =>
    obtain ⟨hσ, hsolved, hsolutions⟩ := h
    refine ⟨hσ, hsolved, fun V hV => ?_⟩
    rw [← hiff V hV, hsolutions V hV]
  | clash => exact fun V hV hsolution => h V hV ((hiff V hV).mpr hsolution)
  | exhausted => exact h

/-- The solver comes to a correct verdict on problems with fewer than `c` variables to bind. -/
def Decides (F : OrderedSet Replaceable) (m c : Nat) (solver : Unifier → Fresh Verdict) : Prop :=
  ∀ u n, m ≤ n → Invariant F m n u → unbound F u.subst < c →
    ((solver u).run n).1.Correct F m ((solver u).run n).2 u

theorem phase_correct [Iteration] (hF : ∀ r ∈ F, r.id < m) {next : Unifier → Fresh Verdict}
    {c : Nat} (hnext : Decides F m c next) {steps : Nat} (hmn : m ≤ n) (hu : Invariant F m n u)
    (hload : load u < steps) (hunbound : unbound F u.subst ≤ c) :
    ((phase next steps u).run n).1.Correct F m ((phase next steps u).run n).2 u := by
  induction steps generalizing u n with
  | zero => exact absurd hload (Nat.not_lt_zero _)
  | succ steps ih =>
    have hle := increasing_step u n
    have hstep := step_correct hF hmn hu
    rw [phase, Fresh.run_bind]
    rcases e : u.step.run n with ⟨_ | _ | u' | u', n'⟩
    · rw [e] at hle hstep
      refine ⟨hu.sound.subst.mono hle, hu.solved, fun V _ => ⟨fun h => h.absorbs, fun h => ⟨h, ?_⟩⟩⟩
      rw [show u.equations = [] from hstep]
      exact fun e he => absurd he List.not_mem_nil
    · rw [e] at hstep
      exact hstep
    · rw [e] at hle hstep
      obtain ⟨hinv, hsubst, hless, hsolutions⟩ := hstep
      exact (ih (Nat.le_trans hmn hle) hinv (by omega) (by rwa [hsubst])).congr hsolutions
    · rw [e] at hle hstep
      obtain ⟨hinv, hless, hsolutions⟩ := hstep
      exact (hnext u' n' (Nat.le_trans hmn hle) hinv (by omega)).congr hsolutions

theorem solve_decides [Iteration] (hF : ∀ r ∈ F, r.id < m) (bindings : Nat) :
    Decides F m (bindings + 1) (solve bindings) := by
  induction bindings with
  | zero =>
    intro u n hmn hu hunbound
    have hnone : Decides F m 0 fun _ => return .exhausted := fun _ _ _ _ h =>
      absurd h (Nat.not_lt_zero _)
    exact phase_correct hF hnone hmn hu (load_lt_weight hu) (Nat.le_of_lt_succ hunbound)
  | succ bindings ih =>
    intro u n hmn hu hunbound
    exact phase_correct hF ih hmn hu (load_lt_weight hu) (Nat.le_of_lt_succ hunbound)

/-- The problem that two terms pose. -/
def problem (s t : Term) : Unifier := ⟨∅, [], [(s, t)]⟩

end Unifier

/-- The images of a substitution in solved form stay under it. -/
theorem Subst.Solved.absorbs {F : OrderedSet Replaceable} {σ : Subst} {n : Nat}
    (h : σ.Solved F) (hσ : σ.Sound n) : (Valuation.plain.comp σ).Absorbs σ := by
  intro r image e
  have hwf := (hσ.image e).2.2.wf
  rw [value_of_some e hwf]
  exact (Term.readBefore_of_unbound hwf fun q hq => (h.image r image e q hq).2).symm

namespace Term

variable {s t : Term} {n k : Nat}

theorem id_lt_of_mem_free_union (hs : Sound n s) (ht : Sound n t) :
    ∀ r ∈ s.free ∪ t.free, r.id < n := by
  intro r hr
  rcases OrderedSet.mem_union.mp hr with hr | hr
  · exact hs.idsBelow.1 r hr
  · exact ht.idsBelow.1 r hr

theorem invariant_problem (hs : Sound n s) (ht : Sound n t) :
    Unifier.Invariant (s.free ∪ t.free) n n (Unifier.problem s t) := by
  refine ⟨⟨Subst.sound_empty n, fun e he => ?_⟩, Subst.solved_empty _, fun e he => ?_,
    fun z hz => absurd hz List.not_mem_nil⟩
  · obtain rfl := List.mem_singleton.mp he
    exact ⟨hs, ht⟩
  · obtain rfl := List.mem_singleton.mp he
    exact ⟨fun r hr => Or.inl (OrderedSet.mem_union.mpr (Or.inl hr)),
      fun r hr => Or.inl (OrderedSet.mem_union.mpr (Or.inr hr))⟩

theorem solution_problem (V : Valuation) :
    Unifier.Solution V (Unifier.problem s t) ↔ s.read V = t.read V := by
  refine ⟨fun h => h.unifies (s, t) List.mem_cons_self, fun h => ⟨V.absorbs_empty, fun e he => ?_⟩⟩
  obtain rfl := List.mem_singleton.mp he
  exact h

theorem solve_problem_correct [I : Iteration] (hs : Sound n s) (ht : Sound n t) :
    ((Unifier.solve (s.free ∪ t.free).size (Unifier.problem s t)).run n).1.Correct
      (s.free ∪ t.free) n ((Unifier.solve (s.free ∪ t.free).size (Unifier.problem s t)).run n).2
      (Unifier.problem s t) := by
  have hunbound : Unifier.unbound (s.free ∪ t.free) (Unifier.problem s t).subst ≤
      (s.free ∪ t.free).size := by
    rw [OrderedSet.size_eq]
    exact List.countP_le_length
  exact Unifier.solve_decides (id_lt_of_mem_free_union hs ht) _ _ n (Nat.le_refl n)
    (invariant_problem hs ht) (Nat.lt_succ_of_le hunbound)

theorem unify_correct [I : Iteration] (hs : Sound n s) (ht : Sound n t) :
    (∃ σ, ((s.unify t).run n).1 = some σ ∧ σ.Sound ((s.unify t).run n).2 ∧
        σ.Solved (s.free ∪ t.free) ∧
          ∀ V : Valuation, V.Candidate n → (s.read V = t.read V ↔ V.Absorbs σ)) ∨
      ((s.unify t).run n).1 = none ∧
        ∀ V : Valuation, V.Candidate n → s.read V ≠ t.read V := by
  have hrun := solve_problem_correct hs ht
  have hunify : (s.unify t).run n =
      (((Unifier.solve (s.free ∪ t.free).size (Unifier.problem s t)).run n).1.subst?,
        ((Unifier.solve (s.free ∪ t.free).size (Unifier.problem s t)).run n).2) := rfl
  rw [hunify]
  rcases e : (Unifier.solve (s.free ∪ t.free).size (Unifier.problem s t)).run n with ⟨σ | _ | _, n'⟩
  · rw [e] at hrun
    obtain ⟨hσ, hsolved, hsolutions⟩ := hrun
    refine Or.inl ⟨σ, rfl, hσ, hsolved, fun V hV => ?_⟩
    rw [← solution_problem V, hsolutions V hV]
  · rw [e] at hrun
    exact Or.inr ⟨rfl, fun V hV h => hrun V hV ((solution_problem V).mpr h)⟩
  · rw [e] at hrun
    exact hrun.elim

/-- A unifier makes the terms equal up to bound variables. -/
theorem unify_alphaEquals [Iteration] {σ : Subst} {n' i j : Nat} (hs : Sound n s) (ht : Sound n t)
    (h : (s.unify t).run n = (some σ, n')) (hi : n' ≤ i) (hj : n' ≤ j) :
    ((s.subst σ).run i).1.alphaEquals ((t.subst σ).run j).1 := by
  have hn := (unify_sound hs ht).1
  have hcorrect := unify_correct hs ht
  rw [h] at hn hcorrect
  rcases hcorrect with ⟨_, e, hσ, hsolved, hsolutions⟩ | ⟨e, _⟩
  · obtain rfl := Option.some.inj e
    have hcandidate : (Valuation.plain.comp σ).Candidate n := by
      refine hσ.candidate hsolved.simple fun r image e q hq => ?_
      rcases OrderedSet.mem_union.mp (hsolved.image r image e q hq).1 with hq | hq
      · exact hs.idsBelow.1 q hq
      · exact ht.idsBelow.1 q hq
    rw [alphaEquals_iff, nameless_instance (hσ.mono hi) (hs.mono (Nat.le_trans hn hi)),
      nameless_instance (hσ.mono hj) (ht.mono (Nat.le_trans hn hj))]
    exact (hsolutions _ hcandidate).mpr (hsolved.absorbs hσ)
  · cases e

/-- `X(Y)` and `f(b, V)` unify by what `X` is applied to last. -/
theorem unify_alphaEquals_curried :
    let o := SimpleType.base "o"
    let x : Var := ⟨0, "X", .arrow o o, false⟩
    let y : Var := ⟨1, "Y", o, false⟩
    let v : Var := ⟨2, "V", o, false⟩
    let f := const ⟨"f", .arrow o (.arrow o o), false, none⟩
    let b := const ⟨"b", o, false, none⟩
    let s := app (var x) [var y]
    let t := app f [b, var v]
    let σ := (Subst.set ∅ (.var x) (app f [b])).set (.var y) (var v)
    (s.unify t).run 3 = (some σ, 3) ∧
      ((s.subst σ).run 3).1.alphaEquals ((t.subst σ).run 3).1 := by
  intro o x y v f b s t σ
  have hs : Sound 3 s := by
    refine sound_app ?_ rfl (by simp) (by cbv) (by cbv)
    simp [sound_var, x, y]
  have ht : Sound 3 t := by
    refine sound_app ?_ rfl (by simp) (by cbv) (by cbv)
    simp [sound_const, sound_var, f, b, v]
  have hrun : (s.unify t).run 3 = (some σ, 3) := by cbv
  exact ⟨hrun, unify_alphaEquals hs ht hrun (Nat.le_refl 3) (Nat.le_refl 3)⟩

end Term

/-- A well-typed substitution for solvable variables, made before `n`, gives the terms the same
instance up to bound variables. -/
structure Subst.Unifies (n : Nat) (θ : Subst) (s t : Term) : Prop where
  sound : θ.Sound n
  simple : θ.Simple
  equal : ∃ i j, n ≤ i ∧ n ≤ j ∧ ((s.subst θ).run i).1.alphaEquals ((t.subst θ).run j).1

namespace Term

variable {s t : Term} {n k : Nat}

/-- If the terms have a common instance there is a unifier, and what it makes of a variable
becomes, by the substitution that gives the instance, what that substitution makes of it. -/
theorem unify_mostGeneral [Iteration] (hs : Sound n s) (ht : Sound n t) (hk : n ≤ k) :
    (∀ θ : Subst, θ.Unifies n s t → ∃ σ k', (s.unify t).run k = (some σ, k') ∧
      ∀ r : Replaceable, r.Solvable → r ∈ s.free ∪ t.free → ∀ l i j, k' ≤ l →
        ((r.toTerm.subst σ).run l).2 ≤ i → n ≤ j →
          ((((r.toTerm.subst σ).run l).1.subst θ).run i).1.alphaEquals
            ((r.toTerm.subst θ).run j).1) ∧
      (((s.unify t).run k).1 = none → ¬∃ θ : Subst, θ.Unifies n s t) := by
  have hmain : ∀ θ : Subst, θ.Unifies n s t → ∃ σ k', (s.unify t).run k = (some σ, k') ∧
      ∀ r : Replaceable, r.Solvable → r ∈ s.free ∪ t.free → ∀ l i j, k' ≤ l →
        ((r.toTerm.subst σ).run l).2 ≤ i → n ≤ j →
          ((((r.toTerm.subst σ).run l).1.subst θ).run i).1.alphaEquals
            ((r.toTerm.subst θ).run j).1 := by
    intro θ hθ
    obtain ⟨i, j, hi, hj, hequal⟩ := hθ.equal
    have hcandidate : (Valuation.plain.comp θ).Candidate k :=
      hθ.sound.candidate hθ.simple fun r image e q hq =>
        Nat.lt_of_lt_of_le ((hθ.sound.image e).2.2.idsBelow.1 q hq) hk
    have hreads : s.read (Valuation.plain.comp θ) = t.read (Valuation.plain.comp θ) := by
      rwa [alphaEquals_iff, nameless_instance (hθ.sound.mono hi) (hs.mono hi),
        nameless_instance (hθ.sound.mono hj) (ht.mono hj)] at hequal
    have hn := (unify_sound (hs.mono hk) (ht.mono hk)).1
    rcases unify_correct (hs.mono hk) (ht.mono hk) with
      ⟨σ, e, hσ, hsolved, hsolutions⟩ | ⟨_, hnone⟩
    · refine ⟨σ, ((s.unify t).run k).2, Prod.ext e rfl, ?_⟩
      intro r hr hmem l i j hl hi hj
      have habsorbs := (hsolutions _ hcandidate).mp hreads
      have hrid : r.id < n := by
        rcases OrderedSet.mem_union.mp hmem with hmem | hmem
        · exact hs.idsBelow.1 r hmem
        · exact ht.idsBelow.1 r hmem
      have hσl := hσ.mono hl
      have hnl : n ≤ l := Nat.le_trans hk (Nat.le_trans hn hl)
      have hrsound := hr.toTerm_sound (Nat.lt_of_lt_of_le hrid hnl)
      have hinstance := (subst_sound hσl hrsound).1
      have hnl' := increasing_subst σ r.toTerm l
      rw [alphaEquals_iff,
        nameless_instance (hθ.sound.mono (Nat.le_trans hnl (Nat.le_trans hnl' hi)))
          (hinstance.mono hi),
        nameless_instance (hθ.sound.mono hj) (hr.toTerm_sound (Nat.lt_of_lt_of_le hrid hj))]
      exact habsorbs.read_instance hcandidate.closed hcandidate.rigid hσl hsolved.simple hrsound
    · exact absurd hreads (hnone _ hcandidate)
  refine ⟨hmain, fun hnone ⟨θ, hθ⟩ => ?_⟩
  obtain ⟨σ, k', e, _⟩ := hmain θ hθ
  rw [e] at hnone
  cases hnone

/-- The unifier of `X(Y)` and `f(b, V)` sends `Y` to `V`; both go to `a` by a solution that sends
both there. -/
theorem unify_mostGeneral_curried :
    let o := SimpleType.base "o"
    let x : Var := ⟨0, "X", .arrow o o, false⟩
    let y : Var := ⟨1, "Y", o, false⟩
    let v : Var := ⟨2, "V", o, false⟩
    let f := const ⟨"f", .arrow o (.arrow o o), false, none⟩
    let a := const ⟨"a", o, false, none⟩
    let b := const ⟨"b", o, false, none⟩
    let s := app (var x) [var y]
    let t := app f [b, var v]
    let θ := ((Subst.set ∅ (.var x) (app f [b])).set (.var y) a).set (.var v) a
    θ.Unifies 3 s t ∧ ∃ σ k, (s.unify t).run 3 = (some σ, k) ∧
      (((((var y).subst σ).run k).1.subst θ).run (((var y).subst σ).run k).2).1.alphaEquals
        (((var y).subst θ).run 3).1 := by
  intro o x y v f a b s t θ
  have hs : Sound 3 s := by
    refine sound_app ?_ rfl (by simp) (by cbv) (by cbv)
    simp [sound_var, x, y]
  have ht : Sound 3 t := by
    refine sound_app ?_ rfl (by simp) (by cbv) (by cbv)
    simp [sound_const, sound_var, f, b, v]
  have hfb : Sound 3 (app f [b]) := by
    refine sound_app ?_ rfl (by simp) (by cbv) (by cbv)
    simp [sound_const, f, b]
  have hsound : θ.Sound 3 := by
    refine (((Subst.sound_empty 3).set ?_ (by cbv) hfb).set ?_ (by cbv) (sound_const 3 _)).set ?_
      (by cbv) (sound_const 3 _) <;> decide
  have hsimple : θ.Simple :=
    ((Subst.simple_empty.set (by decide) _).set (by decide) _).set (by decide) _
  have hθ : θ.Unifies 3 s t :=
    ⟨hsound, hsimple, 3, 3, Nat.le_refl 3, Nat.le_refl 3, by cbv⟩
  obtain ⟨σ, k, hrun, hinstance⟩ := (unify_mostGeneral hs ht (Nat.le_refl 3)).1 θ hθ
  have hy : .var y ∈ s.free ∪ t.free := by simp [s, freeAll]
  exact ⟨hθ, σ, k, hrun, hinstance (.var y) (by decide) hy k _ 3 (Nat.le_refl k) (Nat.le_refl _)
    (Nat.le_refl 3)⟩

end Term

end TermAlgebra
