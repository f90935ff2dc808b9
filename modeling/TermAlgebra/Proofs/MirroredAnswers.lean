import TermAlgebra.Proofs.IterationOrder

/-!
# Answers under other identifiers

An answer does not tell which identifiers were drawn for it, nor in which order images were gone
through. Main statement: `mirrors_answer`, a query is answered alike for other identifiers that keep
their order, whatever is drawn and whatever the orders of iteration are in the two runs.
-/

namespace TermAlgebra.Query

open Relocation

variable {e : Relocation} {q : Query} {n : Nat}

/-! ## The same order of iteration -/

theorem mirrors_line (text : Option String) :
    e.MirrorsAttempt (AlgebraError.renumber e · = ·) Eq (liftM (line text))
      (liftM (line text)) := by
  cases text with
  | some text => exact .pure rfl
  | none => exact .throw rfl

theorem mirrors_singleLine (text : Option String) :
    e.MirrorsAttempt (AlgebraError.renumber e · = ·) Eq (do return [← line text])
      (do return [← line text]) := by
  refine (mirrors_line text).bind ?_
  rintro text _ rfl
  exact .pure rfl

theorem mirrors_answer_along [e.Increasing] (I : Iteration) (q : Query) :
    e.MirrorsAttempt (AlgebraError.renumber e · = ·) Eq (q.answer (I := I.along e))
      ((q.renumber e).answer (I := I)) := by
  cases q with
  | matching p o =>
    refine .bind (.lift (Term.mirrors_matchTerm p o)) ?_
    rintro r r' hr
    cases hr with
    | error hd =>
      subst hd
      exact .throw rfl
    | @ok a b hab =>
      subst hab
      cases a with
      | success σ =>
        dsimp only [Term.MatchOutcome.renumber]
        rw [Subst.text_renumber]
        exact mirrors_singleLine σ.text
      | failure m =>
        dsimp only [Term.MatchOutcome.renumber]
        rw [Mismatch.message_renumber]
        exact mirrors_singleLine _
  | unify s t =>
    refine .bind (.lift (Term.mirrors_unify I s t)) ?_
    rintro r _ rfl
    cases r with
    | none => exact .pure rfl
    | some σ =>
      dsimp only [Option.map_some]
      rw [Subst.text_renumber]
      exact mirrors_singleLine σ.text
  | alpha s t => exact .pure (by rw [Term.alphaEquals_renumber])
  | subst t σ =>
    refine .bind (.lift (Term.mirrors_subst (σ.renumbered_renumber e) t)) ?_
    rintro t _ rfl
    rw [Term.text_renumber]
    exact mirrors_singleLine t.text
  | positions t =>
    dsimp only [answer, renumber]
    rw [Term.positions_renumber]
    refine .mapM fun p _ => ?_
    have hsubterm := Term.subtermAt_renumber e t p
    generalize t.subtermAt p = r at hsubterm ⊢
    generalize (t.renumber e).subtermAt p = r' at hsubterm ⊢
    cases hsubterm with
    | @ok s _ hs =>
      subst hs
      dsimp only
      rw [Term.text_renumber]
      exact mirrors_line _
    | error hd =>
      subst hd
      exact .throw rfl

theorem renumber_identity (q : Query) : q.renumber .identity = q := by
  cases q <;> simp [renumber, Subst.renumber_identity]

theorem le_answer (I : Iteration) (q : Query) (n : Nat) :
    n ≤ ((q.answer (I := I)).run.run n).2 := by
  obtain ⟨-, hle, hend⟩ := mirrors_answer_along (e := unmoved n) I q n (Nat.le_refl n)
  have hsame : q.renumber (unmoved n).toRenumbering = q := q.renumber_identity
  rw [hsame] at hend
  exact hle.trans_eq hend.symm

/-! ## Any orders of iteration -/

/-- The lines for what unification gives. -/
def unifierLines (r : Option Subst) : ExceptT AlgebraError Fresh (List String) :=
  r.elim (return ["no unifier"]) fun σ => do return [← line σ.text]

theorem run_answer_unify [I : Iteration] (s t : Term) (n : Nat) :
    (unify s t).answer.run.run n =
      (unifierLines ((s.unify t).run n).1).run.run ((s.unify t).run n).2 := by
  have hlift : (liftM (s.unify t) : ExceptT AlgebraError Fresh (Option Subst)).run.run n =
      (.ok ((s.unify t).run n).1, ((s.unify t).run n).2) := rfl
  rw [answer, ExceptT.run_bind, Fresh.run_bind, hlift]
  cases ((s.unify t).run n).1 <;> rfl

theorem unifierLines_renumber (π : Renumbering) (r : Option Subst) :
    unifierLines (r.map (Subst.renumber π)) = unifierLines r := by
  cases r with
  | none => rfl
  | some σ =>
    dsimp only [unifierLines, Option.map_some, Option.elim_some]
    rw [Subst.text_renumber]

/-- Whatever the order of iteration is, a query has the same answer, for which as much is drawn. -/
theorem answer_iteration (I I' : Iteration) (hq : q.Sound n) :
    (q.answer (I := I')).run.run n = (q.answer (I := I)).run.run n := by
  cases q with
  | matching | alpha | subst | positions => rfl
  | unify s t =>
    obtain ⟨⟨hs, ht⟩, hswf, htwf⟩ := hq
    obtain ⟨π, -, hunify⟩ := Term.unify_iteration I I' ⟨hs, hswf⟩ ⟨ht, htwf⟩
    rw [run_answer_unify (I := I'), run_answer_unify (I := I), hunify, unifierLines_renumber]

/-- Other identifiers, other draws and another order of iteration lead to the same answer. -/
theorem mirrors_answer [e.Increasing] (I I' : Iteration) (hq : q.Sound e.start) :
    e.MirrorsAttempt (AlgebraError.renumber e · = ·) Eq (q.answer (I := I))
      ((q.renumber e).answer (I := I')) := by
  intro n hn
  rw [answer_iteration (I'.along e) I (hq.mono hn)]
  exact mirrors_answer_along I' q n hn

end TermAlgebra.Query
