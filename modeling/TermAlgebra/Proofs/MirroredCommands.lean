import TermAlgebra.Proofs.LexicalReading
import TermAlgebra.Proofs.MirroredQueries

/-!
# Commands on another supply

Names are resolved to the same symbols up to identifiers, so that commands fail alike and their
answers are the same.
-/

namespace TermAlgebra

open Relocation
open TermAlgebra.Language (Expr Command)

variable {e : Relocation}

namespace Query

/-! ## Symbols -/

def Symbol.renumber (π : Renumbering) : Symbol → Symbol
  | const c => const c
  | var x => var (x.renumber π)
  | metaVar z => metaVar (z.renumber π)

/-- The second table has the same names as the first one, for renumbered symbols. -/
def Symbols.Renumbered (π : Renumbering) (s s' : Symbols) : Prop :=
  ∀ name, s'.get? name = (s.get? name).map (Symbol.renumber π)

theorem Symbols.Renumbered.declare {π : Renumbering} {s s' : Symbols} (h : s.Renumbered π s')
    (name : String) (sym : Symbol) :
    Results Eq (Renumbered π) (s.declare name sym) (s'.declare name (sym.renumber π)) := by
  unfold Symbols.declare
  rw [h name]
  cases s.get? name with
  | some _ => exact .error rfl
  | none =>
    refine .ok fun x => ?_
    rw [get?_cons, get?_cons, h x]
    split <;> rfl

/-! ## Resolution -/

namespace Resolve

variable {α β : Type} {R : α → β → Prop} {s s' : Symbols}

/-- Both runs fail for the same reason. -/
def Mirrors (e : Relocation) (R : α → β → Prop) (m : [Supply] → Resolve α)
    (m' : [Supply] → Resolve β) : Prop :=
  e.MirrorsAttempt (ResolveError.renumber e · = ·) R m m'

theorem mirrors_build {m m' : [Supply] → Term.Build Term}
    (h : e.MirrorsAttempt (TypeError.renumber e · = ·) (Term.renumber e · = ·) m m') :
    Mirrors e (Term.renumber e · = ·) (build m) (build m') :=
  .adapt (fun _ _ hd => congrArg ResolveError.type hd) h

theorem mirrors_scopeError (d : ScopeError) : Mirrors e R (scopeError d) (scopeError d) :=
  .throw rfl

theorem mirrors_name (hs : s.Renumbered e s') (scope : Stack Var) (x : String) :
    Mirrors e (Term.renumber e · = ·) (name s scope x) (name s' (scope.renumber e) x) := by
  have hfind : ((scope.renumber e).find? fun v => v.name == x) =
      (scope.find? fun v => v.name == x).map (Var.renumber e) :=
    Var.find?_renumber e.toRenumbering (fun _ => rfl) scope.toList
  unfold name
  rw [hfind, hs x]
  cases scope.find? fun v => v.name == x with
  | some v => exact .pure rfl
  | none =>
    cases s.get? x with
    | none => exact mirrors_scopeError _
    | some sym =>
      cases sym with
      | const c => exact .pure rfl
      | var v => exact .pure rfl
      | metaVar z => exact mirrors_build (Term.mirrors_applyMeta z [])

theorem mirrors_metaVar (hs : s.Renumbered e s') (z : String) :
    Mirrors e (MetaVar.renumber e · = ·) (metaVar s z) (metaVar s' z) := by
  unfold metaVar
  rw [hs z]
  cases s.get? z with
  | none => exact mirrors_scopeError _
  | some sym =>
    cases sym with
    | metaVar w => exact .pure rfl
    | const | var => exact mirrors_scopeError _

theorem mirrors_terms {ts : List Expr}
    (h : ∀ t ∈ ts, ∀ scope : Stack Var, Mirrors e (Term.renumber e · = ·) (term s scope t)
      (term s' (scope.renumber e) t)) (scope : Stack Var) :
    Mirrors e (List.map (Term.renumber e) · = ·) (terms s scope ts)
      (terms s' (scope.renumber e) ts) := by
  induction ts with
  | nil => exact .pure rfl
  | cons t ts ih =>
    refine MirrorsAttempt.bind (h t List.mem_cons_self scope) ?_
    rintro u _ rfl
    refine MirrorsAttempt.bind (ih fun r hr => h r (List.mem_cons_of_mem t hr)) ?_
    rintro us _ rfl
    exact .pure rfl

theorem mirrors_term (hs : s.Renumbered e s') (scope : Stack Var) (t : Expr) :
    Mirrors e (Term.renumber e · = ·) (term s scope t) (term s' (scope.renumber e) t) := by
  induction t using Expr.induction generalizing scope with
  | name x => exact mirrors_name hs scope x
  | literal v => exact .pure rfl
  | app head args ih ihs =>
    refine MirrorsAttempt.bind (ih scope) ?_
    rintro u _ rfl
    refine MirrorsAttempt.bind (mirrors_terms ihs scope) ?_
    rintro us _ rfl
    exact mirrors_build (Term.mirrors_apply u us)
  | metaApp z args ihs =>
    refine MirrorsAttempt.bind (mirrors_metaVar hs z) ?_
    rintro w _ rfl
    refine MirrorsAttempt.bind (mirrors_terms ihs scope) ?_
    rintro us _ rfl
    exact mirrors_build (Term.mirrors_applyMeta w us)
  | lambda x ty body ih =>
    refine MirrorsAttempt.bind (.lift (Var.mirrors_make x ty true)) ?_
    rintro v _ rfl
    refine MirrorsAttempt.bind (ih (scope.push v)) ?_
    rintro u _ rfl
    exact mirrors_build (Term.mirrors_abstract v u)

end Resolve

/-! ## Scoping -/

namespace Scoping

variable {α β : Type} {R : α → β → Prop}

/-- Both runs keep the same symbols and fail for the same reason. -/
def Mirrors (e : Relocation) (R : α → β → Prop) (m : [Supply] → Scoping α)
    (m' : [Supply] → Scoping β) : Prop :=
  e.MirrorsExec (Symbols.Renumbered e) (ResolveError.renumber e · = ·) R m m'

theorem mirrors_resolve {m : [Supply] → Resolve α} {m' : [Supply] → Resolve β}
    (h : Resolve.Mirrors e R m m') : Mirrors e R (resolve m) (resolve m') :=
  .lift h

theorem mirrors_declare (name : String) (sym : Symbol) :
    Mirrors e (fun _ _ => True) (declare name sym) (declare name (sym.renumber e)) := by
  refine MirrorsExec.get.bind fun s s' hs => ?_
  have hdeclare := hs.declare name sym
  generalize s.declare name sym = r at hdeclare ⊢
  generalize s'.declare name (sym.renumber e) = r' at hdeclare ⊢
  cases hdeclare with
  | ok h => exact .modify fun _ _ _ => h
  | error hd =>
    subst hd
    exact .throw rfl

theorem mirrors_term (t : Expr) :
    Mirrors e (Term.renumber e · = ·) (term t) (term t) :=
  MirrorsExec.get.bind fun _ _ hs => mirrors_resolve (Resolve.mirrors_term hs ∅ t)

theorem mirrors_key (name : String) :
    Mirrors e (Replaceable.renumber e · = ·) (key name) (key name) := by
  refine MirrorsExec.get.bind fun s s' hs => ?_
  rw [hs name]
  cases s.get? name with
  | none => exact .throw rfl
  | some sym =>
    cases sym with
    | const => exact .throw rfl
    | var | metaVar => exact .pure rfl

theorem insert_renumber (π : Renumbering) [π.Increasing] (σ : Subst) (r : Replaceable) (t : Term) :
    Results (TypeError.renumber π · = ·) (Subst.renumber π · = ·) (σ.insert r t)
      ((σ.renumber π).insert (r.renumber π) (t.renumber π)) := by
  unfold Subst.insert
  rw [Replaceable.renumber_ty, Term.ty_renumber]
  split
  · exact .ok (Subst.set_renumber π σ r t).symm
  · exact .error rfl

theorem mirrors_images [e.Increasing] (σ : Subst) (entries : List (String × Expr)) :
    Mirrors e (Subst.renumber e · = ·) (images σ entries) (images (σ.renumber e) entries) := by
  induction entries generalizing σ with
  | nil => exact .pure rfl
  | cons p ps ih =>
    obtain ⟨name, t⟩ := p
    refine MirrorsExec.bind (mirrors_key name) ?_
    rintro r _ rfl
    refine MirrorsExec.bind (mirrors_term t) ?_
    rintro u _ rfl
    have hinsert := insert_renumber e.toRenumbering σ r u
    generalize σ.insert r u = q at hinsert ⊢
    generalize (σ.renumber e).insert (r.renumber e) (u.renumber e) = q' at hinsert ⊢
    cases hinsert with
    | ok h =>
      subst h
      exact ih _
    | error hd =>
      subst hd
      exact .throw rfl

/-- Two terms that are resolved one after the other. -/
theorem mirrors_pair {q : Term → Term → Query} {q' : Term → Term → Query}
    (hq : ∀ u v, (q u v).renumber e = q' (u.renumber e) (v.renumber e)) (s t : Expr) :
    Mirrors e (Option.map (Query.renumber e) · = ·)
      (do let u ← term s; return some (q u (← term t)))
      (do let u ← term s; return some (q' u (← term t))) := by
  refine MirrorsExec.bind (mirrors_term s) ?_
  rintro u _ rfl
  refine MirrorsExec.bind (mirrors_term t) ?_
  rintro v _ rfl
  exact .pure (congrArg some (hq u v))

end Scoping

theorem mirrors_ofCommand [e.Increasing] (c : Command) :
    Scoping.Mirrors e (Option.map (renumber e) · = ·) (ofCommand c) (ofCommand c) := by
  cases c with
  | const c ty =>
    refine MirrorsExec.bind (Scoping.mirrors_declare c (.const { name := c, ty })) fun _ _ _ => ?_
    exact .pure rfl
  | var x ty =>
    refine MirrorsExec.bind (Scoping.mirrors_resolve (.lift (Var.mirrors_make x ty false))) ?_
    rintro v _ rfl
    refine MirrorsExec.bind (Scoping.mirrors_declare x (.var v)) fun _ _ _ => ?_
    exact .pure rfl
  | metaVar z inputs output =>
    refine MirrorsExec.bind
      (Scoping.mirrors_resolve (.lift (MetaVar.mirrors_make z inputs output))) ?_
    rintro w _ rfl
    refine MirrorsExec.bind (Scoping.mirrors_declare z (.metaVar w)) fun _ _ _ => ?_
    exact .pure rfl
  | matching p o => exact Scoping.mirrors_pair (fun _ _ => rfl) p o
  | unify s t => exact Scoping.mirrors_pair (fun _ _ => rfl) s t
  | alpha s t => exact Scoping.mirrors_pair (fun _ _ => rfl) s t
  | subst t entries =>
    refine MirrorsExec.bind (Scoping.mirrors_term t) ?_
    rintro u _ rfl
    refine MirrorsExec.bind (Scoping.mirrors_images ∅ entries) ?_
    rintro σ _ rfl
    exact .pure rfl
  | positions t =>
    refine MirrorsExec.bind (Scoping.mirrors_term t) ?_
    rintro u _ rfl
    exact .pure rfl

end Query

end TermAlgebra
