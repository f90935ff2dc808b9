import TermAlgebra.Program.Run
import TermAlgebra.Proofs.Renumbering

/-!
# Text under other identifiers

Printed names are given in the order of first occurrence, and an identifier only tells which
occurrences get the same one. So terms, substitutions, mismatches and errors are printed alike
under other identifiers.
-/

namespace TermAlgebra

/-! ## Names -/

namespace Names

def renumber (π : Renumbering) (names : Names) : Names :=
  ⟨names.entries.map fun e => (π e.1, e.2)⟩

variable (π : Renumbering)

theorem get?_renumber (names : Names) (id : Nat) :
    (names.renumber π).get? (π id) = names.get? id := by
  rcases names with ⟨entries⟩
  change (entries.map _).lookup _ = entries.lookup id
  induction entries with
  | nil => rfl
  | cons e es ih =>
    rw [List.map_cons, List.lookup_cons, List.lookup_cons, ih, π.injective.beq_eq]

theorem get_renumber (names : Names) (id : Nat) (name : String) :
    (names.renumber π).get (π id) name = names.get id name := by
  rw [get, get, get?_renumber]

theorem add_renumber (names : Names) (taken : List String) (label : Nat × String) :
    add (names.renumber π, taken) (π label.1, label.2) =
      ((add (names, taken) label).1.renumber π, (add (names, taken) label).2) := by
  simp only [add, get?_renumber]
  cases names.get? label.1 <;> simp [renumber]

theorem assign_renumber (taken : List String) (labels : List (Nat × String)) :
    assign taken (labels.map fun l => (π l.1, l.2)) = (assign taken labels).renumber π := by
  have hfold : ∀ (names : Names) (taken : List String),
      (labels.map fun l => (π l.1, l.2)).foldl add (names.renumber π, taken) =
        ((labels.foldl add (names, taken)).1.renumber π, (labels.foldl add (names, taken)).2) := by
    induction labels with
    | nil => exact fun _ _ => rfl
    | cons l ls ih =>
      intro names taken
      rw [List.map_cons, List.foldl_cons, List.foldl_cons, add_renumber]
      exact ih _ _
  exact congrArg Prod.fst (hfold ⟨[]⟩ taken)

end Names

/-! ## Terms -/

namespace Term

variable (π : Renumbering)

theorem labelsAll_renumber {ts : List Term}
    (h : ∀ t ∈ ts, (t.renumber π).labels = t.labels.map fun l => (π l.1, l.2)) :
    labelsAll (ts.map (renumber π)) = (labelsAll ts).map fun l => (π l.1, l.2) := by
  induction ts with
  | nil => rfl
  | cons t ts ih =>
    rw [List.map_cons, labelsAll, labelsAll, h t List.mem_cons_self,
      ih fun s hs => h s (List.mem_cons_of_mem t hs), List.map_append]

theorem labels_renumber (t : Term) :
    (t.renumber π).labels = t.labels.map fun l => (π l.1, l.2) := by
  induction t using Term.induction with
  | literal v => rfl
  | const c => rfl
  | var x => rfl
  | lambda x body ih =>
    rw [renumber_lambda, labels, labels, ih, List.map_cons]
    rfl
  | app head args ih ihs =>
    rw [renumber_app, labels, labels, ih, labelsAll_renumber π ihs, List.map_append]
  | metaApp z args ihs =>
    rw [renumber_metaApp, labels, labels, labelsAll_renumber π ihs, List.map_cons]
    rfl

theorem constantNamesAll_renumber {ts : List Term}
    (h : ∀ t ∈ ts, (t.renumber π).constantNames = t.constantNames) :
    constantNamesAll (ts.map (renumber π)) = constantNamesAll ts := by
  induction ts with
  | nil => rfl
  | cons t ts ih =>
    rw [List.map_cons, constantNamesAll, constantNamesAll, h t List.mem_cons_self,
      ih fun s hs => h s (List.mem_cons_of_mem t hs)]

theorem constantNames_renumber (t : Term) : (t.renumber π).constantNames = t.constantNames := by
  induction t using Term.induction with
  | literal v => rfl
  | const c => rfl
  | var x => rfl
  | lambda x body ih => rw [renumber_lambda, constantNames, constantNames, ih]
  | app head args ih ihs =>
    rw [renumber_app, constantNames, constantNames, ih, constantNamesAll_renumber π ihs]
  | metaApp z args ihs =>
    rw [renumber_metaApp, constantNames, constantNames, constantNamesAll_renumber π ihs]

theorem ofTerms_renumber (labels : List (Nat × String)) (ts : List Term) :
    Names.ofTerms (labels.map fun l => (π l.1, l.2)) (ts.map (renumber π)) =
      (Names.ofTerms labels ts).renumber π := by
  rw [Names.ofTerms, Names.ofTerms,
    constantNamesAll_renumber π fun t _ => constantNames_renumber π t,
    labelsAll_renumber π fun t _ => labels_renumber π t, ← List.map_append,
    Names.assign_renumber]

theorem operatorPrecedence_renumber (t : Term) :
    (t.renumber π).operatorPrecedence = t.operatorPrecedence := by
  cases t <;> simp [operatorPrecedence, constant?]

theorem textsOf_renumber {names : Names} {ts : List Term}
    (h : ∀ t ∈ ts, ∀ context,
      (t.renumber π).textAt (names.renumber π) context = t.textAt names context) :
    textsOf (names.renumber π) (ts.map (renumber π)) = textsOf names ts := by
  induction ts with
  | nil => rfl
  | cons t ts ih =>
    rw [List.map_cons, textsOf, textsOf, h t List.mem_cons_self,
      ih fun s hs => h s (List.mem_cons_of_mem t hs)]

theorem textAt_renumber (names : Names) (context : UInt8) (t : Term) :
    (t.renumber π).textAt (names.renumber π) context = t.textAt names context := by
  induction t using Term.induction generalizing context with
  | literal v => rfl
  | const c => rfl
  | var x => exact congrArg some (names.get_renumber π x.id x.name)
  | lambda x body ih =>
    have hname : (names.renumber π).get (x.renumber π).id (x.renumber π).name =
        names.get x.id x.name := names.get_renumber π x.id x.name
    rw [renumber_lambda, textAt, textAt, ih, hname]
  | app head args ih ihs =>
    have hargs := textsOf_renumber π ihs
    have hprecedence := operatorPrecedence_renumber π head
    rw [renumber_app, textAt.eq_def, textAt.eq_def]
    dsimp only
    rw [hprecedence, ih, ih]
    -- Only two operands around an operator are printed one by one.
    cases head.operatorPrecedence with
    | none => simp only [hargs]
    | some p =>
      rcases args with _ | ⟨l, _ | ⟨r, _ | ⟨s, args⟩⟩⟩
      case cons.cons.nil =>
        have hl := ihs l (by simp)
        have hr := ihs r (by simp)
        simp only [List.map_cons, List.map_nil, hl, hr]
      all_goals simp only [List.map_cons, List.map_nil] at hargs ⊢; simp only [hargs]
  | metaApp z args ihs =>
    have hname := names.get_renumber π z.id z.name
    rw [renumber_metaApp, textAt, textAt, textsOf_renumber π ihs]
    simp only [MetaVar.renumber] at hname ⊢
    rw [hname, List.isEmpty_map]

@[simp]
theorem text_renumber (t : Term) : (t.renumber π).text = t.text := by
  have hnames : Names.ofTerm (t.renumber π) = (Names.ofTerm t).renumber π :=
    ofTerms_renumber π [] [t]
  rw [text, text, hnames, textAt_renumber]

end Term

theorem Subst.text_renumber (π : Renumbering) (σ : Subst) : (σ.renumber π).text = σ.text := by
  have hkeys : (σ.renumber π).keys.map (fun r => (r.id, r.name)) =
      (σ.keys.map fun r => (r.id, r.name)).map fun l => (π l.1, l.2) := by
    simp [Subst.keys, Subst.renumber]
  have himages : (σ.renumber π).entries.map Prod.snd =
      (σ.entries.map Prod.snd).map (Term.renumber π) := by
    simp [Subst.renumber]
  rw [text, text, hkeys, himages, Term.ofTerms_renumber]
  simp only [renumber, List.mapM_map, Function.comp_def, Replaceable.renumber_id,
    Replaceable.renumber_name, Names.get_renumber, Term.textAt_renumber]

/-! ## Errors -/

section Errors

variable (π : Renumbering)

def TypeError.renumber : TypeError → TypeError
  | notBinder x => notBinder (x.renumber π)
  | tooManyArguments head count => tooManyArguments (head.renumber π) count
  | argumentType expected arg => argumentType expected (arg.renumber π)
  | metaArity z count => metaArity (z.renumber π) count
  | mismatch expected found => mismatch expected found

theorem TypeError.message_renumber (e : TypeError) : (e.renumber π).message = e.message := by
  unfold renumber message
  cases e <;>
    simp only [Term.text_renumber, Term.ty_renumber, Var.renumber_name,
      MetaVar.renumber_name, MetaVar.renumber_arity]

def IndexError.renumber (e : IndexError) : IndexError := { e with term := e.term.renumber π }

theorem IndexError.message_renumber (e : IndexError) : (e.renumber π).message = e.message := by
  rw [message, message, renumber, Term.text_renumber]

def Mismatch.renumber : Mismatch → Mismatch
  | types p o => types (p.renumber π) (o.renumber π)
  | differs p o => differs (p.renumber π) (o.renumber π)
  | mapped r image o => mapped (r.renumber π) (image.renumber π) (o.renumber π)
  | unboundBinder x o => unboundBinder (x.renumber π) (o.renumber π)
  | escapes x o y => escapes (x.renumber π) (o.renumber π) (y.renumber π)
  | notLambda o => notLambda (o.renumber π)
  | fewerArguments o n => fewerArguments (o.renumber π) n
  | dangling y o z => dangling (y.renumber π) (o.renumber π) (z.renumber π)

theorem Mismatch.message_renumber (m : Mismatch) : (m.renumber π).message = m.message := by
  unfold renumber message
  cases m <;>
    simp only [Term.text_renumber, Term.ty_renumber, Var.renumber_name, MetaVar.renumber_name,
      Replaceable.renumber_name]

def Violation.renumber : Violation → Violation
  | arguments => arguments
  | notBinder arg => notBinder (arg.renumber π)
  | notBinderImage x image => notBinderImage (x.renumber π) (image.renumber π)
  | repeated y => repeated (y.renumber π)
  | dangling y o z => dangling (y.renumber π) (o.renumber π) (z.renumber π)

theorem Violation.message_renumber (v : Violation) : (v.renumber π).message = v.message := by
  cases v with
  | dangling y o z => exact Mismatch.message_renumber π (.dangling y o z)
  | _ => simp only [renumber, message, Term.text_renumber, Var.renumber_name]

def PatternRequired.renumber (e : PatternRequired) : PatternRequired :=
  ⟨e.term.renumber π, e.violation.renumber π⟩

theorem PatternRequired.message_renumber (e : PatternRequired) :
    (e.renumber π).message = e.message := by
  unfold message reason renumber
  simp only [Term.text_renumber, Violation.message_renumber]

def MatchError.renumber : MatchError → MatchError
  | mismatch m => mismatch (m.renumber π)
  | pattern e => pattern (e.renumber π)

def Query.AlgebraError.renumber : Query.AlgebraError → Query.AlgebraError
  | type e => type (e.renumber π)
  | index e => index (e.renumber π)
  | pattern e => pattern (e.renumber π)
  | textless => textless

theorem Query.AlgebraError.message_renumber (e : Query.AlgebraError) :
    (e.renumber π).message = e.message := by
  cases e with
  | type e => exact e.message_renumber π
  | index e => exact e.message_renumber π
  | pattern e => exact e.message_renumber π
  | textless => rfl

def Query.ResolveError.renumber : Query.ResolveError → Query.ResolveError
  | scope e => scope e
  | type e => type (e.renumber π)

def Program.Failure.renumber : Program.Failure → Program.Failure
  | unreadable => unreadable
  | parse e => parse e
  | scope e => scope e
  | algebra e => algebra (e.renumber π)

theorem Program.Failure.message_renumber (e : Program.Failure) :
    (e.renumber π).message = e.message := by
  cases e with
  | algebra e => exact e.message_renumber π
  | _ => rfl

end Errors

namespace Program.Failure

/-- The same failure for other identifiers. -/
def Variant (d d' : Failure) : Prop := ∃ π : Renumbering, d.renumber π = d'

theorem variant_self (d : Failure) : d.Variant d := by
  refine ⟨.identity, ?_⟩
  cases d with
  | unreadable | parse | scope => rfl
  | algebra d =>
    refine congrArg algebra ?_
    cases d with
    | type d => cases d <;> simp [Query.AlgebraError.renumber, TypeError.renumber]
    | index d => simp [Query.AlgebraError.renumber, IndexError.renumber]
    | pattern d =>
      obtain ⟨t, v⟩ := d
      cases v <;> simp [Query.AlgebraError.renumber, PatternRequired.renumber, Violation.renumber]
    | textless => rfl

/-- Failures that differ in the identifiers only. -/
def Alike (d d' : Failure) : Prop := ∃ d₀ : Failure, d₀.Variant d ∧ d₀.Variant d'

theorem Alike.message {d d' : Failure} (h : d.Alike d') : d.message = d'.message := by
  obtain ⟨d₀, ⟨π, rfl⟩, π', rfl⟩ := h
  rw [message_renumber, message_renumber]

end Program.Failure

end TermAlgebra
