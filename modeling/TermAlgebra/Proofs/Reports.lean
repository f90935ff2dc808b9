import TermAlgebra.Program.Pipeline
import TermAlgebra.Proofs.MirroredAnswers

/-!
# Reports on items

What becomes of an item depends on the items before it, but not on what else is drawn: neither
while it is resolved nor until it is answered, and not on the order of iteration in its answer. So
it is told from the resolving of the items alone, whenever their queries are answered.
-/

namespace TermAlgebra.Program

open Relocation
open TermAlgebra.Language (Command)
open TermAlgebra.Query (Symbols)

/-! ## Jobs -/

def Job.renumber (π : Renumbering) (job : Job) : Job :=
  ⟨job.echo, job.query.map (Query.renumber π)⟩

/-- What a job asks is well-formed and was drawn before `n`. -/
def Job.Sound (n : Nat) (job : Job) : Prop := ∀ q, job.query = some q → q.Sound n

section Mirrored

variable {e : Relocation} [e.Increasing]

theorem mirrors_ofItem (o : Options) (item : Item) :
    e.MirrorsExec (Symbols.Renumbered e) Failure.Variant (Job.renumber e · = ·)
      (Job.ofItem o item) (Job.ofItem o item) := by
  have hitem : Results Failure.Variant Eq item item := by
    cases item with
    | ok c => exact .ok rfl
    | error d => exact .error d.variant_self
  refine (MirrorsExec.except hitem).bind ?_
  rintro c _ rfl
  refine ((Query.mirrors_ofCommand c).adapt ?_).bind ?_
  · rintro d _ rfl
    refine ⟨e, ?_⟩
    cases d <;> rfl
  · rintro q _ rfl
    exact .pure rfl

theorem mirrors_answer (I I' : Iteration) {job : Job} (hjob : job.Sound e.start) :
    e.MirrorsExec (Symbols.Renumbered e) Failure.Variant Eq (job.answer (I := I))
      ((job.renumber e).answer (I := I')) := by
  obtain ⟨echo, query⟩ := job
  cases query with
  | none => exact .pure rfl
  | some q =>
    have hquery := Query.mirrors_answer I I' (hjob q rfl)
    refine (MirrorsExec.lift (hquery.adapt ?_)).bind ?_
    · rintro d _ rfl
      exact ⟨e, rfl⟩
    · rintro lines _ rfl
      exact .pure rfl

end Mirrored

section Runs

variable [Supply]

theorem run_answer_query [Iteration] (echo : Option String) (q : Query) (s : Symbols) (n : Nat) :
    ((Job.answer ⟨echo, some q⟩).run.run s).run n =
      ((((q.answer.run.run n).1.mapError Failure.algebra).map (echo.toList ++ ·), s),
        (q.answer.run.run n).2) := by
  have hlift : ((ExceptT.mk (StateT.lift (q.answer.adapt Failure.algebra).run) :
      Work (List String)).run.run s).run n =
        (((q.answer.run.run n).1.mapError Failure.algebra, s), (q.answer.run.run n).2) := rfl
  unfold Job.answer
  dsimp only
  rw [ExceptT.run_bind, StateT.run_bind, Fresh.run_bind, hlift]
  rcases q.answer.run.run n with ⟨_ | _, _⟩ <;> rfl

/-- The symbols are of no account for an answer, and it leaves them. -/
theorem run_answer [Iteration] (job : Job) (s : Symbols) (n : Nat) :
    (job.answer.run.run s).run n =
      ((report (.ok job) n, s), ((job.answer.run.run ∅).run n).2) := by
  obtain ⟨echo, query⟩ := job
  cases query with
  | none => rfl
  | some q => rw [report, run_answer_query, run_answer_query]

/-- An item is resolved, and then its job is answered. -/
theorem run_item [Iteration] (o : Options) (item : Item) (s : Symbols) (n : Nat) :
    let r := resolve o item s n
    (((Job.ofItem o item >>= Job.answer).run.run s).run n).1 = (report r.1.1 r.2, r.1.2) := by
  have hresolve : ((Job.ofItem o item).run.run s).run n = resolve o item s n := rfl
  dsimp only
  rw [ExceptT.run_bind, StateT.run_bind, Fresh.run_bind, hresolve]
  rcases resolve o item s n with ⟨⟨d | job, s'⟩, n'⟩
  · rfl
  · exact congrArg Prod.fst (run_answer job s' n')

theorem resolve_ok (o : Options) (c : Command) (s : Symbols) (n : Nat) :
    let r := (Query.ofCommand c).exec s n
    resolve o (.ok c) s n =
      (((r.1.1.mapError Failure.ofResolve).map fun q =>
        (⟨if o.echo then some c.text else none, q⟩ : Job), r.1.2), r.2) := by
  have hrun : (((Query.ofCommand c).adapt Failure.ofResolve : Work _).run.run s).run n =
      ((((Query.ofCommand c).exec s n).1.1.mapError Failure.ofResolve,
        ((Query.ofCommand c).exec s n).1.2), ((Query.ofCommand c).exec s n).2) := rfl
  have hresolve : resolve o (.ok c) s n = ((do
      let q ← (Query.ofCommand c).adapt Failure.ofResolve
      return ⟨if o.echo then some c.text else none, q⟩ : Work Job).run.run s).run n := rfl
  dsimp only
  rw [hresolve, ExceptT.run_bind, StateT.run_bind, Fresh.run_bind, hrun]
  rcases (Query.ofCommand c).exec s n with ⟨⟨d | q, s'⟩, n'⟩ <;> rfl

end Runs

theorem le_run_answer [I : Iteration] (job : Job) (s : Symbols) (n : Nat) :
    n ≤ ((job.answer.run.run s).run n).2 := by
  obtain ⟨echo, query⟩ := job
  cases query with
  | none => exact Nat.le_refl n
  | some q =>
    rw [run_answer_query]
    exact q.le_answer I n

theorem le_run_item [Iteration] (o : Options) (item : Item) (s : Symbols) (n : Nat) :
    (resolve o item s n).2 ≤ (((Job.ofItem o item >>= Job.answer).run.run s).run n).2 := by
  have hresolve : ((Job.ofItem o item).run.run s).run n = resolve o item s n := rfl
  rw [ExceptT.run_bind, StateT.run_bind, Fresh.run_bind, hresolve]
  rcases resolve o item s n with ⟨⟨d | job, s'⟩, n'⟩
  · exact Nat.le_refl n'
  · exact le_run_answer job s' n'

/-- The order of iteration is of no account for an answer. -/
theorem run_answer_iteration (I I' : Iteration) {job : Job} {n : Nat} (hjob : job.Sound n)
    (s : Symbols) :
    ((job.answer (I := I')).run.run s).run n = ((job.answer (I := I)).run.run s).run n := by
  obtain ⟨echo, query⟩ := job
  cases query with
  | none => rfl
  | some q => simp only [run_answer_query, Query.answer_iteration I I' (hjob q rfl)]

/-! ## Forecasts -/

/-- The reports that the items will give, told from resolving alone. -/
def forecast (o : Options) : List Item → Symbols → Nat → List Report
  | [], _, _ => []
  | item :: items, s, n =>
    let r := resolve o item s n
    report r.1.1 r.2 :: forecast o items r.1.2 r.2

/-- Symbols for other identifiers, when all that can be mentioned has been drawn on both sides. -/
structure Follows (s : Symbols) (c : Nat) (s' : Symbols) (c' : Nat) : Prop where
  declared : s.Declared c
  renumbered : ∃ π : Renumbering, π.Increasing ∧ s.Renumbered π s' ∧ ∀ i < c, π i < c'

variable {s s' : Symbols} {c c' : Nat}

theorem Follows.mono (h : Follows s c s' c') {n : Nat} (hn : c' ≤ n) : Follows s c s' n := by
  obtain ⟨π, hincreasing, hπ, hlt⟩ := h.renumbered
  exact ⟨h.declared, π, hincreasing, hπ, fun i hi => Nat.lt_of_lt_of_le (hlt i hi) hn⟩

theorem follows_empty : Follows ∅ 0 ∅ 0 :=
  ⟨Query.declared_empty 0, .identity, inferInstance, fun _ => rfl,
    fun _ hi => absurd hi (Nat.not_lt_zero _)⟩

/-- Symbols are declared and jobs are sound before the next identifier. -/
theorem declared_resolve (h : s.Declared c) (o : Options) (item : Item) :
    let r := resolve o item s c
    r.1.2.Declared r.2 ∧ ∀ job, r.1.1 = .ok job → job.Sound r.2 := by
  cases item with
  | error d =>
    refine ⟨h, ?_⟩
    rintro _ ⟨⟩
  | ok cmd =>
    have hsound : ∀ q, _ → Query.Sound _ q := fun _ => Query.sound_of_ofCommand h.drawn cmd
    have hdeclared := h.ofCommand cmd
    rw [resolve_ok]
    generalize (Query.ofCommand cmd).exec s c = r at hsound hdeclared ⊢
    refine ⟨hdeclared, ?_⟩
    rcases r with ⟨⟨d | q, s₁⟩, n⟩
    · rintro _ ⟨⟩
    · rintro _ ⟨⟩ q' hq
      exact hsound q' (congrArg Except.ok hq)

theorem Job.renumber_congr {π π' : Renumbering} {n : Nat} (h : Renumbering.AgreeBelow n π π')
    {job : Job} (hjob : job.Sound n) : job.renumber π = job.renumber π' := by
  obtain ⟨echo, query⟩ := job
  cases query with
  | none => rfl
  | some q =>
    have hquery := q.renumber_congr h (hjob q rfl).drawnBefore
    exact congrArg (fun q => (⟨echo, some q⟩ : Job)) hquery

/-- Whatever else is drawn, an item is resolved alike, and its job gives the same report whenever
it is answered, with any order of iteration. -/
theorem Follows.resolved (h : Follows s c s' c') {n : Nat} (hn : c' ≤ n) (A : Supply) (o : Options)
    (item : Item) :
    let r := @resolve .consecutive o item s c
    let r' := @resolve A o item s' n
    Follows r.1.2 r.2 r'.1.2 r'.2 ∧ n ≤ r'.2 ∧
      ∀ (B : Supply) (I : Iteration) m, r'.2 ≤ m →
        Results Failure.Variant Eq (@report .consecutive .byKey r.1.1 r.2)
          (@report B I r'.1.1 m) := by
  intro r r'
  obtain ⟨π, hincreasing, hπ, hlt⟩ := (h.mono hn).renumbered
  -- What is known keeps its counterpart; what is drawn from here on comes from `n` on.
  let e := @continuation π A c n hlt
  have hagree : Renumbering.AgreeBelow c π e := fun i hi => (continuation_of_lt hi).symm
  have hsymbols : s.Renumbered e s' := hπ.congr hagree h.declared.drawn
  have hstart : e.toFun c = n := continuation_start
  have hrun : (Results Failure.Variant (Job.renumber e · = ·) r.1.1 r'.1.1 ∧
      r.1.2.Renumbered e r'.1.2) ∧ c ≤ r.2 ∧ r'.2 = e.toFun r.2 := by
    have hmirrors := mirrors_ofItem o item s s' hsymbols c (Nat.le_refl c)
    rw [hstart] at hmirrors
    exact hmirrors
  have hsound : r.1.2.Declared r.2 ∧ ∀ job, r.1.1 = .ok job → job.Sound r.2 :=
    declared_resolve h.declared o item
  clear_value r r'
  obtain ⟨⟨⟨job, t⟩, k⟩, ⟨⟨job', t'⟩, k'⟩⟩ := r, r'
  obtain ⟨⟨hresult, hafter⟩, hle, hnext⟩ := hrun
  obtain ⟨hdeclared, hjobs⟩ := hsound
  dsimp only at *
  have hbelow : ∀ i < k, e.toFun i < k' := fun i hi => hnext ▸ e.strictMono hi
  refine ⟨⟨hdeclared, e, inferInstance, hafter, hbelow⟩, ?_, fun B I m hm => ?_⟩
  · rw [hnext, ← hstart]
    exact e.strictMono.monotone hle
  cases hresult with
  | error hd => exact .error hd
  | @ok job _ hrenumbered =>
    subst hrenumbered
    -- The answer draws from wherever the supply has come to in the meantime.
    have hlater : ∀ i < k, e.toFun i < m := fun i hi => Nat.lt_of_lt_of_le (hbelow i hi) hm
    let e' := @continuation e B k m hlater
    have hagree' : Renumbering.AgreeBelow k e e' := fun i hi => (continuation_of_lt hi).symm
    have hstart' : e'.toFun k = m := continuation_start
    have hanswer := mirrors_answer (e := e') .byKey I (hjobs job rfl) ∅ ∅ (fun _ => rfl) k
      (Nat.le_refl k)
    rw [hstart', ← job.renumber_congr hagree' (hjobs job rfl)] at hanswer
    exact hanswer.1.1

/-- An item that is resolved and answered at once gives the report that was forecast. -/
theorem Follows.answered (h : Follows s c s' c') (o : Options) (item : Item) :
    let r := resolve o item s c
    let q := ((Job.ofItem o item >>= Job.answer).run.run s').run c'
    Results Failure.Variant Eq (report r.1.1 r.2) q.1.1 ∧ Follows r.1.2 r.2 q.1.2 q.2 := by
  obtain ⟨hfollows, -, hreport⟩ := h.resolved (Nat.le_refl c') .consecutive o item
  intro r q
  have hitem : q.1 = (report (resolve o item s' c').1.1 (resolve o item s' c').2,
      (resolve o item s' c').1.2) := run_item o item s' c'
  rw [hitem]
  refine ⟨hreport .consecutive .byKey _ (Nat.le_refl _), hfollows.mono ?_⟩
  exact le_run_item o item s' c'

/-- An item gives the same with any order of iteration in its answer. -/
theorem run_item_iteration (I I' : Iteration) (h : s.Declared c) (o : Options) (item : Item) :
    ((Job.ofItem o item >>= Job.answer (I := I')).run.run s).run c =
      ((Job.ofItem o item >>= Job.answer (I := I)).run.run s).run c := by
  have hresolve : ((Job.ofItem o item).run.run s).run c = resolve o item s c := rfl
  have hsound := (declared_resolve h o item).2
  rw [ExceptT.run_bind, StateT.run_bind, Fresh.run_bind, ExceptT.run_bind, StateT.run_bind,
    Fresh.run_bind, hresolve]
  rcases hrun : resolve o item s c with ⟨⟨d | job, s'⟩, n'⟩
  · rfl
  · rw [hrun] at hsound
    exact run_answer_iteration I I' (hsound job rfl) s'

/-- Symbols stay declared while an item is resolved and answered. -/
theorem declared_of_run_item [I : Iteration] (h : s.Declared c) {o : Options} {item : Item}
    {r : Report} (hrun : ((Job.ofItem o item >>= Job.answer).run.run s).run c = ((r, s'), c')) :
    s'.Declared c' := by
  have hitem := run_item o item s c
  have hle := le_run_item o item s c
  rw [hrun] at hitem hle
  obtain ⟨-, rfl⟩ := Prod.mk.inj hitem
  exact (declared_resolve h o item).1.mono hle

end TermAlgebra.Program
