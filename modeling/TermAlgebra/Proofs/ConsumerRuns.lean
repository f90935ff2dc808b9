import Mathlib.Data.List.Sort
import TermAlgebra.Proofs.PipelineRuns
import TermAlgebra.Proofs.Reports

/-!
# Runs of the consumers

The consumer that answers items one by one does what the sequential run does, whatever the orders of
iteration in its answers are. The consumer with workers keeps an answer or a job for every item, and
the answers are those that were forecast; sorted by their numbers, they come in the order of the
items.
-/

namespace TermAlgebra.Program

open TermAlgebra.Query (Symbols)

variable {o : Options}

theorem Options.selected_append (xs ys : List Item) :
    o.selected (xs ++ ys) = o.selected xs ++ o.selected ys := List.filter_append xs ys

theorem Options.selected_cons_of_selects {item : Item} (items : List Item) (h : o.selects item) :
    o.selected (item :: items) = item :: o.selected items := List.filter_cons_of_pos h

theorem Options.selected_cons_of_not_selects {item : Item} (items : List Item)
    (h : o.selects item = false) : o.selected (item :: items) = o.selected items :=
  List.filter_cons_of_neg (ne_of_eq_of_ne h Bool.false_ne_true)

theorem Options.selected_of_selects {item : Item} (h : o.selects item) :
    o.selected [item] = [item] := selected_cons_of_selects [] h

theorem Options.selected_of_not_selects {item : Item} (h : o.selects item = false) :
    o.selected [item] = [] := selected_cons_of_not_selects [] h

/-! ## One by one -/

namespace Sequential

/-- What the sequential run gives from some symbols on. -/
def outcomeFrom (o : Options) (items : List Item) (s : Symbols) (n : Nat) : Outcome :=
  (((runSequential o items).run s).run n).1.1

/-- Puts lines in front of those of an outcome. -/
def prepend (lines : List String) (outcome : Outcome) : Outcome :=
  { outcome with lines := lines ++ outcome.lines }

variable {s s' : Symbols} {n n' : Nat} {item : Item}

theorem outcomeFrom_ok {new : List String} (items : List Item)
    (hrun : ((Job.ofItem o item >>= Job.answer).run.run s).run n = ((.ok new, s'), n')) :
    outcomeFrom o (item :: items) s n = prepend new (outcomeFrom o items s' n') := by
  rw [outcomeFrom, runSequential, StateT.run_bind, Fresh.run_bind, hrun]
  rfl

theorem outcomeFrom_error {d : Failure} (items : List Item)
    (hrun : ((Job.ofItem o item >>= Job.answer).run.run s).run n = ((.error d, s'), n')) :
    outcomeFrom o (item :: items) s n = ⟨[], throw d⟩ := by
  rw [outcomeFrom, runSequential, StateT.run_bind, Fresh.run_bind, hrun]
  rfl

/-- The items in front of the current one have been answered, so that what is left for the
sequential run is what is left for the consumer. -/
def Tracks (o : Options) (taken : List Item) (s : Sequential) : Prop :=
  s.symbols.Declared s.next ∧ ∃ done, taken = done ++ s.current.toList ∧ ∀ rest,
    outcomeFrom o (o.selected done ++ rest) ∅ 0 =
      prepend s.lines (outcomeFrom o rest s.symbols s.next)

theorem keeps_tracks (o : Options) : (sequential o).Keeps (Tracks o) where
  start := ⟨Query.declared_empty 0, [], rfl, fun _ => rfl⟩
  takes := by
    rintro taken _ item _ ⟨hdeclared, done, rfl, hdone⟩ ⟨⟩
    exact ⟨hdeclared, done, by simp, hdone⟩
  works := by
    rintro taken _ _ ⟨hdeclared, done, rfl, hdone⟩ hworks
    cases hworks with
    | @skip s n lines item h =>
      refine ⟨hdeclared, done ++ [item], by simp, fun rest => ?_⟩
      rw [Options.selected_append, Options.selected_of_not_selects h, List.append_nil]
      exact hdone rest
    | @answer s s' n n' lines new item I h hrun =>
      dsimp only at hdeclared
      rw [run_item_iteration .byKey I hdeclared] at hrun
      have hafter : s'.Declared n' := declared_of_run_item (I := .byKey) hdeclared hrun
      refine ⟨hafter, done ++ [item], by simp, fun rest => ?_⟩
      rw [Options.selected_append, Options.selected_of_selects h, List.append_assoc,
        List.singleton_append, hdone, outcomeFrom_ok rest hrun, prepend, prepend, prepend,
        List.append_assoc]

/-- Out of a channel or without one, the items give the outcome of the sequential run. -/
theorem eq_process_of_yields {capacity : Amount} {items : List Item} {outcome : Outcome}
    (hyields : (sequential o).Yields capacity items outcome) :
    outcome = process o false items := by
  obtain ⟨taken, rest, s, rfl, ⟨hdeclared, done, rfl, hdone⟩, hends⟩ :=
    (keeps_tracks o).yields hyields
  change outcome = outcomeFrom o (o.selected _) ∅ 0
  rcases hends with haborts | ⟨rfl, hfinishes⟩
  · cases haborts with
    | @fail s s' n n' lines item d I h hrun =>
      dsimp only at hdeclared
      rw [run_item_iteration .byKey I hdeclared] at hrun
      rw [List.append_assoc, Options.selected_append, Option.toList_some, hdone,
        Options.selected_append, Options.selected_of_selects h, List.singleton_append,
        outcomeFrom_error _ hrun, prepend, List.append_nil]
  · cases hfinishes with
    | @finish s n lines =>
      have hall := hdone []
      rw [List.append_nil] at hall
      rw [List.append_nil, Option.toList_none, List.append_nil, hall]
      exact congrArg (fun l => (⟨l, return⟩ : Outcome)) (List.append_nil lines).symm

theorem live (o : Options) (taken : List Item) (s : Sequential) (_ : Tracks o taken s) :
    (sequential o).Live s := by
  obtain ⟨symbols, n, lines, current⟩ := s
  cases current with
  | none => exact .inr (.inr ⟨fun item => ⟨_, .take item⟩, _, .finish⟩)
  | some item =>
    cases hselects : o.selects item with
    | false => exact .inl ⟨_, .skip hselects⟩
    | true =>
      rcases hrun : ((Job.ofItem o item >>= Job.answer).run.run symbols).run n with
        ⟨⟨d | new, s'⟩, n'⟩
      · exact .inr (.inl ⟨_, .fail .byKey hselects hrun⟩)
      · exact .inl ⟨_, .answer .byKey hselects hrun⟩

def load (s : Sequential) : Nat := s.current.toList.length

theorem load_steps (o : Options) : (sequential o).Load load where
  takes := by
    rintro _ item _ ⟨⟩
    simp [load]
  works := by
    rintro _ _ hworks
    cases hworks <;> simp [load]

theorem settles (o : Options) (capacity : Amount) (items : List Item) :
    (sequential o).Settles capacity items :=
  (keeps_tracks o).settles (live o) (load_steps o) capacity items

end Sequential

/-! ## With workers -/

theorem forecast_selected_append {done : List Item} {reports : List Report} {s : Symbols} {n : Nat}
    (h : ∀ rest, forecast o (o.selected done ++ rest) ∅ 0 = reports ++ forecast o rest s n)
    (item : Item) (hselects : o.selects item) (rest : List Item) :
    forecast o (o.selected (done ++ [item]) ++ rest) ∅ 0 =
      (reports ++ [report (resolve o item s n).1.1 (resolve o item s n).2]) ++
        forecast o rest (resolve o item s n).1.2 (resolve o item s n).2 := by
  rw [Options.selected_append, Options.selected_of_selects hselects, List.append_assoc,
    List.singleton_append, h, List.append_assoc, List.singleton_append, forecast]

namespace Parallel

/-- The two reports are the same lines, or the same failure for other identifiers. -/
abbrev Agrees (r r' : Report) : Prop := Results Failure.Variant Eq r r'

/-- What holds when the given items are resolved and some of them are answered. -/
structure Tracks (o : Options) (done : List Item) (reports : List Report) (symbols : Symbols)
    (next : Nat) (s : Parallel) : Prop where
  forecast : ∀ rest, forecast o (o.selected done ++ rest) ∅ 0 =
    reports ++ Program.forecast o rest symbols next
  follows : Follows symbols next s.symbols s.next
  count : reports.length = s.count
  /-- Whoever answers a job, whatever else is drawn and in whatever order images are iterated, gives
  the report. -/
  tasks : ∀ t ∈ s.tasks, ∃ r, reports[t.index]? = some r ∧
    ∀ (B : Supply) (I : Iteration) m, t.next ≤ m → Agrees r (@report B I t.job m)
  answers : ∀ a ∈ s.answers, ∃ r, reports[a.1]? = some r ∧ Agrees r a.2
  /-- Every item has one job or one answer. -/
  perm : (s.tasks.map Task.index ++ s.answers.map Prod.fst).Perm (List.range s.count)

def Tracked (o : Options) (taken : List Item) (s : Parallel) : Prop :=
  ∃ done reports symbols next, taken = done ++ s.current.toList ∧
    Tracks o done reports symbols next s

theorem tracked_start (o : Options) : Tracked o [] (parallel o).start :=
  ⟨[], [], ∅, 0, rfl, fun _ => rfl, follows_empty, rfl, nofun, nofun, List.Perm.refl _⟩

variable {done : List Item} {reports : List Report} {symbols s s' : Symbols}
  {next n n' m count : Nat} {item : Item} {tasks before after : List Task} {task : Task}
  {current : Option Item} {answers : List (Nat × Report)} {job : Except Failure Job}

/-- Another item is resolved. -/
theorem Tracks.resolve
    (h : Tracks o done reports symbols next ⟨s, n, some item, count, tasks, answers⟩)
    (hselects : o.selects item) (hm : n ≤ m) {A : Supply}
    (hrun : @Program.resolve A o item s m = ((job, s'), n')) :
    let r := @Program.resolve .consecutive o item symbols next
    Tracks o (done ++ [item]) (reports ++ [@report .consecutive .byKey r.1.1 r.2]) r.1.2 r.2
      ⟨s', n', none, count + 1, tasks ++ [⟨count, job, n'⟩], answers⟩ := by
  intro r
  obtain ⟨hfollows, hle, hreport⟩ := h.follows.resolved hm A o item
  rw [hrun] at hfollows hle hreport
  have hcount := h.count
  dsimp only at hcount
  have hold : ∀ {i : Nat} {r r' : Report}, reports[i]? = some r →
      (reports ++ [r'])[i]? = some r := by
    intro i r r' hi
    obtain ⟨hlt, -⟩ := List.getElem?_eq_some_iff.mp hi
    rw [List.getElem?_append_left hlt, hi]
  refine ⟨forecast_selected_append h.forecast item hselects, hfollows, ?_, ?_, ?_, ?_⟩
  · simp [hcount]
  · intro t ht
    rcases List.mem_append.mp ht with ht | ht
    · obtain ⟨r, hr, hagrees⟩ := h.tasks t ht
      exact ⟨r, hold hr, hagrees⟩
    · obtain rfl := List.mem_singleton.mp ht
      refine ⟨_, ?_, hreport⟩
      rw [← hcount]
      exact List.getElem?_concat_length
  · intro a ha
    obtain ⟨r, hr, hagrees⟩ := h.answers a ha
    exact ⟨r, hold hr, hagrees⟩
  · have hperm := h.perm
    dsimp only at hperm ⊢
    -- The new job has the next number.
    rw [List.range_succ, List.map_append, List.append_assoc]
    refine (List.perm_append_comm.append_left _).trans ?_
    rw [← List.append_assoc]
    exact hperm.append_right [count]

/-- A worker answers a job. -/
theorem Tracks.answer
    (h : Tracks o done reports symbols next
      ⟨s, n, current, count, before ++ task :: after, answers⟩)
    (A : Supply) (I : Iteration) (hm : task.next ≤ m) :
    Tracks o done reports symbols next
      ⟨s, n, current, count, before ++ after,
        answers ++ [(task.index, @report A I task.job m)]⟩ := by
  refine ⟨h.forecast, h.follows, h.count, ?_, ?_, ?_⟩
  · intro t ht
    refine h.tasks t ?_
    rcases List.mem_append.mp ht with ht | ht
    · exact List.mem_append_left _ ht
    · exact List.mem_append_right _ (List.mem_cons_of_mem task ht)
  · intro a ha
    rcases List.mem_append.mp ha with ha | ha
    · exact h.answers a ha
    · obtain rfl := List.mem_singleton.mp ha
      obtain ⟨r, hr, hagrees⟩ := h.tasks task (List.mem_append_right _ List.mem_cons_self)
      exact ⟨r, hr, hagrees A I m hm⟩
  · have hperm := h.perm
    simp only [List.map_append, List.map_cons, List.map_nil] at hperm ⊢
    refine List.Perm.trans ?_ hperm
    rw [← List.append_assoc]
    refine (List.perm_append_singleton _ _).trans ?_
    exact (List.perm_middle.symm.append_right _)

/-- An item that is not processed is of no account. -/
theorem Tracks.skip
    (h : Tracks o done reports symbols next ⟨s, n, some item, count, tasks, answers⟩)
    (hselects : o.selects item = false) :
    Tracks o (done ++ [item]) reports symbols next ⟨s, n, none, count, tasks, answers⟩ := by
  refine { h with forecast := fun rest => ?_ }
  rw [Options.selected_append, Options.selected_of_not_selects hselects, List.append_nil]
  exact h.forecast rest

theorem keeps_tracked (o : Options) : (parallel o).Keeps (Tracked o) where
  start := tracked_start o
  takes := by
    rintro taken _ item _ ⟨done, reports, symbols, next, rfl, hdone⟩ ⟨⟩
    exact ⟨done, reports, symbols, next, by simp, { hdone with }⟩
  works := by
    rintro taken _ _ ⟨done, reports, symbols, next, rfl, hdone⟩ hworks
    cases hworks with
    | @skip s n count tasks answers item h => exact ⟨_, _, _, _, by simp, hdone.skip h⟩
    | @resolve s s' n n' m count tasks answers item job A h hm hrun =>
      exact ⟨_, _, _, _, by simp, hdone.resolve h hm hrun⟩
    | @answer s n m count current before after task answers A I hm =>
      exact ⟨_, _, _, _, rfl, hdone.answer A I hm⟩

/-- Numbered lists that are sorted by their numbers come in the order of the numbers. -/
theorem map_mergeSort_eq {α : Type} {ps : List (Nat × α)} {xs : List α}
    (hperm : (ps.map Prod.fst).Perm (List.range xs.length))
    (hget : ∀ p ∈ ps, xs[p.1]? = some p.2) :
    (ps.mergeSort fun p q => p.1 ≤ q.1).map Prod.snd = xs := by
  have hsorted : (ps.mergeSort fun p q => p.1 ≤ q.1).Pairwise fun p q => p.1 ≤ q.1 := by
    have htrans : ∀ p q r : Nat × α, decide (p.1 ≤ q.1) → decide (q.1 ≤ r.1) →
        decide (p.1 ≤ r.1) := by
      intro p q r hpq hqr
      exact decide_eq_true (Nat.le_trans (of_decide_eq_true hpq) (of_decide_eq_true hqr))
    have htotal : ∀ p q : Nat × α, decide (p.1 ≤ q.1) || decide (q.1 ≤ p.1) := by
      intro p q
      rw [Bool.or_eq_true, decide_eq_true_iff, decide_eq_true_iff]
      exact Nat.le_total p.1 q.1
    exact (List.pairwise_mergeSort htrans htotal ps).imp fun h => of_decide_eq_true h
  have hindices : (ps.mergeSort fun p q => p.1 ≤ q.1).map Prod.fst = List.range xs.length := by
    refine List.Perm.eq_of_pairwise (fun i j _ _ => Nat.le_antisymm)
      (List.pairwise_map.mpr hsorted) List.pairwise_le_range ?_
    exact ((List.mergeSort_perm ps _).map Prod.fst).trans hperm
  have hget' : (ps.mergeSort fun p q => p.1 ≤ q.1).map (fun p => some p.2) =
      (ps.mergeSort fun p q => p.1 ≤ q.1).map fun p => xs[p.1]? :=
    List.map_congr_left fun p hp => (hget p ((List.mergeSort_perm ps _).mem_iff.mp hp)).symm
  have hrange : (List.range xs.length).map (xs[·]?) = xs.map some :=
    List.ext_getElem (by simp) fun i hi _ => by simp
  refine List.map_injective_iff.mpr (Option.some_injective α) ?_
  calc ((ps.mergeSort fun p q => p.1 ≤ q.1).map Prod.snd).map some
    _ = (ps.mergeSort fun p q => p.1 ≤ q.1).map fun p => xs[p.1]? := by
        rw [List.map_map, ← hget']
        rfl
    _ = ((ps.mergeSort fun p q => p.1 ≤ q.1).map Prod.fst).map (xs[·]?) := by
        rw [List.map_map]
        rfl
    _ = xs.map some := by rw [hindices, hrange]

/-- The answers are there, and they are the forecast. -/
theorem Tracks.finish {lines : List (Nat × List String)}
    (h : Tracks o done reports symbols next
      ⟨s, n, none, count, [], lines.map fun p => (p.1, .ok p.2)⟩) :
    reports = ((lines.mergeSort fun p q => p.1 ≤ q.1).map Prod.snd).map .ok := by
  have hperm := h.perm
  rw [← h.count] at hperm
  have hget : ∀ a ∈ lines.map fun p => (p.1, (.ok p.2 : Report)), reports[a.1]? = some a.2 := by
    intro a ha
    obtain ⟨r, hr, hagrees⟩ := h.answers a ha
    obtain ⟨p, -, rfl⟩ := List.mem_map.mp ha
    cases hagrees with
    | ok hlines => exact hlines ▸ hr
  have hsort := List.map_mergeSort (r := fun p q : Nat × List String => decide (p.1 ≤ q.1))
    (s := fun p q : Nat × Report => decide (p.1 ≤ q.1)) (f := fun p => (p.1, (.ok p.2 : Report)))
    (l := lines) fun p _ q _ => rfl
  rw [← map_mergeSort_eq hperm hget, ← hsort, List.map_map, List.map_map]
  rfl

/-- What a run with workers may give: the lines that were forecast, or nothing but a failure that
was forecast. -/
theorem of_yields {capacity : Amount} {items : List Item} {outcome : Outcome}
    (hyields : (parallel o).Yields capacity items outcome) :
    (∃ lines : List (List String), forecast o (o.selected items) ∅ 0 = lines.map .ok ∧
      outcome = ⟨lines.flatten, return⟩) ∨
    ∃ d d', .error d ∈ forecast o (o.selected items) ∅ 0 ∧ d.Variant d' ∧
      outcome = ⟨[], throw d'⟩ := by
  obtain ⟨taken, rest, s, rfl, ⟨done, reports, symbols, next, rfl, hdone⟩, hends⟩ :=
    (keeps_tracked o).yields hyields
  rcases hends with haborts | ⟨rfl, hfinishes⟩
  · cases haborts with
    | @fail s n count i current tasks answers d' hfails =>
      obtain ⟨r, hr, hagrees⟩ := hdone.answers _ hfails
      cases hagrees with
      | @error d _ hvariant =>
        refine .inr ⟨d, d', ?_, hvariant, rfl⟩
        rw [List.append_assoc, Options.selected_append, hdone.forecast]
        exact List.mem_append_left _ (List.mem_of_getElem? hr)
  · cases hfinishes with
    | @finish s n count lines =>
      refine .inl ⟨_, ?_, congrArg (fun l => (⟨l, return⟩ : Outcome)) List.flatMap_def⟩
      have hall := hdone.forecast []
      rw [List.append_nil] at hall
      rw [List.append_nil, Option.toList_none, List.append_nil, hall, ← hdone.finish]
      exact List.append_nil reports

theorem exists_failure_or_lines (answers : List (Nat × Report)) :
    (∃ i d, (i, .error d) ∈ answers) ∨
      ∃ lines : List (Nat × List String), answers = lines.map fun p => (p.1, .ok p.2) := by
  induction answers with
  | nil => exact .inr ⟨[], rfl⟩
  | cons a answers ih =>
    obtain ⟨i, d | new⟩ := a
    · exact .inl ⟨i, d, List.mem_cons_self⟩
    · rcases ih with ⟨j, d, hfails⟩ | ⟨lines, rfl⟩
      · exact .inl ⟨j, d, List.mem_cons_of_mem _ hfails⟩
      · exact .inr ⟨(i, new) :: lines, rfl⟩

theorem live (o : Options) (taken : List Item) (s : Parallel) (_ : Tracked o taken s) :
    (parallel o).Live s := by
  obtain ⟨symbols, n, current, count, tasks, answers⟩ := s
  cases current with
  | some item =>
    cases hselects : o.selects item with
    | false => exact .inl ⟨_, .skip hselects⟩
    | true => exact .inl ⟨_, .resolve .consecutive hselects (Nat.le_refl n) rfl⟩
  | none =>
    cases tasks with
    | cons task tasks =>
      have hanswer : Works o ⟨symbols, n, none, count, [] ++ task :: tasks, answers⟩ _ :=
        .answer .consecutive .byKey (Nat.le_refl task.next)
      exact .inl ⟨_, hanswer⟩
    | nil =>
      -- All jobs are answered; the run ends with a failure or with all the lines.
      rcases exists_failure_or_lines answers with ⟨i, d, hfails⟩ | ⟨lines, rfl⟩
      · exact .inr (.inl ⟨_, .fail hfails⟩)
      · exact .inr (.inr ⟨fun item => ⟨_, .take item⟩, _, .finish⟩)

def load (s : Parallel) : Nat := 2 * s.current.toList.length + s.tasks.length

theorem load_steps (o : Options) : (parallel o).Load load where
  takes := by
    rintro _ item _ ⟨⟩
    simp only [load, Option.toList_none, Option.toList_some, List.length_nil, List.length_cons]
    omega
  works := by
    rintro _ _ hworks
    cases hworks <;> simp only [load, Option.toList_none, Option.toList_some, List.length_nil,
      List.length_cons, List.length_append] <;> omega

theorem settles (o : Options) (capacity : Amount) (items : List Item) :
    (parallel o).Settles capacity items :=
  (keeps_tracked o).settles (live o) (load_steps o) capacity items

end Parallel

end TermAlgebra.Program
