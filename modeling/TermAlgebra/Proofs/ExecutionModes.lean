import TermAlgebra.Proofs.ConsumerRuns

/-!
# Modes of execution

Runs differ in what is drawn when, in which worker answers what, and in the orders of iteration.
None of this is seen in the lines that are written. Main statement: `execution_modes_agree`, all
runs on items that can all be answered write the same lines in every mode, and if some item fails,
it is the first failure that ends the runs without workers, and a failure of some item that ends
those with workers.
-/

namespace TermAlgebra.Program

open TermAlgebra.Language (Expr)
open TermAlgebra.Query (Symbols)

variable {o : Options} {items : List Item}

/-- What the processed items give, one after the other; after a failure the next item goes on with
the symbols that are there. -/
def reports (o : Options) (items : List Item) : List Report :=
  ((((o.selected items).mapM fun item => (Job.ofItem o item >>= Job.answer).run).run ∅).run 0).1.1

/-- The reports of items that are all processed, from some symbols on. -/
def reportsFrom (o : Options) (items : List Item) (s : Symbols) (n : Nat) : List Report :=
  (((items.mapM fun item => (Job.ofItem o item >>= Job.answer).run).run s).run n).1.1

theorem reportsFrom_cons (item : Item) (items : List Item) (s : Symbols) (n : Nat) :
    let q := ((Job.ofItem o item >>= Job.answer).run.run s).run n
    reportsFrom o (item :: items) s n = q.1.1 :: reportsFrom o items q.1.2 q.2 := by
  unfold reportsFrom
  rw [List.mapM_cons]
  rfl

/-- The forecast comes true: the reports are those that are told from the resolving alone. -/
theorem forall₂_forecast {s s' : Symbols} {n n' : Nat} (h : Follows s n s' n')
    (items : List Item) :
    List.Forall₂ Parallel.Agrees (forecast o items s n) (reportsFrom o items s' n') := by
  induction items generalizing s s' n n' with
  | nil => exact .nil
  | cons item items ih =>
    obtain ⟨hagrees, hfollows⟩ := h.answered o item
    rw [reportsFrom_cons]
    exact .cons hagrees (ih hfollows)

/-! ## One by one -/

/-- The lines in front of the first failure, and this failure. -/
def Outcome.ofReports : List Report → Outcome
  | [] => ⟨[], return⟩
  | .ok lines :: rest => Sequential.prepend lines (ofReports rest)
  | .error d :: _ => ⟨[], throw d⟩

theorem Sequential.outcomeFrom_eq (items : List Item) (s : Symbols) (n : Nat) :
    outcomeFrom o items s n = .ofReports (reportsFrom o items s n) := by
  induction items generalizing s n with
  | nil => rfl
  | cons item items ih =>
    rw [reportsFrom_cons]
    rcases hrun : ((Job.ofItem o item >>= Job.answer).run.run s).run n with ⟨⟨d | new, s'⟩, n'⟩
    · rw [outcomeFrom_error items hrun, Outcome.ofReports]
    · rw [outcomeFrom_ok items hrun, Outcome.ofReports, ih]

theorem process_eq (o : Options) (items : List Item) :
    process o false items = .ofReports (reports o items) :=
  Sequential.outcomeFrom_eq (o.selected items) ∅ 0

theorem Outcome.ofReports_lines (lines : List (List String)) :
    ofReports (lines.map .ok) = ⟨lines.flatten, return⟩ := by
  induction lines with
  | nil => rfl
  | cons new lines ih => rw [List.map_cons, ofReports, ih, Sequential.prepend, List.flatten_cons]

theorem Outcome.ofReports_failure (lines : List (List String)) (d : Failure) (rest : List Report) :
    ofReports (lines.map .ok ++ .error d :: rest) = ⟨lines.flatten, throw d⟩ := by
  induction lines with
  | nil => rfl
  | cons new lines ih =>
    rw [List.map_cons, List.cons_append, ofReports, ih, Sequential.prepend, List.flatten_cons]

/-! ## With workers -/

theorem Parallel.eq_of_agrees_lines {lines : List (List String)} {reports : List Report}
    (h : List.Forall₂ Agrees (lines.map .ok) reports) : reports = lines.map .ok := by
  induction lines generalizing reports with
  | nil => exact List.forall₂_nil_left_iff.mp h
  | cons new lines ih =>
    cases h with
    | cons hnew hrest =>
      cases hnew with
      | ok heq => rw [List.map_cons, ← heq, ih hrest]

/-- What a run with workers may give: the lines of all reports, or nothing but a failure that is
reported. -/
theorem Parallel.of_yields_reports {capacity : Amount} {outcome : Outcome}
    (hyields : (parallel o).Yields capacity items outcome) :
    (∃ lines : List (List String), reports o items = lines.map .ok ∧
      outcome = ⟨lines.flatten, return⟩) ∨
    ∃ d d', .error d ∈ reports o items ∧ d'.Alike d ∧ outcome = ⟨[], throw d'⟩ := by
  have hforecast : List.Forall₂ Agrees (forecast o (o.selected items) ∅ 0) (reports o items) :=
    forall₂_forecast follows_empty (o.selected items)
  rcases of_yields hyields with ⟨lines, hlines, rfl⟩ | ⟨d₀, d', hd₀, hvariant, rfl⟩
  · refine .inl ⟨lines, ?_, rfl⟩
    exact eq_of_agrees_lines (hlines ▸ hforecast)
  · obtain ⟨r, hr, hagrees⟩ := Fresh.exists_of_mem_left hforecast hd₀
    cases hagrees with
    | @error _ d hd => exact .inr ⟨d, d', hr, ⟨d₀, hvariant, hd⟩, rfl⟩

/-! ## The parallel run -/

namespace Parallel

variable {capacity : Amount} {s : Symbols} {n count : Nat} {tasks : List Task}
  {answers : List (Nat × Report)}

theorem le_resolve (o : Options) (item : Item) (s : Symbols) (n : Nat) :
    n ≤ (resolve o item s n).2 := by
  have hidentity : s.Renumbered .identity s := by
    intro name
    cases s.get? name with
    | none => rfl
    | some sym => cases sym <;> rfl
  exact (mirrors_ofItem (e := .unmoved n) o item s s hidentity n (Nat.le_refl n)).2.1

/-- Resolves items one by one. -/
def resolveAll (o : Options) (items : List Item) (s : Symbols) (n : Nat) :
    (List (Except Failure Job) × Symbols) × Nat :=
  ((items.mapM fun item => (Job.ofItem o item).run).run s).run n

theorem resolveAll_cons (item : Item) (items : List Item) (s : Symbols) (n : Nat) :
    let r := resolve o item s n
    let q := resolveAll o items r.1.2 r.2
    resolveAll o (item :: items) s n = ((r.1.1 :: q.1.1, q.1.2), q.2) := by
  unfold resolveAll
  rw [List.mapM_cons]
  rfl

/-- The items are handed over and resolved one by one before any job is answered. -/
theorem reaches_resolved (rest : List Item)
    (h : Consumer.Reaches (parallel o) capacity items
      ⟨rest, [], .running ⟨s, n, none, count, tasks, answers⟩⟩) :
    let r := resolveAll o (o.selected rest) s n
    ∃ new : List Task, new.map Task.job = r.1.1 ∧
      new.map Task.index = List.range' count new.length ∧ (∀ t ∈ new, t.next ≤ r.2) ∧ n ≤ r.2 ∧
      Consumer.Reaches (parallel o) capacity items
        ⟨[], [], .running ⟨r.1.2, r.2, none, count + new.length, tasks ++ new, answers⟩⟩ := by
  induction rest generalizing s n count tasks with
  | nil =>
    refine ⟨[], rfl, rfl, nofun, Nat.le_refl n, ?_⟩
    rw [List.append_nil]
    exact h
  | cons item rest ih =>
    -- The channel stays empty, so that it needs no room.
    have htaken := h.step (.handOver (.take item))
    cases hselects : o.selects item with
    | false =>
      rw [Options.selected_cons_of_not_selects rest hselects]
      exact ih (htaken.step (.work (.skip hselects)))
    | true =>
      let r := resolve o item s n
      have hresolved : Consumer.Reaches (parallel o) capacity items ⟨rest, [],
          .running ⟨r.1.2, r.2, none, count + 1, tasks ++ [⟨count, r.1.1, r.2⟩], answers⟩⟩ :=
        htaken.step (.work (.resolve .consecutive hselects (Nat.le_refl n) rfl))
      have hle := le_resolve o item s n
      obtain ⟨new, hjobs, hindices, hnext, hle', hreaches⟩ := ih hresolved
      rw [Options.selected_cons_of_selects rest hselects, resolveAll_cons]
      refine ⟨⟨count, r.1.1, r.2⟩ :: new, ?_, ?_, ?_, ?_, ?_⟩
      · rw [List.map_cons, hjobs]
      · rw [List.map_cons, hindices]
        rfl
      · intro t ht
        rcases List.mem_cons.mp ht with rfl | ht
        · exact hle'
        · exact hnext t ht
      · exact hle.trans hle'
      · have hcount : count + 1 + new.length = count + (new.length + 1) := by omega
        rw [hcount, List.append_assoc] at hreaches
        exact hreaches

/-- Answers jobs one by one. -/
def reportAll (jobs : List (Except Failure Job)) (s : Symbols) (n : Nat) :
    (List Report × Symbols) × Nat :=
  ((jobs.mapM fun job => (ExceptT.mk (pure job) >>= Job.answer).run).run s).run n

theorem reportAll_cons (job : Except Failure Job) (jobs : List (Except Failure Job)) (s : Symbols)
    (n : Nat) :
    ∃ m, n ≤ m ∧ (reportAll (job :: jobs) s n).1.1 = report job n :: (reportAll jobs s m).1.1 := by
  unfold reportAll
  rw [List.mapM_cons]
  cases job with
  | error d => exact ⟨n, Nat.le_refl n, rfl⟩
  | ok job =>
    refine ⟨_, le_run_answer job ∅ n, ?_⟩
    have hanswer : ((ExceptT.mk (pure (.ok job)) >>= Job.answer : Work (List String)).run.run
        s).run n = ((report (.ok job) n, s), ((job.answer.run.run ∅).run n).2) :=
      run_answer job s n
    rw [StateT.run_bind, Fresh.run_bind, hanswer]
    rfl

/-- The jobs are answered one by one in their order. -/
theorem reaches_answered (tasks : List Task) (m : Nat)
    (h : Consumer.Reaches (parallel o) capacity items
      ⟨[], [], .running ⟨s, n, none, count, tasks, answers⟩⟩) (hnext : ∀ t ∈ tasks, t.next ≤ m) :
    Consumer.Reaches (parallel o) capacity items
      ⟨[], [], .running ⟨s, n, none, count, [],
        answers ++ (tasks.map Task.index).zip (reportAll (tasks.map Task.job) s m).1.1⟩⟩ := by
  induction tasks generalizing m answers with
  | nil =>
    rw [List.map_nil, List.zip_nil_left, List.append_nil]
    exact h
  | cons task tasks ih =>
    obtain ⟨k, hk, hreport⟩ := reportAll_cons task.job (tasks.map Task.job) s m
    have hanswer : Works o ⟨s, n, none, count, [] ++ task :: tasks, answers⟩ _ :=
      .answer .consecutive .byKey (hnext task List.mem_cons_self)
    have hreaches := ih k (h.step (.work hanswer)) fun t ht =>
      (hnext t (List.mem_cons_of_mem task ht)).trans hk
    rw [List.map_cons, List.map_cons, hreport, List.zip_cons_cons]
    rw [List.append_assoc] at hreaches
    exact hreaches

theorem length_reportAll (jobs : List (Except Failure Job)) (s : Symbols) (n : Nat) :
    (reportAll jobs s n).1.1.length = jobs.length := by
  induction jobs generalizing n with
  | nil => rfl
  | cons job jobs ih =>
    obtain ⟨m, -, hreport⟩ := reportAll_cons job jobs s n
    rw [hreport, List.length_cons, List.length_cons, ih]

theorem eq_of_mapM_ok {reports : List Report} {lines : List (List String)}
    (h : reports.mapM id = .ok lines) : reports = lines.map .ok := by
  induction reports generalizing lines with
  | nil =>
    cases h
    rfl
  | cons r reports ih =>
    rw [List.mapM_cons] at h
    cases r with
    | error d => cases h
    | ok new =>
      cases hrest : reports.mapM id with
      | error d =>
        rw [hrest] at h
        cases h
      | ok rest =>
        rw [hrest] at h
        cases h
        rw [ih hrest, List.map_cons]

theorem mem_of_mapM_error {reports : List Report} {d : Failure}
    (h : reports.mapM id = .error d) : .error d ∈ reports := by
  induction reports with
  | nil => cases h
  | cons r reports ih =>
    rw [List.mapM_cons] at h
    cases r with
    | error d' =>
      cases h
      exact List.mem_cons_self
    | ok new =>
      cases hrest : reports.mapM id with
      | error d' =>
        rw [hrest] at h
        cases h
        exact List.mem_cons_of_mem _ (ih hrest)
      | ok rest =>
        rw [hrest] at h
        cases h

/-- Lists that are numbered in their order are sorted. -/
theorem flatMap_mergeSort_zip (lines : List (List String)) :
    (((List.range lines.length).zip lines).mergeSort fun p q => p.1 ≤ q.1).flatMap Prod.snd =
      lines.flatten := by
  have hperm : (((List.range lines.length).zip lines).map Prod.fst).Perm
      (List.range lines.length) := by
    rw [List.map_fst_zip (by simp)]
  rw [List.flatMap_def, map_mergeSort_eq hperm]
  intro p hp
  obtain ⟨i, hi, rfl⟩ := List.mem_iff_getElem.mp hp
  simp

/-- All reports of the parallel run. -/
def allReports (o : Options) (items : List Item) : List Report :=
  let r := resolveAll o (o.selected items) ∅ 0
  (reportAll r.1.1 r.1.2 r.2).1.1

theorem process_of_ok {lines : List (List String)}
    (h : (allReports o items).mapM id = .ok lines) :
    process o true items = ⟨lines.flatten, return⟩ := by
  have hprocess : process o true items =
      (((runParallel o (o.selected items)).run ∅).run 0).1.1 := rfl
  rw [hprocess, runParallel, StateT.run_bind, Fresh.run_bind, StateT.run_bind, Fresh.run_bind]
  generalize hm : List.mapM (m := Except Failure) id _ = q
  obtain rfl : q = .ok lines := hm.symm.trans h
  rfl

theorem process_of_error {d : Failure} (h : (allReports o items).mapM id = .error d) :
    process o true items = ⟨[], throw d⟩ := by
  have hprocess : process o true items =
      (((runParallel o (o.selected items)).run ∅).run 0).1.1 := rfl
  rw [hprocess, runParallel, StateT.run_bind, Fresh.run_bind, StateT.run_bind, Fresh.run_bind]
  generalize hm : List.mapM (m := Except Failure) id _ = q
  obtain rfl : q = .error d := hm.symm.trans h
  rfl

/-- The parallel run is a run with workers, at any capacity. -/
theorem yields_process (o : Options) (capacity : Amount) (items : List Item) :
    (parallel o).Yields capacity items (process o true items) := by
  obtain ⟨tasks, hjobs, hindices, hnext, -, hreaches⟩ :=
    reaches_resolved items (.start : Consumer.Reaches (parallel o) capacity items _)
  have hanswered := reaches_answered tasks _ hreaches hnext
  have hlength : tasks.length = (allReports o items).length := by
    rw [allReports, length_reportAll, ← hjobs, List.length_map]
  rw [hjobs, hindices, List.nil_append, ← List.range_eq_range', hlength] at hanswered
  obtain ⟨s, n, count, hend⟩ : ∃ s n count, Consumer.Reaches (parallel o) capacity items
      ⟨[], [], .running ⟨s, n, none, count, [],
        (List.range (allReports o items).length).zip (allReports o items)⟩⟩ :=
    ⟨_, _, _, hanswered⟩
  cases hm : (allReports o items).mapM id with
  | ok lines =>
    have hlines := eq_of_mapM_ok hm
    rw [hlines, List.length_map, List.zip_map_right] at hend
    rw [process_of_ok hm, ← flatMap_mergeSort_zip]
    exact ⟨[], [], hend.step (.finish .finish)⟩
  | error d =>
    rw [process_of_error hm]
    obtain ⟨i, hi, hd⟩ := List.mem_iff_getElem.mp (mem_of_mapM_error hm)
    have hfails : (i, .error d) ∈
        (List.range (allReports o items).length).zip (allReports o items) :=
      List.mem_iff_getElem.mpr ⟨i, by simpa using hi, by simp [hd]⟩
    exact ⟨[], [], hend.step (.abort (.fail hfails))⟩

end Parallel

/-! ## All modes -/

theorem Sequential.yields_process (o : Options) (capacity : Amount) (items : List Item) :
    (sequential o).Yields capacity items (process o false items) := by
  obtain ⟨outcome, hyields⟩ := (settles o capacity items).exists_outcome
  exact eq_process_of_yields hyields ▸ hyields

/-- If all processed items give lines, every run in every mode writes just these lines. If some
fail, the runs that answer one by one write the lines in front of the first failure and end with it;
runs with workers write nothing and end with the failure of some item, which may be stated for other
identifiers and reads the same. All runs come to an end, with or without workers, and those of the
program are among them. -/
theorem execution_modes_agree (o : Options) (items : List Item) :
    (∀ lines : List (List String), reports o items = lines.map .ok →
      ∀ (mode : Mode) (outcome : Outcome), mode.Gives o items outcome →
        outcome = ⟨lines.flatten, return⟩) ∧
    (∀ (lines : List (List String)) (d : Failure) (rest : List Report),
      reports o items = lines.map .ok ++ .error d :: rest →
      (∀ outcome, Mode.direct.Gives o items outcome → outcome = ⟨lines.flatten, throw d⟩) ∧
      (∀ capacity outcome, (Mode.channel capacity).Gives o items outcome →
        outcome = ⟨lines.flatten, throw d⟩) ∧
      ∀ capacity outcome, (Mode.workers capacity).Gives o items outcome →
        ∃ e e', outcome = ⟨[], throw e⟩ ∧ .error e' ∈ reports o items ∧ e.Alike e' ∧
          e.message = e'.message) ∧
    Mode.direct.Gives o items (process o false items) ∧
    ∀ capacity, (sequential o).Settles capacity items ∧ (parallel o).Settles capacity items ∧
      (Mode.channel capacity).Gives o items (process o false items) ∧
      (Mode.workers capacity).Gives o items (process o true items) := by
  refine ⟨fun lines hreports => ?_, fun lines d rest hreports => ?_,
    Sequential.yields_process o _ items, fun capacity => ?_⟩
  · have hprocess : process o false items = ⟨lines.flatten, return⟩ := by
      rw [process_eq, hreports, Outcome.ofReports_lines]
    rintro (_ | capacity | capacity) outcome hgives
    · exact (Sequential.eq_process_of_yields hgives).trans hprocess
    · exact (Sequential.eq_process_of_yields hgives).trans hprocess
    · rcases Parallel.of_yields_reports hgives with ⟨lines', hlines', rfl⟩ | ⟨e', e, he', -, rfl⟩
      · have hsame : lines' = lines :=
          List.map_injective_iff.mpr (fun _ _ h => Except.ok.inj h) (hlines'.symm.trans hreports)
        rw [hsame]
      · rw [hreports] at he'
        simp at he'
  · have hprocess : process o false items = ⟨lines.flatten, throw d⟩ := by
      rw [process_eq, hreports, Outcome.ofReports_failure]
    have hsequential : ∀ {capacity outcome}, (sequential o).Yields capacity items outcome →
        outcome = ⟨lines.flatten, throw d⟩ :=
      fun hgives => (Sequential.eq_process_of_yields hgives).trans hprocess
    refine ⟨fun outcome => hsequential, fun capacity outcome => hsequential,
      fun capacity outcome hgives => ?_⟩
    rcases Parallel.of_yields_reports hgives with ⟨lines', hlines', -⟩ | ⟨e', e, he', halike, rfl⟩
    · have hd : .error d ∈ reports o items := hreports ▸ List.mem_append_right _ List.mem_cons_self
      rw [hlines'] at hd
      simp at hd
    · exact ⟨e, e', rfl, he', halike, halike.message⟩
  · exact ⟨Sequential.settles o capacity items, Parallel.settles o capacity items,
      Sequential.yields_process o capacity items, Parallel.yields_process o capacity items⟩

/-- A pattern is refused, and a later command mentions a name that is not declared. -/
def failingItems : List Item :=
  let (o, a) := (SimpleType.base "o", Expr.name "a")
  [.ok (.const "a" o), .ok (.var "X" o), .ok (.metaVar "Z" [o] o), .ok (.alpha a a),
    .ok (.matching (.metaApp "Z" [.name "X"]) a), .ok (.positions (.name "b")), .ok (.alpha a a)]

/-- On their own, the first four commands are written with their answers in every mode. With the
others behind them they still are if they are answered one by one, and nothing is written if workers
answer them. -/
theorem modes_agree_on_failingItems :
    let o : Options := { echo := true }
    let lines := [["a : o."], ["var X : o."], ["meta Z : [o] -> o."], ["alpha a with a.", "true"]]
    (reports o (failingItems.take 4) = lines.map .ok ∧
      ∀ (mode : Mode) (outcome : Outcome), mode.Gives o (failingItems.take 4) outcome →
        outcome = ⟨lines.flatten, return⟩) ∧
    ∃ d rest, reports o failingItems = lines.map .ok ++ .error d :: rest ∧
      (∀ capacity outcome, (Mode.channel capacity).Gives o failingItems outcome →
        outcome = ⟨lines.flatten, throw d⟩) ∧
      ∀ capacity outcome, (Mode.workers capacity).Gives o failingItems outcome →
        ∃ e e', outcome = ⟨[], throw e⟩ ∧ .error e' ∈ reports o failingItems ∧ e.Alike e' ∧
          e.message = e'.message := by
  intro o lines
  have hlines : reports o (failingItems.take 4) = lines.map .ok := by cbv
  have hall := (execution_modes_agree o (failingItems.take 4)).1 lines hlines
  let type := SimpleType.base "o"
  let pattern : Term := .metaApp ⟨1, "Z", [type], type⟩ [.var ⟨0, "X", type, false⟩]
  have hreports : reports o failingItems = lines.map .ok ++
      .error (.algebra (.pattern ⟨pattern, .arguments⟩)) ::
        [.error (.scope (.undeclared "b")), .ok ["alpha a with a.", "true"]] := by cbv
  have hmodes := (execution_modes_agree o failingItems).2.1 lines _ _ hreports
  exact ⟨⟨hlines, hall⟩, _, _, hreports, hmodes.2⟩

/-- The program runs in the mode that its options ask for. -/
theorem run_given (o : Options) (sources : List (Option String)) :
    o.mode.Gives o (o.allItems sources) (run o sources) := by
  unfold run Options.mode
  cases o.jobs with
  | some jobs => exact Parallel.yields_process o _ _
  | none =>
    cases o.channelCapacity with
    | some capacity => exact Sequential.yields_process o capacity _
    | none => exact Sequential.yields_process o _ _

end TermAlgebra.Program
