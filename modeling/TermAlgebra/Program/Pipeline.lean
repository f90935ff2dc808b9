import TermAlgebra.Program.Run

/-!
# Reading in advance

A parser sends items through a channel, and a consumer takes them out while the parser goes on.
The consumer answers them one by one, or it resolves them one by one and lets workers answer them in
any order. A worker draws from the common supply, so that others draw in between. For every answer,
images are iterated in some order of its own.
-/

namespace TermAlgebra.Program

open TermAlgebra.Query (Symbols)

/-! ## Pipelines -/

/-- What takes items out of a channel until it gives an outcome. -/
structure Consumer where
  State : Type
  start : State
  takes : State → Item → State → Prop
  /-- Goes on without another item. -/
  works : State → State → Prop
  /-- Stops, whatever is left. -/
  aborts : State → Outcome → Prop
  /-- Ends when nothing is left. -/
  finishes : State → Outcome → Prop

namespace Consumer

inductive Status (c : Consumer) where
  | running (s : c.State)
  | done (outcome : Outcome)

/-- The items that are still to be read, those in the channel, and the consumer. -/
structure Pipeline (c : Consumer) where
  unread : List Item
  channel : List Item
  status : c.Status

variable {c : Consumer}

def Pipeline.start (c : Consumer) (items : List Item) : c.Pipeline :=
  ⟨items, [], .running c.start⟩

/-- One step of the parser or of the consumer. The channel holds at most so many items, without a
bound if none is given; when it is empty, the consumer may take an item straight from the parser. -/
inductive Step (capacity : Amount) : c.Pipeline → c.Pipeline → Prop
  | send {item : Item} {unread channel : List Item} {status : c.Status}
      (room : ∀ n, capacity = some n → channel.length < n) :
      Step capacity ⟨item :: unread, channel, status⟩ ⟨unread, channel ++ [item], status⟩
  | receive {item : Item} {unread channel : List Item} {s s' : c.State}
      (h : c.takes s item s') :
      Step capacity ⟨unread, item :: channel, .running s⟩ ⟨unread, channel, .running s'⟩
  | handOver {item : Item} {unread : List Item} {s s' : c.State} (h : c.takes s item s') :
      Step capacity ⟨item :: unread, [], .running s⟩ ⟨unread, [], .running s'⟩
  | work {unread channel : List Item} {s s' : c.State} (h : c.works s s') :
      Step capacity ⟨unread, channel, .running s⟩ ⟨unread, channel, .running s'⟩
  | abort {unread channel : List Item} {s : c.State} {outcome : Outcome}
      (h : c.aborts s outcome) :
      Step capacity ⟨unread, channel, .running s⟩ ⟨unread, channel, .done outcome⟩
  | finish {s : c.State} {outcome : Outcome} (h : c.finishes s outcome) :
      Step capacity ⟨[], [], .running s⟩ ⟨[], [], .done outcome⟩

/-- The pipelines that items lead to. -/
inductive Reaches (c : Consumer) (capacity : Amount) (items : List Item) : c.Pipeline → Prop
  | start : Reaches c capacity items (.start c items)
  | step {p p' : c.Pipeline} (h : Reaches c capacity items p) (hstep : Step capacity p p') :
      Reaches c capacity items p'

/-- Some run on the items ends with the outcome. -/
def Yields (c : Consumer) (capacity : Amount) (items : List Item) (outcome : Outcome) : Prop :=
  ∃ unread channel, Reaches c capacity items ⟨unread, channel, .done outcome⟩

/-- Every run ends, and not before it has an outcome. -/
structure Settles (c : Consumer) (capacity : Amount) (items : List Item) : Prop where
  ends : WellFounded fun p' p : c.Pipeline => Step capacity p p'
  progress : ∀ unread channel s, Reaches c capacity items ⟨unread, channel, .running s⟩ →
    ∃ p', Step capacity ⟨unread, channel, .running s⟩ p'

end Consumer

/-- Whether an item is processed. Without the resolving of names only failures are. -/
def Options.selects (o : Options) (item : Item) : Bool := !o.omits .scope || !item.toBool

/-! ## One by one -/

/-- The symbols, the next identifier, the lines that are written, and the item that is taken. -/
structure Sequential where
  symbols : Symbols
  next : Nat
  lines : List String
  current : Option Item

namespace Sequential

inductive Takes : Sequential → Item → Sequential → Prop
  | take {s : Symbols} {n : Nat} {lines : List String} (item : Item) :
      Takes ⟨s, n, lines, none⟩ item ⟨s, n, lines, some item⟩

inductive Works (o : Options) : Sequential → Sequential → Prop
  | skip {s : Symbols} {n : Nat} {lines : List String} {item : Item}
      (h : o.selects item = false) : Works o ⟨s, n, lines, some item⟩ ⟨s, n, lines, none⟩
  | answer {s s' : Symbols} {n n' : Nat} {lines new : List String} {item : Item}
      (I : Iteration) (h : o.selects item)
      (hrun : ((Job.ofItem o item >>= Job.answer (I := I)).run.run s).run n =
        ((.ok new, s'), n')) :
      Works o ⟨s, n, lines, some item⟩ ⟨s', n', lines ++ new, none⟩

inductive Aborts (o : Options) : Sequential → Outcome → Prop
  | fail {s s' : Symbols} {n n' : Nat} {lines : List String} {item : Item} {d : Failure}
      (I : Iteration) (h : o.selects item)
      (hrun : ((Job.ofItem o item >>= Job.answer (I := I)).run.run s).run n =
        ((.error d, s'), n')) :
      Aborts o ⟨s, n, lines, some item⟩ ⟨lines, throw d⟩

inductive Finishes : Sequential → Outcome → Prop
  | finish {s : Symbols} {n : Nat} {lines : List String} :
      Finishes ⟨s, n, lines, none⟩ ⟨lines, return⟩

end Sequential

/-- Answers items one by one; nobody else draws. -/
def sequential (o : Options) : Consumer where
  State := Sequential
  start := ⟨∅, 0, [], none⟩
  takes := Sequential.Takes
  works := Sequential.Works o
  aborts := Sequential.Aborts o
  finishes := Sequential.Finishes

/-! ## With workers -/

/-- What becomes of an item: the lines of its command, or a failure. -/
abbrev Report := Except Failure (List String)

section Reports

variable [Supply]

/-- Resolves an item; gives the job, or a failure, the symbols and the next identifier. -/
def resolve (o : Options) (item : Item) (s : Symbols) (n : Nat) :
    (Except Failure Job × Symbols) × Nat :=
  ((Job.ofItem o item).run.run s).run n

/-- Answers a job, with `n` as the next identifier. -/
def report [I : Iteration] (job : Except Failure Job) (n : Nat) : Report :=
  match job with
  | .ok job => ((job.answer.run.run ∅).run n).1.1
  | .error d => throw d

end Reports

/-- A job with its number, for a worker that draws from `next` on. -/
structure Task where
  index : Nat
  job : Except Failure Job
  next : Nat

/-- The symbols, the next identifier, the item that is taken, the number of jobs, the jobs that no
worker has answered, and the answers in the order of their arrival. -/
structure Parallel where
  symbols : Symbols
  next : Nat
  current : Option Item
  count : Nat
  tasks : List Task
  answers : List (Nat × Report)

namespace Parallel

inductive Takes : Parallel → Item → Parallel → Prop
  | take {s : Symbols} {n count : Nat} {tasks : List Task} {answers : List (Nat × Report)}
      (item : Item) :
      Takes ⟨s, n, none, count, tasks, answers⟩ item ⟨s, n, some item, count, tasks, answers⟩

inductive Works (o : Options) : Parallel → Parallel → Prop
  | skip {s : Symbols} {n count : Nat} {tasks : List Task} {answers : List (Nat × Report)}
      {item : Item} (h : o.selects item = false) :
      Works o ⟨s, n, some item, count, tasks, answers⟩ ⟨s, n, none, count, tasks, answers⟩
  /-- Resolving goes on with any later identifier. -/
  | resolve {s s' : Symbols} {n n' m count : Nat} {tasks : List Task}
      {answers : List (Nat × Report)} {item : Item} {job : Except Failure Job} (A : Supply)
      (h : o.selects item) (hm : n ≤ m)
      (hrun : @Program.resolve A o item s m = ((job, s'), n')) :
      Works o ⟨s, n, some item, count, tasks, answers⟩
        ⟨s', n', none, count + 1, tasks ++ [⟨count, job, n'⟩], answers⟩
  /-- A worker takes any job, and draws what nobody has drawn for it. -/
  | answer {s : Symbols} {n m count : Nat} {current : Option Item} {before after : List Task}
      {task : Task} {answers : List (Nat × Report)} (A : Supply) (I : Iteration)
      (hm : task.next ≤ m) :
      Works o ⟨s, n, current, count, before ++ task :: after, answers⟩
        ⟨s, n, current, count, before ++ after, answers ++ [(task.index, @report A I task.job m)]⟩

/-- A failure of some item ends the run before anything is written. -/
inductive Aborts : Parallel → Outcome → Prop
  | fail {s : Symbols} {n count i : Nat} {current : Option Item} {tasks : List Task}
      {answers : List (Nat × Report)} {d : Failure} (h : (i, .error d) ∈ answers) :
      Aborts ⟨s, n, current, count, tasks, answers⟩ ⟨[], throw d⟩

/-- The lines are written in the order of the jobs. -/
inductive Finishes : Parallel → Outcome → Prop
  | finish {s : Symbols} {n count : Nat} {lines : List (Nat × List String)} :
      Finishes ⟨s, n, none, count, [], lines.map fun p => (p.1, .ok p.2)⟩
        ⟨(lines.mergeSort fun p q => p.1 ≤ q.1).flatMap Prod.snd, return⟩

end Parallel

/-- Resolves items one by one and has workers answer them. -/
def parallel (o : Options) : Consumer where
  State := Parallel
  start := ⟨∅, 0, none, 0, [], []⟩
  takes := Parallel.Takes
  works := Parallel.Works o
  aborts := Parallel.Aborts
  finishes := Parallel.Finishes

/-! ## Modes -/

inductive Mode where
  /-- Without a channel: nothing is sent, and items go straight from the parser to the consumer. -/
  | direct
  /-- One by one, out of a channel. -/
  | channel (capacity : Amount)
  /-- With workers, out of a channel. -/
  | workers (capacity : Amount)

/-- Some run in this mode has the outcome. -/
def Mode.Gives (o : Options) (items : List Item) (outcome : Outcome) : Mode → Prop
  | direct => (sequential o).Yields (some 0) items outcome
  | channel capacity => (sequential o).Yields capacity items outcome
  | workers capacity => (parallel o).Yields capacity items outcome

/-- The mode that the options ask for. A number of jobs, or the default, asks for workers. -/
def Options.mode (o : Options) : Mode :=
  match o.jobs, o.channelCapacity with
  | some _, capacity => .workers (capacity.getD none)
  | none, some capacity => .channel capacity
  | none, none => .direct

end TermAlgebra.Program
