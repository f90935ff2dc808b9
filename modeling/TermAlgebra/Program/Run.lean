import TermAlgebra.Language.Stream
import TermAlgebra.Program.Options
import TermAlgebra.Query.Basic

/-!
# Running commands

The commands of the sources are resolved in their order. The sequential run writes every answer
as soon as it is known and stops at the first failure; the parallel run answers everything before
it writes, and writes nothing if something fails.
-/

namespace TermAlgebra.Program

open TermAlgebra.Language (Command Cursor)

inductive Failure where
  /-- A source that cannot be read. -/
  | unreadable
  | parse (e : Language.ParseError)
  | scope (e : Query.ScopeError)
  | algebra (e : Query.AlgebraError)

namespace Failure

def message : Failure → Option String
  | unreadable => return "I/O error"
  | parse e => return "parse error: " ++ e.message
  | scope e => return "scope error: " ++ e.message
  | algebra e => e.message

def ofResolve : Query.ResolveError → Failure
  | .scope e => scope e
  | .type e => algebra (.type e)

end Failure

/-- A command, or the failure that stands in its place. -/
abbrev Item := Except Failure Command

namespace Options

/-- The items of a source; none if parsing is left out. -/
def items (o : Options) (source : String) : List Item :=
  let start := if o.omits .parse then Cursor.atEndOf source else Cursor.ofString source
  start.items.map fun i => i.mapError Failure.parse

/-- The items of all sources, with a failure for each that cannot be read. -/
def allItems (o : Options) (sources : List (Option String)) : List Item :=
  sources.flatMap fun source =>
    match source with
    | some s => o.items s
    | none => [throw .unreadable]

/-- The items to process. Without the resolving of names only failures are left. -/
def selected (o : Options) (items : List Item) : List Item :=
  items.filter fun i => !o.omits .scope || !i.toBool

end Options

/-- A resolved command, ready to be answered. -/
structure Job where
  echo : Option String
  query : Option Query

/-- Work on commands that shares the symbols and stops at a failure. -/
abbrev Work := ExceptT Failure (StateT Query.Symbols Fresh)

namespace Job

/-- Resolves an item. -/
def ofItem [Supply] (o : Options) (item : Item) : Work Job := do
  let c ← MonadExcept.ofExcept item
  let query ← (Query.ofCommand c).adapt Failure.ofResolve
  return ⟨if o.echo then some c.text else none, query⟩

/-- The lines to write: the command, if it is asked for, and the answer. -/
def answer [Supply] [I : Iteration] (job : Job) : Work (List String) := do
  let lines ← match job.query with
    | some q => ExceptT.mk (StateT.lift (q.answer.adapt Failure.algebra).run)
    | none => pure []
  return job.echo.toList ++ lines

end Job

/-- What a run wrote, and whether it came to the end. -/
structure Outcome where
  lines : List String
  result : Except Failure Unit

/-- Answers items one by one; what was written before a failure stays. -/
def runSequential [Supply] [I : Iteration] (o : Options) :
    List Item → StateT Query.Symbols Fresh Outcome
  | [] => return ⟨[], return⟩
  | item :: items => do
    match ← (Job.ofItem o item >>= Job.answer).run with
    | .ok lines =>
      let rest ← runSequential o items
      return { rest with lines := lines ++ rest.lines }
    | .error e => return ⟨[], throw e⟩

/-- Resolves all items before the first is answered. -/
def runParallel [Supply] [I : Iteration] (o : Options) (items : List Item) :
    StateT Query.Symbols Fresh Outcome := do
  let jobs ← items.mapM fun item => (Job.ofItem o item).run
  let answers ← jobs.mapM fun job => (ExceptT.mk (pure job) >>= Job.answer).run
  match answers.mapM id with
  | .ok lines => return ⟨lines.flatten, return⟩
  | .error e => return ⟨[], throw e⟩

/-- Processes items from no symbols on. -/
def process (o : Options) (parallel : Bool) (items : List Item) : Outcome :=
  let selected := o.selected items
  let run := if parallel then runParallel o selected else runSequential o selected
  ((run.run ∅).run 0).1.1

/-- Processes sources; a number of jobs, or the default, asks for the parallel run. -/
def run (o : Options) (sources : List (Option String)) : Outcome :=
  process o o.jobs.isSome (o.allItems sources)

end TermAlgebra.Program
