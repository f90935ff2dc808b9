import TermAlgebra.Position

/-!
# Options

The command line: options in any order with the files to process. Arguments are read from left to
right, and reading stops at the first that is wrong or asks for help or the version.
-/

namespace TermAlgebra.Program

/-- A stage of processing. Leaving out a stage leaves out those after it. -/
inductive Stage where
  /-- Parsing; only reading remains. -/
  | parse
  /-- Resolving names and answering queries. -/
  | scope
deriving DecidableEq

namespace Stage

def text : Stage → String
  | parse => "parse"
  | scope => "scope"

/-- A text that names no stage. -/
structure Unknown where
  text : String

def Unknown.message (e : Unknown) : String := "unknown stage: " ++ e.text

def ofText (s : String) : Except Unknown Stage :=
  if s = "parse" then return parse
  else if s = "scope" then return scope
  else throw ⟨s⟩

end Stage

/-- A number, or the default in its place. -/
abbrev Amount := Option Nat

structure Options where
  /-- Print every command before its answer. -/
  echo : Bool := false
  /-- The first stage to leave out. -/
  omitted : Option Stage := none
  /-- How many commands to read in advance. -/
  channelCapacity : Option Amount := none
  /-- How many queries to answer at a time. -/
  jobs : Option Amount := none
  files : List String := []

/-- Why no options are read. -/
inductive Refusal where
  | usage
  /-- A request for help, in full or as a summary. -/
  | help (full : Bool)
  | version
deriving DecidableEq

namespace Options

def omits (o : Options) (s : Stage) : Bool := o.omitted == some s

/-- The options that take a value. -/
inductive Valued where
  | omitted | channelCapacity | jobs

/-- The number in a value; no value stands for the default. -/
def amount : Option String → Except Refusal Amount
  | none => return none
  | some v =>
    match parseIndex? v.toList with
    | some n => return some n
    | none => throw .usage

/-- Sets an option that is not set yet. -/
def setValued (o : Options) (value : Option String) : Valued → Except Refusal Options
  | .omitted =>
    match o.omitted, value.map Stage.ofText with
    | none, some (.ok s) => return { o with omitted := some s }
    | _, _ => throw .usage
  | .channelCapacity =>
    match o.channelCapacity with
    | none => return { o with channelCapacity := some (← amount value) }
    | some _ => throw .usage
  | .jobs =>
    match o.jobs with
    | none => return { o with jobs := some (← amount value) }
    | some _ => throw .usage

/-- Sets an option without a value, if one is waiting. -/
def settle (o : Options) : Option Valued → Except Refusal Options
  | some v => o.setValued none v
  | none => return o

def setEcho (o : Options) : Except Refusal Options :=
  if o.echo then throw .usage else return { o with echo := true }

def addFile (o : Options) (file : String) : Except Refusal Options :=
  if file.isEmpty then throw .usage else return { o with files := o.files ++ [file] }

/-- Reads what follows two hyphens; gives an option that waits for its value. -/
def readLong (o : Options) (name : List Char) (value : Option String) :
    Except Refusal (Options × Option Valued) :=
  let valued (v : Valued) : Except Refusal (Options × Option Valued) :=
    match value with
    | some s => return (← o.setValued (some s) v, none)
    | none => return (o, some v)
  match String.ofList name, value with
  | "echo", none => return (← o.setEcho, none)
  | "help", none => throw (.help true)
  | "version", none => throw .version
  | "omit", _ => valued .omitted
  | "channel-capacity", _ => valued .channelCapacity
  | "jobs", _ => valued .jobs
  | _, _ => throw .usage

/-- Reads what follows one hyphen. The rest behind a letter that takes a value is its value, an
equals sign before it aside. -/
def readShort (o : Options) (letter : Char) (rest : List Char) :
    Except Refusal (Options × Option Valued) :=
  let valued (v : Valued) : Except Refusal (Options × Option Valued) :=
    match rest with
    | [] => return (o, some v)
    | '=' :: cs => return (← o.setValued (some (String.ofList cs)) v, none)
    | cs => return (← o.setValued (some (String.ofList cs)) v, none)
  match letter with
  | 'h' => throw (.help false)
  | 'V' => throw .version
  | 'c' => valued .channelCapacity
  | 'j' => valued .jobs
  | _ => throw .usage

/-- Reads arguments with an option that may wait for its value. Two hyphens alone end the options;
one hyphen alone is a value or a file. -/
def readFrom (o : Options) (waiting : Option Valued) : List String → Except Refusal Options
  | [] => o.settle waiting
  | arg :: args =>
    match arg.toList, waiting with
    | ['-', '-'], _ => do args.foldlM addFile (← o.settle waiting)
    | '-' :: '-' :: cs, _ => do
      let (name, value) := cs.span (· ≠ '=')
      let o ← o.settle waiting
      let (o, waiting) ← o.readLong name (value.tail?.map String.ofList)
      o.readFrom waiting args
    | '-' :: c :: cs, _ => do
      let o ← o.settle waiting
      let (o, waiting) ← o.readShort c cs
      o.readFrom waiting args
    | _, some v => do (← o.setValued (some arg) v).readFrom none args
    | _, none => do (← o.addFile arg).readFrom none args

/-- Reads the arguments of a command line; at least one file is needed. -/
def read (args : List String) : Except Refusal Options := do
  let o ← readFrom {} none args
  if o.files.isEmpty then throw .usage
  return o

end Options

end TermAlgebra.Program
