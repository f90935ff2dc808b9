import TermAlgebra.Program.Options

/-!
# Help

What the program prints about itself.
-/

namespace TermAlgebra.Program

def versionText : String := "coramatch 0.1.0"

/-- An argument or option: how it is written, its summary, and further paragraphs. -/
structure HelpEntry where
  usage : String
  summary : String
  details : List String

def fileHelp : HelpEntry :=
  ⟨"<FILE>...", "Files to process (cumulative)",
    ["Declarations of one file remain visible in all following files. " ++
      "To read from standard input, use \"-\" as file name."]⟩

def optionHelp (full : Bool) : List HelpEntry :=
  [⟨"    --echo", "Print every command before its answer", []⟩,
    ⟨"    --omit <OMIT>", "Perform only operations until (excluding) the given stage" ++
      (if full then "." else ""), ["Possible values are: parse, scope."]⟩,
    ⟨"-c, --channel-capacity [<CHANNEL_CAPACITY>]",
      "Parse given number of commands in advance (∞ if argument omitted)",
      ["If this option is used, commands are parsed and answered simultaneously. " ++
        "If this option is given with a number n, then maximally n commands are parsed in " ++
        "advance. If this option is given without an extra argument, then the number of " ++
        "commands parsed in advance is unbounded."]⟩,
    ⟨"-j, --jobs [<JOBS>]", "Answer queries concurrently",
      ["If this option is used, queries are answered in parallel, and answers are printed in " ++
        "the order of the queries. If this option is given with a number n, then maximally n " ++
        "queries are concurrently answered. If this option is given without an extra argument, " ++
        "then the number of concurrent tasks is determined automatically from the number of CPUs.",
        "This option enables the parsing of commands in advance (\"-c\"), by default with an " ++
          "unbounded capacity."]⟩,
    ⟨"-h, --help", if full then "Print help (see a summary with '-h')"
      else "Print help (see more with '--help')", []⟩,
    ⟨"-V, --version", "Print version", []⟩]

def blanks (n : Nat) : String := String.ofList (List.replicate n ' ')

/-- The longest line that a summary may fill beside the column of usages. -/
def lineWidth : Nat := 100

/-- The column in which summaries start beside their usages. -/
def summaryColumn (entries : List HelpEntry) : Nat :=
  (entries.map fun e => e.usage.length).foldl max 0 + 4

/-- The usage and the summary in one line. -/
def summaryBeside (column : Nat) (e : HelpEntry) : String :=
  "  " ++ e.usage ++ blanks (column - 2 - e.usage.length) ++ e.summary

/-- The usage in one line, and the summary in the next. -/
def summaryBelow (e : HelpEntry) : List String := ["  " ++ e.usage, blanks 10 ++ e.summary]

/-- Summaries stand beside the usages in one column, or all below them if one of them would leave
its line. -/
def summaryLines (entries : List HelpEntry) : List String :=
  let column := summaryColumn entries
  if entries.all fun e => column + e.summary.length ≤ lineWidth then
    entries.map (summaryBeside column)
  else entries.flatMap summaryBelow

/-- An entry with its paragraphs below it, a blank line between two of them. -/
def fullEntry (e : HelpEntry) : List String :=
  ("  " ++ e.usage) ::
    ((e.summary :: e.details).map fun p => blanks 10 ++ p).intersperse (blanks 10)

def fullLines (entries : List HelpEntry) : List String :=
  ((entries.map fullEntry).intersperse [""]).flatten

def helpLines (full : Bool) : List String :=
  let lines := if full then fullLines else summaryLines
  ["Answer matching and unification queries over higher-order terms", "",
    "Usage: coramatch [OPTIONS] <FILE>...", "", "Arguments:"] ++ lines [fileHelp] ++
    ["", "Options:"] ++ lines (optionHelp full)

end TermAlgebra.Program
