import TermAlgebra.Language.Parser

/-!
# Streams of commands

The commands of a source text, where an error ends only its own command: reading goes on behind
the next period. The eager reader cuts the whole text into tokens and keeps them. A lazy reader
keeps only its place between two commands: either as an offset, from where it cuts the text into
tokens again for each command, or as a cursor that cuts no token behind the next period.
-/

namespace TermAlgebra.Language

/-- A command, or the error that stands in its place. -/
abbrev Item := Except ParseError Command

namespace Input

/-- The next item and the input behind it. -/
def nextItem (i : Input) : Option Item × Input :=
  match (ExceptT.run Parser.command).run i with
  | (.ok none, i) => (none, i)
  | (.ok (some c), i) => (some (.ok c), i)
  | (.error e, i) => (some (.error e), i.skipCommand)

/-- At most the given number of items. -/
def itemsWithin : Nat → Input → List Item
  | 0, _ => []
  | bound + 1, i =>
    match i.nextItem with
    | (some item, i) => item :: itemsWithin bound i
    | (none, _) => []

end Input

/-- All items of a text; every item takes at least one token. -/
def items (source : String) : List Item :=
  let i := Input.ofString source
  i.itemsWithin i.tokens.length

/-- The text behind a number of bytes; nothing if no character ends there. -/
def dropBytes : Nat → List Char → Option (List Char)
  | 0, cs => some cs
  | _ + 1, [] => none
  | n + 1, c :: cs => if c.utf8Size ≤ n + 1 then dropBytes (n + 1 - c.utf8Size) cs else none

/-- A text and the offset where the next command of it starts. -/
structure Reader where
  source : String
  offset : Nat

namespace Reader

def ofString (source : String) : Reader := ⟨source, 0⟩

/-- Reads a command in the text from the offset on as a text of its own; places in it count from
the offset. -/
def next (r : Reader) : Option Item × Reader :=
  match dropBytes r.offset r.source.toList with
  | none => (none, r)
  | some rest =>
    let found := (Input.ofString (String.ofList rest)).nextItem
    (found.1.map (Except.mapError (ParseError.shift r.offset)),
      { r with offset := r.offset + found.2.offset })

end Reader

/-- A place in a source text, and the text from there on. -/
structure Cursor where
  offset : Nat
  text : List Char

namespace Cursor

def ofString (source : String) : Cursor := ⟨0, source.toList⟩

/-- The end of a text, behind all its commands. -/
def atEndOf (source : String) : Cursor := ⟨source.utf8ByteSize, []⟩

/-- Cuts tokens up to the first period; gives the place behind them as well. -/
def cut (offset : Nat) : List Char → List Lexeme × Cursor
  | [] => ([], ⟨offset, []⟩)
  | c :: cs =>
    let first := firstLexeme offset c cs
    if first.1.token = .mark .period then ([first.1], ⟨first.1.stop, first.2⟩)
    else
      let behind := cut first.1.stop first.2
      (first.1 :: behind.1, behind.2)
termination_by cs => cs.length
decreasing_by exact length_firstLexeme_lt offset c cs

/-- The next item, and the place behind its period. -/
def next (c : Cursor) : Option Item × Cursor :=
  let command := cut c.offset c.text
  ((Input.mk (solid command.1) command.2.offset).nextItem.1, command.2)

/-- At most the given number of items. -/
def itemsWithin : Nat → Cursor → List Item
  | 0, _ => []
  | bound + 1, c =>
    match c.next with
    | (some item, c) => item :: itemsWithin bound c
    | (none, _) => []

/-- All items from the place on; every item takes at least one character. -/
def items (c : Cursor) : List Item := c.itemsWithin c.text.length

end Cursor

end TermAlgebra.Language
