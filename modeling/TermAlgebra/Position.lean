/-!
# Positions

Paths into terms. A position is written as its steps, each followed by a period, and the end mark
`ε`; a head position that disregards the last `k` arguments ends in `☆k` instead. Positions are
ordered by their steps.
-/

namespace TermAlgebra

inductive Step where
  /-- An argument of an application, counted from one. -/
  | arg (i : Nat)
  /-- The body of an abstraction. -/
  | body
  /-- An argument of a meta-application, counted from one. -/
  | metaArg (i : Nat)
deriving DecidableEq

namespace Step

def text : Step → String
  | arg i => toString i ++ "."
  | body => "0."
  | metaArg i => "!" ++ toString i ++ "."

/-- Arguments come before the body, and the body before arguments of a meta-application. -/
def cmp : Step → Step → Ordering
  | arg i, arg j => compare i j
  | arg _, _ => .lt
  | body, arg _ => .gt
  | body, body => .eq
  | body, metaArg _ => .lt
  | metaArg i, metaArg j => compare i j
  | metaArg _, _ => .gt

instance : Ord Step := ⟨cmp⟩

end Step

structure Position where
  steps : List Step
deriving DecidableEq

/-- A subterm and the number of its last arguments to disregard. -/
structure HeadPosition where
  position : Position
  chop : Nat
deriving DecidableEq

/-- A text that is no position. -/
structure InvalidPosition where
  text : String

def InvalidPosition.message (e : InvalidPosition) : String := "invalid position: " ++ e.text

/-- The greatest index and chop count. -/
def maxIndex : Nat := UInt64.size - 1

/-- A number in decimal digits, with an optional plus sign, that is at most `maxIndex`. -/
def parseIndex? (cs : List Char) : Option Nat :=
  let digits := match cs with
    | '+' :: ds => ds
    | ds => ds
  if digits.isEmpty || !digits.all Char.isDigit then none
  else
    let n := digits.foldl (fun n c => 10 * n + (c.toNat - '0'.toNat)) 0
    if n ≤ maxIndex then some n else none

namespace Step

/-- An index is at least one. -/
def parsePositive? (cs : List Char) : Option Nat := (parseIndex? cs).filter (0 < ·)

def parse? : List Char → Option Step
  | ['0'] => some body
  | '!' :: cs => (parsePositive? cs).map metaArg
  | cs => (parsePositive? cs).map arg

/-- The pieces of a text between its periods. -/
def pieces : List Char → List (List Char)
  | [] => [[]]
  | '.' :: cs => [] :: pieces cs
  | c :: cs =>
    match pieces cs with
    | piece :: rest => (c :: piece) :: rest
    | [] => [[c]]

/-- Empty pieces are passed over. -/
def parseAll? (cs : List Char) : Option (List Step) :=
  ((pieces cs).filter fun piece => !piece.isEmpty).mapM parse?

def textAll (steps : List Step) : String := String.join (steps.map text)

end Step

namespace Position

def root : Position := ⟨[]⟩

def isRoot (p : Position) : Bool := p.steps.isEmpty

instance : Ord Position := ⟨compareOn steps⟩

def text (p : Position) : String := Step.textAll p.steps ++ "ε"

instance : ToString Position := ⟨text⟩

def parseSteps (cs : List Char) : Except InvalidPosition Position :=
  match Step.parseAll? cs with
  | some steps => return ⟨steps⟩
  | none => throw ⟨String.ofList cs⟩

def parseChars (cs : List Char) : Except InvalidPosition Position :=
  if cs.getLast? = some 'ε' then parseSteps cs.dropLast else throw ⟨String.ofList cs⟩

def parse (s : String) : Except InvalidPosition Position := parseChars s.toList

end Position

namespace HeadPosition

def text (p : HeadPosition) : String :=
  if p.chop = 0 then p.position.text
  else Step.textAll p.position.steps ++ "☆" ++ toString p.chop

instance : ToString HeadPosition := ⟨text⟩

/-- The chop count is read before the steps. -/
def parse (s : String) : Except InvalidPosition HeadPosition :=
  match s.toList.span (· ≠ '☆') with
  | (steps, _ :: chop) =>
    match parseIndex? chop with
    | some k => return ⟨← Position.parseSteps steps, k⟩
    | none => throw ⟨s⟩
  | (cs, []) => return ⟨← Position.parseChars cs, 0⟩

end HeadPosition

end TermAlgebra
