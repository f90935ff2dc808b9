import TermAlgebra.Term.Names

/-!
# Text of terms

Applications are written `h(t₁, …, tₙ)`, meta-applications `Z[t₁, …, tₖ]`, abstractions `λx.t`,
and a constant with a precedence stands between its arguments when it has exactly two.
-/

namespace TermAlgebra.Term

def parenthesized (b : Bool) (s : String) : String := if b then "(" ++ s ++ ")" else s

def listed (texts : List String) : String := String.intercalate ", " texts

/-- How tightly the head binds when it stands between two arguments. -/
def operatorPrecedence (head : Term) : Option UInt8 := head.constant?.bind Constant.precedence

/-- The context that is one tighter. There is none beyond the greatest precedence. -/
def tighter (p : UInt8) : Option UInt8 := if p = 255 then none else some (p + 1)

mutual

/-- The text in a context of the given precedence. An abstraction, or an operator that binds
weaker than the context, stands in parentheses. Operators associate to the left: the right
operand is in a context that is one tighter, and without such a context there is no text. -/
def textAt (names : Names) (context : UInt8) : Term → Option String
  | literal v => return v.text
  | const c => return c.name
  | var x => return names.get x.id x.name
  | lambda x body => do
    let body ← body.textAt names 0
    return parenthesized (0 < context) ("λ" ++ names.get x.id x.name ++ "." ++ body)
  | app head args =>
    match head.operatorPrecedence, args with
    | some p, [l, r] => do
      let left ← l.textAt names p
      let operator ← head.textAt names 0
      let right ← r.textAt names (← tighter p)
      return parenthesized (p < context) (left ++ " " ++ operator ++ " " ++ right)
    | _, args => do
      let head ← head.textAt names 1
      let texts ← textsOf names args
      return head ++ "(" ++ listed texts ++ ")"
  | metaApp z args => do
    let name := names.get z.id z.name
    let texts ← textsOf names args
    return if args.isEmpty then name else name ++ "[" ++ listed texts ++ "]"

def textsOf (names : Names) : List Term → Option (List String)
  | [] => return []
  | t :: ts => do
    let text ← t.textAt names 0
    return text :: (← textsOf names ts)

end

/-- The text with names of its own. -/
def text (t : Term) : Option String := t.textAt (.ofTerm t) 0

end TermAlgebra.Term
