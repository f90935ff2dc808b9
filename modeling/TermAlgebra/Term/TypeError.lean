import TermAlgebra.Term.Text

/-!
# Type errors

Violations of typing and arity when terms and substitutions are built.
-/

namespace TermAlgebra

inductive TypeError where
  /-- Abstraction over a variable that is no binder. -/
  | notBinder (x : Var)
  /-- More arguments than the type of the head takes. -/
  | tooManyArguments (head : Term) (count : Nat)
  | argumentType (expected : SimpleType) (arg : Term)
  | metaArity (z : MetaVar) (count : Nat)
  /-- Replacement or image of another type than the expected one. -/
  | mismatch (expected found : SimpleType)

namespace TypeError

/-- The message; none if a term in it has no text. -/
def message : TypeError → Option String
  | notBinder x => return s!"cannot abstract over non-binder variable {x.name}"
  | tooManyArguments head count => do
    let text ← head.text
    return s!"{text} of type {head.ty} cannot be applied to {count} arguments"
  | argumentType expected arg => do
    let text ← arg.text
    return s!"argument {text} has type {arg.ty}, but {expected} was expected"
  | metaArity z count =>
    return s!"meta-variable {z.name} of arity {z.arity} applied to {count} arguments"
  | mismatch expected found => return s!"expected type {expected}, found type {found}"

end TypeError

end TermAlgebra
