import TermAlgebra.Language.Command
import TermAlgebra.Stack
import TermAlgebra.Term.Build

/-!
# Symbols

The declared constants, variables and meta-variables by name, and the resolution of names in
terms. A name denotes the innermost enclosing binder of that name, otherwise what is declared.
-/

namespace TermAlgebra.Query

open TermAlgebra.Language (Expr)

inductive Symbol where
  | const (c : Constant)
  | var (x : Var)
  | metaVar (z : MetaVar)

inductive ScopeError where
  | undeclared (name : String)
  | redeclared (name : String)
  /-- Arguments in brackets for what is no meta-variable. -/
  | notMeta (name : String)
  /-- An image for a constant. -/
  | notReplaceable (name : String)

def ScopeError.message : ScopeError → String
  | undeclared name => s!"undeclared name {name}"
  | redeclared name => s!"redeclaration of {name}"
  | notMeta name => s!"{name} is not a meta-variable"
  | notReplaceable name => s!"cannot substitute constant {name}"

inductive ResolveError where
  | scope (e : ScopeError)
  | type (e : TypeError)

structure Symbols where
  entries : List (String × Symbol)

namespace Symbols

def empty : Symbols := ⟨[]⟩

instance : EmptyCollection Symbols := ⟨empty⟩

def get? (s : Symbols) (name : String) : Option Symbol := s.entries.lookup name

theorem get?_cons (name : String) (sym : Symbol) (s : Symbols) (x : String) :
    get? ⟨(name, sym) :: s.entries⟩ x = if x == name then some sym else s.get? x := by
  rw [get?, List.lookup_cons]
  cases x == name <;> rfl

/-- Adds a name; the first declaration of a name stays. -/
def declare (s : Symbols) (name : String) (sym : Symbol) : Except ScopeError Symbols :=
  match s.get? name with
  | some _ => throw (.redeclared name)
  | none => return ⟨(name, sym) :: s.entries⟩

end Symbols

/-- Resolving draws identifiers for binders and may fail. -/
abbrev Resolve := ExceptT ResolveError Fresh

namespace Resolve

def scopeError {α : Type} (e : ScopeError) : Resolve α := throw (.scope e)

/-- Builds a term; a violation of typing is an error of resolution. -/
def build (m : Term.Build Term) : Resolve Term := m.adapt ResolveError.type

def name [Supply] (s : Symbols) (scope : Stack Var) (x : String) : Resolve Term :=
  match scope.find? fun v => v.name == x with
  | some v => return .var v
  | none =>
    match s.get? x with
    | some (.const c) => return .const c
    | some (.var v) => return .var v
    | some (.metaVar z) => build (Term.applyMeta z [])
    | none => scopeError (.undeclared x)

def metaVar (s : Symbols) (z : String) : Resolve MetaVar :=
  match s.get? z with
  | some (.metaVar z) => return z
  | some _ => scopeError (.notMeta z)
  | none => scopeError (.undeclared z)

mutual

/-- Resolves a term below binders; heads come before arguments. -/
def term [Supply] (s : Symbols) (scope : Stack Var) : Expr → Resolve Term
  | .name x => name s scope x
  | .literal v => return .literal v
  | .app head args => do
    let head ← term s scope head
    let args ← terms s scope args
    build (head.apply args)
  | .metaApp z args => do
    let z ← metaVar s z
    let args ← terms s scope args
    build (Term.applyMeta z args)
  | .lambda x ty body => do
    let x ← Var.make x ty true
    let body ← term s (scope.push x) body
    build (Term.abstract x body)

def terms [Supply] (s : Symbols) (scope : Stack Var) : List Expr → Resolve (List Term)
  | [] => return []
  | t :: ts => do
    let t ← term s scope t
    return t :: (← terms s scope ts)

end

end Resolve

/-- Resolves the names of a term that stands by itself. -/
def Symbols.term [Supply] (s : Symbols) (t : Expr) : Resolve Term := Resolve.term s ∅ t

end TermAlgebra.Query
