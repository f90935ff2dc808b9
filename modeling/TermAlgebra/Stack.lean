/-!
# Stacks

Scopes of binders: the most recently pushed element comes first, so a search finds the
innermost binder.
-/

universe u v w

namespace TermAlgebra

structure Stack (α : Type u) where
  toList : List α
deriving DecidableEq

namespace Stack

variable {α : Type u} {β : Type v} {ε : Type w}

def empty : Stack α := ⟨[]⟩

instance : EmptyCollection (Stack α) := ⟨empty⟩

def push (s : Stack α) (x : α) : Stack α := ⟨x :: s.toList⟩

/-- The most recent element, if any, and the stack without it. -/
def pop (s : Stack α) : Option α × Stack α := (s.toList.head?, ⟨s.toList.tail⟩)

def size (s : Stack α) : Nat := s.toList.length

def isEmpty (s : Stack α) : Bool := s.toList.isEmpty

def contains [DecidableEq α] (s : Stack α) (x : α) : Bool := decide (x ∈ s.toList)

def find? (s : Stack α) (p : α → Bool) : Option α := s.toList.find? p

/-- Runs a computation on the stack with one more element; the stack itself stays as it is,
also when the computation fails. -/
def withPushed (s : Stack α) (x : α) (f : Stack α → Except ε β) : Except ε β := f (s.push x)

end Stack

end TermAlgebra
