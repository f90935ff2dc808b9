/-!
# Supply of identifiers

Identifiers are natural numbers drawn from one increasing supply. Several computations may draw
from it, so what a computation draws next after an identifier is given by an instance; where
nothing is said, nobody else draws.
-/

universe u

namespace TermAlgebra

/-- The identifier that a computation draws next after each; others may draw in between. -/
class Supply where
  next : Nat → Nat
  lt_next : ∀ n, n < next n

/-- Nobody else draws. -/
instance Supply.consecutive : Supply := ⟨(· + 1), Nat.lt_succ_self⟩

/-- Computations that draw identifiers; the state is the next one. -/
abbrev Fresh := StateM Nat

namespace Fresh

def draw [Supply] : Fresh Nat := modifyGet fun n => (n, Supply.next n)

@[simp]
theorem run_draw (n : Nat) : draw.run n = (n, n + 1) := rfl

/-- What follows a computation matters only on the values that it may give. -/
theorem bind_congr {α β : Type} {m : Fresh α} {f g : α → Fresh β}
    (h : ∀ n, f (m.run n).1 = g (m.run n).1) : m >>= f = m >>= g := by
  funext n
  exact congrFun (h n) (m.run n).2

theorem mapM_congr {α : Type u} {β : Type} {f g : α → Fresh β} {xs : List α}
    (h : ∀ x ∈ xs, f x = g x) : xs.mapM f = xs.mapM g := by
  induction xs with
  | nil => rfl
  | cons x xs ih =>
    have hx : f x = g x := h x List.mem_cons_self
    have hxs : xs.mapM f = xs.mapM g := ih fun y hy => h y (List.mem_cons_of_mem x hy)
    rw [List.mapM_cons, List.mapM_cons, hx, hxs]

end Fresh

end TermAlgebra
