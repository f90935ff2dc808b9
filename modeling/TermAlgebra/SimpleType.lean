/-!
# Simple types

Base sorts and right-associative arrows, their inputs, arity and order, a total order on them,
and their text.
-/

namespace TermAlgebra

inductive SimpleType where
  | base (name : String)
  | arrow (input output : SimpleType)
deriving DecidableEq

namespace SimpleType

/-- The type `σ₁ → … → σₖ → τ`. -/
def arrows (inputs : List SimpleType) (output : SimpleType) : SimpleType :=
  inputs.foldr arrow output

def isBase : SimpleType → Bool
  | base _ => true
  | arrow _ _ => false

/-- The inputs `σ₁, …, σₖ` of `σ₁ → … → σₖ → τ`, where `τ` is a base sort. -/
def inputs : SimpleType → List SimpleType
  | base _ => []
  | arrow σ τ => σ :: τ.inputs

/-- The base sort `τ` of `σ₁ → … → σₖ → τ`. -/
def output : SimpleType → SimpleType
  | base s => base s
  | arrow _ τ => τ.output

def arity (τ : SimpleType) : Nat := τ.inputs.length

/-- Zero for a base sort, otherwise one more than the greatest order of an input. -/
def order : SimpleType → Nat
  | base _ => 0
  | arrow σ τ => max (σ.order + 1) τ.order

/-- The input at an index, counted from zero. -/
def input? (τ : SimpleType) (i : Nat) : Option SimpleType := τ.inputs[i]?

/-- The type that is left after supplying arguments. -/
def dropInputs : SimpleType → Nat → Option SimpleType
  | τ, 0 => some τ
  | base _, _ + 1 => none
  | arrow _ τ, n + 1 => τ.dropInputs n

/-- Base sorts come before arrows, base sorts in the order of their names,
arrows by input, then output. -/
def cmp : SimpleType → SimpleType → Ordering
  | base s, base t => compare s t
  | base _, arrow _ _ => .lt
  | arrow _ _, base _ => .gt
  | arrow σ τ, arrow σ' τ' => (cmp σ σ').then (cmp τ τ')

instance : Ord SimpleType := ⟨cmp⟩

/-- Arrows associate to the right, so only an arrow as input needs parentheses. -/
def text : SimpleType → String
  | base s => s
  | arrow σ τ => (if σ.isBase then σ.text else "(" ++ σ.text ++ ")") ++ " → " ++ τ.text

instance : ToString SimpleType := ⟨text⟩

@[simp]
theorem arrows_inputs_output (τ : SimpleType) : arrows τ.inputs τ.output = τ := by
  induction τ with
  | base => rfl
  | arrow σ τ _ ih => simpa [inputs, output, arrows] using ih

theorem dropInputs_arrows (inputs : List SimpleType) (τ : SimpleType) :
    (arrows inputs τ).dropInputs inputs.length = some τ := by
  induction inputs with
  | nil => simp [arrows, dropInputs]
  | cons σ inputs ih => simpa [arrows, dropInputs] using ih

private theorem cmp_swap (σ τ : SimpleType) : cmp σ τ = (cmp τ σ).swap := by
  induction σ generalizing τ with
  | base s =>
    cases τ with
    | base t => exact Std.OrientedOrd.eq_swap
    | arrow => rfl
  | arrow σ₁ σ₂ ih₁ ih₂ =>
    cases τ with
    | base => rfl
    | arrow τ₁ τ₂ => simp [cmp, ih₁ τ₁, ih₂ τ₂, Ordering.swap_then]

private theorem cmp_eq_iff (σ τ : SimpleType) : cmp σ τ = .eq ↔ σ = τ := by
  induction σ generalizing τ with
  | base s => cases τ <;> simp [cmp]
  | arrow σ₁ σ₂ ih₁ ih₂ => cases τ <;> simp [cmp, Ordering.then_eq_eq, ih₁, ih₂]

private theorem cmp_isLE_trans {ρ σ τ : SimpleType} (h₁ : (cmp ρ σ).isLE)
    (h₂ : (cmp σ τ).isLE) : (cmp ρ τ).isLE := by
  induction ρ generalizing σ τ with
  | base r =>
    cases σ <;> cases τ <;> simp_all [cmp]
    exact Std.TransOrd.isLE_trans h₁ h₂
  | arrow ρ₁ ρ₂ ih₁ ih₂ =>
    cases σ with
    | base => simp [cmp] at h₁
    | arrow σ₁ σ₂ =>
      cases τ with
      | base => simp [cmp] at h₂
      | arrow τ₁ τ₂ =>
        have h := @ih₁ σ₁ τ₁
        have s := cmp_swap σ₁ ρ₁
        simp only [cmp] at h₁ h₂ ⊢
        cases e₁ : cmp ρ₁ σ₁ with
        | gt => simp [e₁] at h₁
        | eq =>
          obtain rfl := (cmp_eq_iff _ _).1 e₁
          cases e₂ : cmp ρ₁ τ₁ with
          | gt => simp [e₂] at h₂
          | eq => simp [e₁, e₂] at h₁ h₂; exact ih₂ h₁ h₂
          | lt => rfl
        | lt =>
          cases e₂ : cmp σ₁ τ₁ with
          | gt => simp [e₂] at h₂
          | eq =>
            obtain rfl := (cmp_eq_iff _ _).1 e₂
            simp [e₁]
          | lt =>
            cases e₃ : cmp ρ₁ τ₁ with
            | gt => simp [e₁, e₂, e₃] at h
            | lt => rfl
            | eq =>
              obtain rfl := (cmp_eq_iff _ _).1 e₃
              simp [e₁, e₂] at s

instance : Std.TransOrd SimpleType where
  eq_swap := cmp_swap _ _
  isLE_trans := cmp_isLE_trans

instance : Std.LawfulEqOrd SimpleType where
  compare_self := (cmp_eq_iff _ _).2 rfl
  eq_of_compare := (cmp_eq_iff _ _).1

end SimpleType

end TermAlgebra
