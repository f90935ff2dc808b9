import Mathlib.Data.List.Forall2
import TermAlgebra.Fresh

/-!
# Runs that draw identifiers

A run leaves the next identifier where it was or farther up, so what a later part of a run draws
is new for everything made before.
-/

namespace TermAlgebra.Fresh

variable {α β γ : Type}

theorem run_pure (a : α) (n : Nat) : (pure a : Fresh α).run n = (a, n) := rfl

theorem run_bind (m : Fresh α) (f : α → Fresh β) (n : Nat) :
    (m >>= f).run n = (f (m.run n).1).run (m.run n).2 := rfl

def Increasing (m : Fresh α) : Prop := ∀ n, n ≤ (m.run n).2

theorem increasing_pure (a : α) : Increasing (pure a : Fresh α) := fun n => Nat.le_refl n

theorem Increasing.bind {m : Fresh α} {f : α → Fresh β} (hm : Increasing m)
    (hf : ∀ a, Increasing (f a)) : Increasing (m >>= f) := by
  intro n
  have hn := hm n
  have hn' := hf (m.run n).1 (m.run n).2
  rw [run_bind]
  omega

theorem Increasing.ite {c : Prop} [Decidable c] {m m' : Fresh α} (hm : Increasing m)
    (hm' : Increasing m') : Increasing (if c then m else m') := by
  split
  · exact hm
  · exact hm'

theorem increasing_mapM {f : α → Fresh β} {l : List α} (hf : ∀ x ∈ l, Increasing (f x)) :
    Increasing (l.mapM f) := by
  induction l with
  | nil => exact increasing_pure []
  | cons x xs ih =>
    rw [List.mapM_cons]
    have hx := hf x (by simp)
    have hxs := ih fun y hy => hf y (by simp [hy])
    exact hx.bind fun y => hxs.bind fun ys => increasing_pure (y :: ys)

theorem increasing_foldlM {f : β → α → Fresh β} {xs : List α} (hf : ∀ b a, Increasing (f b a))
    (b : β) : Increasing (xs.foldlM f b) := by
  induction xs generalizing b with
  | nil => exact increasing_pure b
  | cons x xs ih =>
    rw [List.foldlM_cons]
    exact (hf b x).bind ih

theorem run_mapM_cons (f : α → Fresh β) (x : α) (xs : List α) (n : Nat) :
    ((x :: xs).mapM f).run n =
      (((f x).run n).1 :: ((xs.mapM f).run ((f x).run n).2).1,
        ((xs.mapM f).run ((f x).run n).2).2) := by
  rw [List.mapM_cons]
  rfl

/-- Every element gets its result at some point of the whole run. -/
theorem forall₂_mapM {f : α → Fresh β} {xs : List α} (hf : ∀ x ∈ xs, Increasing (f x)) (n : Nat) :
    List.Forall₂ (fun x y => x ∈ xs ∧ ∃ m, n ≤ m ∧ ((f x).run m).1 = y ∧
      ((f x).run m).2 ≤ ((xs.mapM f).run n).2) xs ((xs.mapM f).run n).1 := by
  induction xs generalizing n with
  | nil => exact List.Forall₂.nil
  | cons x xs ih =>
    rw [run_mapM_cons]
    have hx := hf x (by simp)
    have hxs : ∀ y ∈ xs, Increasing (f y) := fun y hy => hf y (by simp [hy])
    have hle := increasing_mapM hxs ((f x).run n).2
    refine List.Forall₂.cons ⟨by simp, n, Nat.le_refl n, rfl, hle⟩ ?_
    refine (ih hxs ((f x).run n).2).imp ?_
    intro y z hyz
    obtain ⟨hy, m, hm, hz, hend⟩ := hyz
    have hn := hx n
    exact ⟨by simp [hy], m, by omega, hz, hend⟩

theorem exists_of_mem_right {R : α → β → Prop} {xs : List α} {ys : List β}
    (h : List.Forall₂ R xs ys) {y : β} (hy : y ∈ ys) : ∃ x ∈ xs, R x y := by
  induction h with
  | nil => simp at hy
  | @cons x z xs ys hxz _ ih =>
    rcases List.mem_cons.mp hy with rfl | hy
    · exact ⟨x, by simp, hxz⟩
    · obtain ⟨w, hw, hwy⟩ := ih hy
      exact ⟨w, by simp [hw], hwy⟩

theorem exists_of_mem_left {R : α → β → Prop} {xs : List α} {ys : List β}
    (h : List.Forall₂ R xs ys) {x : α} (hx : x ∈ xs) : ∃ y ∈ ys, R x y :=
  exists_of_mem_right h.flip hx

theorem forall₂_of_map_eq {f : α → γ} {g : β → γ} {xs : List α} {ys : List β}
    (h : xs.map f = ys.map g) : List.Forall₂ (fun x y => x ∈ xs ∧ f x = g y) xs ys := by
  induction xs generalizing ys with
  | nil =>
    obtain rfl : ys = [] := by simpa using h.symm
    exact .nil
  | cons x xs ih =>
    cases ys with
    | nil => simp at h
    | cons y ys =>
      rw [List.map_cons, List.map_cons, List.cons.injEq] at h
      refine .cons ⟨by simp, h.1⟩ ((ih h.2).imp fun z w hz => ?_)
      exact ⟨by simp [hz.1], hz.2⟩

theorem map_eq_map {f : α → γ} {g : β → γ} {xs : List α} {ys : List β}
    (h : List.Forall₂ (fun x y => g y = f x) xs ys) : ys.map g = xs.map f := by
  induction h with
  | nil => rfl
  | cons hxy _ ih => rw [List.map_cons, List.map_cons, hxy, ih]

/-! ## Runs that may fail -/

section

variable {ε : Type}

/-- The outcome of a run that starts at `n`, and the next identifier. -/
def attempt (m : ExceptT ε Fresh α) (n : Nat) : Except ε α × Nat := m.run.run n

theorem attempt_throw (e : ε) (n : Nat) :
    attempt (throw e : ExceptT ε Fresh α) n = (.error e, n) := rfl

theorem attempt_lift (m : Fresh α) (n : Nat) :
    attempt (liftM m : ExceptT ε Fresh α) n = (.ok (m.run n).1, (m.run n).2) := rfl

theorem attempt_except (x : Except ε α) (n : Nat) :
    attempt (liftM x : ExceptT ε Fresh α) n = (x, n) := rfl

theorem attempt_bind (m : ExceptT ε Fresh α) (f : α → ExceptT ε Fresh β) (n : Nat) :
    attempt (m >>= f) n =
      match attempt m n with
      | (.ok a, n') => attempt (f a) n'
      | (.error e, n') => (.error e, n') := by
  unfold attempt
  rw [ExceptT.run_bind, run_bind]
  rcases m.run.run n with ⟨_ | _, _⟩ <;> rfl

theorem attempt_ite (c : Prop) [Decidable c] (m m' : ExceptT ε Fresh α) (n : Nat) :
    attempt (if c then m else m') n = if c then attempt m n else attempt m' n := by
  split <;> rfl

/-- Identifiers go up in a failed run as well. -/
def Rising (m : ExceptT ε Fresh α) : Prop := ∀ n, n ≤ (attempt m n).2

theorem rising_pure (a : α) : Rising (pure a : ExceptT ε Fresh α) := fun n => Nat.le_refl n

theorem rising_throw (e : ε) : Rising (throw e : ExceptT ε Fresh α) := fun n => Nat.le_refl n

theorem rising_except (x : Except ε α) : Rising (liftM x : ExceptT ε Fresh α) :=
  fun n => Nat.le_refl n

theorem Increasing.rising {m : Fresh α} (hm : Increasing m) :
    Rising (liftM m : ExceptT ε Fresh α) := fun n => hm n

theorem Rising.bind {m : ExceptT ε Fresh α} {f : α → ExceptT ε Fresh β} (hm : Rising m)
    (hf : ∀ a, Rising (f a)) : Rising (m >>= f) := by
  intro n
  have hn := hm n
  rw [attempt_bind]
  rcases e : attempt m n with ⟨_ | a, n'⟩
  · rw [e] at hn
    exact hn
  · rw [e] at hn
    exact Nat.le_trans hn (hf a n')

theorem Rising.ite {c : Prop} [Decidable c] {m m' : ExceptT ε Fresh α} (hm : Rising m)
    (hm' : Rising m') : Rising (if c then m else m') := by
  split
  · exact hm
  · exact hm'

end

end TermAlgebra.Fresh
