import Mathlib.Logic.Function.Iterate
import TermAlgebra.Proofs.Renumbering

/-!
# Runs that draw from another supply

A run does the same whatever identifiers it draws. Two runs mirror each other if one draws
consecutive identifiers, the other one draws from any supply, and what they give differs only in the
identifiers. The rules of this file say so for the ways to put runs together: runs that only draw,
runs that may fail, and runs that also keep a state.
-/

namespace TermAlgebra

/-- A renumbering that takes the identifiers of a run, from its first one on, to those that
another supply gives. What was drawn before may have got any other identifiers. -/
structure Relocation extends Renumbering where
  supply : Supply
  start : Nat
  map_succ : ∀ n, start ≤ n → toFun (n + 1) = supply.next (toFun n)

/-- Results that are both there or both failures, and related. -/
inductive Results {ε ε' α β : Type} (E : ε → ε' → Prop) (R : α → β → Prop) :
    Except ε α → Except ε' β → Prop
  | ok {a : α} {b : β} (h : R a b) : Results E R (.ok a) (.ok b)
  | error {d : ε} {d' : ε'} (h : E d d') : Results E R (.error d) (.error d')

namespace Relocation

instance : CoeOut Relocation Renumbering := ⟨toRenumbering⟩

/-- Consecutive identifiers take their own places. -/
def unmoved (start : Nat) : Relocation := ⟨.identity, .consecutive, start, fun _ _ => rfl⟩

instance (start : Nat) : (unmoved start).toRenumbering.Increasing :=
  inferInstanceAs (Renumbering.Increasing .identity)

section Continuation

variable (π : Renumbering) [Supply] {c start : Nat}

theorem strictMono_iterate_next (start : Nat) : StrictMono fun k => Supply.next^[k] start := by
  refine strictMono_nat_of_lt_succ fun k => ?_
  rw [Function.iterate_succ_apply']
  exact Supply.lt_next _

/-- The supply does not come back to identifiers that were drawn before. -/
theorem lt_iterate_next (h : ∀ i < c, π i < start) {i : Nat} (hi : i < c) (k : Nat) :
    π i < Supply.next^[k] start :=
  (h i hi).trans_le ((strictMono_iterate_next start).monotone (Nat.zero_le k))

/-- Keeps the identifiers below `c` as they are renumbered, and lets the supply go on with
`start`. -/
def continuation (h : ∀ i < c, π i < start) : Relocation where
  toFun i := if i < c then π i else Supply.next^[i - c] start
  injective i j hij := by
    dsimp only at hij
    by_cases hi : i < c <;> by_cases hj : j < c
    · rw [if_pos hi, if_pos hj] at hij
      exact π.injective hij
    · rw [if_pos hi, if_neg hj] at hij
      exact absurd hij (lt_iterate_next π h hi (j - c)).ne
    · rw [if_neg hi, if_pos hj] at hij
      exact absurd hij.symm (lt_iterate_next π h hj (i - c)).ne
    · rw [if_neg hi, if_neg hj] at hij
      have hsub := (strictMono_iterate_next start).injective hij
      omega
  supply := inferInstance
  start := c
  map_succ i hi := by
    have hsucc : i + 1 - c = i - c + 1 := by omega
    rw [if_neg (by omega), if_neg (by omega), hsucc, Function.iterate_succ_apply']

variable {π} {h : ∀ i < c, π i < start}

theorem continuation_of_lt {i : Nat} (hi : i < c) : (continuation π h).toFun i = π i := if_pos hi

instance increasing_continuation [π.Increasing] :
    (continuation π h).toRenumbering.Increasing := by
  refine ⟨fun i j hij => ?_⟩
  change (if i < c then π i else _) < if j < c then π j else _
  by_cases hj : j < c
  · rw [if_pos (hij.trans hj), if_pos hj]
    exact π.strictMono hij
  · rw [if_neg hj]
    split
    · rename_i hi
      exact lt_iterate_next π h hi (j - c)
    · exact strictMono_iterate_next start (by omega)

theorem continuation_start : (continuation π h).toFun c = start := by
  unfold continuation
  dsimp only
  rw [if_neg (Nat.lt_irrefl c), Nat.sub_self, Function.iterate_zero_apply]

end Continuation

variable {e : Relocation} {α β γ δ : Type} {R : α → β → Prop} {Q : γ → δ → Prop}

/-! ## Runs that draw -/

/-- The second run, on the supply of the relocation, does what the first one does on consecutive
identifiers. -/
def Mirrors (e : Relocation) (R : α → β → Prop) (m : [Supply] → Fresh α)
    (m' : [Supply] → Fresh β) : Prop :=
  ∀ n, e.start ≤ n →
    let r := (@m .consecutive).run n
    let r' := (@m' e.supply).run (e.toFun n)
    R r.1 r'.1 ∧ e.start ≤ r.2 ∧ r'.2 = e.toFun r.2

namespace Mirrors

theorem congr {m n : [Supply] → Fresh α} {m' n' : [Supply] → Fresh β} (hm : ∀ [Supply], m = n)
    (hm' : ∀ [Supply], m' = n') (h : e.Mirrors R n n') : e.Mirrors R m m' := by
  obtain rfl : @m = @n := funext @hm
  obtain rfl : @m' = @n' := funext @hm'
  exact h

theorem pure {a : α} {b : β} (h : R a b) : e.Mirrors R (pure a) (pure b) :=
  fun _ hn => ⟨h, hn, rfl⟩

theorem draw : e.Mirrors (e.toFun · = ·) Fresh.draw Fresh.draw :=
  fun n hn => ⟨rfl, Nat.le_succ_of_le hn, (e.map_succ n hn).symm⟩

theorem bind {m : [Supply] → Fresh α} {m' : [Supply] → Fresh β} {k : [Supply] → α → Fresh γ}
    {k' : [Supply] → β → Fresh δ} (hm : e.Mirrors R m m')
    (hk : ∀ a b, R a b → e.Mirrors Q (k a) (k' b)) :
    e.Mirrors Q (m >>= k) (m' >>= k') := by
  intro n hn
  obtain ⟨hr, hle, hnext⟩ := hm n hn
  have hrun := hk _ _ hr _ hle
  rw [← hnext] at hrun
  exact hrun

theorem ite {c c' : Prop} [Decidable c] [Decidable c'] {m n : [Supply] → Fresh α}
    {m' n' : [Supply] → Fresh β} (hc : c' ↔ c) (hm : c → e.Mirrors R m m')
    (hn : ¬ c → e.Mirrors R n n') : e.Mirrors R (if c then m else n) (if c' then m' else n') := by
  by_cases h : c
  · simp only [if_pos h, if_pos (hc.mpr h)]
    exact hm h
  · simp only [if_neg h, if_neg (mt hc.mp h)]
    exact hn h

theorem mapM {f : [Supply] → α → Fresh γ} {f' : [Supply] → β → Fresh δ} {g : α → β} {G : γ → δ}
    {xs : List α} (h : ∀ x ∈ xs, e.Mirrors (G · = ·) (f x) (f' (g x))) :
    e.Mirrors (List.map G · = ·) (xs.mapM f) ((xs.map g).mapM f') := by
  induction xs with
  | nil => exact pure rfl
  | cons x xs ih =>
    refine congr List.mapM_cons List.mapM_cons ?_
    refine (h x List.mem_cons_self).bind ?_
    rintro y _ rfl
    refine (ih fun z hz => h z (List.mem_cons_of_mem x hz)).bind ?_
    rintro ys _ rfl
    exact pure rfl

end Mirrors

/-! ## Runs that may fail -/

section Failing

variable {ε ε' : Type} {E : ε → ε' → Prop}

def MirrorsAttempt (e : Relocation) (E : ε → ε' → Prop) (R : α → β → Prop)
    (m : [Supply] → ExceptT ε Fresh α) (m' : [Supply] → ExceptT ε' Fresh β) : Prop :=
  e.Mirrors (Results E R) m.run m'.run

namespace MirrorsAttempt

theorem congr {m n : [Supply] → ExceptT ε Fresh α} {m' n' : [Supply] → ExceptT ε' Fresh β}
    (hm : ∀ [Supply], m = n) (hm' : ∀ [Supply], m' = n') (h : e.MirrorsAttempt E R n n') :
    e.MirrorsAttempt E R m m' :=
  Mirrors.congr hm hm' h

theorem pure {a : α} {b : β} (h : R a b) : e.MirrorsAttempt E R (pure a) (pure b) :=
  Mirrors.pure (.ok h)

theorem throw {d : ε} {d' : ε'} (h : E d d') : e.MirrorsAttempt E R (throw d) (throw d') :=
  Mirrors.pure (.error h)

theorem throw_bind {d : ε} {d' : ε'} {k : [Supply] → α → ExceptT ε Fresh γ}
    {k' : [Supply] → β → ExceptT ε' Fresh δ} (h : E d d') :
    e.MirrorsAttempt E Q (MonadExcept.throw d >>= k) (MonadExcept.throw d' >>= k') :=
  Mirrors.pure (.error h)

theorem lift {m : [Supply] → Fresh α} {m' : [Supply] → Fresh β} (h : e.Mirrors R m m') :
    e.MirrorsAttempt E R (liftM m) (liftM m') :=
  h.bind fun _ _ hr => .pure (.ok hr)

theorem except {r : Except ε α} {r' : Except ε' β} (h : Results E R r r') :
    e.MirrorsAttempt E R (liftM r) (liftM r') :=
  Mirrors.pure h

theorem bind {m : [Supply] → ExceptT ε Fresh α} {m' : [Supply] → ExceptT ε' Fresh β}
    {k : [Supply] → α → ExceptT ε Fresh γ} {k' : [Supply] → β → ExceptT ε' Fresh δ}
    (hm : e.MirrorsAttempt E R m m')
    (hk : ∀ a b, R a b → e.MirrorsAttempt E Q (k a) (k' b)) :
    e.MirrorsAttempt E Q (m >>= k) (m' >>= k') := by
  have hrun : e.Mirrors (Results E Q) (m.run >>= ExceptT.bindCont k)
      (m'.run >>= ExceptT.bindCont k') := by
    refine Mirrors.bind hm fun r r' hr => ?_
    cases hr with
    | ok hr => exact hk _ _ hr
    | error hd => exact .pure (.error hd)
  exact hrun

theorem ite {c c' : Prop} [Decidable c] [Decidable c'] {m n : [Supply] → ExceptT ε Fresh α}
    {m' n' : [Supply] → ExceptT ε' Fresh β} (hc : c' ↔ c) (hm : c → e.MirrorsAttempt E R m m')
    (hn : ¬ c → e.MirrorsAttempt E R n n') :
    e.MirrorsAttempt E R (if c then m else n) (if c' then m' else n') :=
  Mirrors.ite hc hm hn

theorem mapM {f : [Supply] → α → ExceptT ε Fresh γ} {f' : [Supply] → α → ExceptT ε' Fresh γ}
    {xs : List α} (h : ∀ x ∈ xs, e.MirrorsAttempt E Eq (f x) (f' x)) :
    e.MirrorsAttempt E Eq (xs.mapM f) (xs.mapM f') := by
  induction xs with
  | nil => exact pure rfl
  | cons x xs ih =>
    refine congr List.mapM_cons List.mapM_cons ?_
    refine (h x List.mem_cons_self).bind ?_
    rintro y _ rfl
    refine (ih fun z hz => h z (List.mem_cons_of_mem x hz)).bind ?_
    rintro ys _ rfl
    exact pure rfl

/-- Goes on with errors of another kind. -/
theorem adapt {δ' δ'' : Type} {E' : δ' → δ'' → Prop} {f : ε → δ'} {f' : ε' → δ''}
    {m : [Supply] → ExceptT ε Fresh α} {m' : [Supply] → ExceptT ε' Fresh β}
    (hf : ∀ d d', E d d' → E' (f d) (f' d')) (h : e.MirrorsAttempt E R m m') :
    e.MirrorsAttempt E' R (m.adapt f) (m'.adapt f') := by
  have hrun : e.Mirrors (Results E' R) (m.run >>= fun r => Pure.pure (r.mapError f))
      (m'.run >>= fun r => Pure.pure (r.mapError f')) := by
    refine Mirrors.bind h fun r r' hr => .pure ?_
    cases hr with
    | ok hr => exact .ok hr
    | error hd => exact .error (hf _ _ hd)
  exact hrun

end MirrorsAttempt

/-! ## Runs that keep a state -/

variable {σ τ : Type} {S : σ → τ → Prop}

def MirrorsExec (e : Relocation) (S : σ → τ → Prop) (E : ε → ε' → Prop) (R : α → β → Prop)
    (m : [Supply] → ExceptT ε (StateT σ Fresh) α)
    (m' : [Supply] → ExceptT ε' (StateT τ Fresh) β) : Prop :=
  ∀ s s', S s s' → e.Mirrors (fun r r' => Results E R r.1 r'.1 ∧ S r.2 r'.2) (m.run.run s)
    (m'.run.run s')

namespace MirrorsExec

theorem congr {m n : [Supply] → ExceptT ε (StateT σ Fresh) α}
    {m' n' : [Supply] → ExceptT ε' (StateT τ Fresh) β} (hm : ∀ [Supply], m = n)
    (hm' : ∀ [Supply], m' = n') (h : e.MirrorsExec S E R n n') : e.MirrorsExec S E R m m' := by
  obtain rfl : @m = @n := funext @hm
  obtain rfl : @m' = @n' := funext @hm'
  exact h

theorem pure {a : α} {b : β} (h : R a b) : e.MirrorsExec S E R (pure a) (pure b) :=
  fun _ _ hs => .pure ⟨.ok h, hs⟩

theorem throw {d : ε} {d' : ε'} (h : E d d') : e.MirrorsExec S E R (throw d) (throw d') :=
  fun _ _ hs => .pure ⟨.error h, hs⟩

theorem throw_bind {d : ε} {d' : ε'} {k : [Supply] → α → ExceptT ε (StateT σ Fresh) γ}
    {k' : [Supply] → β → ExceptT ε' (StateT τ Fresh) δ} (h : E d d') :
    e.MirrorsExec S E Q (MonadExcept.throw d >>= k) (MonadExcept.throw d' >>= k') :=
  fun _ _ hs => .pure ⟨.error h, hs⟩

theorem get : e.MirrorsExec S E S get get := fun _ _ hs => .pure ⟨.ok hs, hs⟩

theorem modify {f : σ → σ} {f' : τ → τ} (h : ∀ s s', S s s' → S (f s) (f' s')) :
    e.MirrorsExec S E (fun _ _ => True) (modify f) (modify f') :=
  fun s s' hs => .pure ⟨.ok trivial, h s s' hs⟩

theorem except {r : Except ε α} {r' : Except ε' β} (h : Results E R r r') :
    e.MirrorsExec S E R (MonadExcept.ofExcept r) (MonadExcept.ofExcept r') := by
  cases h with
  | ok h => exact pure h
  | error h => exact throw h

/-- A run without the state. -/
theorem lift {m : [Supply] → ExceptT ε Fresh α} {m' : [Supply] → ExceptT ε' Fresh β}
    (h : e.MirrorsAttempt E R m m') :
    e.MirrorsExec S E R (ExceptT.mk (StateT.lift m.run)) (ExceptT.mk (StateT.lift m'.run)) :=
  fun _ _ hs => Mirrors.bind h fun _ _ hr => .pure ⟨hr, hs⟩

theorem liftFresh {m : [Supply] → Fresh α} {m' : [Supply] → Fresh β} (h : e.Mirrors R m m') :
    e.MirrorsExec S E R (liftM m) (liftM m') :=
  lift (.lift h)

theorem bind {m : [Supply] → ExceptT ε (StateT σ Fresh) α}
    {m' : [Supply] → ExceptT ε' (StateT τ Fresh) β}
    {k : [Supply] → α → ExceptT ε (StateT σ Fresh) γ}
    {k' : [Supply] → β → ExceptT ε' (StateT τ Fresh) δ} (hm : e.MirrorsExec S E R m m')
    (hk : ∀ a b, R a b → e.MirrorsExec S E Q (k a) (k' b)) :
    e.MirrorsExec S E Q (m >>= k) (m' >>= k') := by
  intro s s' hs
  have hrun : e.Mirrors (fun r r' => Results E Q r.1 r'.1 ∧ S r.2 r'.2)
      (m.run.run s >>= fun r => (ExceptT.bindCont k r.1).run r.2)
      (m'.run.run s' >>= fun r => (ExceptT.bindCont k' r.1).run r.2) := by
    refine Mirrors.bind (hm s s' hs) ?_
    rintro ⟨r, t⟩ ⟨r', t'⟩ ⟨hr, ht⟩
    cases hr with
    | ok hr => exact hk _ _ hr t t' ht
    | error hd => exact .pure ⟨.error hd, ht⟩
  exact hrun

theorem adapt {δ' δ'' : Type} {E' : δ' → δ'' → Prop} {f : ε → δ'} {f' : ε' → δ''}
    {m : [Supply] → ExceptT ε (StateT σ Fresh) α}
    {m' : [Supply] → ExceptT ε' (StateT τ Fresh) β} (hf : ∀ d d', E d d' → E' (f d) (f' d'))
    (h : e.MirrorsExec S E R m m') : e.MirrorsExec S E' R (m.adapt f) (m'.adapt f') := by
  intro s s' hs
  have hrun : e.Mirrors (fun r r' => Results E' R r.1 r'.1 ∧ S r.2 r'.2)
      (m.run.run s >>= fun r => Pure.pure (r.1.mapError f, r.2))
      (m'.run.run s' >>= fun r => Pure.pure (r.1.mapError f', r.2)) := by
    refine Mirrors.bind (h s s' hs) ?_
    rintro ⟨r, t⟩ ⟨r', t'⟩ ⟨hr, ht⟩
    cases hr with
    | ok hr => exact .pure ⟨.ok hr, ht⟩
    | error hd => exact .pure ⟨.error (hf _ _ hd), ht⟩
  exact hrun

theorem ite {c c' : Prop} [Decidable c] [Decidable c']
    {m n : [Supply] → ExceptT ε (StateT σ Fresh) α}
    {m' n' : [Supply] → ExceptT ε' (StateT τ Fresh) β} (hc : c' ↔ c)
    (hm : c → e.MirrorsExec S E R m m') (hn : ¬ c → e.MirrorsExec S E R n n') :
    e.MirrorsExec S E R (if c then m else n) (if c' then m' else n') := by
  by_cases h : c
  · simp only [if_pos h, if_pos (hc.mpr h)]
    exact hm h
  · simp only [if_neg h, if_neg (mt hc.mp h)]
    exact hn h

end MirrorsExec

end Failing

end Relocation

end TermAlgebra
