import TermAlgebra.Proofs.Layout

/-!
# Chains of operators

Up to its operands a text is a chain: binders, an operand, and operators that each have one more
operand on their right. Precedences tell which operator of a chain stands at the top of the term,
and types tell how many binders stand above it. Main statement: `Chain.unique`, a chain belongs to
one well-formed term.
-/

namespace TermAlgebra.Term

/-! ## Contexts -/

/-- An abstraction or an operation, which a tight context puts in parentheses. -/
def isOpen (t : Term) : Bool := t.lambda?.isSome || t.isOperation

/-- A context of the given precedence puts the term in parentheses. -/
def enclosed (c : Nat) : Term → Bool
  | lambda _ _ => 0 < c
  | app head [_, _] => head.operatorPrecedence.any fun p => p.toNat < c
  | _ => false

theorem enclosed_lambda (c : Nat) (x : Var) (body : Term) :
    (lambda x body).enclosed c = decide (0 < c) := rfl

theorem enclosed_operation (c : Nat) {k : Constant} {p : UInt8} (hk : k.precedence = some p)
    (l r : Term) : (app (const k) [l, r]).enclosed c = decide (p.toNat < c) := by
  have hp : (const k).operatorPrecedence = some p := hk
  rw [enclosed, hp, Option.any_some]

theorem enclosed_applied (c : Nat) {head : Term} {args : List Term}
    (h : (app head args).isOperation = false) : (app head args).enclosed c = false := by
  unfold enclosed
  split
  · cases ‹_ = _›
  · next e =>
    obtain ⟨rfl, rfl⟩ := Term.app.inj e
    rw [isOperation, Option.isSome_eq_false_iff, Option.isNone_iff_eq_none] at h
    rw [h, Option.any_none]
  · rfl

theorem isOpen_operation {k : Constant} {p : UInt8} (hk : k.precedence = some p) (l r : Term) :
    (app (const k) [l, r]).isOpen := by
  have hp : (const k).operatorPrecedence = some p := hk
  simp [isOpen, isOperation, hp]

theorem enclosed_zero (t : Term) : t.enclosed 0 = false := by
  induction t using layout_induction with
  | operation k p l r hk => rw [enclosed_operation 0 hk, decide_eq_false (Nat.not_lt_zero _)]
  | applied head args h => exact enclosed_applied 0 h
  | _ => rfl

/-- Precedences end at 255. -/
theorem enclosed_of_tight {c : Nat} (hc : 256 ≤ c) (t : Term) : t.enclosed c = t.isOpen := by
  induction t using layout_induction with
  | lambda x body =>
    rw [enclosed_lambda, decide_eq_true (by omega)]
    rfl
  | operation k p l r hk =>
    have hp := p.toNat_lt
    rw [enclosed_operation c hk, isOpen_operation hk, decide_eq_true (by omega)]
  | applied head args h =>
    rw [enclosed_applied c h, isOpen, h]
    rfl
  | _ => rfl

theorem enclosed_of_closed {t : Term} (h : t.isOpen = false) (c : Nat) : t.enclosed c = false := by
  induction t using layout_induction with
  | lambda x body => cases h
  | operation k p l r hk => rw [isOpen_operation hk] at h; cases h
  | applied head args happ => exact enclosed_applied c happ
  | _ => rfl

theorem textIn_eq (names : Names) (c : Nat) (t : Term) :
    t.textIn names c = parenthesized (t.enclosed c) (t.textIn names 0) := by
  induction t using layout_induction with
  | literal v => rw [textIn_literal, textIn_literal]; rfl
  | const k => rw [textIn_const, textIn_const]; rfl
  | var x => rw [textIn_var, textIn_var]; rfl
  | lambda x body =>
    rw [textIn_lambda, textIn_lambda, enclosed_lambda]
    rfl
  | operation k p l r hk =>
    rw [textIn_operation names _ hk, textIn_operation names _ hk, enclosed_operation _ hk]
    rfl
  | applied head args h =>
    rw [textIn_applied names _ h, textIn_applied names _ h, enclosed_applied _ h]
    rfl
  | metaApp z args => rw [textIn_metaApp, textIn_metaApp]; rfl

/-! ## Chains -/

/-- What is written of a term in a context up to its operands: binders, the first operand, and the
operators with the operands on their right. -/
inductive Chain : Nat → Term → List Var → Term → List (Constant × Term) → Prop
  | operand {c : Nat} {t : Term} (h : t.enclosed c = t.isOpen) : Chain c t [] t []
  | lambda {x : Var} {body u : Term} {xs : List Var} {ops : List (Constant × Term)}
      (hbody : Chain 0 body xs u ops) : Chain 0 (lambda x body) (x :: xs) u ops
  | operation {c : Nat} {k : Constant} {p : UInt8} {l r u v : Term} {xs : List Var}
      {ops ops' : List (Constant × Term)} (hk : k.precedence = some p) (hc : c ≤ p.toNat)
      (left : Chain p.toNat l xs u ops) (right : Chain (p.toNat + 1) r [] v ops') :
      Chain c (app (const k) [l, r]) xs u (ops ++ (k, v) :: ops')

theorem exists_chain (t : Term) (c : Nat) :
    ∃ xs u ops, Chain c t xs u ops ∧ (0 < c → xs = []) := by
  induction t using layout_induction generalizing c with
  | lambda x body ih =>
    rcases Nat.eq_zero_or_pos c with rfl | hc
    · obtain ⟨xs, u, ops, h, -⟩ := ih 0
      exact ⟨x :: xs, u, ops, .lambda h, fun hc => absurd hc (Nat.lt_irrefl 0)⟩
    · exact ⟨[], _, [], .operand (by rw [enclosed_lambda, decide_eq_true hc]; rfl), fun _ => rfl⟩
  | operation k p l r hk ihl ihr =>
    by_cases hc : c ≤ p.toNat
    · obtain ⟨xs, u, ops, hl, hxs⟩ := ihl p.toNat
      obtain ⟨ys, v, ops', hr, hys⟩ := ihr (p.toNat + 1)
      rw [hys (Nat.succ_pos _)] at hr
      exact ⟨xs, u, _, .operation hk hc hl hr, fun hpos => hxs (by omega)⟩
    · refine ⟨[], _, [], .operand ?_, fun _ => rfl⟩
      rw [enclosed_operation c hk, isOpen_operation hk, decide_eq_true (by omega)]
  | applied head args h =>
    refine ⟨[], _, [], .operand ?_, fun _ => rfl⟩
    rw [enclosed_applied c h, isOpen, h]
    rfl
  | _ => exact ⟨[], _, [], .operand rfl, fun _ => rfl⟩

theorem NodeOf.size_le {t u : Term} (h : NodeOf u t) : u.size ≤ t.size := by
  induction h with
  | here => exact Nat.le_refl _
  | body _ ih =>
    rw [size_lambda]
    omega
  | head _ ih =>
    rw [size_app]
    omega
  | arg ht _ ih =>
    have hle := size_le_sizeAll ht
    rw [size_app]
    omega
  | metaArg ht _ ih =>
    have hle := size_le_sizeAll ht
    rw [size_metaApp]
    omega

theorem NodeOf.symbols_subset {t u : Term} (h : NodeOf u t) : u.symbols ⊆ t.symbols := by
  intro a ha
  induction h with
  | here => exact ha
  | body _ ih => exact List.mem_cons_of_mem _ ih
  | head _ ih => exact List.mem_append_left _ ih
  | arg ht _ ih => exact List.mem_append_right _ (mem_symbolsAll.mpr ⟨_, ht, ih⟩)
  | metaArg ht _ ih => exact List.mem_cons_of_mem _ (mem_symbolsAll.mpr ⟨_, ht, ih⟩)

section Parts

variable {c : Nat} {t u : Term} {xs : List Var} {ops : List (Constant × Term)}

theorem Chain.node (h : Chain c t xs u ops) : ∀ v ∈ u :: ops.map Prod.snd, NodeOf v t := by
  induction h with
  | operand =>
    intro v hv
    obtain rfl := List.mem_singleton.mp hv
    exact .here
  | lambda _ ih => exact fun v hv => .body (ih v hv)
  | operation _ _ _ _ ihl ihr =>
    intro w hw
    simp only [List.map_append, List.map_cons, List.mem_cons, List.mem_append] at ihl ihr hw
    rcases hw with rfl | hw | rfl | hw
    · exact .arg (by simp) (ihl _ (.inl rfl))
    · exact .arg (by simp) (ihl w (.inr hw))
    · exact .arg (by simp) (ihr _ (.inl rfl))
    · exact .arg (by simp) (ihr w (.inr hw))

theorem Chain.binders_subset (h : Chain c t xs u ops) : ∀ x ∈ xs, .var x ∈ t.symbols := by
  induction h with
  | operand => simp
  | lambda _ ih =>
    intro y hy
    rcases List.mem_cons.mp hy with rfl | hy
    · exact List.mem_cons_self
    · exact List.mem_cons_of_mem _ (ih y hy)
  | operation _ _ _ _ ihl _ =>
    exact fun y hy => List.mem_append_right _ (List.mem_append_left _ (ihl y hy))

theorem Chain.operators_subset (h : Chain c t xs u ops) : ∀ o ∈ ops, .const o.1 ∈ t.symbols := by
  induction h with
  | operand => simp
  | lambda _ ih => exact fun o ho => List.mem_cons_of_mem _ (ih o ho)
  | operation _ _ _ _ ihl ihr =>
    intro o ho
    simp only [symbols, symbolsAll, List.mem_append, List.mem_cons] at ho ⊢
    rcases ho with ho | rfl | ho
    · exact .inr (.inl (ihl o ho))
    · exact .inl (.inl rfl)
    · exact .inr (.inr (.inl (ihr o ho)))

/-- In the weakest context only a closed term is an operand of its own chain. -/
theorem Chain.size_lt (h : Chain 0 t xs u ops) (ht : t.isOpen) :
    ∀ v ∈ u :: ops.map Prod.snd, v.size < t.size := by
  generalize hc : 0 = c at h
  cases h with
  | operand he =>
    rw [← hc, enclosed_zero, ht] at he
    cases he
  | lambda hbody =>
    intro v hv
    have hle := (hbody.node v hv).size_le
    rw [size_lambda]
    omega
  | operation hk _ left right =>
    intro w hw
    simp only [List.map_append, List.map_cons, List.mem_cons, List.mem_append] at hw
    simp only [size_app, sizeAll]
    have hl := fun hw => (left.node w hw).size_le
    have hr := fun hw => (right.node w hw).size_le
    simp only [List.mem_cons] at hl hr
    rcases hw with rfl | hw | rfl | hw
    · have := hl (.inl rfl)
      omega
    · have := hl (.inr hw)
      omega
    · have := hr (.inl rfl)
      omega
    · have := hr (.inr hw)
      omega

end Parts

/-! ## Operators by precedence -/

/-- The precedence of the operator in front of an operand. -/
def weight (o : Constant × Term) : Nat := (o.1.precedence.map UInt8.toNat).getD 0

theorem weight_eq {k : Constant} {p : UInt8} (hk : k.precedence = some p) (v : Term) :
    weight (k, v) = p.toNat := by
  rw [weight, hk]
  rfl

theorem Chain.le_weight {c : Nat} {t u : Term} {xs : List Var} {ops : List (Constant × Term)}
    (h : Chain c t xs u ops) : ∀ o ∈ ops, c ≤ weight o := by
  induction h with
  | operand => simp
  | lambda => simp
  | operation hk hc _ _ ihl ihr =>
    intro o ho
    rcases List.mem_append.mp ho with ho | ho
    · exact Nat.le_trans hc (ihl o ho)
    · rcases List.mem_cons.mp ho with rfl | ho
      · rw [weight_eq hk]
        exact hc
      · have hle := ihr o ho
        omega

theorem nil_of_shift {α : Type} {f : α → Nat} {as as' bs bs' cs : List α} {a a' : α}
    (hbs : ∀ x ∈ bs, f a < f x) (has' : ∀ x ∈ as', f a' ≤ f x) (h : as' = as ++ cs)
    (h' : a :: bs = cs ++ a' :: bs') : cs = [] := by
  cases cs with
  | nil => rfl
  | cons x cs =>
    obtain ⟨rfl, rfl⟩ := List.cons.inj h'
    have hlt := hbs a' (by simp)
    have hle := has' a (by simp [h])
    omega

/-- The last of the least elements splits a list in one way. -/
theorem split_at_last_least {α : Type} {f : α → Nat} {as as' bs bs' : List α} {a a' : α}
    (h : as ++ a :: bs = as' ++ a' :: bs') (has : ∀ x ∈ as, f a ≤ f x)
    (hbs : ∀ x ∈ bs, f a < f x) (has' : ∀ x ∈ as', f a' ≤ f x) (hbs' : ∀ x ∈ bs', f a' < f x) :
    as = as' ∧ a = a' ∧ bs = bs' := by
  rcases List.append_eq_append_iff.mp h with ⟨cs, e, e'⟩ | ⟨cs, e, e'⟩
  · obtain rfl := nil_of_shift hbs has' e e'
    obtain ⟨rfl, rfl⟩ := List.cons.inj e'
    exact ⟨(e.trans (List.append_nil as)).symm, rfl, rfl⟩
  · obtain rfl := nil_of_shift hbs' has e e'
    obtain ⟨rfl, rfl⟩ := List.cons.inj e'
    exact ⟨e.trans (List.append_nil as'), rfl, rfl⟩

/-! ## One term for a chain -/

def lambdas (xs : List Var) (t : Term) : Term := xs.foldr lambda t

theorem ty_lambdas (xs : List Var) (t : Term) :
    (lambdas xs t).ty = .arrows (xs.map Var.ty) t.ty := by
  induction xs with
  | nil => rfl
  | cons x xs ih =>
    change (lambda x (lambdas xs t)).ty = _
    rw [ty, ih]
    rfl

/-- Binders change the type. -/
theorem nil_of_ty_lambdas {xs : List Var} {t : Term} (h : (lambdas xs t).ty = t.ty) : xs = [] := by
  have hinputs := congrArg SimpleType.inputs h
  rw [ty_lambdas, SimpleType.inputs_arrows, List.append_left_eq_self] at hinputs
  exact List.map_eq_nil_iff.mp hinputs

/-- The operands of an operation have the first two types that the operator takes. -/
theorem WellFormed.operands {k : Constant} {l r : Term}
    (h : (Term.app (Term.const k) [l, r]).WellFormed) :
    l.WellFormed ∧ r.WellFormed ∧ [l.ty, r.ty] = k.ty.inputs.take 2 := by
  have hwf := h.args
  cases h with
  | app _ _ fits => exact ⟨hwf l (by simp [Term.args]), hwf r (by simp [Term.args]), fits⟩

theorem Chain.eq_first {c : Nat} {t u : Term} (h : Chain c t [] u []) : t = u := by
  generalize hxs : [] = xs at h
  generalize hops : [] = ops at h
  cases h with
  | operand => rfl
  | lambda => cases hxs
  | operation => simp at hops

/-- A chain with more binders belongs to the term of the chain without them below these binders. -/
theorem Chain.eq_lambdas (n : Nat) {c c' : Nat} {s t u : Term} {xs ys : List Var}
    {ops : List (Constant × Term)} (hs : Chain c s (ys ++ xs) u ops) (ht : Chain c' t xs u ops)
    (hwf : s.WellFormed) (hwf' : t.WellFormed) (hn : s.size + t.size < n) : s = lambdas ys t := by
  induction n generalizing c c' s t u xs ys ops with
  | zero => cases hn
  | succ n ih =>
    generalize hzs : ys ++ xs = zs at hs
    cases hs with
    | operand h =>
      obtain ⟨rfl, rfl⟩ := List.append_eq_nil_iff.mp hzs
      exact ht.eq_first.symm
    | @lambda x body _ zs _ hbody =>
      rw [size_lambda] at hn
      cases ys with
      | cons y ys =>
        obtain ⟨rfl, rfl⟩ := List.cons.inj hzs
        rw [ih hbody ht hwf.body hwf' (by omega)]
        rfl
      | nil =>
        obtain rfl : xs = x :: zs := hzs
        cases ht with
        | lambda hbody' =>
          rw [size_lambda] at hn
          have h : body = lambdas [] _ := ih hbody hbody' hwf.body hwf'.body (by omega)
          rw [h]
          rfl
        | @operation _ k p l r _ _ _ _ _ hk hc left right =>
          -- the other way round, the operation would start with a binder
          have h : app (const k) [l, r] = lambdas [x] body :=
            ih (.operation hk hc left right) hbody hwf' hwf.body (by omega)
          cases h
    | @operation _ k p l r _ v _ ops ops' hk hc left right =>
      subst hzs
      generalize hops : ops ++ (k, v) :: ops' = os at ht
      cases ht with
      | operand => simp at hops
      | @lambda x body _ xs _ hbody =>
        rw [size_lambda] at hn
        have hs : Chain c (app (const k) [l, r]) ((ys ++ [x]) ++ xs) u os := by
          rw [List.append_assoc, ← hops]
          exact .operation hk hc left right
        have h := ih hs hbody hwf hwf'.body (by omega)
        cases ys <;> cases h
      | @operation _ k' p' l' r' _ v' _ os os' hk' hc' left' right' =>
        have hw := weight_eq hk v
        have hw' := weight_eq hk' v'
        obtain ⟨rfl, hkv, rfl⟩ := split_at_last_least (f := weight) hops
          (by rw [hw]; exact left.le_weight) (by rw [hw]; exact right.le_weight)
          (by rw [hw']; exact left'.le_weight) (by rw [hw']; exact right'.le_weight)
        obtain ⟨rfl, rfl⟩ := Prod.mk.inj hkv
        obtain ⟨hlwf, hrwf, htypes⟩ := hwf.operands
        obtain ⟨hlwf', hrwf', htypes'⟩ := hwf'.operands
        simp only [size_app, sizeAll] at hn
        have hl := ih left left' hlwf hlwf' (by omega)
        have hr : r = lambdas [] r' := ih right right' hrwf hrwf' (by omega)
        have hty : l.ty = l'.ty := (List.cons.inj (htypes.trans htypes'.symm)).1
        rw [hl] at hty
        obtain rfl := nil_of_ty_lambdas hty
        rw [hl, hr]
        rfl

/-- A chain belongs to one well-formed term, whatever the context. -/
theorem Chain.unique {c c' : Nat} {s t u : Term} {xs : List Var} {ops : List (Constant × Term)}
    (hs : Chain c s xs u ops) (ht : Chain c' t xs u ops) (hwf : s.WellFormed)
    (hwf' : t.WellFormed) : s = t := by
  have h : s = lambdas [] t := Chain.eq_lambdas _ hs ht hwf hwf' (Nat.lt_succ_self _)
  exact h

end TermAlgebra.Term
