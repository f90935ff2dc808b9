import TermAlgebra.Term.Alpha

/-!
# Nameless reading

A term without the names of its binders: a bound occurrence is written as the number of binders
between it and its own. Main statement: two terms are equal up to the choice of bound variables
exactly when their nameless readings are equal.
-/

namespace TermAlgebra

inductive Nameless where
  | literal (v : Literal)
  | const (name : String) (ty : SimpleType)
  | free (x : Var)
  /-- An occurrence bound by the binder that is `i` binders farther out than the next one. -/
  | bound (i : Nat)
  | lambda (ty : SimpleType) (body : Nameless)
  | app (head : Nameless) (args : List Nameless)
  | metaApp (z : MetaVar) (args : List Nameless)

namespace Nameless

/-- Reads an occurrence below a scope of binders, the innermost one first. -/
def ofVar (scope : List Var) (x : Var) : Nameless :=
  match scope.idxOf? x with
  | some i => bound i
  | none => free x

end Nameless

namespace Term

mutual

/-- Reads a term below a scope. -/
def namelessIn (scope : List Var) : Term → Nameless
  | literal v => .literal v
  | const c => .const c.name c.ty
  | var x => .ofVar scope x
  | lambda x body => .lambda x.ty (namelessIn (x :: scope) body)
  | app head args => .app (namelessIn scope head) (namelessAllIn scope args)
  | metaApp z args => .metaApp z (namelessAllIn scope args)

def namelessAllIn (scope : List Var) : List Term → List Nameless
  | [] => []
  | t :: ts => namelessIn scope t :: namelessAllIn scope ts

end

def nameless (t : Term) : Nameless := namelessIn [] t

theorem namelessAllIn_eq_map (scope : List Var) (ts : List Term) :
    namelessAllIn scope ts = ts.map (namelessIn scope) := by
  induction ts with
  | nil => rfl
  | cons t ts ih => rw [namelessAllIn, ih, List.map_cons]

theorem idxOf?_cons_congr {xs ys : List Var} {x y : Var} (h : xs.idxOf? x = ys.idxOf? x) :
    (y :: xs).idxOf? x = (y :: ys).idxOf? x := by
  rw [List.idxOf?_cons, List.idxOf?_cons, h]

/-- The reading depends on the scope only at the free variables. -/
theorem namelessIn_congr (t : Term) {xs ys : List Var}
    (h : ∀ x, .var x ∈ t.free → xs.idxOf? x = ys.idxOf? x) : namelessIn xs t = namelessIn ys t := by
  induction t using Term.induction generalizing xs ys with
  | literal v => rfl
  | const c => rfl
  | var x =>
    have hx : xs.idxOf? x = ys.idxOf? x := h x (by simp)
    unfold namelessIn Nameless.ofVar
    rw [hx]
  | lambda y body ih =>
    have hbody : namelessIn (y :: xs) body = namelessIn (y :: ys) body := by
      apply ih
      intro x hx
      by_cases hxy : x = y
      · subst hxy
        simp [List.idxOf?_cons]
      · refine idxOf?_cons_congr (h x ?_)
        rw [free_lambda, OrderedSet.mem_erase]
        exact ⟨fun e => hxy (Replaceable.var.inj e), hx⟩
    rw [namelessIn, namelessIn, hbody]
  | app head args ih ihs =>
    have hhead : namelessIn xs head = namelessIn ys head := by
      apply ih
      intro x hx
      refine h x ?_
      rw [free_app, OrderedSet.mem_union]
      exact Or.inl hx
    have hargs : args.map (namelessIn xs) = args.map (namelessIn ys) := by
      apply List.map_congr_left
      intro t ht
      apply ihs t ht
      intro x hx
      refine h x ?_
      rw [free_app, OrderedSet.mem_union, mem_freeAll]
      exact Or.inr ⟨t, ht, hx⟩
    rw [namelessIn, namelessIn, hhead, namelessAllIn_eq_map, namelessAllIn_eq_map, hargs]
  | metaApp z args ihs =>
    have hargs : args.map (namelessIn xs) = args.map (namelessIn ys) := by
      apply List.map_congr_left
      intro t ht
      apply ihs t ht
      intro x hx
      refine h x ?_
      rw [free_metaApp, OrderedSet.mem_insert, mem_freeAll]
      exact Or.inr ⟨t, ht, hx⟩
    rw [namelessIn, namelessIn, namelessAllIn_eq_map, namelessAllIn_eq_map, hargs]

/-- Occurrences below scopes of the same types agree when their readings do. -/
theorem alphaVar_iff {xs ys : List Var} (hty : xs.map Var.ty = ys.map Var.ty) (x y : Var) :
    (x.ty == y.ty && alphaVar xs ys x y) ↔ Nameless.ofVar xs x = Nameless.ofVar ys y := by
  unfold alphaVar Nameless.ofVar
  cases hx : xs.idxOf? x with
  | none =>
    cases hy : ys.idxOf? y with
    | none =>
      rw [Bool.and_eq_true, beq_iff_eq, beq_iff_eq]
      constructor
      · intro ⟨_, e⟩
        rw [e]
      · intro e
        cases e
        exact ⟨rfl, rfl⟩
    | some j => simp
  | some i =>
    cases hy : ys.idxOf? y with
    | none => simp
    | some j =>
      rw [Bool.and_eq_true, beq_iff_eq, beq_iff_eq]
      constructor
      · intro ⟨_, e⟩
        rw [e]
      · intro e
        cases e
        refine ⟨?_, rfl⟩
        obtain ⟨hi, ei, _⟩ := List.idxOf?_eq_some_iff.mp hx
        obtain ⟨hj, ej, _⟩ := List.idxOf?_eq_some_iff.mp hy
        have hmap : (xs.map Var.ty)[i]? = (ys.map Var.ty)[i]? := by rw [hty]
        rw [List.getElem?_map, List.getElem?_map, List.getElem?_eq_getElem hi,
          List.getElem?_eq_getElem hj, ei, ej] at hmap
        exact Option.some.inj hmap

theorem alphaAllIn_iff {xs ys : List Var} {ss : List Term}
    (h : ∀ s ∈ ss, ∀ t, alphaIn xs ys s t ↔ namelessIn xs s = namelessIn ys t) (ts : List Term) :
    alphaAllIn xs ys ss ts ↔ namelessAllIn xs ss = namelessAllIn ys ts := by
  induction ss generalizing ts with
  | nil => cases ts <;> simp [alphaAllIn, namelessAllIn]
  | cons s ss ih =>
    cases ts with
    | nil => simp [alphaAllIn, namelessAllIn]
    | cons t ts =>
      rw [alphaAllIn, Bool.and_eq_true, namelessAllIn, namelessAllIn, List.cons.injEq]
      refine and_congr (h s List.mem_cons_self t) (ih ?_ ts)
      intro r hr
      exact h r (List.mem_cons_of_mem s hr)

/-- Below scopes of the same types, terms are equal up to bound variables exactly when their
readings are equal. -/
theorem alphaIn_iff {xs ys : List Var} (hty : xs.map Var.ty = ys.map Var.ty) (s t : Term) :
    alphaIn xs ys s t ↔ namelessIn xs s = namelessIn ys t := by
  induction s using Term.induction generalizing xs ys t with
  | literal v =>
    cases t with
    | var y =>
      unfold alphaIn namelessIn Nameless.ofVar
      split <;> simp
    | _ => simp [alphaIn, namelessIn]
  | const c =>
    cases t with
    | var y =>
      unfold alphaIn namelessIn Nameless.ofVar
      split <;> simp
    | _ => simp [alphaIn, namelessIn, Constant.same]
  | var x =>
    cases t with
    | var y => exact alphaVar_iff hty x y
    | _ =>
      unfold alphaIn namelessIn Nameless.ofVar
      split <;> simp
  | lambda x body ih =>
    cases t with
    | var y =>
      unfold alphaIn namelessIn Nameless.ofVar
      split <;> simp
    | lambda y body' =>
      rw [alphaIn, namelessIn, namelessIn, Bool.and_eq_true, beq_iff_eq, Nameless.lambda.injEq]
      refine and_congr_right fun e => ih ?_ body'
      rw [List.map_cons, List.map_cons, e, hty]
    | _ => simp [alphaIn, namelessIn]
  | app head args ih ihs =>
    cases t with
    | var y =>
      unfold alphaIn namelessIn Nameless.ofVar
      split <;> simp
    | app head' args' =>
      rw [alphaIn, namelessIn, namelessIn, Bool.and_eq_true, Nameless.app.injEq]
      exact and_congr (ih hty head') (alphaAllIn_iff (fun s hs => ihs s hs hty) args')
    | _ => simp [alphaIn, namelessIn]
  | metaApp z args ihs =>
    cases t with
    | var y =>
      unfold alphaIn namelessIn Nameless.ofVar
      split <;> simp
    | metaApp w args' =>
      rw [alphaIn, namelessIn, namelessIn, Bool.and_eq_true, beq_iff_eq, Nameless.metaApp.injEq]
      exact and_congr Iff.rfl (alphaAllIn_iff (fun s hs => ihs s hs hty) args')
    | _ => simp [alphaIn, namelessIn]

end Term

end TermAlgebra
