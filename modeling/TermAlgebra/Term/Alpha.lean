import TermAlgebra.Term.Equality

/-!
# Alpha-equivalence

Equality of terms up to the choice of bound variables. Terms are compared below two scopes, the
innermost binder first; bound occurrences agree when their binders stand at the same place. Outside
all binders a part that both terms share is not looked into.
-/

namespace TermAlgebra.Term

/-- Occurrences below two scopes: both bound at one place, or both free and the same. -/
def alphaVar (xs ys : List Var) (x y : Var) : Bool :=
  match xs.idxOf? x, ys.idxOf? y with
  | some i, some j => i == j
  | none, none => x == y
  | _, _ => false

mutual

/-- Equality below two scopes. -/
def alphaIn (xs ys : List Var) : Term → Term → Bool
  | literal v, literal w => v == w
  | const c, const d => c.same d
  | var x, var y => x.ty == y.ty && alphaVar xs ys x y
  | lambda x s, lambda y t => x.ty == y.ty && alphaIn (x :: xs) (y :: ys) s t
  | app h args, app h' args' => alphaIn xs ys h h' && alphaAllIn xs ys args args'
  | metaApp z args, metaApp w args' => z == w && alphaAllIn xs ys args args'
  | _, _ => false

def alphaAllIn (xs ys : List Var) : List Term → List Term → Bool
  | [], [] => true
  | s :: ss, t :: ts => alphaIn xs ys s t && alphaAllIn xs ys ss ts
  | _, _ => false

end

theorem alphaVar_refl (xs : List Var) (x : Var) : alphaVar xs xs x x := by
  unfold alphaVar
  cases xs.idxOf? x <;> simp

theorem alphaAllIn_refl {ts : List Term} (xs : List Var) (h : ∀ t ∈ ts, alphaIn xs xs t t) :
    alphaAllIn xs xs ts ts := by
  induction ts with
  | nil => rfl
  | cons t ts ih =>
    rw [alphaAllIn, Bool.and_eq_true]
    exact ⟨h t List.mem_cons_self, ih fun s hs => h s (List.mem_cons_of_mem t hs)⟩

theorem alphaIn_refl (xs : List Var) (t : Term) : alphaIn xs xs t t := by
  induction t using Term.induction generalizing xs with
  | literal v => simp [alphaIn]
  | const c => simp [alphaIn, Constant.same]
  | var x => simp [alphaIn, alphaVar_refl]
  | lambda x body ih => simp [alphaIn, ih]
  | app head args ih ihs =>
    simp [alphaIn, ih, alphaAllIn_refl xs fun t ht => ihs t ht xs]
  | metaApp z args ihs => simp [alphaIn, alphaAllIn_refl xs fun t ht => ihs t ht xs]

mutual

/-- Equality below no binder that skips shared parts. -/
def alphaShared (s t : Term) : { b : Bool // b = alphaIn [] [] s t } :=
  decideShared (alphaIn [] []) (alphaIn_refl []) s t fun _ =>
    match s, t with
    | app h args, app h' args' =>
      ⟨(alphaShared h h').val && (alphaAllShared args args').val, by
        rw [(alphaShared h h').property, (alphaAllShared args args').property, alphaIn]⟩
    | metaApp z args, metaApp w args' =>
      ⟨z == w && (alphaAllShared args args').val, by
        rw [(alphaAllShared args args').property, alphaIn]⟩
    | s, t => ⟨alphaIn [] [] s t, rfl⟩

def alphaAllShared (ss ts : List Term) : { b : Bool // b = alphaAllIn [] [] ss ts } :=
  match ss, ts with
  | [], [] => ⟨true, rfl⟩
  | s :: ss, t :: ts =>
    ⟨(alphaShared s t).val && (alphaAllShared ss ts).val, by
      rw [(alphaShared s t).property, (alphaAllShared ss ts).property, alphaAllIn]⟩
  | [], _ :: _ => ⟨false, rfl⟩
  | _ :: _, [] => ⟨false, rfl⟩

end

/-- Equality up to the choice of bound variables. -/
def alphaEquals (s t : Term) : Bool := (alphaShared s t).val

theorem alphaEquals_eq_alphaIn (s t : Term) : alphaEquals s t = alphaIn [] [] s t :=
  (alphaShared s t).property

end TermAlgebra.Term
