import TermAlgebra.Term.Basic

/-!
# Equality

Equality of terms, names of bound variables included. Terms share their parts, so two parts to be
compared are often one object; then they are not looked into.
-/

namespace TermAlgebra.Term

mutual

/-- Equality of trees; constants agree when they are the same symbol. -/
def same : Term → Term → Bool
  | literal v, literal w => v == w
  | const c, const d => c.same d
  | var x, var y => x == y
  | lambda x s, lambda y t => x == y && same s t
  | app h args, app h' args' => same h h' && sameAll args args'
  | metaApp z args, metaApp w args' => z == w && sameAll args args'
  | _, _ => false

def sameAll : List Term → List Term → Bool
  | [], [] => true
  | s :: ss, t :: ts => same s t && sameAll ss ts
  | _, _ => false

end

theorem sameAll_refl {ts : List Term} (h : ∀ t ∈ ts, same t t) : sameAll ts ts := by
  induction ts with
  | nil => rfl
  | cons t ts ih =>
    rw [sameAll, Bool.and_eq_true]
    exact ⟨h t List.mem_cons_self, ih fun s hs => h s (List.mem_cons_of_mem t hs)⟩

theorem same_refl (t : Term) : same t t := by
  induction t using Term.induction with
  | literal v => simp [same]
  | const c => simp [same, Constant.same]
  | var x => simp [same]
  | lambda x body ih => simp [same, ih]
  | app head args ih ihs => simp [same, ih, sameAll_refl ihs]
  | metaApp z args ihs => simp [same, sameAll_refl ihs]

/-- Decides a reflexive relation on terms, at once when both are one object. -/
@[inline] def decideShared (r : Term → Term → Bool) (refl : ∀ t, r t t) (s t : Term)
    (k : Unit → { b : Bool // b = r s t }) : { b : Bool // b = r s t } :=
  ⟨withPtrEq s t (fun u => (k u).val) (fun h => by rw [(k ()).property, h]; exact refl t),
    (k ()).property⟩

mutual

/-- Equality that skips shared parts. -/
def sameShared (s t : Term) : { b : Bool // b = same s t } :=
  decideShared same same_refl s t fun _ =>
    match s, t with
    | lambda x s, lambda y t =>
      ⟨x == y && (sameShared s t).val, by rw [(sameShared s t).property, same]⟩
    | app h args, app h' args' =>
      ⟨(sameShared h h').val && (sameAllShared args args').val, by
        rw [(sameShared h h').property, (sameAllShared args args').property, same]⟩
    | metaApp z args, metaApp w args' =>
      ⟨z == w && (sameAllShared args args').val, by
        rw [(sameAllShared args args').property, same]⟩
    | s, t => ⟨same s t, rfl⟩

def sameAllShared (ss ts : List Term) : { b : Bool // b = sameAll ss ts } :=
  match ss, ts with
  | [], [] => ⟨true, rfl⟩
  | s :: ss, t :: ts =>
    ⟨(sameShared s t).val && (sameAllShared ss ts).val, by
      rw [(sameShared s t).property, (sameAllShared ss ts).property, sameAll]⟩
  | [], _ :: _ => ⟨false, rfl⟩
  | _ :: _, [] => ⟨false, rfl⟩

end

instance : BEq Term := ⟨fun s t => (sameShared s t).val⟩

theorem beq_eq_same (s t : Term) : (s == t) = same s t := (sameShared s t).property

end TermAlgebra.Term
