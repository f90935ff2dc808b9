import TermAlgebra.Proofs.Opening
import TermAlgebra.Proofs.Substitution

/-!
# Spines and expansions

An application determines its last arguments and what they are applied to. An image of a
meta-variable is determined, once it is expanded by a binder for every input, by what it becomes
for distinct variables.
-/

namespace TermAlgebra

namespace Nameless

/-! ## Spines -/

def args : Nameless → List Nameless
  | app _ as => as
  | _ => []

theorem args_apply (t : Nameless) (as : List Nameless) : (t.apply as).args = t.args ++ as := by
  cases as with
  | nil => simp
  | cons a as =>
    cases t with
    | app head bs => rw [apply_app, args, args]
    | _ => rfl

/-- Applications have arguments. -/
def Proper (t : Nameless) : Prop := ∀ head, t ≠ app head []

theorem apply_injective {t u : Nameless} {as bs : List Nameless} (ht : t.Proper) (hu : u.Proper)
    (hlen : as.length = bs.length) (h : t.apply as = u.apply bs) : t = u ∧ as = bs := by
  have hargs : t.args ++ as = u.args ++ bs := by rw [← args_apply, h, args_apply]
  obtain ⟨hfront, rfl⟩ := List.append_inj' hargs hlen
  refine ⟨?_, rfl⟩
  cases as with
  | nil => simpa using h
  | cons a as =>
    cases t with
    | app head cs =>
      cases u with
      | app head' ds =>
        rw [apply_app, apply_app] at h
        obtain ⟨rfl, _⟩ := app.inj h
        exact congrArg (app head) hfront
      | _ =>
        obtain rfl : cs = [] := hfront
        exact absurd rfl (ht head)
    | _ =>
      cases u with
      | app head' ds =>
        obtain rfl : ds = [] := hfront.symm
        exact absurd rfl (hu head')
      | _ => exact (app.inj h).1

end Nameless

namespace Term

theorem nameless_args (t : Term) : t.nameless.args = t.args.map nameless := by
  cases t with
  | app head args => exact namelessAllIn_eq_map [] args
  | _ => rfl

theorem nameless_proper {t : Term} (ht : t.WellFormed) : t.nameless.Proper := by
  intro head h
  cases ht with
  | app _ nonempty =>
    rw [nameless, namelessIn, namelessAllIn_eq_map] at h
    exact nonempty (List.map_eq_nil_iff.mp (Nameless.app.inj h).2)
  | _ => cases h

theorem length_eq_of_alphaAllIn {ss ts : List Term} {xs ys : List Var}
    (h : alphaAllIn xs ys ss ts) : ss.length = ts.length := by
  induction ss generalizing ts with
  | nil =>
    cases ts with
    | nil => rfl
    | cons t ts => cases h
  | cons s ss ih =>
    cases ts with
    | nil => cases h
    | cons t ts =>
      rw [alphaAllIn, Bool.and_eq_true] at h
      rw [List.length_cons, List.length_cons, ih h.2]

theorem ty_eq_of_alphaIn {s t : Term} {xs ys : List Var} (h : alphaIn xs ys s t) :
    s.ty = t.ty := by
  induction s using Term.induction generalizing t xs ys with
  | literal v =>
    cases t with
    | literal w => rw [eq_of_beq h]
    | _ => cases h
  | const c =>
    cases t with
    | const d =>
      rw [alphaIn, Constant.same, Bool.and_eq_true] at h
      rw [ty, ty, eq_of_beq h.2]
    | _ => cases h
  | var x =>
    cases t with
    | var y =>
      rw [alphaIn, Bool.and_eq_true] at h
      rw [ty, ty, eq_of_beq h.1]
    | _ => cases h
  | lambda x body ih =>
    cases t with
    | lambda y body' =>
      rw [alphaIn, Bool.and_eq_true] at h
      rw [ty, ty, eq_of_beq h.1, ih h.2]
    | _ => cases h
  | app head args ih _ =>
    cases t with
    | app head' args' =>
      rw [alphaIn, Bool.and_eq_true] at h
      rw [ty, ty, ih h.1, length_eq_of_alphaAllIn h.2]
    | _ => cases h
  | metaApp z args _ =>
    cases t with
    | metaApp w args' =>
      rw [alphaIn, Bool.and_eq_true] at h
      rw [ty, ty, eq_of_beq h.1]
    | _ => cases h

/-- Without names, a term still determines its type. -/
theorem ty_eq_of_nameless {s t : Term} (h : s.nameless = t.nameless) : s.ty = t.ty :=
  ty_eq_of_alphaIn ((alphaIn_iff rfl s t).mpr h)

/-- Variables are renamed by what they are filled with. -/
theorem fill_read (t : Term) {V : Valuation} (hV : V.Atomic)
    (ρ : Nameless.Label → Nameless.Label) :
    (t.read V).fill (Nameless.ofLabel ∘ ρ) = (t.read V).relabel ρ := by
  rw [← read_fill t hV.metaVar, ← read_relabel]
  apply read_congr
  · intro v _
    have hvar := hV.var v
    simp only [Valuation.fill, Valuation.relabel]
    cases e : V.var v with
    | free x => rfl
    | bound i => rfl
    | _ =>
      rw [e] at hvar
      cases hvar
  · intro z _
    simp [Valuation.fill, Valuation.relabel, hV.metaVar]

theorem exists_read_of_lambdas {t : Term} (ht : t.WellFormed) {V : Valuation} (hV : V.Atomic)
    {σs : List SimpleType} {body : Nameless} (h : t.read V = .lambdas σs body) :
    ∃ (s : Term) (W : Valuation), W.Atomic ∧ s.read W = body := by
  induction σs generalizing t V with
  | nil => exact ⟨t, V, hV, h⟩
  | cons σ σs ih =>
    cases hl : t.lambda? with
    | none =>
      have hnot := isLambda_read ht hl hV
      rw [h] at hnot
      cases hnot
    | some p =>
      cases ht with
      | @lambda x s _ _ wf => exact ih wf (hV.under x) (Nameless.lambda.inj h).2
      | _ => cases hl

end Term

namespace Valuation

/-- The meta-variable below as many binders as it has inputs, applied to them. -/
def expandBody (V : Valuation) (z : MetaVar) : Nameless :=
  (V.relabel (Nameless.Label.shift z.arity)).metaApp z ((List.range z.arity).reverse.map .bound)

def expand (V : Valuation) (z : MetaVar) : Nameless := .lambdas z.inputs (V.expandBody z)

theorem relabel_shift_opening (V : Valuation) (xs : List Var) :
    (V.relabel (Nameless.Label.shift xs.length)).relabel (Nameless.opening xs) = V := by
  cases V with
  | mk var metaVar =>
    simp only [relabel, Nameless.opening_shift, Valuation.mk.injEq, true_and]
    funext z
    cases metaVar z with
    | none => rfl
    | some image => exact congrArg some (Nameless.opening_shift xs image)

theorem map_bound_opening (xs : List Var) :
    ((List.range xs.length).map Nameless.bound).map (Nameless.relabel (Nameless.opening xs)) =
      xs.map Nameless.free := by
  apply List.ext_getElem
  · simp
  · intro i _ hi
    have hlen : i < xs.length := by simpa using hi
    have hget : xs[i]? = some xs[i] := List.getElem?_eq_getElem hlen
    simp only [List.getElem_map, List.getElem_range, Nameless.relabel, Nameless.opening, hget]
    rfl

theorem expandBody_opening (V : Valuation) {z : MetaVar} {ys : List Var}
    (hlen : ys.length = z.arity) :
    (V.expandBody z).relabel (Nameless.opening ys.reverse) = V.metaApp z (ys.map .free) := by
  have hlen' : ys.reverse.length = z.arity := by rw [List.length_reverse, hlen]
  have hargs : ((List.range z.arity).reverse.map Nameless.bound).map
      (Nameless.relabel (Nameless.opening ys.reverse)) = ys.map Nameless.free := by
    rw [← hlen', List.map_reverse, List.map_reverse, map_bound_opening, ← List.map_reverse,
      List.reverse_reverse]
  unfold expandBody
  rw [Term.metaApp_relabel, hargs, ← hlen', relabel_shift_opening]

theorem mentions_expandBody {V : Valuation} {z : MetaVar} {y : Var}
    (h : (V.expandBody z).mentions y) : ∃ image, V.metaVar z = some image ∧ image.mentions y := by
  rcases mentions_metaApp h with ⟨_, e, hm⟩ | ⟨a, ha, hm⟩
  · obtain ⟨image, himage, rfl⟩ := Option.map_eq_some_iff.mp e
    exact ⟨image, himage, Nameless.mentions_shift.mp hm⟩
  · obtain ⟨i, _, rfl⟩ := List.mem_map.mp ha
    cases hm

/-- What a meta-variable becomes for distinct variables determines its expansion. -/
theorem expand_eq {V : Valuation} {z : MetaVar} {ys : List Var} (hys : ys.Nodup)
    (hty : ys.map Var.ty = z.inputs)
    (hnew : ∀ image, V.metaVar z = some image → ∀ y ∈ ys, ¬image.mentions y) :
    V.expand z =
      .lambdas (ys.map Var.ty) ((V.metaApp z (ys.map .free)).relabel
        (Nameless.closing ys.reverse)) := by
  have hlen : ys.length = z.arity := by
    rw [MetaVar.arity, ← hty, List.length_map]
  have hbody : V.expandBody z =
      (V.metaApp z (ys.map .free)).relabel (Nameless.closing ys.reverse) := by
    refine Nameless.relabel_opening_injective (List.pairwise_reverse.mpr (hys.imp Ne.symm)) ?_ ?_ ?_
    · intro y hy hm
      obtain ⟨image, e, himage⟩ := mentions_expandBody hm
      exact hnew image e y (List.mem_reverse.mp hy) himage
    · exact fun y hy hm => (Nameless.mentions_of_closing hm).2 hy
    · rw [expandBody_opening V hlen, Nameless.relabel_opening_closing]
  rw [expand, hbody, hty]

/-- A term that reads as the expansion does for variables what the meta-variable does. -/
theorem instantiate_expand {V : Valuation} {z : MetaVar} {t : Term} (ht : t.WellFormed)
    (h : t.nameless = V.expand z) {ws : List Var} (hlen : ws.length = z.arity) :
    t.nameless.instantiate (ws.map .free) = V.metaApp z (ws.map .free) := by
  have hplain : t.read plain = .lambdas z.inputs (V.expandBody z) := by
    rw [Term.read_plain ht, h, expand]
  obtain ⟨s, W, hW, hs⟩ := Term.exists_read_of_lambdas ht plain_atomic hplain
  have hlen' : z.inputs.length = (ws.map Nameless.free).length := by
    rw [List.length_map, hlen, MetaVar.arity]
  have henv : Nameless.environment (ws.map Nameless.free).reverse =
      Nameless.ofLabel ∘ Nameless.opening ws.reverse := by
    funext l
    rw [← List.map_reverse, Nameless.environment_opening]
    rfl
  rw [h, expand, Nameless.instantiate_lambdas hlen', henv, ← hs, Term.fill_read s hW, hs,
    expandBody_opening V hlen]

theorem expand_congr {V W : Valuation} {z : MetaVar} (h : V.metaVar z = W.metaVar z) :
    V.expand z = W.expand z := by
  simp only [expand, expandBody, metaApp, relabel, h]

/-- What the image of a variable or meta-variable reads as, below a binder for every input. -/
def expansion (V : Valuation) : Replaceable → Nameless
  | .var x => V.var x
  | .metaVar z => V.expand z

end Valuation

end TermAlgebra
