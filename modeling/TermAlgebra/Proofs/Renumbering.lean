import Mathlib.Data.List.Forall2
import Mathlib.Data.List.Nodup
import Mathlib.Order.Monotone.Basic
import TermAlgebra.Term.Alpha
import TermAlgebra.Term.Classify
import TermAlgebra.Term.Subterm
import TermAlgebra.Subst

/-!
# Other identifiers

Identifiers are only compared with each other. A change of identifiers that keeps them apart is
therefore not seen by anything that looks at a term: not by its type, its size, its free and bound
variables, its parts, and not by equality. If it also keeps their order, then sets and substitutions
are listed in the same order.
-/

namespace TermAlgebra

/-- Other identifiers, for different ones different ones. -/
structure Renumbering where
  toFun : Nat → Nat
  injective : Function.Injective toFun

instance : CoeFun Renumbering fun _ => Nat → Nat := ⟨Renumbering.toFun⟩

namespace Renumbering

/-- The identifiers stay in the same order. -/
class Increasing (π : Renumbering) : Prop where
  strictMono : StrictMono π

/-- No identifier changes. -/
def identity : Renumbering := ⟨id, Function.injective_id⟩

instance : Increasing identity := ⟨strictMono_id⟩

/-- One change of identifiers after the other. -/
def comp (π ρ : Renumbering) : Renumbering := ⟨π ∘ ρ, π.injective.comp ρ.injective⟩

section

variable (π : Renumbering) [π.Increasing]

theorem strictMono : StrictMono π := Increasing.strictMono

theorem lt_iff {i j : Nat} : π i < π j ↔ i < j := π.strictMono.lt_iff_lt

theorem compare_eq (i j : Nat) : compare (π i) (π j) = compare i j := by
  simp only [Nat.compare_eq_ite_lt, π.lt_iff]

end

end Renumbering

/-! ## Variables -/

namespace Var

def renumber (π : Renumbering) (x : Var) : Var := { x with id := π x.id }

variable (π : Renumbering)

@[simp]
theorem renumber_identity (x : Var) : x.renumber .identity = x := rfl

@[simp]
theorem renumber_name (x : Var) : (x.renumber π).name = x.name := rfl

@[simp]
theorem renumber_ty (x : Var) : (x.renumber π).ty = x.ty := rfl

@[simp]
theorem renumber_binder (x : Var) : (x.renumber π).binder = x.binder := rfl

theorem renumber_injective : Function.Injective (renumber π) := by
  rintro ⟨i, s, σ, b⟩ ⟨j, t, τ, c⟩ h
  simp only [renumber, mk.injEq] at h
  obtain ⟨hid, rfl, rfl, rfl⟩ := h
  rw [π.injective hid]

@[simp]
theorem renumber_inj {x y : Var} : x.renumber π = y.renumber π ↔ x = y :=
  (renumber_injective π).eq_iff

@[simp]
theorem beq_renumber (x y : Var) : (x.renumber π == y.renumber π) = (x == y) :=
  (renumber_injective π).beq_eq

theorem compare_renumber [π.Increasing] (x y : Var) :
    compare (x.renumber π) (y.renumber π) = compare x y := by
  change cmp _ _ = cmp _ _
  simp only [cmp, compareLex, compareOn, renumber, π.compare_eq]

end Var

namespace MetaVar

def renumber (π : Renumbering) (z : MetaVar) : MetaVar := { z with id := π z.id }

variable (π : Renumbering)

@[simp]
theorem renumber_identity (z : MetaVar) : z.renumber .identity = z := rfl

@[simp]
theorem renumber_name (z : MetaVar) : (z.renumber π).name = z.name := rfl

@[simp]
theorem renumber_inputs (z : MetaVar) : (z.renumber π).inputs = z.inputs := rfl

@[simp]
theorem renumber_output (z : MetaVar) : (z.renumber π).output = z.output := rfl

@[simp]
theorem renumber_arity (z : MetaVar) : (z.renumber π).arity = z.arity := rfl

@[simp]
theorem renumber_ty (z : MetaVar) : (z.renumber π).ty = z.ty := rfl

theorem renumber_injective : Function.Injective (renumber π) := by
  rintro ⟨i, s, σs, σ⟩ ⟨j, t, τs, τ⟩ h
  simp only [renumber, mk.injEq] at h
  obtain ⟨hid, rfl, rfl, rfl⟩ := h
  rw [π.injective hid]

@[simp]
theorem renumber_inj {z w : MetaVar} : z.renumber π = w.renumber π ↔ z = w :=
  (renumber_injective π).eq_iff

@[simp]
theorem beq_renumber (z w : MetaVar) : (z.renumber π == w.renumber π) = (z == w) :=
  (renumber_injective π).beq_eq

theorem compare_renumber [π.Increasing] (z w : MetaVar) :
    compare (z.renumber π) (w.renumber π) = compare z w := by
  change cmp _ _ = cmp _ _
  simp only [cmp, compareLex, compareOn, renumber, π.compare_eq]

end MetaVar

namespace Replaceable

def renumber (π : Renumbering) : Replaceable → Replaceable
  | var x => var (x.renumber π)
  | metaVar z => metaVar (z.renumber π)

variable (π : Renumbering)

@[simp]
theorem renumber_var (x : Var) : (var x).renumber π = var (x.renumber π) := rfl

@[simp]
theorem renumber_metaVar (z : MetaVar) : (metaVar z).renumber π = metaVar (z.renumber π) := rfl

@[simp]
theorem renumber_id (r : Replaceable) : (r.renumber π).id = π r.id := by cases r <;> rfl

@[simp]
theorem renumber_name (r : Replaceable) : (r.renumber π).name = r.name := by cases r <;> rfl

@[simp]
theorem renumber_ty (r : Replaceable) : (r.renumber π).ty = r.ty := by cases r <;> rfl

theorem renumber_comp (ρ : Renumbering) (r : Replaceable) :
    r.renumber (π.comp ρ) = (r.renumber ρ).renumber π := by
  cases r <;> rfl

theorem renumber_injective : Function.Injective (renumber π) := by
  intro r s h
  cases r <;> cases s <;> simp_all [renumber]

variable {π} in
theorem renumber_eq_var {r : Replaceable} {y : Var} (h : r.renumber π = var y) :
    ∃ x, r = var x ∧ x.renumber π = y := by
  cases r with
  | var x => exact ⟨x, rfl, var.inj h⟩
  | metaVar z => cases h

@[simp]
theorem renumber_inj {r s : Replaceable} : r.renumber π = s.renumber π ↔ r = s :=
  (renumber_injective π).eq_iff

theorem compare_renumber [π.Increasing] (r s : Replaceable) :
    compare (r.renumber π) (s.renumber π) = compare r s := by
  cases r <;> cases s
  · exact Var.compare_renumber π _ _
  · rfl
  · rfl
  · exact MetaVar.compare_renumber π _ _

theorem var?_renumber (r : Replaceable) :
    (r.renumber π).var? = r.var?.map (Var.renumber π) := by
  cases r <;> rfl

end Replaceable

/-- A map that keeps the order turns a set element by element into a set. -/
theorem OrderedSet.toList_eq_map {α β : Type} [Ord α] [Ord β] [Std.LawfulEqOrd β] [Std.TransOrd β]
    {f : α → β} (hf : ∀ x y, compare (f x) (f y) = compare x y) {s : OrderedSet α}
    {t : OrderedSet β} (h : ∀ y, y ∈ t ↔ ∃ x ∈ s, f x = y) : t.toList = s.toList.map f := by
  refine eq_of_mem_iff t.sorted ?_ fun y => ?_
  · refine List.pairwise_map.mpr (s.sorted.imp fun hxy => ?_)
    rw [hf, hxy]
  · rw [List.mem_map]
    exact h y

/-- A map that keeps elements apart keeps their number. -/
theorem OrderedSet.size_eq_of_injective {α β : Type} [Ord α] [Ord β] [Std.LawfulEqOrd α]
    [Std.LawfulEqOrd β] {f : α → β} (hf : Function.Injective f) {s : OrderedSet α}
    {t : OrderedSet β} (h : ∀ y, y ∈ t ↔ ∃ x ∈ s, f x = y) : t.size = s.size := by
  have hperm : t.toList.Perm (s.toList.map f) := by
    have hnodup := s.nodup_toList.map hf
    refine (List.perm_ext_iff_of_nodup t.nodup_toList hnodup).mpr fun y => ?_
    rw [List.mem_map]
    exact h y
  rw [size_eq, size_eq, hperm.length_eq, List.length_map]

/-! ## Terms -/

namespace Term

mutual

def renumber (π : Renumbering) : Term → Term
  | literal v => literal v
  | const c => const c
  | var x => var (x.renumber π)
  | lambda x body => lambda (x.renumber π) (body.renumber π)
  | app head args => app (head.renumber π) (renumberAll π args)
  | metaApp z args => metaApp (z.renumber π) (renumberAll π args)

def renumberAll (π : Renumbering) : List Term → List Term
  | [] => []
  | t :: ts => t.renumber π :: renumberAll π ts

end

variable (π : Renumbering)

theorem renumberAll_eq_map (ts : List Term) : renumberAll π ts = ts.map (renumber π) := by
  induction ts with
  | nil => rfl
  | cons t ts ih => rw [renumberAll, ih, List.map_cons]

@[simp]
theorem renumber_literal (v : Literal) : (literal v).renumber π = literal v := rfl

@[simp]
theorem renumber_const (c : Constant) : (const c).renumber π = const c := rfl

@[simp]
theorem renumber_var (x : Var) : (var x).renumber π = var (x.renumber π) := rfl

@[simp]
theorem renumber_lambda (x : Var) (body : Term) :
    (lambda x body).renumber π = lambda (x.renumber π) (body.renumber π) := rfl

@[simp]
theorem renumber_app (head : Term) (args : List Term) :
    (app head args).renumber π = app (head.renumber π) (args.map (renumber π)) := by
  rw [renumber, renumberAll_eq_map]

@[simp]
theorem renumber_metaApp (z : MetaVar) (args : List Term) :
    (metaApp z args).renumber π = metaApp (z.renumber π) (args.map (renumber π)) := by
  rw [renumber, renumberAll_eq_map]

@[simp]
theorem renumber_identity (t : Term) : t.renumber .identity = t := by
  induction t using Term.induction with
  | literal v => rfl
  | const c => rfl
  | var x => rfl
  | lambda x body ih =>
    rw [renumber_lambda, ih]
    rfl
  | app head args ih ihs => rw [renumber_app, ih, List.map_congr_left ihs, List.map_id']
  | metaApp z args ihs =>
    rw [renumber_metaApp, List.map_congr_left ihs, List.map_id']
    rfl

theorem renumber_comp (ρ : Renumbering) (t : Term) :
    t.renumber (π.comp ρ) = (t.renumber ρ).renumber π := by
  induction t using Term.induction with
  | literal v => rfl
  | const c => rfl
  | var x => rfl
  | lambda x body ih =>
    rw [renumber_lambda, ih]
    rfl
  | app head args ih ihs =>
    rw [renumber_app, renumber_app, renumber_app, ih, List.map_congr_left ihs, List.map_map]
    rfl
  | metaApp z args ihs =>
    rw [renumber_metaApp, renumber_metaApp, renumber_metaApp, List.map_congr_left ihs,
      List.map_map]
    rfl

@[simp]
theorem ty_renumber (t : Term) : (t.renumber π).ty = t.ty := by
  induction t using Term.induction with
  | literal v => rfl
  | const c => rfl
  | var x => rw [renumber_var, ty, ty, Var.renumber_ty]
  | lambda x body ih => rw [renumber_lambda, ty, ty, ih, Var.renumber_ty]
  | app head args ih ihs => rw [renumber_app, ty, ty, ih, List.length_map]
  | metaApp z args ihs => rw [renumber_metaApp, ty, ty, MetaVar.renumber_output]

theorem sizeAll_map_renumber {ts : List Term} (h : ∀ t ∈ ts, (t.renumber π).size = t.size) :
    sizeAll (ts.map (renumber π)) = sizeAll ts := by
  induction ts with
  | nil => rfl
  | cons t ts ih =>
    rw [List.map_cons, sizeAll, sizeAll, h t List.mem_cons_self,
      ih fun s hs => h s (List.mem_cons_of_mem t hs)]

@[simp]
theorem size_renumber (t : Term) : (t.renumber π).size = t.size := by
  induction t using Term.induction with
  | literal v => rfl
  | const c => rfl
  | var x => rw [renumber_var, size_var, size_var]
  | lambda x body ih => rw [renumber_lambda, size_lambda, size_lambda, ih]
  | app head args ih ihs =>
    rw [renumber_app, size_app, size_app, ih, sizeAll_map_renumber π ihs]
  | metaApp z args ihs =>
    rw [renumber_metaApp, size_metaApp, size_metaApp, sizeAll_map_renumber π ihs]

/-! ## Variables of a term -/

theorem mem_free_renumber {t : Term} {r : Replaceable} :
    r ∈ (t.renumber π).free ↔ ∃ q ∈ t.free, q.renumber π = r := by
  induction t using Term.induction generalizing r with
  | literal v => simp
  | const c => simp
  | var x => simp [eq_comm]
  | lambda x body ih =>
    rw [renumber_lambda, free_lambda, OrderedSet.mem_erase, ih]
    constructor
    · rintro ⟨hx, q, hq, rfl⟩
      refine ⟨q, ?_, rfl⟩
      rw [free_lambda, OrderedSet.mem_erase]
      exact ⟨fun e => hx (e ▸ rfl), hq⟩
    · rintro ⟨q, hq, rfl⟩
      rw [free_lambda, OrderedSet.mem_erase] at hq
      exact ⟨fun e => hq.1 ((Replaceable.renumber_inj π).mp e), q, hq.2, rfl⟩
  | app head args ih ihs =>
    simp only [renumber_app, free_app, OrderedSet.mem_union, mem_freeAll, List.mem_map, ih]
    constructor
    · rintro (⟨q, hq, rfl⟩ | ⟨_, ⟨t, ht, rfl⟩, hr⟩)
      · exact ⟨q, .inl hq, rfl⟩
      · obtain ⟨q, hq, rfl⟩ := (ihs t ht).mp hr
        exact ⟨q, .inr ⟨t, ht, hq⟩, rfl⟩
    · rintro ⟨q, hq | ⟨t, ht, hq⟩, rfl⟩
      · exact .inl ⟨q, hq, rfl⟩
      · exact .inr ⟨_, ⟨t, ht, rfl⟩, (ihs t ht).mpr ⟨q, hq, rfl⟩⟩
  | metaApp z args ihs =>
    simp only [renumber_metaApp, free_metaApp, OrderedSet.mem_insert, mem_freeAll, List.mem_map]
    constructor
    · rintro (rfl | ⟨_, ⟨t, ht, rfl⟩, hr⟩)
      · exact ⟨.metaVar z, .inl rfl, rfl⟩
      · obtain ⟨q, hq, rfl⟩ := (ihs t ht).mp hr
        exact ⟨q, .inr ⟨t, ht, hq⟩, rfl⟩
    · rintro ⟨q, rfl | ⟨t, ht, hq⟩, rfl⟩
      · exact .inl rfl
      · exact .inr ⟨_, ⟨t, ht, rfl⟩, (ihs t ht).mpr ⟨q, hq, rfl⟩⟩

theorem mem_bound_renumber {t : Term} {y : Var} :
    y ∈ (t.renumber π).bound ↔ ∃ x ∈ t.bound, x.renumber π = y := by
  induction t using Term.induction with
  | literal v => simp
  | const c => simp
  | var x => simp
  | lambda x body ih =>
    simp only [renumber_lambda, bound_lambda, OrderedSet.mem_insert, ih]
    constructor
    · rintro (rfl | ⟨v, hv, rfl⟩)
      · exact ⟨x, .inl rfl, rfl⟩
      · exact ⟨v, .inr hv, rfl⟩
    · rintro ⟨v, rfl | hv, rfl⟩
      · exact .inl rfl
      · exact .inr ⟨v, hv, rfl⟩
  | app head args ih ihs =>
    simp only [renumber_app, bound_app, OrderedSet.mem_union, mem_boundAll, List.mem_map, ih]
    constructor
    · rintro (⟨v, hv, rfl⟩ | ⟨_, ⟨t, ht, rfl⟩, hy⟩)
      · exact ⟨v, .inl hv, rfl⟩
      · obtain ⟨v, hv, rfl⟩ := (ihs t ht).mp hy
        exact ⟨v, .inr ⟨t, ht, hv⟩, rfl⟩
    · rintro ⟨v, hv | ⟨t, ht, hv⟩, rfl⟩
      · exact .inl ⟨v, hv, rfl⟩
      · exact .inr ⟨_, ⟨t, ht, rfl⟩, (ihs t ht).mpr ⟨v, hv, rfl⟩⟩
  | metaApp z args ihs =>
    simp only [renumber_metaApp, bound_metaApp, mem_boundAll, List.mem_map]
    constructor
    · rintro ⟨_, ⟨t, ht, rfl⟩, hy⟩
      obtain ⟨v, hv, rfl⟩ := (ihs t ht).mp hy
      exact ⟨v, ⟨t, ht, hv⟩, rfl⟩
    · rintro ⟨v, ⟨t, ht, hv⟩, rfl⟩
      exact ⟨_, ⟨t, ht, rfl⟩, (ihs t ht).mpr ⟨v, hv, rfl⟩⟩

theorem toList_free_renumber [π.Increasing] (t : Term) :
    (t.renumber π).free.toList = t.free.toList.map (Replaceable.renumber π) :=
  OrderedSet.toList_eq_map (Replaceable.compare_renumber π) fun _ => mem_free_renumber π

theorem renumber_mem_free_iff {t : Term} {r : Replaceable} :
    r.renumber π ∈ (t.renumber π).free ↔ r ∈ t.free := by
  rw [mem_free_renumber]
  simp

@[simp]
theorem free_contains_renumber (t : Term) (r : Replaceable) :
    (t.renumber π).free.contains (r.renumber π) = t.free.contains r := by
  rw [Bool.eq_iff_iff, OrderedSet.contains_iff, OrderedSet.contains_iff, renumber_mem_free_iff]

@[simp]
theorem bound_contains_renumber (t : Term) (x : Var) :
    (t.renumber π).bound.contains (x.renumber π) = t.bound.contains x := by
  rw [Bool.eq_iff_iff, OrderedSet.contains_iff, OrderedSet.contains_iff, mem_bound_renumber]
  simp

theorem freeVars_renumber [π.Increasing] (t : Term) :
    (t.renumber π).freeVars = t.freeVars.map (Var.renumber π) := by
  unfold freeVars
  rw [toList_free_renumber, List.filterMap_map, List.map_filterMap]
  exact List.filterMap_congr fun r _ => Replaceable.var?_renumber π r

theorem any_freeVars_renumber {p p' : Var → Bool} (t : Term)
    (h : ∀ x : Var, p' (x.renumber π) = p x) :
    (t.renumber π).freeVars.any p' = t.freeVars.any p := by
  rw [Bool.eq_iff_iff, List.any_eq_true, List.any_eq_true]
  constructor
  · rintro ⟨y, hy, hp⟩
    obtain ⟨q, hq, e⟩ := (mem_free_renumber π).mp (mem_freeVars.mp hy)
    obtain ⟨x, rfl, rfl⟩ := Replaceable.renumber_eq_var e
    exact ⟨x, mem_freeVars.mpr hq, h x ▸ hp⟩
  · rintro ⟨x, hx, hp⟩
    refine ⟨x.renumber π, mem_freeVars.mpr ?_, (h x).trans hp⟩
    exact (renumber_mem_free_iff π (r := .var x)).mpr (mem_freeVars.mp hx)

/-! ## Parts -/

@[simp]
theorem head_renumber (t : Term) : (t.renumber π).head = t.head.renumber π := by
  cases t <;> simp [head]

@[simp]
theorem args_renumber (t : Term) : (t.renumber π).args = t.args.map (renumber π) := by
  cases t <;> simp [args]

theorem headPart_renumber (t : Term) (i : Nat) :
    (t.renumber π).headPart i = (t.headPart i).renumber π := by
  unfold headPart
  rw [args_renumber, List.length_map, head_renumber, ← List.map_take]
  split
  · rfl
  · split
    · rfl
    · rw [renumber_app]

theorem binder?_renumber (t : Term) : (t.renumber π).binder? = t.binder?.map (Var.renumber π) := by
  cases t with
  | var x => cases h : x.binder <;> simp [binder?, h]
  | _ => simp [binder?]

theorem lambda?_renumber (t : Term) :
    (t.renumber π).lambda? = t.lambda?.map fun p => (p.1.renumber π, p.2.renumber π) := by
  cases t <;> simp [lambda?]

theorem metaArgs_renumber (t : Term) : (t.renumber π).metaArgs = t.metaArgs.map (renumber π) := by
  unfold metaArgs
  rw [head_renumber]
  cases t.head <;> simp [metaApp?]

/-! ## Equality -/

theorem sameAll_renumber {ss : List Term}
    (h : ∀ s ∈ ss, ∀ t, same (s.renumber π) (t.renumber π) = same s t) (ts : List Term) :
    sameAll (ss.map (renumber π)) (ts.map (renumber π)) = sameAll ss ts := by
  induction ss generalizing ts with
  | nil => cases ts <;> rfl
  | cons s ss ih =>
    cases ts with
    | nil => rfl
    | cons t ts =>
      rw [List.map_cons, List.map_cons, sameAll, sameAll, h s List.mem_cons_self t,
        ih fun r hr => h r (List.mem_cons_of_mem s hr)]

theorem same_renumber (s t : Term) : same (s.renumber π) (t.renumber π) = same s t := by
  induction s using Term.induction generalizing t with
  | literal v => cases t <;> simp [same]
  | const c => cases t <;> simp [same]
  | var x => cases t <;> simp [same]
  | lambda x body ih =>
    cases t with
    | lambda y body' =>
      rw [renumber_lambda, renumber_lambda, same, same, ih, Var.beq_renumber]
    | _ => simp [same]
  | app head args ih ihs =>
    cases t with
    | app head' args' =>
      rw [renumber_app, renumber_app, same, same, ih, sameAll_renumber π ihs]
    | _ => simp [same]
  | metaApp z args ihs =>
    cases t with
    | metaApp w args' =>
      rw [renumber_metaApp, renumber_metaApp, same, same, sameAll_renumber π ihs,
        MetaVar.beq_renumber]
    | _ => simp [same]

@[simp]
theorem beq_renumber (s t : Term) : (s.renumber π == t.renumber π) = (s == t) := by
  rw [beq_eq_same, beq_eq_same, same_renumber]

theorem idxOf?_renumber (xs : List Var) (x : Var) :
    (xs.map (Var.renumber π)).idxOf? (x.renumber π) = xs.idxOf? x := by
  induction xs with
  | nil => rfl
  | cons y xs ih =>
    rw [List.map_cons, List.idxOf?_cons, List.idxOf?_cons, ih]
    simp

theorem alphaVar_renumber (xs ys : List Var) (x y : Var) :
    alphaVar (xs.map (Var.renumber π)) (ys.map (Var.renumber π)) (x.renumber π) (y.renumber π) =
      alphaVar xs ys x y := by
  unfold alphaVar
  rw [idxOf?_renumber, idxOf?_renumber]
  split <;> simp

theorem alphaAllIn_renumber {xs ys : List Var} {ss : List Term}
    (h : ∀ s ∈ ss, ∀ t, alphaIn (xs.map (Var.renumber π)) (ys.map (Var.renumber π)) (s.renumber π)
      (t.renumber π) = alphaIn xs ys s t) (ts : List Term) :
    alphaAllIn (xs.map (Var.renumber π)) (ys.map (Var.renumber π)) (ss.map (renumber π))
      (ts.map (renumber π)) = alphaAllIn xs ys ss ts := by
  induction ss generalizing ts with
  | nil => cases ts <;> rfl
  | cons s ss ih =>
    cases ts with
    | nil => rfl
    | cons t ts =>
      rw [List.map_cons, List.map_cons, alphaAllIn, alphaAllIn, h s List.mem_cons_self t,
        ih fun r hr => h r (List.mem_cons_of_mem s hr)]

theorem alphaIn_renumber (xs ys : List Var) (s t : Term) :
    alphaIn (xs.map (Var.renumber π)) (ys.map (Var.renumber π)) (s.renumber π) (t.renumber π) =
      alphaIn xs ys s t := by
  induction s using Term.induction generalizing xs ys t with
  | literal v => cases t <;> simp [alphaIn]
  | const c => cases t <;> simp [alphaIn]
  | var x => cases t <;> simp [alphaIn, alphaVar_renumber]
  | lambda x body ih =>
    cases t with
    | lambda y body' => simp only [renumber_lambda, alphaIn, Var.renumber_ty, ← List.map_cons, ih]
    | _ => simp [alphaIn]
  | app head args ih ihs =>
    cases t with
    | app head' args' =>
      simp only [renumber_app, alphaIn, ih, alphaAllIn_renumber π fun s hs => ihs s hs xs ys]
    | _ => simp [alphaIn]
  | metaApp z args ihs =>
    cases t with
    | metaApp w args' =>
      simp only [renumber_metaApp, alphaIn, alphaAllIn_renumber π fun s hs => ihs s hs xs ys,
        MetaVar.beq_renumber]
    | _ => simp [alphaIn]

@[simp]
theorem alphaEquals_renumber (s t : Term) :
    (s.renumber π).alphaEquals (t.renumber π) = s.alphaEquals t := by
  rw [alphaEquals_eq_alphaIn, alphaEquals_eq_alphaIn]
  exact alphaIn_renumber π [] [] s t

/-! ## Patterns -/

theorem contains_map_renumber (xs : List Var) (x : Var) :
    (xs.map (Var.renumber π)).contains (x.renumber π) = xs.contains x := by
  induction xs with
  | nil => rfl
  | cons y xs ih => rw [List.map_cons, List.contains_cons, List.contains_cons, ih, Var.beq_renumber]

theorem areDistinctBinders_renumber (seen : List Var) (ts : List Term) :
    areDistinctBinders (seen.map (Var.renumber π)) (ts.map (renumber π)) =
      areDistinctBinders seen ts := by
  induction ts generalizing seen with
  | nil => rfl
  | cons t ts ih =>
    rw [List.map_cons, areDistinctBinders, areDistinctBinders, binder?_renumber]
    cases t.binder? with
    | none => rfl
    | some x =>
      simp only [Option.map_some]
      rw [contains_map_renumber, ← List.map_cons, ih]

theorem nonPatternIn?_renumber {ts : List Term}
    (h : ∀ t ∈ ts, (t.renumber π).nonPattern? = t.nonPattern?.map (renumber π)) :
    nonPatternIn? (ts.map (renumber π)) = (nonPatternIn? ts).map (renumber π) := by
  induction ts with
  | nil => rfl
  | cons t ts ih =>
    rw [List.map_cons, nonPatternIn?, nonPatternIn?, h t List.mem_cons_self,
      ih fun s hs => h s (List.mem_cons_of_mem t hs)]
    cases t.nonPattern? <;> rfl

theorem nonPattern?_renumber (t : Term) :
    (t.renumber π).nonPattern? = t.nonPattern?.map (renumber π) := by
  induction t using Term.induction with
  | literal v => rfl
  | const c => rfl
  | var x => rfl
  | lambda x body ih => rw [renumber_lambda, nonPattern?, nonPattern?, ih]
  | app head args ih ihs =>
    rw [renumber_app, nonPattern?, nonPattern?, ih, nonPatternIn?_renumber π ihs]
    cases head.nonPattern? <;> rfl
  | metaApp z args ihs =>
    have hdistinct := areDistinctBinders_renumber π [] args
    rw [List.map_nil] at hdistinct
    rw [renumber_metaApp, nonPattern?, nonPattern?, hdistinct]
    split
    · rfl
    · rw [Option.map_some, renumber_metaApp]

/-! ## Positions -/

theorem pathsInAll_renumber {ts : List Term} (h : ∀ t ∈ ts, (t.renumber π).paths = t.paths)
    (step : Nat → Step) (i : Nat) :
    pathsInAll step i (ts.map (renumber π)) = pathsInAll step i ts := by
  induction ts generalizing i with
  | nil => rfl
  | cons t ts ih =>
    rw [List.map_cons, pathsInAll, pathsInAll, h t List.mem_cons_self,
      ih fun s hs => h s (List.mem_cons_of_mem t hs)]

/-- Inside a head the paths go on as inside any term. -/
theorem paths_renumber (t : Term) :
    (t.renumber π).paths = t.paths ∧ pathsInHead (t.renumber π) = pathsInHead t := by
  induction t using Term.induction with
  | literal v => exact ⟨rfl, rfl⟩
  | const c => exact ⟨rfl, rfl⟩
  | var x => exact ⟨rfl, rfl⟩
  | lambda x body ih =>
    constructor
    · rw [renumber_lambda, paths, paths, ih.1]
    · rw [renumber_lambda, pathsInHead, pathsInHead, ih.1]
  | app head args ih ihs =>
    have hargs := fun step i => pathsInAll_renumber π (fun t ht => (ihs t ht).1) step i
    constructor
    · rw [renumber_app, paths, paths, ih.2, hargs]
    · rw [renumber_app, pathsInHead, pathsInHead] <;> simp
  | metaApp z args ihs =>
    have hargs := fun step i => pathsInAll_renumber π (fun t ht => (ihs t ht).1) step i
    constructor
    · rw [renumber_metaApp, paths, paths, hargs]
    · rw [renumber_metaApp, pathsInHead, pathsInHead, hargs]

theorem positions_renumber (t : Term) : (t.renumber π).positions = t.positions := by
  rw [positions, positions, (paths_renumber π t).1]

theorem nth?_renumber (ts : List Term) (i : Nat) :
    nth? (ts.map (renumber π)) i = (nth? ts i).map (renumber π) := by
  cases i with
  | zero => rfl
  | succ i => exact List.getElem?_map

theorem child?_renumber (t : Term) (step : Step) :
    (t.renumber π).child? step = (t.child? step).map (renumber π) := by
  cases step with
  | arg i => rw [child?, child?, args_renumber, nth?_renumber]
  | body =>
    rw [child?, child?, head_renumber, lambda?_renumber, Option.map_map, Option.map_map]
    rfl
  | metaArg i => rw [child?, child?, metaArgs_renumber, nth?_renumber]

theorem descend?_renumber (t : Term) (steps : List Step) :
    (t.renumber π).descend? steps = (t.descend? steps).map (renumber π) := by
  unfold descend?
  induction steps generalizing t with
  | nil => rfl
  | cons step steps ih =>
    rw [List.foldlM_cons, List.foldlM_cons, child?_renumber]
    cases t.child? step with
    | none => rfl
    | some s => exact ih s

end Term

/-! ## Substitutions -/

namespace Subst

def renumber (π : Renumbering) (σ : Subst) : Subst :=
  ⟨σ.entries.map fun e => (e.1.renumber π, e.2.renumber π)⟩

variable (π : Renumbering)

@[simp]
theorem renumber_empty : (∅ : Subst).renumber π = ∅ := rfl

theorem renumber_identity (σ : Subst) : σ.renumber .identity = σ := by
  refine congrArg Subst.mk ((List.map_congr_left fun e _ => ?_).trans (List.map_id _))
  obtain ⟨_ | _, t⟩ := e <;> simp

theorem renumber_comp (ρ : Renumbering) (σ : Subst) :
    σ.renumber (π.comp ρ) = (σ.renumber ρ).renumber π := by
  refine congrArg Subst.mk ?_
  rw [renumber, List.map_map]
  refine List.map_congr_left fun e _ => Prod.ext ?_ ?_
  · exact e.1.renumber_comp π ρ
  · exact e.2.renumber_comp π ρ

theorem get?_renumber (σ : Subst) (r : Replaceable) :
    (σ.renumber π).get? (r.renumber π) = (σ.get? r).map (Term.renumber π) := by
  rcases σ with ⟨entries⟩
  change (entries.map _).lookup _ = (entries.lookup r).map _
  induction entries with
  | nil => rfl
  | cons e es ih =>
    rcases e with ⟨q, t⟩
    rw [List.map_cons, lookup_cons, lookup_cons, ih]
    by_cases h : r = q
    · rw [if_pos h, if_pos (congrArg _ h), Option.map_some]
    · rw [if_neg h, if_neg fun e => h ((Replaceable.renumber_inj π).mp e)]

theorem contains_renumber (σ : Subst) (r : Replaceable) :
    (σ.renumber π).contains (r.renumber π) = σ.contains r := by
  rw [contains, contains, get?_renumber, Option.isSome_map]

/-- Keys are put in the order of their identifiers. -/
theorem set_renumber_of_lt_iff (σ : Subst) (r : Replaceable) (t : Term)
    (h : ∀ q ∈ σ.keys, π r.id < π q.id ↔ r.id < q.id) :
    (σ.renumber π).set (r.renumber π) (t.renumber π) = (σ.set r t).renumber π := by
  rcases σ with ⟨entries⟩
  refine congrArg Subst.mk ?_
  change ∀ q ∈ entries.map Prod.fst, _ at h
  change place _ _ (entries.map _) = (place r t entries).map _
  induction entries with
  | nil => rfl
  | cons e es ih =>
    rcases e with ⟨q, s⟩
    rw [List.map_cons, List.forall_mem_cons] at h
    simp only [List.map_cons, place, ih h.2, Replaceable.renumber_inj, Replaceable.renumber_id,
      h.1]
    split
    · rfl
    · split <;> rfl

theorem set_renumber [π.Increasing] (σ : Subst) (r : Replaceable) (t : Term) :
    (σ.renumber π).set (r.renumber π) (t.renumber π) = (σ.set r t).renumber π :=
  set_renumber_of_lt_iff π σ r t fun _ _ => π.lt_iff

theorem erase_renumber (σ : Subst) (r : Replaceable) :
    (σ.renumber π).erase (r.renumber π) = (σ.erase r).renumber π := by
  rcases σ with ⟨entries⟩
  refine congrArg Subst.mk ?_
  change (entries.map _).filter _ = (entries.filter _).map _
  rw [List.filter_map]
  refine congrArg _ (List.filter_congr fun e _ => ?_)
  simp

theorem update_renumber [π.Increasing] (σ : Subst) (r : Replaceable) (image : Option Term) :
    (σ.renumber π).update (r.renumber π) (image.map (Term.renumber π)) =
      (σ.update r image).renumber π := by
  cases image with
  | none => exact erase_renumber π σ r
  | some t => exact set_renumber π σ r t

/-! ## Substitutions by their images -/

/-- The second substitution gives the renumbered images, in whatever order it lists them. -/
def Renumbered (σ σ' : Subst) : Prop :=
  ∀ r : Replaceable, σ'.get? (r.renumber π) = (σ.get? r).map (Term.renumber π)

theorem renumbered_renumber (σ : Subst) : Renumbered π σ (σ.renumber π) := get?_renumber π σ

variable {π} {σ σ' : Subst}

namespace Renumbered

theorem set (h : Renumbered π σ σ') (r : Replaceable) (t : Term) :
    Renumbered π (σ.set r t) (σ'.set (r.renumber π) (t.renumber π)) := by
  intro q
  rw [get?_set, get?_set, h q]
  simp only [Replaceable.renumber_inj]
  split <;> rfl

theorem erase (h : Renumbered π σ σ') (r : Replaceable) :
    Renumbered π (σ.erase r) (σ'.erase (r.renumber π)) := by
  intro q
  rw [get?_erase, get?_erase, h q]
  simp only [Replaceable.renumber_inj]
  split <;> rfl

theorem contains_eq (h : Renumbered π σ σ') (r : Replaceable) :
    σ'.contains (r.renumber π) = σ.contains r := by
  rw [contains, contains, h r, Option.isSome_map]

theorem affects_eq (h : Renumbered π σ σ') (t : Term) :
    σ'.affects (t.renumber π) = σ.affects t := by
  rw [Bool.eq_iff_iff, affects_iff, affects_iff]
  constructor
  · rintro ⟨r, hr, hcontains⟩
    obtain ⟨q, hq, rfl⟩ := (Term.mem_free_renumber π).mp hr
    rw [h q, Option.isSome_map] at hcontains
    exact ⟨q, hq, hcontains⟩
  · rintro ⟨q, hq, hcontains⟩
    exact ⟨_, (Term.mem_free_renumber π).mpr ⟨q, hq, rfl⟩, (h.contains_eq q).trans hcontains⟩

theorem captures_eq (h : Renumbered π σ σ') (x : Var) (t : Term) :
    σ'.captures (x.renumber π) (t.renumber π) = σ.captures x t := by
  rw [Bool.eq_iff_iff, captures_iff, captures_iff]
  constructor
  · rintro ⟨r, hr, image, himage, hfree⟩
    obtain ⟨q, hq, rfl⟩ := (Term.mem_free_renumber π).mp hr
    rw [h q, Option.map_eq_some_iff] at himage
    obtain ⟨s, hs, rfl⟩ := himage
    exact ⟨q, hq, s, hs, (Term.renumber_mem_free_iff π).mp hfree⟩
  · rintro ⟨q, hq, s, hs, hfree⟩
    refine ⟨_, (Term.mem_free_renumber π).mpr ⟨q, hq, rfl⟩, s.renumber π, ?_, ?_⟩
    · rw [h q, hs, Option.map_some]
    · exact (Term.renumber_mem_free_iff π (r := .var x)).mpr hfree

end Renumbered

end Subst

end TermAlgebra
