import Mathlib
import TermAlgebra.Proofs.MostGeneralUnifier
import TermAlgebra.Proofs.ScopedQueries

/-!
# Unification and the order of iteration

When a variable is bound, the images are updated in whatever order they are iterated. What is drawn
for an image depends on the images that come before it, so that two orders lead to different
substitutions. Exchanging two neighbours in the order exchanges two blocks of new identifiers and
changes nothing else; so the substitutions differ by a renumbering of what was drawn. Main
statement: `unify_iteration`.
-/

namespace TermAlgebra

/-! ## Renumberings of what was drawn -/

namespace Renumbering

variable {π ρ : Renumbering} {m n k l : Nat}

/-- What was drawn before `n` stays, and so does what comes from `k` on. -/
def Within (n k : Nat) (π : Renumbering) : Prop := ∀ i, i < n ∨ k ≤ i → π i = i

theorem within_identity (n k : Nat) : identity.Within n k := fun _ _ => rfl

theorem Within.mono (h : π.Within n k) (hm : m ≤ n) (hl : k ≤ l) : π.Within m l := by
  intro i hi
  exact h i (hi.imp (Nat.lt_of_lt_of_le · hm) hl.trans)

theorem Within.comp (hπ : π.Within n k) (hρ : ρ.Within n k) : (π.comp ρ).Within n k := by
  intro i hi
  change π (ρ i) = i
  rw [hρ i hi, hπ i hi]

theorem Within.agreeBelow (h : π.Within n k) : AgreeBelow n π .identity := fun i hi => h i (.inl hi)

/-- Exchanges the `x` identifiers from `n` on with the `y` identifiers behind them. -/
def exchange (n x y : Nat) : Renumbering where
  toFun i := if i < n then i else if i < n + x then i + y else if i < n + x + y then i - x else i
  injective i j h := by
    dsimp only at h
    split_ifs at h <;> omega

theorem within_exchange (n x y : Nat) : (exchange n x y).Within n (n + x + y) := by
  intro i hi
  change (if i < n then i else if i < n + x then i + y else
    if i < n + x + y then i - x else i) = i
  split_ifs <;> omega

end Renumbering

namespace Relocation

theorem eq_of_ahead {k d i j : Nat}
    (h : (if i < k then i else i + d) = if j < k then j else j + d) : i = j := by
  split_ifs at h <;> omega

theorem succ_ahead {k d i : Nat} (hi : k ≤ i) :
    (if i + 1 < k then i + 1 else i + 1 + d) = (if i < k then i else i + d) + 1 := by
  rw [if_neg (by omega), if_neg (by omega)]
  exact Nat.add_right_comm i 1 d

/-- The identifiers from `k` on are drawn `d` places later. -/
def ahead (k d : Nat) : Relocation where
  toFun i := if i < k then i else i + d
  injective _ _ := eq_of_ahead
  supply := .consecutive
  start := k
  map_succ _ := succ_ahead

theorem agreeBelow_ahead (k d : Nat) :
    Renumbering.AgreeBelow k (ahead k d).toRenumbering .identity := fun _ hi => if_pos hi

theorem ahead_of_le {k i : Nat} (d : Nat) (hi : k ≤ i) : (ahead k d).toFun i = i + d :=
  if_neg (Nat.not_lt.mpr hi)

end Relocation

namespace Renumbering

open Relocation

variable {n k : Nat}

/-- The run that drew what is renumbered goes on as it did. -/
def Within.onward {π : Renumbering} (h : π.Within n k) : Relocation where
  toRenumbering := π
  supply := .consecutive
  start := k
  map_succ i hi := by
    rw [h (i + 1) (.inr (Nat.le_succ_of_le hi)), h i (.inr hi)]
    rfl

/-- The first block of an exchange is drawn after the second one. -/
theorem exchange_agrees_ahead (n x y : Nat) :
    AgreeBelow (n + x) (exchange n x y) (ahead n y).toRenumbering := by
  intro i hi
  change (if i < n then i else if i < n + x then i + y else _) = if i < n then i else i + y
  rw [if_pos hi]

/-- The second block of an exchange is drawn as if the first one had not been. -/
theorem exchange_undoes_ahead (n x y : Nat) :
    AgreeBelow (n + y) ((exchange n x y).comp (ahead n x).toRenumbering) .identity := by
  intro i hi
  change exchange n x y (if i < n then i else i + x) = i
  split
  · rename_i hlt
    exact within_exchange n x y i (.inl hlt)
  · change (if i + x < n then i + x else if i + x < n + x then i + x + y else
      if i + x < n + x + y then i + x - x else i + x) = i
    split_ifs <;> omega

end Renumbering

/-! ## Keys and entries -/

namespace Subst

/-- If no key comes twice, the place of an entry is of no account. -/
theorem lookup_eq_of_perm {es es' : List (Replaceable × Term)} (h : es.Perm es')
    (hkeys : (es.map Prod.fst).Nodup) (q : Replaceable) : es'.lookup q = es.lookup q := by
  induction h with
  | nil => rfl
  | cons e _ ih => rw [lookup_cons, lookup_cons, ih hkeys.of_cons]
  | swap e e' es =>
    rw [lookup_cons, lookup_cons, lookup_cons, lookup_cons]
    have hne : e'.1 ≠ e.1 := fun h => (List.nodup_cons.mp hkeys).1 (h ▸ List.mem_cons_self)
    by_cases hq : q = e.1
    · rw [if_pos hq, if_neg fun h => hne (h.symm.trans hq), if_pos hq]
    · rw [if_neg hq, if_neg hq]
  | trans h _ ih ih' =>
    rw [ih' ((h.map Prod.fst).nodup_iff.mp hkeys), ih hkeys]

theorem perm_map_place {r : Replaceable} {es : List (Replaceable × Term)}
    (hr : r ∉ es.map Prod.fst) (t : Term) :
    ((place r t es).map Prod.fst).Perm (r :: es.map Prod.fst) := by
  induction es with
  | nil => exact .refl _
  | cons e es ih =>
    obtain ⟨q, s⟩ := e
    rw [List.map_cons, List.mem_cons, not_or] at hr
    rw [place, if_neg (Ne.symm hr.1)]
    split
    · exact .refl _
    · exact ((ih hr.2).cons q).trans (.swap r q _)

variable {σ : Subst}

theorem nodup_keys_set {r : Replaceable} (hσ : σ.keys.Nodup) (hr : σ.get? r = none) (t : Term) :
    (σ.set r t).keys.Nodup := by
  have hmem : r ∉ σ.keys := by
    rw [← contains_iff, contains, hr]
    exact Bool.false_ne_true
  exact (perm_map_place hmem t).nodup_iff.mpr (List.nodup_cons.mpr ⟨hmem, hσ⟩)

theorem get?_of_mem (hσ : σ.keys.Nodup) {e : Replaceable × Term} (he : e ∈ σ.entries) :
    σ.get? e.1 = some e.2 := by
  obtain ⟨entries⟩ := σ
  change (entries.map Prod.fst).Nodup at hσ
  change entries.lookup e.1 = some e.2
  induction entries with
  | nil => cases he
  | cons e' es ih =>
    rw [lookup_cons]
    rcases List.mem_cons.mp he with rfl | he
    · rw [if_pos rfl]
    · have hne : e.1 ≠ e'.1 := fun h =>
        (List.nodup_cons.mp hσ).1 (h ▸ List.mem_map_of_mem he)
      rw [if_neg hne]
      exact ih he hσ.of_cons

theorem Sound.drawnBefore {n : Nat} (h : σ.Sound n) (hσ : σ.keys.Nodup) : σ.DrawnBefore n := by
  intro e he
  obtain ⟨hid, -, hsound⟩ := h.image (get?_of_mem hσ he)
  exact ⟨hid, hsound.idsBelow⟩

theorem overwrite_congr {es es' : List (Replaceable × Term)} (h : ∀ q, es.lookup q = es'.lookup q)
    (σ : Subst) : σ.overwrite es = σ.overwrite es' := by
  refine congrArg Subst.mk (List.map_congr_left fun e _ => ?_)
  rw [h]

theorem map_fst_iterate [I : Iteration] (σ : Subst) : σ.iterate.map Prod.fst = I.keys σ := by
  rw [iterate, List.map_filterMap]
  refine (List.filterMap_congr fun r hr => ?_).trans List.filterMap_some
  obtain ⟨t, ht⟩ := Option.isSome_iff_exists.mp ((contains_iff σ r).mpr ((I.perm σ).mem_iff.mp hr))
  rw [ht]
  rfl

theorem iterate_perm (I I' : Iteration) (σ : Subst) :
    (σ.iterate (I := I)).Perm (σ.iterate (I := I')) :=
  ((I.perm σ).trans (I'.perm σ).symm).filterMap _

end Subst

/-! ## Updates -/

namespace Unifier

open Term Renumbering

variable {n : Nat} {r : Replaceable} {t image : Term} {es es' : List (Replaceable × Term)}

/-- An image that is updated later gets later identifiers. -/
theorem run_updateImage_ahead (hr : r.id < n) (ht : Term.IdsBelow n t)
    (himage : Term.IdsBelow n image) (d : Nat) :
    (updateImage r t image).run (n + d) =
      (((updateImage r t image).run n).1.renumber (Relocation.ahead n d).toRenumbering,
        ((updateImage r t image).run n).2 + d) := by
  have hagree := Relocation.agreeBelow_ahead n d
  have hrun := mirrors_updateImage (e := .ahead n d) r t image n (Nat.le_refl n)
  rw [Replaceable.renumber_eq_self hagree hr, Term.renumber_eq_self hagree ht,
    Term.renumber_eq_self hagree himage, Relocation.ahead_of_le d (Nat.le_refl n)] at hrun
  obtain ⟨hresult, hle, hnext⟩ := hrun
  exact Prod.ext hresult.symm (hnext.trans (Relocation.ahead_of_le d hle))

/-- What is updated after the renumbered identifiers were drawn does not contain them. -/
theorem map_renumber_updateImages {π : Renumbering} {k : Nat} (hπ : π.Within n k) (hr : r.id < n)
    (ht : Term.IdsBelow n t) (hes : ∀ e ∈ es, e.1.id < n ∧ Term.Sound n e.2) :
    ((updateImages r t es).run k).1.map (fun e => (e.1.renumber π, e.2.renumber π)) =
      ((updateImages r t es).run k).1 := by
  have hrun := (mirrors_updateImages (e := hπ.onward) r t es k (Nat.le_refl k)).1
  have hentries : es.map (fun e => (e.1.renumber π, e.2.renumber π)) = es :=
    (List.map_congr_left fun e he => Prod.ext (e.1.renumber_eq_self hπ.agreeBelow (hes e he).1)
      (e.2.renumber_eq_self hπ.agreeBelow (hes e he).2.idsBelow)).trans (List.map_id es)
  have hk : hπ.onward.toFun k = k := hπ k (.inr (Nat.le_refl k))
  have hsame : (updateImages (r.renumber π) (t.renumber π)
      (es.map fun e => (e.1.renumber π, e.2.renumber π))).run k = (updateImages r t es).run k := by
    rw [hentries, r.renumber_eq_self hπ.agreeBelow hr, t.renumber_eq_self hπ.agreeBelow ht]
  rw [hk] at hrun
  exact hrun.trans (congrArg Prod.fst hsame)

/-- The entries in the second order are updated to the same as in the first one, up to what is drawn
for them. -/
def UpdatesAlike (n : Nat) (r : Replaceable) (t : Term) (es es' : List (Replaceable × Term)) :
    Prop :=
  ∃ π : Renumbering, π.Within n ((updateImages r t es).run n).2 ∧
    ((updateImages r t es').run n).1.Perm
      (((updateImages r t es).run n).1.map fun e => (e.1.renumber π, e.2.renumber π)) ∧
    ((updateImages r t es').run n).2 = ((updateImages r t es).run n).2

theorem UpdatesAlike.trans {es'' : List (Replaceable × Term)} (h : UpdatesAlike n r t es es')
    (h' : UpdatesAlike n r t es' es'') : UpdatesAlike n r t es es'' := by
  obtain ⟨π, hπ, hperm, hend⟩ := h
  obtain ⟨ρ, hρ, hperm', hend'⟩ := h'
  rw [hend] at hρ
  refine ⟨ρ.comp π, hρ.comp hπ, ?_, hend'.trans hend⟩
  refine (hperm'.trans (hperm.map _)).trans (.of_eq ?_)
  rw [List.map_map]
  exact List.map_congr_left fun e _ => Prod.ext (e.1.renumber_comp ρ π).symm
    (e.2.renumber_comp ρ π).symm

theorem UpdatesAlike.cons {e : Replaceable × Term} (hr : r.id < n) (hty : r.ty = t.ty)
    (ht : Term.Sound n t) (hid : e.1.id < n) (himage : Term.Sound n e.2)
    (h : UpdatesAlike ((updateImage r t e.2).run n).2 r t es es') :
    UpdatesAlike n r t (e :: es) (e :: es') := by
  obtain ⟨π, hπ, hperm, hend⟩ := h
  have hle := increasing_updateImage r t e.2 n
  have hnew := (updateImage_sound hr hty ht himage).1
  refine ⟨π, hπ.mono hle (Nat.le_refl _), ?_, hend⟩
  rw [run_updateImages_cons, run_updateImages_cons, List.map_cons,
    e.1.renumber_eq_self hπ.agreeBelow (Nat.lt_of_lt_of_le hid hle),
    Term.renumber_eq_self hπ.agreeBelow hnew.idsBelow]
  exact hperm.cons _

/-- If two neighbours change places, so do the blocks of identifiers that are drawn for them. -/
theorem updatesAlike_swap {e e' : Replaceable × Term} (hr : r.id < n) (hty : r.ty = t.ty)
    (ht : Term.Sound n t) (hes : ∀ p ∈ e' :: e :: es, p.1.id < n ∧ Term.Sound n p.2) :
    UpdatesAlike n r t (e' :: e :: es) (e :: e' :: es) := by
  obtain ⟨q, s⟩ := e
  obtain ⟨q', s'⟩ := e'
  obtain ⟨⟨hq', hs'⟩, hrest⟩ := List.forall_mem_cons.mp hes
  obtain ⟨⟨hq, hs⟩, hes⟩ := List.forall_mem_cons.mp hrest
  obtain ⟨x, hx⟩ := Nat.exists_eq_add_of_le (increasing_updateImage r t s' n)
  obtain ⟨y, hy⟩ := Nat.exists_eq_add_of_le (increasing_updateImage r t s n)
  have hnew := (updateImage_sound hr hty ht hs).1.idsBelow
  have hnew' := (updateImage_sound hr hty ht hs').1.idsBelow
  have hlater := run_updateImage_ahead hr ht.idsBelow hs.idsBelow x
  have hlater' := run_updateImage_ahead hr ht.idsBelow hs'.idsBelow y
  rw [hy] at hnew hlater
  rw [hx] at hnew' hlater'
  have hπ := within_exchange n x y
  have hend : n + y + x = n + x + y := Nat.add_right_comm n y x
  unfold UpdatesAlike
  simp only [run_updateImages_cons, hx, hy, hlater, hlater', hend]
  refine ⟨exchange n x y, hπ.mono (Nat.le_refl n) (increasing_updateImages r t es _), ?_, trivial⟩
  -- Each image is updated as it is when the other one comes later.
  have hfirst : ((updateImage r t s').run n).1.renumber (exchange n x y) =
      ((updateImage r t s').run n).1.renumber (Relocation.ahead n y).toRenumbering :=
    Term.renumber_congr (exchange_agrees_ahead n x y) hnew'
  have hsecond : (((updateImage r t s).run n).1.renumber
      (Relocation.ahead n x).toRenumbering).renumber (exchange n x y) =
        ((updateImage r t s).run n).1 := by
    rw [← Term.renumber_comp]
    exact Term.renumber_eq_self (exchange_undoes_ahead n x y) hnew
  rw [List.map_cons, List.map_cons, hfirst, hsecond, q.renumber_eq_self hπ.agreeBelow hq,
    q'.renumber_eq_self hπ.agreeBelow hq', map_renumber_updateImages hπ hr ht.idsBelow hes]
  exact .swap _ _ _

/-- Images may be updated in any order. -/
theorem updatesAlike_of_perm (hperm : es.Perm es') (hr : r.id < n) (hty : r.ty = t.ty)
    (ht : Term.Sound n t) (hes : ∀ e ∈ es, e.1.id < n ∧ Term.Sound n e.2) :
    UpdatesAlike n r t es es' := by
  induction hperm generalizing n with
  | nil => exact ⟨.identity, within_identity _ _, .refl _, rfl⟩
  | cons e _ ih =>
    obtain ⟨⟨hid, himage⟩, hes⟩ := List.forall_mem_cons.mp hes
    have hle := increasing_updateImage r t e.2 n
    exact .cons hr hty ht hid himage <| ih (Nat.lt_of_lt_of_le hr hle) (ht.mono hle) fun e' he' =>
      ⟨Nat.lt_of_lt_of_le (hes e' he').1 hle, (hes e' he').2.mono hle⟩
  | swap e e' es => exact updatesAlike_swap hr hty ht hes
  | trans h _ ih ih' =>
    exact (ih hr ht hes).trans (ih' hr ht fun e he => hes e (h.mem_iff.mpr he))

theorem map_fst_updateImages (r : Replaceable) (t : Term) (es : List (Replaceable × Term))
    (n : Nat) : ((updateImages r t es).run n).1.map Prod.fst = es.map Prod.fst := by
  induction es generalizing n with
  | nil => rfl
  | cons e es ih => rw [run_updateImages_cons, List.map_cons, ih, List.map_cons]

/-! ## Steps -/

section Steps

variable {F : OrderedSet Replaceable} {m : Nat} {u : Unifier} {s : Term}

/-- The second run ends as the first one does, up to what they draw from `n` on. -/
def AlikeFrom (n : Nat) (run run' : Fresh Progress) : Prop :=
  ∃ π : Renumbering, π.Within n (run.run n).2 ∧
    run'.run n = ((run.run n).1.renumber π, (run.run n).2)

theorem alikeFrom_self (n : Nat) (run : Fresh Progress) : AlikeFrom n run run :=
  ⟨.identity, within_identity _ _, Prod.ext (Progress.renumber_identity _).symm rfl⟩

theorem Invariant.renumber_eq_self (hu : Invariant F m n u) (hkeys : u.subst.keys.Nodup)
    {π : Renumbering} (hπ : AgreeBelow n π .identity) : u.renumber π = u := by
  obtain ⟨σ, locals, equations⟩ := u
  have hσ : σ.renumber π = σ :=
    (Subst.renumber_congr hπ (hu.sound.subst.drawnBefore hkeys)).trans σ.renumber_identity
  have hlocals : locals.map (Var.renumber π) = locals :=
    (List.map_congr_left fun z hz => z.renumber_congr hπ (hu.locals z hz).2.2).trans
      (List.map_id'' Var.renumber_identity _)
  have hequations : equations.map (renumberEquation π) = equations :=
    (List.map_congr_left fun e he => Prod.ext
      (Term.renumber_eq_self hπ (hu.sound.equations e he).1.idsBelow)
      (Term.renumber_eq_self hπ (hu.sound.equations e he).2.idsBelow)).trans (List.map_id _)
  rw [renumber, hσ, hlocals, hequations]

theorem bind_iteration (I I' : Iteration) (hu : Invariant F m n u) (hkeys : u.subst.keys.Nodup)
    (hr : r.id < n) (hty : r.ty = t.ty) (ht : Term.Sound n t) :
    AlikeFrom n (u.bind (I := I) r t) (u.bind (I := I') r t) := by
  unfold Unifier.bind
  split
  · exact alikeFrom_self n _
  split
  · exact alikeFrom_self n _
  have hes : ∀ e ∈ u.subst.iterate (I := I), e.1.id < n ∧ Term.Sound n e.2 := by
    intro e he
    obtain ⟨hid, -, hsound⟩ := hu.sound.subst.image ((Subst.mem_iterate (I := I)).mp he)
    exact ⟨hid, hsound⟩
  obtain ⟨π, hπ, hperm, hend⟩ := updatesAlike_of_perm (u.subst.iterate_perm I I') hr hty ht hes
  refine ⟨π, hπ, Prod.ext (congrArg Progress.bound ?_) hend⟩
  have hself := hu.renumber_eq_self hkeys hπ.agreeBelow
  have hσ : u.subst.renumber π = u.subst := congrArg Unifier.subst hself
  -- Each key gets its image wherever it comes in the order.
  have hlookup := Subst.lookup_eq_of_perm hperm (by
    rw [map_fst_updateImages, Subst.map_fst_iterate]
    exact (I'.perm u.subst).nodup_iff.mpr hkeys)
  have himages := Subst.overwrite_renumber π u.subst
    ((updateImages r t (u.subst.iterate (I := I))).run n).1
  rw [hσ, Subst.overwrite_congr hlookup] at himages
  have hset := Subst.set_renumber_of_lt_iff π
    (u.subst.overwrite ((updateImages r t (u.subst.iterate (I := I))).run n).1) r t fun q hq => by
      rw [Subst.keys_overwrite, ← Subst.contains_iff] at hq
      obtain ⟨image, himage⟩ := Option.isSome_iff_exists.mp hq
      rw [hπ.agreeBelow _ hr, hπ.agreeBelow _ (hu.sound.subst.image himage).1]
      rfl
  rw [← himages, r.renumber_eq_self hπ.agreeBelow hr,
    Term.renumber_eq_self hπ.agreeBelow ht.idsBelow] at hset
  exact congrArg₂ (fun σ (v : Unifier) => Unifier.mk σ v.locals v.equations) hset hself.symm

theorem advance_iteration (I I' : Iteration) (hu : Invariant F m n u) (hkeys : u.subst.keys.Nodup)
    (hs : Term.Sound n s) (ht : Term.Sound n t) :
    AlikeFrom n (u.advance (I := I) s t) (u.advance (I := I') s t) := by
  unfold advance
  split
  · exact alikeFrom_self n _
  · rename_i hty
    have hty := not_not.mp hty
    split
    · exact alikeFrom_self n _
    · split
      · rename_i r _ hr
        obtain ⟨hid, hr⟩ := flexible?_sound hs hr
        exact bind_iteration I I' hu hkeys hid (hr.trans hty) ht
      · rename_i r _ hr
        obtain ⟨hid, hr⟩ := flexible?_sound ht hr
        exact bind_iteration I I' hu hkeys hid (hr.trans hty.symm) hs
      · exact alikeFrom_self n _

/-- No key comes twice in the substitution of the next problem. -/
def Progress.Distinct : Progress → Prop
  | simpler u | bound u => u.subst.keys.Nodup
  | _ => True

theorem distinct_bind [Iteration] (hkeys : u.subst.keys.Nodup) (hr : u.subst.get? r = none) :
    ((u.bind r t).run n).1.Distinct := by
  unfold Unifier.bind
  split
  · trivial
  split
  · trivial
  refine Subst.nodup_keys_set ?_ (get?_updated_eq_none.mpr hr) t
  rw [updated, Subst.keys_overwrite]
  exact hkeys

theorem distinct_decompose (hkeys : u.subst.keys.Nodup) (s t : Term) :
    ((u.decompose s t).run n).1.Distinct := by
  unfold decompose
  split
  · exact hkeys
  · split
    · exact hkeys
    · trivial
  · dsimp only
    split
    · trivial
    · exact hkeys

theorem Settled.get?_flexible (hu : Invariant F m n u) (hs : Settled F n u s)
    (h : s.flexible? = some r) : u.subst.get? r = none := by
  obtain ⟨rfl, hsolvable⟩ := flexible?_eq_some hs.sound.wf h
  exact (hs.mem_of_solvable hu hsolvable).2.2

theorem distinct_advance [Iteration] (hu : Invariant F m n u) (hkeys : u.subst.keys.Nodup)
    (hs : Settled F n u s) (ht : Settled F n u t) : ((u.advance s t).run n).1.Distinct := by
  unfold advance
  split
  · trivial
  split
  · exact hkeys
  split
  · rename_i r _ hr
    exact distinct_bind hkeys (hs.get?_flexible hu hr)
  · rename_i r _ hr
    exact distinct_bind hkeys (ht.get?_flexible hu hr)
  · exact distinct_decompose hkeys s t

/-- A step applies the substitution to an equation before it looks at the order of iteration. -/
theorem step_cases (hu : Invariant F m n u) :
    (∀ [Iteration], u.step = pure .solved) ∨
      ∃ (v : Unifier) (s t : Term) (k : Nat), v.subst = u.subst ∧ n ≤ k ∧ Invariant F m k v ∧
        Settled F k v s ∧ Settled F k v t ∧
        ∀ [Iteration], u.step.run n = (v.advance s t).run k := by
  obtain ⟨σ, locals, equations⟩ := u
  cases equations with
  | nil => exact .inl rfl
  | cons e es =>
    obtain ⟨s, t⟩ := e
    obtain ⟨hs, ht⟩ := hu.sound.equations (s, t) List.mem_cons_self
    obtain ⟨hsknown, htknown⟩ := hu.equations (s, t) List.mem_cons_self
    have hrest : Invariant F m n ⟨σ, locals, es⟩ :=
      ⟨⟨hu.sound.subst, fun e he => hu.sound.equations e (List.mem_cons_of_mem _ he)⟩, hu.solved,
        fun e he => hu.equations e (List.mem_cons_of_mem _ he), hu.locals⟩
    have hk := increasing_subst σ s n
    have hl := increasing_subst σ t ((s.subst σ).run n).2
    exact .inr ⟨⟨σ, locals, es⟩, _, _, _, rfl, hk.trans hl, hrest.mono (hk.trans hl),
      (settled_instance hrest hs hsknown).mono hl,
      settled_instance (hrest.mono hk) (ht.mono hk) htknown, rfl⟩

theorem step_iteration (I I' : Iteration) (hu : Invariant F m n u) (hkeys : u.subst.keys.Nodup) :
    AlikeFrom n (u.step (I := I)) (u.step (I := I')) := by
  rcases step_cases hu with hsolved | ⟨v, s, t, k, hsubst, hk, hv, hs, ht, hrun⟩
  · rw [@hsolved I, @hsolved I']
    exact alikeFrom_self n _
  · rw [← hsubst] at hkeys
    obtain ⟨π, hπ, hsame⟩ := advance_iteration I I' hv hkeys hs.sound ht.sound
    rw [AlikeFrom, @hrun I, @hrun I']
    exact ⟨π, hπ.mono hk (Nat.le_refl _), hsame⟩

theorem distinct_step [Iteration] (hu : Invariant F m n u) (hkeys : u.subst.keys.Nodup) :
    (u.step.run n).1.Distinct := by
  rcases step_cases hu with hsolved | ⟨v, s, t, k, hsubst, -, hv, hs, ht, hrun⟩
  · rw [hsolved]
    trivial
  · rw [hrun]
    exact distinct_advance hv (hsubst ▸ hkeys) hs ht

/-- What two runs have drawn in different orders of iteration stays different in the next step. -/
theorem step_alike (I I' : Iteration) (hF : ∀ q ∈ F, q.id < m) (hmn : m ≤ n)
    (hu : Invariant F m n u) (hkeys : u.subst.keys.Nodup) {π : Renumbering} (hπ : π.Within m n) :
    ∃ ρ : Renumbering, ρ.Within m ((u.step (I := I)).run n).2 ∧
      ((u.renumber π).step (I := I')).run n =
        (((u.step (I := I)).run n).1.renumber ρ, ((u.step (I := I)).run n).2) := by
  have hle := @increasing_step I u n
  obtain ⟨ρ, hρ, hsame⟩ := step_iteration I (I'.along π) hu hkeys
  have hcorrect := @step_correct F m n u (I'.along π) hF hmn hu
  obtain ⟨hfollows, -, hend⟩ := mirrors_step (e := hπ.onward) I' u n (Nat.le_refl n)
  have hn : hπ.onward.toFun n = n := hπ n (.inr (Nat.le_refl n))
  change Progress.Follows π ((u.step (I := I'.along π)).run n).1 _ at hfollows
  change _ = π ((u.step (I := I'.along π)).run n).2 at hend
  rw [hn] at hfollows hend
  rw [hsame] at hcorrect hfollows hend
  refine ⟨π.comp ρ, (hπ.mono (Nat.le_refl m) hle).comp (hρ.mono hmn (Nat.le_refl _)),
    Prod.ext ?_ (hend.trans (hπ _ (.inr hle)))⟩
  rw [Progress.renumber_comp]
  refine (hfollows.renumber_eq fun v hv q hq q' hq' => ?_).symm
  -- The keys are variables of the problem, which nobody renumbers.
  have hfixed : ∀ q ∈ v.subst.keys, π q.id = q.id := by
    intro q hq
    dsimp only at hcorrect hv
    rw [hv] at hcorrect
    rw [← Subst.contains_iff] at hq
    obtain ⟨image, himage⟩ := Option.isSome_iff_exists.mp hq
    exact hπ _ (.inl (hF q (hcorrect.1.solved.key q image himage)))
  rw [hfixed q hq, hfixed q' hq']

/-! ## Runs -/

/-- Both solvers come to one verdict, up to what was drawn from `m` on. -/
def SolvesAlike (F : OrderedSet Replaceable) (m : Nat) (solver solver' : Unifier → Fresh Verdict) :
    Prop :=
  ∀ u n π, m ≤ n → Invariant F m n u → u.subst.keys.Nodup → π.Within m n →
    ∃ ρ : Renumbering, ρ.Within m ((solver u).run n).2 ∧
      (solver' (u.renumber π)).run n = (((solver u).run n).1.renumber ρ, ((solver u).run n).2)

theorem phase_alike (I I' : Iteration) (hF : ∀ q ∈ F, q.id < m)
    {next next' : Unifier → Fresh Verdict} (hnext : SolvesAlike F m next next') (steps : Nat) :
    SolvesAlike F m (phase (I := I) next steps) (phase (I := I') next' steps) := by
  induction steps with
  | zero => exact fun u n π _ _ _ hπ => ⟨π, hπ, rfl⟩
  | succ steps ih =>
    intro u n π hmn hu hkeys hπ
    have hle := @increasing_step I u n
    have hcorrect := @step_correct F m n u I hF hmn hu
    have hdistinct := @distinct_step n F m u I hu hkeys
    obtain ⟨ρ, hρ, hstep⟩ := step_alike I I' hF hmn hu hkeys hπ
    unfold phase
    rw [Fresh.run_bind, Fresh.run_bind, hstep]
    rcases hrun : (u.step (I := I)).run n with ⟨_ | _ | v | v, k⟩
    · rw [hrun] at hle
      exact ⟨π, hπ.mono (Nat.le_refl m) hle, rfl⟩
    · rw [hrun] at hle
      exact ⟨π, hπ.mono (Nat.le_refl m) hle, rfl⟩
    · rw [hrun] at hle hcorrect hdistinct hρ
      exact ih v k ρ (hmn.trans hle) hcorrect.1 hdistinct hρ
    · rw [hrun] at hle hcorrect hdistinct hρ
      exact hnext v k ρ (hmn.trans hle) hcorrect.1 hdistinct hρ

theorem solve_alike (I I' : Iteration) (hF : ∀ q ∈ F, q.id < m) (bindings : Nat) :
    SolvesAlike F m (solve (I := I) bindings) (solve (I := I') bindings) := by
  induction bindings with
  | zero =>
    intro u
    have hnone : SolvesAlike F m (fun _ => return .exhausted) fun _ => return .exhausted :=
      fun u n π _ _ _ hπ => ⟨π, hπ, rfl⟩
    intro n π
    have hphase := phase_alike I I' hF hnone u.weight u n π
    unfold solve
    rw [weight_renumber]
    exact hphase
  | succ bindings ih =>
    intro u n π
    have hphase := phase_alike I I' hF ih u.weight u n π
    unfold solve
    rw [weight_renumber]
    exact hphase

end Steps

end Unifier

namespace Term

variable {s t : Term} {n : Nat}

/-- Whatever the order of iteration is, the terms have the same unifier, up to what was drawn. -/
theorem unify_iteration (I I' : Iteration) (hs : Sound n s) (ht : Sound n t) :
    ∃ π : Renumbering, π.Within n ((s.unify (I := I) t).run n).2 ∧
      (s.unify (I := I') t).run n = (((s.unify (I := I) t).run n).1.map (Subst.renumber π),
        ((s.unify (I := I) t).run n).2) := by
  obtain ⟨π, hπ, hsolve⟩ := Unifier.solve_alike I I' (id_lt_of_mem_free_union hs ht)
    (s.free ∪ t.free).size (Unifier.problem s t) n .identity (Nat.le_refl n)
    (invariant_problem hs ht) List.nodup_nil (Renumbering.within_identity n n)
  rw [Unifier.renumber_identity] at hsolve
  have hunify : ∀ I : Iteration, (s.unify (I := I) t).run n =
      (((Unifier.solve (I := I) (s.free ∪ t.free).size (Unifier.problem s t)).run n).1.subst?,
        ((Unifier.solve (I := I) (s.free ∪ t.free).size (Unifier.problem s t)).run n).2) :=
    fun _ => rfl
  rw [hunify I, hunify I', hsolve]
  refine ⟨π, hπ, Prod.ext ?_ rfl⟩
  cases ((Unifier.solve (I := I) (s.free ∪ t.free).size (Unifier.problem s t)).run n).1 <;> rfl

end Term

end TermAlgebra
