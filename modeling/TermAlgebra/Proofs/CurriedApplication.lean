import TermAlgebra.Proofs.AlphaEquivalence
import TermAlgebra.Proofs.FreshBinders

/-!
# Application in portions

An application takes its arguments at once or in two portions: the portions fit exactly when all
arguments fit, and both ways give the same up to bound variables, which are kept apart from other
free variables each time. Main statement: `apply_append`.
-/

namespace TermAlgebra.Term

variable {t s s' : Term} {as bs args : List Term} {i m n k : Nat}

/-! ## Success -/

/-- Whether an application succeeds depends on types alone. -/
theorem exists_apply_iff (t : Term) (args : List Term) (n : Nat) :
    (∃ s n', Fresh.attempt (t.apply args) n = (.ok s, n')) ↔
      ∃ τ, t.ty = .arrows (args.map ty) τ := by
  constructor
  · rintro ⟨s, n', h⟩
    exact (apply_eq_ok h).2
  · rintro ⟨τ, hty⟩
    exact ⟨_, _, attempt_apply hty n⟩

theorem apply_ty {n' : Nat} {τ : SimpleType} (ht : Sound n t) (hargs : ∀ a ∈ args, Sound n a)
    (h : Fresh.attempt (t.apply args) n = (.ok s, n')) (hty : t.ty = .arrows (args.map ty) τ) :
    s.ty = τ := by
  have hτ := (mkApp_sound ht hargs hty).2
  rwa [(apply_eq_ok h).1] at hτ

theorem exists_apply_append_iff (ht : Sound n t) (has : ∀ a ∈ as, Sound n a) :
    (∃ s m', Fresh.attempt (t.apply (as ++ bs)) m = (.ok s, m')) ↔
      ∃ u n' s' k', Fresh.attempt (t.apply as) n = (.ok u, n') ∧
        Fresh.attempt (u.apply bs) k = (.ok s', k') := by
  rw [exists_apply_iff]
  constructor
  · rintro ⟨τ, hty⟩
    rw [List.map_append, SimpleType.arrows_append] at hty
    have hu := attempt_apply hty n
    exact ⟨_, _, _, _, hu, attempt_apply (apply_ty ht has hu hty) k⟩
  · rintro ⟨u, n', s', k', hu, hs'⟩
    obtain ⟨σ, hσ⟩ := (apply_eq_ok hu).2
    obtain ⟨τ, hτ⟩ := (apply_eq_ok hs').2
    refine ⟨τ, ?_⟩
    rw [hσ, ← apply_ty ht has hu hσ, hτ, List.map_append, SimpleType.arrows_append]

/-! ## Results -/

theorem nameless_apply {n' : Nat} (ht : Sound n t) (hargs : ∀ a ∈ args, Sound n a)
    (h : Fresh.attempt (t.apply args) n = (.ok s, n')) :
    s.nameless = t.nameless.apply (args.map nameless) := by
  obtain ⟨hrun, τ, hty⟩ := apply_eq_ok h
  have hresult := nameless_mkApp ht hargs hty
  rwa [hrun] at hresult

/-- The head and the number of arguments after an application to some arguments. -/
structure Extends (t : Term) (args : List Term) (s : Term) : Prop where
  head : t.head.alphaEquals s.head
  count : s.args.length = t.args.length + args.length
  /-- The head gets new binders only where an argument has one of them as a free variable. -/
  kept : (∀ a ∈ args, ∀ x ∈ t.head.bound, .var x ∉ a.free) → s.head = t.head

theorem run_mkApp_head (ht : t.WellFormed)
    (hfree : ∀ a ∈ args, ∀ x ∈ t.head.bound, .var x ∉ a.free) :
    ((mkApp t args).run n).1.head = t.head := by
  have hself : t.head.refreshAgainst (freeBinders (t.head :: (t.args ++ args))) = pure t.head := by
    refine refreshAgainst_self fun x hx hb => ?_
    have hapart : .var x ∉ t.free := fun hf => ht.isApart x hf (mem_bound_head_args.mpr (.inl hb))
    rw [mem_free_head_args] at hapart
    obtain ⟨p, hp, hf⟩ := mem_freeAll.mp (mem_freeBinders.mp hx).1
    rw [List.mem_cons, List.mem_append] at hp
    rcases hp with rfl | hp | hp
    · exact hapart (.inl hf)
    · exact hapart (.inr ⟨p, hp, hf⟩)
    · exact hfree p hp x hb hf
  unfold mkApp
  split
  · rfl
  · dsimp only
    rw [hself, pure_bind]
    rfl

theorem apply_extends {n' : Nat} (ht : Sound n t) (hargs : ∀ a ∈ args, Sound n a)
    (h : Fresh.attempt (t.apply args) n = (.ok s, n')) : Extends t args s := by
  have hrun := congrArg Prod.fst (apply_eq_ok h).1
  by_cases hne : args = []
  · subst hne
    obtain rfl : t = s := hrun
    exact ⟨(alphaEquals_iff _ _).mpr rfl, rfl, fun _ => rfl⟩
  · obtain ⟨head', all', e, hhead, hall, -⟩ :=
      mkApp_spec ht.idsBelow (fun a ha => (hargs a ha).idsBelow) hne
    obtain rfl : app head' all' = s := e.symm.trans hrun
    refine ⟨hhead.alphaEquals ht.wf.head, ?_, fun hfree => ?_⟩
    · rw [Term.args, ← hall.length_eq, List.length_append]
    · exact (congrArg Term.head e).symm.trans (run_mkApp_head ht.wf hfree)

/-- The results of an application to all arguments at once and in two portions. -/
structure SameApplication (t : Term) (args : List Term) (s s' : Term) : Prop where
  alphaEquals : s.alphaEquals s'
  head : s.head.alphaEquals s'.head
  count : s.args.length = t.args.length + args.length ∧ s'.args.length = s.args.length
  kept : (∀ a ∈ args, ∀ x ∈ t.head.bound, .var x ∉ a.free) → s.head = t.head ∧ s'.head = t.head

theorem sameApplication_append {u : Term} {m' n' k' : Nat} (ht : Sound i t)
    (hargs : ∀ a ∈ as ++ bs, Sound i a) (hm : i ≤ m) (hn : i ≤ n) (hk : n' ≤ k)
    (hs : Fresh.attempt (t.apply (as ++ bs)) m = (.ok s, m'))
    (hu : Fresh.attempt (t.apply as) n = (.ok u, n'))
    (hs' : Fresh.attempt (u.apply bs) k = (.ok s', k')) : SameApplication t (as ++ bs) s s' := by
  have has : ∀ a ∈ as, Sound n a := fun a ha => (hargs a (List.mem_append_left bs ha)).mono hn
  have hle : n ≤ n' := by
    have hrising := rising_apply t as n
    rwa [hu] at hrising
  have hbs : ∀ b ∈ bs, Sound k b := fun b hb =>
    (hargs b (List.mem_append_right as hb)).mono (by omega)
  have hall : ∀ a ∈ as ++ bs, Sound m a := fun a ha => (hargs a ha).mono hm
  have hsu : Sound k u := (apply_sound (ht.mono hn) has hu).mono hk
  have hone := apply_extends (ht.mono hm) hall hs
  have hfirst := apply_extends (ht.mono hn) has hu
  have hsecond := apply_extends hsu hbs hs'
  refine ⟨?_, ?_, ⟨hone.count, ?_⟩, fun hfree => ⟨hone.kept hfree, ?_⟩⟩
  · rw [alphaEquals_iff, nameless_apply (ht.mono hm) hall hs, nameless_apply hsu hbs hs',
      nameless_apply (ht.mono hn) has hu, List.map_append, Nameless.apply_apply]
  · have hhead := (alphaEquals_iff _ _).mp hone.head
    have hhead₁ := (alphaEquals_iff _ _).mp hfirst.head
    have hhead₂ := (alphaEquals_iff _ _).mp hsecond.head
    rw [alphaEquals_iff, ← hhead, hhead₁, hhead₂]
  · rw [hsecond.count, hfirst.count, hone.count, List.length_append, Nat.add_assoc]
  · have hkept := hfirst.kept fun a ha => hfree a (List.mem_append_left bs ha)
    have hkept' := hsecond.kept fun b hb => by
      rw [hkept]
      exact hfree b (List.mem_append_right as hb)
    rw [hkept', hkept]

/-! ## Head subterms -/

/-- A head subterm takes the arguments behind it back. -/
theorem headSubterm_apply (ht : t.WellFormed) (hi : i ≤ t.args.length) :
    ∃ u, t.headSubterm i = .ok u ∧
      ∀ n, Fresh.attempt (u.apply (t.args.drop i)) n = (.ok t, n) := by
  refine ⟨t.headPart i, if_neg (Nat.not_lt.mpr hi), fun n => ?_⟩
  rw [attempt_apply (headPart_ty ht i), mkApp_headPart ht i]
  rfl

/-- Application is curried: all arguments can be given at once exactly when they can be given in
two portions, whatever has been drawn before each step, and the results have the same head and
number of arguments and are equal up to bound variables. What a head subterm leaves out of a term
gives back the very same term. -/
theorem apply_append (ht : Sound i t) (hargs : ∀ a ∈ as ++ bs, Sound i a) (hm : i ≤ m)
    (hn : i ≤ n) (hk : (Fresh.attempt (t.apply as) n).2 ≤ k) :
    ((∃ s m', Fresh.attempt (t.apply (as ++ bs)) m = (.ok s, m')) ↔
      ∃ u n' s' k', Fresh.attempt (t.apply as) n = (.ok u, n') ∧
        Fresh.attempt (u.apply bs) k = (.ok s', k')) ∧
    (∀ s m' u n' s' k', Fresh.attempt (t.apply (as ++ bs)) m = (.ok s, m') →
      Fresh.attempt (t.apply as) n = (.ok u, n') → Fresh.attempt (u.apply bs) k = (.ok s', k') →
        SameApplication t (as ++ bs) s s') ∧
    ∀ u : Term, u.WellFormed → ∀ j ≤ u.args.length, ∃ h, u.headSubterm j = .ok h ∧
      ∀ n, Fresh.attempt (h.apply (u.args.drop j)) n = (.ok u, n) := by
  refine ⟨exists_apply_append_iff (ht.mono hn) fun a ha => ?_, ?_, fun u hu j hj => ?_⟩
  · exact (hargs a (List.mem_append_left bs ha)).mono hn
  · intro s m' u n' s' k' hs hu hs'
    rw [hu] at hk
    exact sameApplication_append ht hargs hm hn hk hs hu hs'
  · exact headSubterm_apply hu hj

/-- In `λx.λz.x` applied to `a` and the free `x`, the head gets new binders only with the second
argument; at once and in two portions it gets different ones. -/
theorem apply_append_clash :
    let o := SimpleType.base "o"
    let a : Constant := ⟨"a", o, false, none⟩
    let x : Var := ⟨0, "x", o, true⟩
    let z : Var := ⟨1, "z", o, true⟩
    let head (n : Nat) := lambda { x with id := n } (lambda { z with id := n + 1 }
      (var { x with id := n }))
    let u := app (head 0) [const a]
    let s (n : Nat) := app (head n) [const a, var x]
    Sound 2 (head 0) ∧
      Fresh.attempt ((head 0).apply ([const a] ++ [var x])) 2 = (.ok (s 2), 4) ∧
      Fresh.attempt ((head 0).apply [const a]) 4 = (.ok u, 4) ∧
      Fresh.attempt (u.apply [var x]) 4 = (.ok (s 4), 6) ∧
      SameApplication (head 0) ([const a] ++ [var x]) (s 2) (s 4) := by
  intro o a x z head u s
  have ht : Sound 2 (head 0) := by
    refine ⟨⟨?_, by simp [head, z]⟩,
      .lambda rfl (by simp [z]) (.lambda rfl (by simp) (.var { x with id := 0 }))⟩
    simp +contextual [head]
  have hargs : ∀ b ∈ [const a] ++ [var x], Sound 2 b := by
    simp [sound_const, sound_var, x]
  have hs : Fresh.attempt ((head 0).apply ([const a] ++ [var x])) 2 = (.ok (s 2), 4) := by cbv
  have hu : Fresh.attempt ((head 0).apply [const a]) 4 = (.ok u, 4) := by cbv
  have hs' : Fresh.attempt (u.apply [var x]) 4 = (.ok (s 4), 6) := by cbv
  have hk : (Fresh.attempt ((head 0).apply [const a]) 4).2 ≤ 4 := by rw [hu]
  have hsame := (apply_append ht hargs (Nat.le_refl 2) (by decide : 2 ≤ 4) hk).2.1
  exact ⟨ht, hs, hu, hs', hsame _ _ _ _ _ _ hs hu hs'⟩

end TermAlgebra.Term
