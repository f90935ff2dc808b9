import TermAlgebra.Proofs.Replacement

/-!
# Putting a subterm back

Every node of a well-formed term is what the builders make of its parts: they give no part other
binders, because nothing clashes, and draw no identifier. Main statement:
`reinsert_subterm`, a subterm or head subterm that is put back where it was taken from
gives the very same term.
-/

namespace TermAlgebra

/-- A change that keeps the element it is made at. -/
theorem Term.updateNth_self {f : Term → Fresh Term} {ts : List Term} {i : Nat} {s : Term}
    (h : nth? ts i = some s) (hf : f s = pure s) : updateNth f ts i = pure ts := by
  have hset : ts.set (i - 1) s = ts := by
    cases i with
    | zero => cases h
    | succ i =>
      obtain ⟨hi, rfl⟩ := List.getElem?_eq_some_iff.mp h
      exact List.set_getElem_self hi
  funext n
  have hrun := run_updateNth (f := f) h n
  rw [hf, Fresh.run_pure, hset] at hrun
  exact hrun

theorem Fresh.mapM_eq_self {f : Term → Fresh Term} {ts : List Term} (h : ∀ t ∈ ts, f t = pure t) :
    ts.mapM f = pure ts := by
  rw [Fresh.mapM_congr h, List.mapM_pure, List.map_id']

namespace Term

variable {t u s : Term} {rest : List Term} {steps : List Step}

theorem WellFormed.exists_sound (ht : t.WellFormed) : ∃ n, Sound n t := by
  have hbelow : ∀ ids : List Nat, ∃ n, ∀ i ∈ ids, i < n := by
    intro ids
    induction ids with
    | nil => exact ⟨0, by simp⟩
    | cons i ids ih =>
      obtain ⟨n, hn⟩ := ih
      refine ⟨max n (i + 1), fun j hj => ?_⟩
      rcases List.mem_cons.mp hj with rfl | hj
      · omega
      · exact Nat.lt_of_lt_of_le (hn j hj) (Nat.le_max_left n _)
  obtain ⟨n, hn⟩ := hbelow (t.free.toList.map Replaceable.id ++ t.bound.toList.map Var.id)
  refine ⟨n, ⟨fun r hr => hn _ ?_, fun x hx => hn _ ?_⟩, ht⟩
  · exact List.mem_append_left _ (List.mem_map_of_mem hr)
  · exact List.mem_append_right _ (List.mem_map_of_mem hx)

theorem WellFormed.child? (ht : t.WellFormed) {step : Step} (h : t.child? step = some u) :
    u.WellFormed := by
  obtain ⟨n, hn⟩ := ht.exists_sound
  exact (child?_sound hn h).wf

theorem WellFormed.descend? (ht : t.WellFormed) (h : t.descend? steps = some u) :
    u.WellFormed := by
  obtain ⟨n, hn⟩ := ht.exists_sound
  exact (descend?_sound steps hn h).wf

/-! ## Nodes -/

theorem refreshAgainst_self {taken : OrderedSet Var} (h : ∀ x ∈ taken, x ∉ t.bound) :
    t.refreshAgainst taken = pure t := by
  refine if_neg fun hclash => ?_
  obtain ⟨x, hb, hx⟩ := OrderedSet.intersects_iff.mp hclash
  exact h x hx hb

theorem mkLambda_self {x : Var} {body : Term} (h : (lambda x body).WellFormed) :
    mkLambda x body = pure (lambda x body) := by
  cases h with
  | lambda _ once _ =>
    unfold mkLambda
    rw [if_neg fun hb => once (OrderedSet.contains_iff.mp hb)]
    rfl

/-- No part of a well-formed application binds what is free in some part. -/
theorem WellFormed.parts_apart {head : Term} {args : List Term}
    (h : (Term.app head args).WellFormed) :
    ∀ s ∈ head :: args, ∀ x ∈ freeBinders (head :: args), x ∉ s.bound := by
  intro s hs x hx hb
  refine h.isApart x ?_ ?_
  · rw [free_app]
    exact (mem_freeBinders.mp hx).1
  · rw [bound_app, OrderedSet.mem_union, mem_boundAll]
    rcases List.mem_cons.mp hs with rfl | hs
    · exact Or.inl hb
    · exact Or.inr ⟨s, hs, hb⟩

theorem WellFormed.metaArgs_apart {z : MetaVar} {args : List Term}
    (h : (Term.metaApp z args).WellFormed) : ∀ s ∈ args, ∀ x ∈ freeBinders args, x ∉ s.bound := by
  intro s hs x hx hb
  refine h.isApart x ?_ ?_
  · rw [free_metaApp, OrderedSet.mem_insert]
    exact Or.inr (mem_freeBinders.mp hx).1
  · rw [bound_metaApp, mem_boundAll]
    exact ⟨s, hs, hb⟩

/-- The arguments of a well-formed application may be given in two portions. -/
theorem mkApp_self {head : Term} {args : List Term} (h : (app head args).WellFormed)
    (hhead : u.head = head) (hargs : u.args ++ rest = args) (hne : rest ≠ []) :
    mkApp u rest = pure (app head args) := by
  have hself : ∀ s ∈ head :: args, s.refreshAgainst (freeBinders (head :: args)) = pure s :=
    fun s hs => refreshAgainst_self (h.parts_apart s hs)
  unfold mkApp
  rw [if_neg (by simpa using hne), hhead, hargs]
  dsimp only
  rw [hself head (by simp), pure_bind, Fresh.mapM_eq_self fun s hs => hself s (by simp [hs])]
  rfl

theorem mkMetaApp_self {z : MetaVar} {args : List Term} (h : (metaApp z args).WellFormed) :
    mkMetaApp z args = pure (metaApp z args) := by
  unfold mkMetaApp
  rw [Fresh.mapM_eq_self fun s hs => refreshAgainst_self (h.metaArgs_apart s hs)]
  rfl

theorem head_args_of_flat (h : t.isApp = false) : t.head = t ∧ t.args = [] := by
  cases t with
  | app head args => cases h
  | _ => exact ⟨rfl, rfl⟩

theorem mkApp_head_args (ht : t.WellFormed) : mkApp t.head t.args = pure t := by
  cases t with
  | app head args =>
    obtain ⟨hhead, hargs⟩ := head_args_of_flat ht.head_isApp
    have hne : args ≠ [] := by
      cases ht
      assumption
    refine mkApp_self ht hhead ?_ hne
    rw [hargs]
    rfl
  | _ => rfl

/-- A head subterm is what the builder makes of the head and the first arguments. -/
theorem mkApp_take_args (ht : t.WellFormed) (i : Nat) :
    mkApp t.head (t.args.take i) = pure (t.headPart i) := by
  rcases headPart_cases t i with ⟨hlen, e⟩ | ⟨rfl, e⟩ | ⟨_, _, e⟩
  · rw [e, List.take_of_length_le hlen, mkApp_head_args ht]
  · rw [e]
    rfl
  · have hself := mkApp_head_args (headPart_wellFormed ht i)
    rw [e] at hself ⊢
    exact hself

/-- A head subterm takes its arguments back. -/
theorem mkApp_headPart (ht : t.WellFormed) (i : Nat) :
    mkApp (t.headPart i) (t.args.drop i) = pure t := by
  rcases headPart_cases t i with ⟨hlen, e⟩ | ⟨rfl, e⟩ | ⟨_, hlen, e⟩
  · rw [e, List.drop_eq_nil_of_le hlen]
    rfl
  · rw [e, List.drop_zero, mkApp_head_args ht]
  · rw [e]
    cases t with
    | app head args =>
      have hne : args.drop i ≠ [] := by
        rw [Ne, List.drop_eq_nil_iff]
        exact Nat.not_le.mpr hlen
      exact mkApp_self ht rfl (List.take_append_drop i args) hne
    | _ => exact absurd hlen (Nat.not_lt_zero i)

/-! ## Paths -/

/-- The builders along a path restore the nodes when the subterm at its end is put back. -/
theorem replaceSteps_self (ht : t.WellFormed) (h : t.descend? steps = some s) :
    replaceSteps s steps t = pure t := by
  induction steps generalizing t with
  | nil =>
    obtain rfl := Option.some.inj h
    rfl
  | cons step steps ih =>
    rw [descend?_cons] at h
    obtain ⟨u, hu, hs⟩ := Option.bind_eq_some_iff.mp h
    have hself : replaceSteps s steps u = pure u := ih (ht.child? hu) hs
    have hhead := ht.head
    rcases child?_cases hu with ⟨i, rfl, hi⟩ | ⟨x, rfl, e⟩ | ⟨i, z, args, rfl, e, hi⟩
    · rw [replaceSteps_arg, updateNth_self hi hself, pure_bind, mkApp_head_args ht]
    · rw [e] at hhead
      rw [replaceSteps_body e, hself, pure_bind, mkLambda_self hhead, pure_bind, ← e,
        mkApp_head_args ht]
    · rw [e] at hhead
      rw [replaceSteps_metaArg e, updateNth_self hi hself, pure_bind, mkMetaApp_self hhead,
        pure_bind, ← e, mkApp_head_args ht]

theorem headPart_ty (ht : t.WellFormed) (i : Nat) :
    (t.headPart i).ty = .arrows ((t.args.drop i).map ty) t.ty := by
  rcases headPart_cases t i with ⟨hlen, e⟩ | ⟨rfl, e⟩ | ⟨_, _, e⟩
  · rw [e, List.drop_eq_nil_of_le hlen]
    rfl
  · rw [e, List.drop_zero, ht.ty_head]
  · rw [e, ty_app (head_ty_take ht i)]

/-- What is read at a position or a head position can be written there again, and this gives the
term itself, with the same binders and without a new identifier. -/
theorem reinsert_subterm (ht : t.WellFormed) :
    (∀ (p : Position) (s : Term) (n : Nat), t.subtermAt p = .ok s →
      Fresh.attempt (t.replaceAt p s) n = (.ok t, n)) ∧
    ∀ (h : HeadPosition) (s : Term) (n : Nat), t.headSubtermAt h = .ok s →
      Fresh.attempt (t.replaceHeadAt h s) n = (.ok t, n) := by
  constructor
  · intro p s n hs
    rw [attempt_replaceAt, hs]
    dsimp only
    rw [if_neg (not_not.mpr rfl), replaceSteps_self ht (subtermAt_eq_ok hs), Fresh.run_pure]
  · intro h s n hs
    obtain ⟨u, keep, hsplit, rfl⟩ := headSubtermAt_eq_ok hs
    have hu := (headSplit_eq_ok hsplit).1
    have hwf := ht.descend? hu
    rw [attempt_replaceHeadAt, hsplit]
    dsimp only
    rw [if_neg (not_not.mpr (headPart_ty hwf keep).symm), mkApp_headPart hwf keep, Fresh.run_pure,
      replaceSteps_self ht hu, Fresh.run_pure]

/-- In `(λx.g x) y`, the `x` below the binder is put back without a new binder, and so is the
abstraction, which takes the argument `y` again. -/
theorem reinsert_subterm_redex :
    let o := SimpleType.base "o"
    let g : Var := ⟨0, "g", .arrow o o, false⟩
    let x : Var := ⟨1, "x", o, true⟩
    let y : Var := ⟨2, "y", o, true⟩
    let t := app (lambda x (app (var g) [var x])) [var y]
    t.WellFormed ∧
      Fresh.attempt (t.replaceAt ⟨[.body, .arg 1]⟩ (var x)) 3 = (.ok t, 3) ∧
      Fresh.attempt (t.replaceHeadAt ⟨.root, 1⟩ (lambda x (app (var g) [var x]))) 3 =
        (.ok t, 3) := by
  intro o g x y t
  have hhead : Sound 3 (lambda x (app (var g) [var x])) :=
    sound_lambda_app rfl rfl (by decide) (by decide)
  have hwf : t.WellFormed := by
    refine .app rfl (by simp) rfl hhead.wf (by simp [WellFormed.var]) fun v hv hb => ?_
    obtain rfl : v = x := by simpa [boundAll] using hb
    simp [freeAll, x, y] at hv
  have hself := reinsert_subterm hwf
  exact ⟨hwf, hself.1 _ _ 3 rfl, hself.2 _ _ 3 rfl⟩

end Term

end TermAlgebra
