import TermAlgebra.Proofs.Building
import TermAlgebra.Term.Subterm

/-!
# Subterms and replacement

A subterm or head subterm of a sound term is sound. Main statement: `replaceSteps_sound`, putting
a sound term of the same type in the place of a subterm gives a sound term of the type of the
whole.
-/

namespace TermAlgebra.Term

variable {n : Nat} {t : Term}

/-! ## Subterms -/

theorem mem_of_nth? {ts : List Term} {i : Nat} {s : Term} (h : nth? ts i = some s) : s ∈ ts := by
  cases i with
  | zero => cases h
  | succ i => exact List.mem_of_getElem? h

/-- What a step leads to: an argument, the body of the head, or an argument of the head. -/
theorem child?_cases {step : Step} {s : Term} (h : t.child? step = some s) :
    (∃ i, step = .arg i ∧ nth? t.args i = some s) ∨
      (∃ x, step = .body ∧ t.head = .lambda x s) ∨
      ∃ i z args, step = .metaArg i ∧ t.head = .metaApp z args ∧ nth? args i = some s := by
  cases step with
  | arg i => exact Or.inl ⟨i, rfl, h⟩
  | body =>
    unfold child? at h
    cases e : t.head with
    | lambda x body =>
      rw [e] at h
      obtain rfl : body = s := Option.some.inj h
      exact Or.inr (Or.inl ⟨x, rfl, rfl⟩)
    | _ =>
      rw [e] at h
      cases h
  | metaArg i =>
    unfold child? metaArgs at h
    cases e : t.head with
    | metaApp z args =>
      rw [e] at h
      exact Or.inr (Or.inr ⟨i, z, args, rfl, rfl, h⟩)
    | _ =>
      rw [e] at h
      exact absurd (mem_of_nth? h) List.not_mem_nil

theorem child?_sound (ht : Sound n t) {step : Step} {s : Term} (h : t.child? step = some s) :
    Sound n s := by
  have hhead := ht.head
  rcases child?_cases h with ⟨i, rfl, hi⟩ | ⟨x, rfl, e⟩ | ⟨i, z, args, rfl, e, hi⟩
  · exact ht.args s (mem_of_nth? hi)
  · rw [e] at hhead
    exact hhead.lambda.2.2
  · rw [e] at hhead
    exact hhead.metaApp.2.2 s (mem_of_nth? hi)

theorem descend?_cons (t : Term) (step : Step) (steps : List Step) :
    t.descend? (step :: steps) = (t.child? step).bind fun s => s.descend? steps := by
  unfold descend?
  rw [List.foldlM_cons]
  rfl

theorem descend?_sound (steps : List Step) {s : Term} (ht : Sound n t)
    (h : t.descend? steps = some s) : Sound n s := by
  induction steps generalizing t with
  | nil =>
    obtain rfl := Option.some.inj h
    exact ht
  | cons step steps ih =>
    rw [descend?_cons] at h
    obtain ⟨u, hu, hs⟩ := Option.bind_eq_some_iff.mp h
    exact ih (child?_sound ht hu) hs

theorem subtermAt_eq_ok {p : Position} {s : Term} (h : t.subtermAt p = .ok s) :
    t.descend? p.steps = some s := by
  unfold subtermAt at h
  split at h
  · rename_i u hu
    obtain rfl := Except.ok.inj h
    exact hu
  · cases h

theorem subtermAt_sound {p : Position} {s : Term} (ht : Sound n t)
    (h : t.subtermAt p = .ok s) : Sound n s :=
  descend?_sound p.steps ht (subtermAt_eq_ok h)

/-! ## Head subterms -/

theorem mem_free_head_args {r : Replaceable} :
    r ∈ t.free ↔ r ∈ t.head.free ∨ ∃ s ∈ t.args, r ∈ s.free := by
  cases t with
  | app head args => rw [free_app, OrderedSet.mem_union, mem_freeAll]; rfl
  | _ => simp [head, args]

theorem mem_bound_head_args {x : Var} :
    x ∈ t.bound ↔ x ∈ t.head.bound ∨ ∃ s ∈ t.args, x ∈ s.bound := by
  cases t with
  | app head args => rw [bound_app, OrderedSet.mem_union, mem_boundAll]; rfl
  | _ => simp [head, args]

/-- The head with the first arguments, unless that is the whole term or the head. -/
theorem headPart_cases (t : Term) (i : Nat) :
    t.args.length ≤ i ∧ t.headPart i = t ∨ i = 0 ∧ t.headPart i = t.head ∨
      0 < i ∧ i < t.args.length ∧ t.headPart i = .app t.head (t.args.take i) := by
  unfold headPart
  by_cases hlen : t.args.length ≤ i
  · exact Or.inl ⟨hlen, if_pos hlen⟩
  · by_cases hi : i = 0
    · exact Or.inr (Or.inl ⟨hi, by rw [if_neg hlen, if_pos hi]⟩)
    · exact Or.inr (Or.inr ⟨by omega, by omega, by rw [if_neg hlen, if_neg hi]⟩)

theorem headPart_free {i : Nat} {r : Replaceable} (h : r ∈ (t.headPart i).free) : r ∈ t.free := by
  rcases headPart_cases t i with ⟨_, e⟩ | ⟨_, e⟩ | ⟨_, _, e⟩
  · rwa [e] at h
  · rw [e] at h
    exact mem_free_head_args.mpr (Or.inl h)
  · rw [e, free_app, OrderedSet.mem_union, mem_freeAll] at h
    refine mem_free_head_args.mpr (h.imp_right ?_)
    rintro ⟨s, hs, hr⟩
    exact ⟨s, List.mem_of_mem_take hs, hr⟩

theorem headPart_bound {i : Nat} {x : Var} (h : x ∈ (t.headPart i).bound) : x ∈ t.bound := by
  rcases headPart_cases t i with ⟨_, e⟩ | ⟨_, e⟩ | ⟨_, _, e⟩
  · rwa [e] at h
  · rw [e] at h
    exact mem_bound_head_args.mpr (Or.inl h)
  · rw [e, bound_app, OrderedSet.mem_union, mem_boundAll] at h
    refine mem_bound_head_args.mpr (h.imp_right ?_)
    rintro ⟨s, hs, hx⟩
    exact ⟨s, List.mem_of_mem_take hs, hx⟩

theorem head_ty_take (ht : t.WellFormed) (i : Nat) :
    t.head.ty =
      .arrows ((t.args.take i).map ty) (.arrows ((t.args.drop i).map ty) t.ty) := by
  rw [ht.ty_head, ← SimpleType.arrows_append, ← List.map_append, List.take_append_drop]

theorem headPart_wellFormed (ht : t.WellFormed) (i : Nat) : (t.headPart i).WellFormed := by
  have hapart : (t.headPart i).Apart :=
    fun x hx hb => ht.isApart x (headPart_free hx) (headPart_bound hb)
  have hty := head_ty_take ht i
  rcases headPart_cases t i with ⟨_, e⟩ | ⟨_, e⟩ | ⟨hi, hlen, e⟩
  · rw [e]
    exact ht
  · rw [e]
    exact ht.head
  · rw [e] at hapart ⊢
    refine .app ht.head_isApp ?_ (fits_iff.mpr ⟨_, hty⟩) ht.head ?_ hapart
    · intro hnil
      have hlen' := congrArg List.length hnil
      rw [List.length_take, List.length_nil] at hlen'
      omega
    · exact fun s hs => ht.args s (List.mem_of_mem_take hs)

theorem headPart_sound (ht : Sound n t) (i : Nat) : Sound n (t.headPart i) := by
  have hids : IdsBelow n (t.headPart i) :=
    ⟨fun r hr => ht.idsBelow.1 r (headPart_free hr),
      fun x hx => ht.idsBelow.2 x (headPart_bound hx)⟩
  exact ⟨hids, headPart_wellFormed ht.wf i⟩

/-- The head subterm applied to the other arguments reads as the whole. -/
theorem read_headPart (t : Term) (i : Nat) (V : Valuation) :
    ((t.headPart i).read V).apply ((t.args.drop i).map (read V)) = t.read V := by
  rcases headPart_cases t i with ⟨hlen, e⟩ | ⟨rfl, e⟩ | ⟨_, _, e⟩
  · rw [e, List.drop_eq_nil_of_le hlen, List.map_nil, Nameless.apply_nil]
  · rw [e, List.drop_zero, read_head_args]
  · rw [e, read_app, Nameless.apply_apply, ← List.map_append, List.take_append_drop,
      read_head_args]

theorem headSubterm_sound {i : Nat} {s : Term} (ht : Sound n t) (h : t.headSubterm i = .ok s) :
    Sound n s := by
  unfold headSubterm at h
  split at h
  · cases h
  · obtain rfl := Except.ok.inj h
    exact headPart_sound ht i

theorem headSplit_eq_ok {h : HeadPosition} {s : Term} {keep : Nat}
    (e : t.headSplit h = .ok (s, keep)) :
    t.descend? h.position.steps = some s ∧ h.chop ≤ s.args.length ∧
      keep = s.args.length - h.chop := by
  unfold headSplit at e
  cases hsub : t.subtermAt h.position with
  | error err =>
    rw [hsub] at e
    cases e
  | ok u =>
    rw [hsub] at e
    change (if u.args.length < h.chop then _ else _) = _ at e
    split at e
    · cases e
    · rename_i hchop
      obtain ⟨rfl, rfl⟩ := Prod.mk.inj (Except.ok.inj e)
      exact ⟨subtermAt_eq_ok hsub, Nat.not_lt.mp hchop, rfl⟩

theorem headSubtermAt_eq_ok {h : HeadPosition} {s : Term} (e : t.headSubtermAt h = .ok s) :
    ∃ u keep, t.headSplit h = .ok (u, keep) ∧ s = u.headPart keep := by
  unfold headSubtermAt at e
  cases hsplit : t.headSplit h with
  | error err =>
    rw [hsplit] at e
    cases e
  | ok p =>
    rw [hsplit] at e
    exact ⟨p.1, p.2, rfl, (Except.ok.inj e).symm⟩

theorem headSubtermAt_sound {h : HeadPosition} {s : Term} (ht : Sound n t)
    (e : t.headSubtermAt h = .ok s) : Sound n s := by
  obtain ⟨u, keep, hsplit, rfl⟩ := headSubtermAt_eq_ok e
  exact headPart_sound (descend?_sound _ ht (headSplit_eq_ok hsplit).1) keep

/-! ## Replacement -/

theorem increasing_updateNth {f : Term → Fresh Term} (hf : ∀ t, Fresh.Increasing (f t))
    (ts : List Term) (i : Nat) : Fresh.Increasing (updateNth f ts i) := by
  induction ts generalizing i with
  | nil => exact Fresh.increasing_pure []
  | cons t ts ih =>
    match i with
    | 0 => exact Fresh.increasing_pure (t :: ts)
    | 1 => exact (hf t).bind fun s => Fresh.increasing_pure (s :: ts)
    | i + 2 => exact (ih (i + 1)).bind fun ss => Fresh.increasing_pure (t :: ss)

theorem run_updateNth {f : Term → Fresh Term} {ts : List Term} {i : Nat} {s : Term}
    (h : nth? ts i = some s) (n : Nat) :
    (updateNth f ts i).run n = (ts.set (i - 1) ((f s).run n).1, ((f s).run n).2) := by
  induction ts generalizing i with
  | nil => cases i <;> cases h
  | cons t ts ih =>
    match i with
    | 0 => cases h
    | 1 =>
      obtain rfl := Option.some.inj h
      rfl
    | i + 2 =>
      have hrest := ih (i := i + 1) h
      change (t :: ((updateNth f ts (i + 1)).run n).1, ((updateNth f ts (i + 1)).run n).2) = _
      rw [hrest]
      rfl

theorem updateNth_sound {f : Term → Fresh Term} {ts : List Term} {i : Nat} {s : Term}
    (hf : ∀ t, Fresh.Increasing (f t)) (hts : ∀ t ∈ ts, Sound n t) (h : nth? ts i = some s)
    (hs : SoundAt ((f s).run n).2 s.ty ((f s).run n).1) :
    (∀ t ∈ ((updateNth f ts i).run n).1, Sound ((updateNth f ts i).run n).2 t) ∧
      ((updateNth f ts i).run n).1.map ty = ts.map ty := by
  rw [run_updateNth h]
  constructor
  · intro t ht
    rcases List.mem_or_eq_of_mem_set ht with ht | rfl
    · exact (hts t ht).mono (hf s n)
    · exact hs.1
  · rw [List.map_set, hs.2]
    cases i with
    | zero => cases h
    | succ i =>
      have hmap : (ts.map ty)[i]? = some s.ty := by
        rw [List.getElem?_map]
        exact congrArg (Option.map ty) h
      obtain ⟨hi, hget⟩ := List.getElem?_eq_some_iff.mp hmap
      rw [← hget]
      exact List.set_getElem_self hi

theorem replaceSteps_arg (new t : Term) (i : Nat) (steps : List Step) :
    replaceSteps new (.arg i :: steps) t = (do
      let args ← updateNth (replaceSteps new steps) t.args i
      mkApp t.head args) := rfl

theorem replaceSteps_body {new t body : Term} {x : Var} (h : t.head = .lambda x body)
    (steps : List Step) :
    replaceSteps new (.body :: steps) t = (do
      let head ← mkLambda x (← replaceSteps new steps body)
      mkApp head t.args) := by
  simp only [replaceSteps, h]

theorem replaceSteps_metaArg {new t : Term} {z : MetaVar} {args : List Term}
    (h : t.head = .metaApp z args) (i : Nat) (steps : List Step) :
    replaceSteps new (.metaArg i :: steps) t = (do
      let head ← mkMetaApp z (← updateNth (replaceSteps new steps) args i)
      mkApp head t.args) := by
  simp only [replaceSteps, h]

theorem increasing_replaceSteps (new : Term) (steps : List Step) (t : Term) :
    Fresh.Increasing (replaceSteps new steps t) := by
  induction steps generalizing t with
  | nil => exact Fresh.increasing_pure new
  | cons step steps ih =>
    unfold replaceSteps
    split
    · exact (increasing_updateNth ih t.args _).bind fun args => increasing_mkApp _ args
    · refine (ih _).bind fun body => ?_
      exact (increasing_mkLambda _ body).bind fun head => increasing_mkApp head _
    · refine (increasing_updateNth ih _ _).bind fun args => ?_
      exact (increasing_mkMetaApp _ args).bind fun head => increasing_mkApp head _
    · exact Fresh.increasing_pure t

theorem replaceSteps_sound (steps : List Step) {new old : Term} (ht : Sound n t)
    (hold : t.descend? steps = some old) (hnew : SoundAt n old.ty new) :
    SoundAt ((replaceSteps new steps t).run n).2 t.ty ((replaceSteps new steps t).run n).1 := by
  induction steps generalizing t with
  | nil =>
    obtain rfl := Option.some.inj hold
    exact hnew
  | cons step steps ih =>
    rw [descend?_cons] at hold
    obtain ⟨s, hs, hold⟩ := Option.bind_eq_some_iff.mp hold
    have hpart := ih (child?_sound ht hs) hold
    have hinc := increasing_replaceSteps new steps
    have hty := ht.wf.ty_head
    have hhead := ht.head
    rcases child?_cases hs with ⟨i, rfl, hi⟩ | ⟨x, rfl, e⟩ | ⟨i, z, args, rfl, e, hi⟩
    · have hargs := updateNth_sound hinc ht.args hi hpart
      have hle := increasing_updateNth hinc t.args i n
      rw [← hargs.2] at hty
      rw [replaceSteps_arg, Fresh.run_bind]
      exact mkApp_sound (hhead.mono hle) hargs.1 hty
    · rw [e] at hhead hty
      obtain ⟨hx, hbinder, _⟩ := hhead.lambda
      have hle := hinc s n
      have hlam := mkLambda_sound hpart.1 (Nat.lt_of_lt_of_le hx hle) hbinder
      have hle' := increasing_mkLambda x ((replaceSteps new steps s).run n).1
        ((replaceSteps new steps s).run n).2
      rw [Term.ty] at hty
      rw [hpart.2, hty] at hlam
      rw [replaceSteps_body e, Fresh.run_bind, Fresh.run_bind]
      exact mkApp_sound hlam.1 (fun s hs => (ht.args s hs).mono (Nat.le_trans hle hle')) hlam.2
    · rw [e] at hhead hty
      obtain ⟨hz, fits, hargs⟩ := hhead.metaApp
      have hupd := updateNth_sound hinc hargs hi hpart
      have hle := increasing_updateNth hinc args i n
      have hmeta := mkMetaApp_sound (Nat.lt_of_lt_of_le hz hle) hupd.1 (hupd.2.trans fits)
      have hle' := increasing_mkMetaApp z ((updateNth (replaceSteps new steps) args i).run n).1
        ((updateNth (replaceSteps new steps) args i).run n).2
      rw [Term.ty] at hty
      rw [hty] at hmeta
      rw [replaceSteps_metaArg e, Fresh.run_bind, Fresh.run_bind]
      exact mkApp_sound hmeta.1 (fun s hs => (ht.args s hs).mono (Nat.le_trans hle hle')) hmeta.2

/-- A replacement builds the terms around the new one when the types agree. -/
theorem attempt_replaceAt (t : Term) (p : Position) (new : Term) (n : Nat) :
    Fresh.attempt (t.replaceAt p new) n =
      match t.subtermAt p with
      | .error e => (.error (.index e), n)
      | .ok old =>
        if old.ty ≠ new.ty then (.error (.type (.mismatch old.ty new.ty)), n)
        else (.ok ((replaceSteps new p.steps t).run n).1, ((replaceSteps new p.steps t).run n).2) := by
  unfold replaceAt
  rw [Fresh.attempt_bind, Fresh.attempt_except]
  cases t.subtermAt p with
  | error e => rfl
  | ok old =>
    simp only [Except.mapError, Fresh.attempt_ite, Fresh.attempt_bind, Fresh.attempt_throw,
      Fresh.attempt_lift]

theorem attempt_replaceHeadAt (t : Term) (h : HeadPosition) (new : Term) (n : Nat) :
    Fresh.attempt (t.replaceHeadAt h new) n =
      match t.headSplit h with
      | .error e => (.error (.index e), n)
      | .ok (s, keep) =>
        let chopped := s.args.drop keep
        let expected := SimpleType.arrows (chopped.map ty) s.ty
        if expected ≠ new.ty then (.error (.type (.mismatch expected new.ty)), n)
        else
          let part := (new.mkApp chopped).run n
          let whole := (replaceSteps part.1 h.position.steps t).run part.2
          (.ok whole.1, whole.2) := by
  unfold replaceHeadAt
  rw [Fresh.attempt_bind, Fresh.attempt_except]
  cases t.headSplit h with
  | error e => rfl
  | ok p =>
    simp only [Except.mapError, Fresh.attempt_ite, Fresh.attempt_bind, Fresh.attempt_throw,
      Fresh.attempt_lift]

theorem replaceAt_eq_ok {p : Position} {new r : Term} {n' : Nat}
    (h : Fresh.attempt (t.replaceAt p new) n = (.ok r, n')) :
    ∃ old, t.descend? p.steps = some old ∧ old.ty = new.ty ∧
      (replaceSteps new p.steps t).run n = (r, n') := by
  rw [attempt_replaceAt] at h
  cases hsub : t.subtermAt p with
  | error e =>
    rw [hsub] at h
    cases h
  | ok old =>
    rw [hsub] at h
    dsimp only at h
    split at h
    · cases h
    · rename_i hty
      obtain ⟨rfl, rfl⟩ := h
      exact ⟨old, subtermAt_eq_ok hsub, not_not.mp hty, rfl⟩

theorem replaceAt_sound {p : Position} {new r : Term} {n' : Nat} (ht : Sound n t)
    (hnew : Sound n new) (h : Fresh.attempt (t.replaceAt p new) n = (.ok r, n')) :
    SoundAt n' t.ty r := by
  obtain ⟨old, hold, hty, hrun⟩ := replaceAt_eq_ok h
  have hsound := replaceSteps_sound p.steps ht hold ⟨hnew, hty.symm⟩
  rwa [hrun] at hsound

theorem replaceHeadAt_sound {h : HeadPosition} {new r : Term} {n' : Nat} (ht : Sound n t)
    (hnew : Sound n new) (e : Fresh.attempt (t.replaceHeadAt h new) n = (.ok r, n')) :
    SoundAt n' t.ty r := by
  rw [attempt_replaceHeadAt] at e
  cases hsplit : t.headSplit h with
  | error err =>
    rw [hsplit] at e
    cases e
  | ok sk =>
    obtain ⟨s, keep⟩ := sk
    have hs := (headSplit_eq_ok hsplit).1
    rw [hsplit] at e
    dsimp only at e
    split at e
    · cases e
    · rename_i hty
      obtain ⟨rfl, rfl⟩ := e
      have hold := descend?_sound _ ht hs
      have hle := increasing_mkApp new (s.args.drop keep) n
      have hpart := mkApp_sound hnew (fun u hu => hold.args u (List.mem_of_mem_drop hu))
        (not_not.mp hty).symm
      exact replaceSteps_sound h.position.steps (ht.mono hle) hs hpart

theorem rising_replaceAt (t : Term) (p : Position) (new : Term) :
    Fresh.Rising (t.replaceAt p new) := by
  refine (Fresh.rising_except _).bind fun old => .ite ?_ ?_
  · exact (Fresh.rising_throw _).bind fun _ => (increasing_replaceSteps new p.steps t).rising
  · exact (increasing_replaceSteps new p.steps t).rising

theorem rising_replaceHeadAt (t : Term) (h : HeadPosition) (new : Term) :
    Fresh.Rising (t.replaceHeadAt h new) := by
  have hreplace : ∀ args, Fresh.Rising (ε := ReplaceError) (do
      replaceSteps (← new.mkApp args) h.position.steps t) := fun args =>
    (increasing_mkApp new args).rising.bind fun part =>
      (increasing_replaceSteps part h.position.steps t).rising
  refine (Fresh.rising_except _).bind fun p => .ite ?_ (hreplace _)
  exact (Fresh.rising_throw _).bind fun _ => hreplace _

end TermAlgebra.Term
