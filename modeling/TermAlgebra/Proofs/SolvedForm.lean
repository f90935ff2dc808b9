import TermAlgebra.Proofs.UnifierTermination

/-!
# Solved form

The substitution of the unifier is in solved form at every iteration: its keys can be solved and
come from the problem, as do the variables of its images, and no key comes into an image. Main
statement: so it is for every unifier that is found, and to apply it again changes nothing.
-/

namespace TermAlgebra

/-! ## Substitution goes by the images -/

section Images

variable {σ τ : Subst}

theorem Subst.affects_of_images (h : ∀ r, σ.get? r = τ.get? r) (t : Term) :
    σ.affects t = τ.affects t := by
  have hcontains : σ.contains = τ.contains := funext fun r => congrArg Option.isSome (h r)
  rw [affects, affects, hcontains]

theorem Subst.captures_of_images (h : ∀ r, σ.get? r = τ.get? r) (x : Var) (t : Term) :
    σ.captures x t = τ.captures x t := by
  rw [captures, captures, show σ.get? = τ.get? from funext h]

variable [Supply]

theorem Term.substBelow_of_images (onMeta : MetaVar → List Term → Fresh Term)
    (h : ∀ r, σ.get? r = τ.get? r) (bound : Nat) (t : Term) :
    substBelow onMeta bound σ t = substBelow onMeta bound τ t := by
  induction bound generalizing σ τ t with
  | zero => rfl
  | succ bound ih =>
    unfold substBelow
    rw [Subst.affects_of_images h]
    cases t with
    | literal v => rfl
    | const c => rfl
    | var x => simp only [h]
    | lambda x body =>
      have herase : ∀ r, (σ.erase (.var x)).get? r = (τ.erase (.var x)).get? r := by
        intro r
        rw [Subst.get?_erase, Subst.get?_erase, h]
      simp only [Subst.captures_of_images herase, ih herase]
    | app head args => simp only [ih h, Fresh.mapM_congr fun s _ => ih h s]
    | metaApp z args => simp only [Fresh.mapM_congr fun s _ => ih h s]

/-- Substitutions with the same images act alike. -/
theorem Term.subst_of_images (h : ∀ r, σ.get? r = τ.get? r) (t : Term) :
    t.subst σ = t.subst τ := by
  have hmeta : instantiateMeta σ = instantiateMeta τ := by
    funext z args
    unfold instantiateMeta
    rw [h]
  unfold subst substWith
  rw [hmeta, substBelow_of_images _ h]

end Images

/-! ## Instances -/

section Instances

variable [Supply] {σ : Subst} {F : OrderedSet Replaceable} {n : Nat}

theorem Replaceable.renumber_resumed {r : Replaceable} (hr : r.id < n) :
    r.renumber (Relocation.resumed n).toRenumbering = r := by
  rw [r.renumber_congr Relocation.resumed_agrees hr]
  cases r <;> rfl

theorem Subst.get?_renumber_resumed (h : σ.Sound n) (r : Replaceable) :
    (σ.renumber (Relocation.resumed n).toRenumbering).get? r = σ.get? r := by
  apply Option.ext
  intro image
  constructor
  · intro e
    obtain ⟨q, t, ht, rfl, rfl⟩ := exists_of_get?_renumber e
    obtain ⟨hid, _, hsound⟩ := h.image ht
    rwa [Replaceable.renumber_resumed hid, Relocation.renumber_resumed hsound.idsBelow]
  · intro e
    obtain ⟨hid, _, hsound⟩ := h.image e
    have hget := σ.get?_renumber (Relocation.resumed n).toRenumbering r
    rw [Replaceable.renumber_resumed hid, e] at hget
    rw [hget, Option.map_some, Relocation.renumber_resumed hsound.idsBelow]

/-- What is drawn after `n` is of no account for the keys in an instance. -/
theorem Subst.affects_instance (h : σ.Sound n) {t : Term} (ht : Term.Sound n t) :
    σ.affects ((t.subst σ).run n).1 = σ.affects ((@Term.subst .consecutive σ t).run n).1 := by
  have hmirror : ((@Term.subst .consecutive σ t).run n).1.renumber
      (Relocation.resumed n).toRenumbering = ((t.subst σ).run n).1 := by
    have hrun := (Term.mirrors_subst (σ.renumbered_renumber (Relocation.resumed n)) t n
      (Nat.le_refl n)).1
    rw [Relocation.renumber_resumed ht.idsBelow, Relocation.resumed_start] at hrun
    rw [← Term.subst_of_images (Subst.get?_renumber_resumed h) t]
    exact hrun
  rw [← hmirror, ← affects_of_images (get?_renumber_resumed h),
    (renumbered_renumber _ σ).affects_eq]

/-- An instance by a substitution in solved form is left as it is. -/
theorem Subst.Solved.subst_instance (hsolved : σ.Solved F) (h : σ.Sound n) {t : Term}
    (ht : Term.Sound n t) :
    Term.subst σ ((t.subst σ).run n).1 = pure ((t.subst σ).run n).1 := by
  refine Term.substWith_of_not_affects _ σ ?_
  rw [affects_instance h ht, Bool.eq_false_iff, ne_eq, affects_iff]
  rintro ⟨r, hr, hsome⟩
  have hnone : σ.get? r = none := by
    rcases (Term.mem_free_instance_iff h hsolved.simple ht).mp hr with
      ⟨_, hnone⟩ | ⟨q, _, image, hget, hr⟩
    · exact hnone
    · exact (hsolved.image q image hget r hr).2
  rw [hnone] at hsome
  cases hsome

end Instances

/-! ## Iterations -/

namespace Unifier

open Relation (ReflTransGen)

variable {F : OrderedSet Replaceable} {m : Nat}

theorem Valid.keeps [I : Iteration] {a b : Unifier × Nat} (hF : ∀ r ∈ F, r.id < m)
    (ha : Valid F m a) (h : ReflTransGen Iterates a b) : Valid F m b := by
  induction h with
  | refl => exact ha
  | tail _ hstep ih => exact (hstep.keeps hF ih).1

theorem Valid.unbound_le [I : Iteration] {a b : Unifier × Nat} (hF : ∀ r ∈ F, r.id < m)
    (ha : Valid F m a) (h : ReflTransGen Iterates a b) :
    unbound F b.1.subst ≤ unbound F a.1.subst := by
  induction h with
  | refl => exact Nat.le_refl _
  | tail hab hstep ih =>
    have hless := (hstep.keeps hF (ha.keeps hF hab)).2
    rcases Prod.Lex.toLex_lt_toLex.mp hless with hlt | ⟨heq, -⟩
    · exact hlt.le.trans ih
    · exact heq.le.trans ih

/-- A substitution does not come back once a variable is bound, so that a run goes through the
images of each substitution in one order. -/
theorem subst_ne_of_bound [I : Iteration] {u u' : Unifier} {n n' : Nat} {b : Unifier × Nat}
    (hF : ∀ r ∈ F, r.id < m) (ha : Valid F m (u, n)) (hbound : u.step.run n = (.bound u', n'))
    (h : ReflTransGen Iterates (u', n') b) : b.1.subst ≠ u.subst := by
  have hstep := step_correct hF ha.1 ha.2
  rw [hbound] at hstep
  have hless : unbound F u'.subst < unbound F u.subst := hstep.2.1
  have hle := (Iterates.keeps hF (.bound hbound) ha).1.unbound_le hF h
  intro heq
  rw [heq] at hle
  exact Nat.not_lt.mpr hle hless

theorem reaches_of_relocate {e : Relocation} [e.Increasing] {I : Iteration}
    {a b' : Unifier × Nat} (ha : e.start ≤ a.2)
    (h : ReflTransGen (@Iterates e.supply I) (relocate e a) b') :
    ∃ b, ReflTransGen (Iterates (I := I.along e)) a b ∧ e.start ≤ b.2 ∧ b' = relocate e b := by
  induction h with
  | refl => exact ⟨a, .refl, ha, rfl⟩
  | tail _ hstep ih =>
    obtain ⟨b, hab, hb, rfl⟩ := ih
    obtain ⟨c, hbc, hc, rfl⟩ := hstep.of_relocate hb
    exact ⟨c, hab.tail hbc, hc, rfl⟩

end Unifier

section Renumbered

variable [Supply] {σ : Subst} {F : OrderedSet Replaceable} {n : Nat}

/-- Identifiers that are drawn after those of the problem do not matter. -/
theorem Subst.Solved.renumber_resumed (hF : ∀ r ∈ F, r.id < n) (h : σ.Solved F) :
    (σ.renumber (Relocation.resumed n).toRenumbering).Solved F := by
  have hkey : ∀ r image, (σ.renumber (Relocation.resumed n).toRenumbering).get? r = some image →
      ∃ t, σ.get? r = some t ∧ t.renumber (Relocation.resumed n).toRenumbering = image := by
    intro r image e
    obtain ⟨q, t, ht, rfl, rfl⟩ := exists_of_get?_renumber e
    exact ⟨t, by rwa [Replaceable.renumber_resumed (hF q (h.key q t ht))], rfl⟩
  refine ⟨fun r image e => ?_, fun r image e => ?_, fun r image e q hq => ?_⟩
  · obtain ⟨t, ht, _⟩ := hkey r image e
    exact h.simple r t ht
  · obtain ⟨t, ht, _⟩ := hkey r image e
    exact h.key r t ht
  · obtain ⟨t, ht, rfl⟩ := hkey r image e
    obtain ⟨p, hp, rfl⟩ := (Term.mem_free_renumber _).mp hq
    obtain ⟨hpF, hnone⟩ := h.image r t ht p hp
    rw [Replaceable.renumber_resumed (hF p hpF)]
    refine ⟨hpF, Option.eq_none_iff_forall_ne_some.mpr fun image e => ?_⟩
    obtain ⟨t', ht', _⟩ := hkey p image e
    rw [hnone] at ht'
    cases ht'

end Renumbered

namespace Term

open Unifier
open Relation (ReflTransGen)

variable {s t : Term} {n : Nat}

theorem solved_of_iterations [Supply] [I : Iteration] (hs : Sound n s) (ht : Sound n t)
    {a : Unifier × Nat} (h : ReflTransGen Iterates (problem s t, n) a) :
    a.1.subst.Solved (s.free ∪ t.free) ∧ ∀ z ∈ a.1.locals, n ≤ z.id := by
  have hF := id_lt_of_mem_free_union hs ht
  rw [← relocate_problem hs ht] at h
  have hstart : (Relocation.resumed n).start ≤ n := Nat.le_refl n
  obtain ⟨b, hb, hstart', rfl⟩ := reaches_of_relocate (e := .resumed n) hstart h
  obtain ⟨_, hinv⟩ := (valid_problem hs ht).keeps (I := I.along (Relocation.resumed n)) hF hb
  refine ⟨hinv.solved.renumber_resumed hF, fun z hz => ?_⟩
  obtain ⟨y, hy, rfl⟩ := List.mem_map.mp hz
  calc n = (Relocation.resumed n).toFun n := Relocation.resumed_start.symm
    _ ≤ (Relocation.resumed n).toFun y.id :=
      (Relocation.resumed n).strictMono.monotone (hinv.locals y hy).2.1

/-- A unifier is in solved form, whatever identifiers were drawn to find it. -/
theorem solved_of_unify [Supply] [I : Iteration] {σ : Subst} {k : Nat} (hs : Sound n s)
    (ht : Sound n t) (h : (s.unify t).run n = (some σ, k)) :
    σ.Sound k ∧ σ.Solved (s.free ∪ t.free) := by
  obtain ⟨hresult, _, hnext⟩ := mirrors_unify (e := .resumed n) I s t n (Nat.le_refl n)
  have hrun : (@Term.unify (Relocation.resumed n).supply I
      (s.renumber (Relocation.resumed n).toRenumbering)
      (t.renumber (Relocation.resumed n).toRenumbering)).run ((Relocation.resumed n).toFun n) =
        (some σ, k) := by
    rw [Relocation.renumber_resumed hs.idsBelow, Relocation.renumber_resumed ht.idsBelow,
      Relocation.resumed_start]
    exact h
  rw [hrun] at hresult hnext
  rcases unify_correct (I := I.along (Relocation.resumed n)) hs ht with
    ⟨τ, e, hτ, hsolved, _⟩ | ⟨e, _⟩
  · rw [e] at hresult
    obtain rfl := Option.some.inj hresult
    obtain rfl : k = _ := hnext
    refine ⟨hτ.renumber fun i hi => (Relocation.resumed n).strictMono hi, ?_⟩
    exact hsolved.renumber_resumed (id_lt_of_mem_free_union hs ht)
  · rw [e] at hresult
    cases hresult

/-- The substitution is in solved form whenever the solver takes the next equation, and no binder
that was opened comes into an image; a unifier that is found is in solved form, and to apply it to
an instance changes nothing. -/
theorem unify_solved [Supply] [Iteration] (hs : Sound n s) (ht : Sound n t) :
    (∀ a, ReflTransGen Iterates (problem s t, n) a → a.1.subst.Solved (s.free ∪ t.free) ∧
      ∀ z ∈ a.1.locals, ∀ r image, a.1.subst.get? r = some image → .var z ∉ image.free) ∧
    ∀ σ k, (s.unify t).run n = (some σ, k) → σ.Solved (s.free ∪ t.free) ∧
      ∀ u i j, Sound i u → k ≤ i →
        ((((u.subst σ).run i).1.subst σ).run j).1.alphaEquals ((u.subst σ).run i).1 := by
  have hF := id_lt_of_mem_free_union hs ht
  constructor
  · intro a h
    obtain ⟨hsolved, hlocals⟩ := solved_of_iterations hs ht h
    refine ⟨hsolved, fun z hz r image hget hfree => ?_⟩
    have hlt := hF _ (hsolved.image r image hget _ hfree).1
    exact absurd (hlocals z hz) (Nat.not_le.mpr hlt)
  · intro σ k hrun
    obtain ⟨hσ, hsolved⟩ := solved_of_unify hs ht hrun
    refine ⟨hsolved, fun u i j hu hi => ?_⟩
    rw [hsolved.subst_instance (hσ.mono hi) hu, alphaEquals_iff]
    rfl

/-- In `λu.f(Y, X)` and `λw.f(b, f(Y, Y))` the image of `X` is found before that of `Y`, which then
comes into it. -/
theorem unify_solved_updated :
    let o := SimpleType.base "o"
    let x : Var := ⟨0, "X", o, false⟩
    let y : Var := ⟨1, "Y", o, false⟩
    let u : Var := ⟨2, "u", o, true⟩
    let w : Var := ⟨3, "w", o, true⟩
    let f := const ⟨"f", .arrow o (.arrow o o), false, none⟩
    let b := const ⟨"b", o, false, none⟩
    let s := lambda u (app f [var y, var x])
    let t := lambda w (app f [b, app f [var y, var y]])
    let σ := (Subst.set ∅ (.var x) (app f [b, b])).set (.var y) b
    let r := app f [var x, var y]
    (s.unify t).run 4 = (some σ, 5) ∧ σ.Solved (s.free ∪ t.free) ∧
      ((((r.subst σ).run 5).1.subst σ).run 5).1.alphaEquals ((r.subst σ).run 5).1 := by
  intro o x y u w f b s t σ r
  have happ : ∀ p q : Term, p.ty = o → q.ty = o → (app f [p, q]).bound = ∅ → Sound 4 p →
      Sound 4 q → Sound 4 (app f [p, q]) := by
    intro p q hp hq hbound hpsound hqsound
    refine sound_app ?_ rfl (by simp) ?_ hbound
    · simp [hpsound, hqsound, sound_const, f]
    · rw [List.map_cons, List.map_cons, hp, hq]
      cbv
  have hx : Sound 4 (var x) := sound_var (by decide)
  have hy : Sound 4 (var y) := sound_var (by decide)
  have hs : Sound 4 s :=
    sound_lambda (by decide) rfl (by cbv) (happ _ _ (by cbv) (by cbv) (by cbv) hy hx)
  have ht : Sound 4 t := by
    have hyy := happ _ _ (by cbv) (by cbv) (by cbv) hy hy
    exact sound_lambda (by decide) rfl (by cbv)
      (happ _ _ (by cbv) (by cbv) (by cbv) (sound_const 4 _) hyy)
  have hr : Sound 4 r := happ _ _ (by cbv) (by cbv) (by cbv) hx hy
  have hrun : (s.unify t).run 4 = (some σ, 5) := by
    dsimp +zetaDelta only
    cbv
  obtain ⟨hsolved, hagain⟩ := (unify_solved hs ht).2 σ 5 hrun
  exact ⟨hrun, hsolved, hagain r 5 5 (hr.mono (by decide)) (Nat.le_refl 5)⟩

end Term

end TermAlgebra
