import Mathlib
import TermAlgebra.Proofs.Candidates

/-!
# Steps of unification

A step keeps the solutions of a problem: it replaces an equation by equations with the same
solutions, binds a variable to what every solution gives it, or finds that there is none. Main
statements: `step_correct`, and that every step makes the problem smaller.
-/

namespace TermAlgebra

/-- A substitution in solved form: its keys are among `F`, and no key comes into an image. -/
structure Subst.Solved (F : OrderedSet Replaceable) (σ : Subst) : Prop where
  simple : σ.Simple
  key : ∀ r image, σ.get? r = some image → r ∈ F
  image : ∀ r image, σ.get? r = some image → ∀ q ∈ image.free, q ∈ F ∧ σ.get? q = none

theorem Subst.solved_empty (F : OrderedSet Replaceable) : Solved F ∅ :=
  ⟨simple_empty, fun _ _ h => (nomatch h), fun _ _ h => (nomatch h)⟩

namespace Unifier

open Term

/-- The substitution is absorbed, and the equations hold. -/
structure Solution (V : Valuation) (u : Unifier) : Prop where
  absorbs : V.Absorbs u.subst
  unifies : ∀ e ∈ u.equations, e.1.read V = e.2.read V

/-- The variables are those of the problem and the binders that were opened. -/
def Known (F : OrderedSet Replaceable) (locals : List Var) (t : Term) : Prop :=
  ∀ r ∈ t.free, r ∈ F ∨ ∃ z ∈ locals, r = .var z

/-- A problem over `F`, whose variables were drawn before `m`; binders have been opened since. -/
structure Invariant (F : OrderedSet Replaceable) (m n : Nat) (u : Unifier) : Prop where
  sound : u.Sound n
  solved : u.subst.Solved F
  equations : ∀ e ∈ u.equations, Known F u.locals e.1 ∧ Known F u.locals e.2
  locals : ∀ z ∈ u.locals, z.binder ∧ m ≤ z.id ∧ z.id < n

/-- A side of an equation under the substitution: no key is left in it. -/
structure Settled (F : OrderedSet Replaceable) (n : Nat) (u : Unifier) (t : Term) : Prop where
  sound : Term.Sound n t
  known : Known F u.locals t
  unbound : ∀ r ∈ t.free, u.subst.get? r = none

/-- The number of variables that are not bound yet. -/
def unbound (F : OrderedSet Replaceable) (σ : Subst) : Nat :=
  F.toList.countP fun r => (σ.get? r).isNone

/-- The size of both sides of an equation under a substitution. -/
def instanceSize (σ : Subst) (e : Term × Term) : Nat :=
  (readBefore σ e.1 .plain).size + (readBefore σ e.2 .plain).size

/-- The size of all equations under the substitution. -/
def load (u : Unifier) : Nat := (u.equations.map (instanceSize u.subst)).sum

/-- What a step from `u` has to come to: a problem with the same solutions and less to do. -/
def Progress.Correct (F : OrderedSet Replaceable) (m n : Nat) (u : Unifier) : Progress → Prop
  | solved => u.equations = []
  | clash => ∀ V : Valuation, V.Candidate m → ¬Solution V u
  | simpler u' => Invariant F m n u' ∧ u'.subst = u.subst ∧ load u' < load u ∧
      ∀ V : Valuation, V.Candidate m → (Solution V u' ↔ Solution V u)
  | bound u' => Invariant F m n u' ∧ unbound F u'.subst < unbound F u.subst ∧
      ∀ V : Valuation, V.Candidate m → (Solution V u' ↔ Solution V u)

variable {F : OrderedSet Replaceable} {V : Valuation} {m n : Nat} {u : Unifier}

theorem solution_cons {s t : Term} :
    Solution V { u with equations := (s, t) :: u.equations } ↔
      s.read V = t.read V ∧ Solution V u := by
  constructor
  · intro h
    exact ⟨h.unifies (s, t) (by simp), h.absorbs, fun e he => h.unifies e (by simp [he])⟩
  · rintro ⟨h, hu⟩
    refine ⟨hu.absorbs, fun e he => ?_⟩
    rcases List.mem_cons.mp he with rfl | he
    · exact h
    · exact hu.unifies e he

theorem Invariant.mono {k : Nat} (h : Invariant F m n u) (hk : n ≤ k) : Invariant F m k u := by
  refine ⟨h.sound.mono hk, h.solved, h.equations, fun z hz => ?_⟩
  obtain ⟨hbinder, hm, hn⟩ := h.locals z hz
  exact ⟨hbinder, hm, Nat.lt_of_lt_of_le hn hk⟩

theorem Settled.mono {k : Nat} {t : Term} (h : Settled F n u t) (hk : n ≤ k) : Settled F k u t :=
  ⟨h.sound.mono hk, h.known, h.unbound⟩

theorem Settled.part {s t : Term} (h : Settled F n u t) (hs : Term.Sound n s)
    (hfree : ∀ r ∈ s.free, r ∈ t.free) : Settled F n u s :=
  ⟨hs, fun r hr => h.known r (hfree r hr), fun r hr => h.unbound r (hfree r hr)⟩

/-- The two sides of the next equation, once the substitution has been applied. -/
theorem settled_instance {t : Term} (hu : Invariant F m n u) (ht : Term.Sound n t)
    (hknown : Known F u.locals t) :
    Settled F ((t.subst u.subst).run n).2 u ((t.subst u.subst).run n).1 := by
  have hfree : ∀ q ∈ ((t.subst u.subst).run n).1.free,
      (q ∈ F ∨ ∃ z ∈ u.locals, q = .var z) ∧ u.subst.get? q = none := by
    intro q hq
    rw [mem_free_instance_iff hu.sound.subst hu.solved.simple ht] at hq
    rcases hq with ⟨hq, hnone⟩ | ⟨r, _, image, e, hq⟩
    · exact ⟨hknown q hq, hnone⟩
    · have himage := hu.solved.image r image e q hq
      exact ⟨Or.inl himage.1, himage.2⟩
  exact ⟨(subst_sound hu.sound.subst ht).1, fun q hq => (hfree q hq).1, fun q hq => (hfree q hq).2⟩

/-- What occurs in a reading was drawn before the problem, or is a binder that was opened. -/
theorem occurs_of_known {t : Term} (hF : ∀ r ∈ F, r.id < m) (hu : Invariant F m n u)
    (ht : t.WellFormed) (hknown : Known F u.locals t) (hV : V.Candidate m) {q : Replaceable}
    (hq : (t.read V).occurs q) : q.id < m ∨ ∃ z ∈ u.locals, q = .var z := by
  obtain ⟨r, hr, hq⟩ := (occurs_read ht hV.rigid).mp hq
  rcases hknown r hr with hrF | ⟨z, hz, rfl⟩
  · exact Or.inl (hV.old r q (hF r hrF) hq)
  · have hbinder := (hu.locals z hz).1
    rw [show V.value (.var z) = .free z from read_binder hV hbinder] at hq
    exact Or.inr ⟨z, hz, hq⟩

theorem Settled.mem_of_solvable {r : Replaceable} (hu : Invariant F m n u)
    (h : Settled F n u r.toTerm) (hr : r.Solvable) :
    r ∈ F ∧ r.id < n ∧ u.subst.get? r = none := by
  have hfree : r ∈ r.toTerm.free := by simp
  refine ⟨?_, h.sound.idsBelow.1 r hfree, h.unbound r hfree⟩
  rcases h.known r hfree with hrF | ⟨z, hz, rfl⟩
  · exact hrF
  · rw [Replaceable.solvable_var, (hu.locals z hz).1] at hr
    cases hr

/-! ## Measures -/

theorem countP_lt_countP {α : Type} {p q : α → Bool} {a : α} {l : List α}
    (h : ∀ x ∈ l, p x → q x) (ha : a ∈ l) (hp : p a = false) (hq : q a) :
    l.countP p < l.countP q := by
  induction l with
  | nil => cases ha
  | cons b l ih =>
    have hl : ∀ x ∈ l, p x → q x := fun x hx => h x (by simp [hx])
    rw [List.countP_cons, List.countP_cons]
    rcases List.mem_cons.mp ha with rfl | ha
    · have hle := List.countP_mono_left hl
      rw [if_neg (by simp [hp]), if_pos hq]
      omega
    · have hlt := ih hl ha
      have hb := h b (by simp)
      by_cases hpb : p b
      · rw [if_pos hpb, if_pos (hb hpb)]
        omega
      · rw [if_neg hpb]
        split <;> omega

theorem unbound_lt {σ τ : Subst} {r : Replaceable} (h : ∀ q, τ.get? q = none → σ.get? q = none)
    (hr : r ∈ F) (hσ : σ.get? r = none) (hτ : τ.get? r ≠ none) : unbound F τ < unbound F σ := by
  refine countP_lt_countP (a := r) (fun q _ hq => ?_) hr ?_ ?_
  · rw [Option.isNone_iff_eq_none] at hq ⊢
    exact h q hq
  · rw [Option.isNone_eq_false_iff]
    exact Option.isSome_iff_ne_none.mpr hτ
  · rw [hσ]
    rfl

theorem Settled.instanceSize_eq {s t : Term} (hs : Settled F n u s) (ht : Settled F n u t) :
    instanceSize u.subst (s, t) = s.size + t.size := by
  rw [instanceSize, readBefore_of_unbound hs.sound.wf hs.unbound,
    readBefore_of_unbound ht.sound.wf ht.unbound, size_nameless, size_nameless]

theorem sum_instanceSize_zip {ss ts : List Term} (hlen : ss.length = ts.length)
    (hss : ∀ s ∈ ss, Settled F n u s) (hts : ∀ t ∈ ts, Settled F n u t) :
    ((ss.zip ts).map (instanceSize u.subst)).sum = sizeAll ss + sizeAll ts := by
  induction ss generalizing ts with
  | nil =>
    obtain rfl := List.length_eq_zero_iff.mp hlen.symm
    rfl
  | cons s ss ih =>
    cases ts with
    | nil => cases hlen
    | cons t ts =>
      have hst := (hss s (by simp)).instanceSize_eq (hts t (by simp))
      have hrest := ih (Nat.succ.inj hlen) (fun a ha => hss a (by simp [ha])) fun a ha =>
        hts a (by simp [ha])
      rw [List.zip_cons_cons, List.map_cons, List.sum_cons, hst, hrest, sizeAll, sizeAll]
      omega

theorem lookup_le_imageSize {es : List (Replaceable × Term)} {r : Replaceable} {t : Term}
    (h : es.lookup r = some t) : t.size ≤ imageSize es := by
  induction es with
  | nil => cases h
  | cons e es ih =>
    obtain ⟨q, s⟩ := e
    rw [Subst.lookup_cons] at h
    rw [imageSize]
    split at h
    · obtain rfl := Option.some.inj h
      exact Nat.le_max_left _ _
    · exact Nat.le_trans (ih h) (Nat.le_max_right _ _)

/-- A phase has more steps than its equations can take. -/
theorem load_lt_weight (hu : Invariant F m n u) : load u < u.weight := by
  let top := 1 + imageSize u.subst.entries
  have hvalue : ∀ r, ((Valuation.plain.comp u.subst).value r).size ≤ top := by
    intro r
    cases e : u.subst.get? r with
    | none =>
      rw [Subst.value_of_none e]
      cases r <;> exact Nat.le_add_right 1 _
    | some image =>
      have hle := lookup_le_imageSize e
      rw [Subst.value_of_some e (hu.sound.subst.image e).2.2.wf, size_nameless]
      exact Nat.le_trans hle (Nat.le_add_left _ 1)
  have hside : ∀ {t : Term}, t.WellFormed → (readBefore u.subst t .plain).size ≤ t.size * top :=
    fun ht => size_read_le ht hu.solved.simple.rigid (by omega) fun r _ => hvalue r
  have hall : ∀ es : List (Term × Term), (∀ e ∈ es, Term.Sound n e.1 ∧ Term.Sound n e.2) →
      (es.map (instanceSize u.subst)).sum ≤ equationsSize es * top := by
    intro es hes
    induction es with
    | nil => simp
    | cons e es ih =>
      obtain ⟨s, t⟩ := e
      obtain ⟨hs, ht⟩ := hes (s, t) (by simp)
      have hs := hside hs.wf
      have ht := hside ht.wf
      have hrest := ih fun e he => hes e (by simp [he])
      rw [List.map_cons, List.sum_cons, equationsSize, instanceSize, Nat.add_mul, Nat.add_mul]
      dsimp only at hs ht ⊢
      omega
  exact Nat.lt_succ_of_le (hall u.equations hu.sound.equations)

/-! ## Binding -/

section

variable {σ : Subst} {r : Replaceable} {t image : Term}

variable (hr : r.Solvable) (hid : r.id < n) (hty : r.ty = t.ty) (ht : Term.Sound n t)
  (himage : Term.Sound n image)

include hr hid hty ht himage

theorem mem_free_updateImage {q : Replaceable} (hq : q ∈ ((updateImage r t image).run n).1.free) :
    q ∈ image.free ∧ q ≠ r ∨ q ∈ t.free := by
  unfold updateImage at hq
  split at hq
  · rw [mem_free_instance_iff ((Subst.sound_empty n).set hid hty ht)
      (Subst.simple_empty.set hr t) himage] at hq
    rcases hq with ⟨hq, hnone⟩ | ⟨p, _, s, e, hq⟩
    · refine Or.inl ⟨hq, ?_⟩
      rintro rfl
      rw [Subst.get?_set_self] at hnone
      cases hnone
    · rw [Subst.get?_set] at e
      split at e
      · obtain rfl := Option.some.inj e
        exact Or.inr hq
      · cases e
  · rename_i hnot
    refine Or.inl ⟨hq, ?_⟩
    rintro rfl
    exact hnot (OrderedSet.contains_iff.mpr hq)

theorem read_updateImage (hV : V.Candidate m) (h : V.value r = t.read V) :
    ((updateImage r t image).run n).1.read V = image.read V := by
  unfold updateImage
  split
  · exact ((Valuation.absorbs_empty V).set h).read_instance hV.closed hV.rigid
      ((Subst.sound_empty n).set hid hty ht) (Subst.simple_empty.set hr t) himage
  · rfl

end

section

variable {r : Replaceable} {t : Term} (hu : Invariant F m n u) (hr : Settled F n u r.toTerm)
  (ht : Settled F n u t) (hsolvable : r.Solvable) (hty : r.ty = t.ty)

include hu hr ht hsolvable hty

theorem solved_bind [Iteration] (hnot : r ∉ t.free) (hlocal : ∀ z ∈ u.locals, .var z ∉ t.free) :
    ((updated u.subst r t n).set r t).Solved F := by
  obtain ⟨hrF, hid, hnone⟩ := hr.mem_of_solvable hu hsolvable
  have hsimple : (updated u.subst r t n).Simple := by
    intro q image' e
    obtain ⟨image, k, e₀, _⟩ := get?_updated e
    exact hu.solved.simple q image e₀
  have htfree : ∀ q ∈ t.free, q ∈ F ∧ u.subst.get? q = none ∧ q ≠ r := by
    intro q hq
    refine ⟨?_, ht.unbound q hq, fun e => hnot (e ▸ hq)⟩
    rcases ht.known q hq with hF | ⟨z, hz, rfl⟩
    · exact hF
    · exact absurd hq (hlocal z hz)
  have hnew : ∀ q, u.subst.get? q = none → q ≠ r →
      ((updated u.subst r t n).set r t).get? q = none := by
    intro q hq hqr
    rw [Subst.get?_set_of_ne _ hqr]
    exact get?_updated_eq_none.mpr hq
  refine ⟨hsimple.set hsolvable t, ?_, ?_⟩
  · intro q image' e
    by_cases hq : q = r
    · rwa [hq]
    · rw [Subst.get?_set_of_ne _ hq] at e
      obtain ⟨image, k, e₀, _⟩ := get?_updated e
      exact hu.solved.key q image e₀
  · intro q image' e p hp
    by_cases hq : q = r
    · rw [hq, Subst.get?_set_self] at e
      obtain rfl := Option.some.inj e
      obtain ⟨hpF, hpnone, hpr⟩ := htfree p hp
      exact ⟨hpF, hnew p hpnone hpr⟩
    · rw [Subst.get?_set_of_ne _ hq] at e
      obtain ⟨image, k, e₀, hk, rfl, _⟩ := get?_updated e
      have himage := (hu.sound.subst.image e₀).2.2
      rcases mem_free_updateImage hsolvable (Nat.lt_of_lt_of_le hid hk) hty (ht.sound.mono hk)
        (himage.mono hk) hp with ⟨hp, hpr⟩ | hp
      · obtain ⟨hpF, hpnone⟩ := hu.solved.image q image e₀ p hp
        exact ⟨hpF, hnew p hpnone hpr⟩
      · obtain ⟨hpF, hpnone, hpr⟩ := htfree p hp
        exact ⟨hpF, hnew p hpnone hpr⟩

theorem absorbs_bind_iff [Iteration] (hV : V.Candidate m) :
    V.Absorbs ((updated u.subst r t n).set r t) ↔ V.value r = t.read V ∧ V.Absorbs u.subst := by
  obtain ⟨_, hid, hnone⟩ := hr.mem_of_solvable hu hsolvable
  have hread : V.value r = t.read V → ∀ {q image k}, u.subst.get? q = some image → n ≤ k →
      ((updateImage r t image).run k).1.read V = image.read V := fun h q image k e hk =>
    read_updateImage hsolvable (Nat.lt_of_lt_of_le hid hk) hty (ht.sound.mono hk)
      ((hu.sound.subst.image e).2.2.mono hk) hV h
  constructor
  · intro h
    have hvalue := h r t (Subst.get?_set_self _ r t)
    refine ⟨hvalue, fun q image e => ?_⟩
    obtain ⟨k, hk, _, e'⟩ := exists_get?_updated (r := r) (t := t) (n := n) e
    have hqr : q ≠ r := by
      rintro rfl
      rw [hnone] at e
      cases e
    rw [h q _ ((Subst.get?_set_of_ne _ hqr t).trans e'), hread hvalue e hk]
  · rintro ⟨hvalue, h⟩
    refine Valuation.Absorbs.set (fun q image' e => ?_) hvalue
    obtain ⟨image, k, e₀, hk, rfl, _⟩ := get?_updated e
    rw [h q image e₀, hread hvalue e₀ hk]

/-- A variable is bound to what every solution gives it, unless it occurs there or an opened
binder does; then no solution gives it that. -/
theorem bind_correct [Iteration] (hF : ∀ q ∈ F, q.id < m) (hne : t ≠ r.toTerm) {e : Term × Term}
    (he : ∀ V : Valuation, e.1.read V = e.2.read V ↔ V.value r = t.read V) :
    ((u.bind r t).run n).1.Correct F m ((u.bind r t).run n).2
      { u with equations := e :: u.equations } := by
  obtain ⟨hrF, hid, hnone⟩ := hr.mem_of_solvable hu hsolvable
  have hsound := bind_sound hu.sound hid hty ht.sound
  unfold Unifier.bind at hsound ⊢
  split
  · rename_i hoccurs
    intro V hV hsolution
    refine value_ne_of_occurs ht.sound.wf hV (OrderedSet.contains_iff.mp hoccurs) hne ?_
    exact (he V).mp (solution_cons.mp hsolution).1
  · rename_i hoccurs
    split
    · rename_i hescape
      intro V hV hsolution
      have hvalue := (he V).mp (solution_cons.mp hsolution).1
      obtain ⟨z, hz, hlocal⟩ := List.any_eq_true.mp hescape
      have hmem : z ∈ u.locals := by simpa using hlocal
      obtain ⟨hbinder, hm, _⟩ := hu.locals z hmem
      have hocc : (t.read V).occurs (.var z) := by
        refine (occurs_read ht.sound.wf hV.rigid).mpr ⟨.var z, mem_freeVars.mp hz, ?_⟩
        rw [show V.value (.var z) = .free z from read_binder hV hbinder]
        rfl
      rw [← hvalue] at hocc
      exact Nat.not_lt.mpr hm (hV.old r _ (hF r hrF) hocc)
    · rename_i hescape
      rw [if_neg hoccurs, if_neg hescape] at hsound
      have hnot : r ∉ t.free := fun h => hoccurs (OrderedSet.contains_iff.mpr h)
      have hlocal : ∀ z ∈ u.locals, .var z ∉ t.free := fun z hz hfree =>
        hescape (List.any_eq_true.mpr ⟨z, mem_freeVars.mpr hfree, by simpa using hz⟩)
      have hle := increasing_updateImages r t u.subst.iterate n
      have hmono := hu.mono hle
      refine ⟨⟨hsound, solved_bind hu hr ht hsolvable hty hnot hlocal, hmono.equations,
        hmono.locals⟩, ?_, fun V hV => ?_⟩
      · refine unbound_lt (r := r) (fun q hq => ?_) hrF hnone ?_
        · by_cases hqr : q = r
          · rw [hqr]
            exact hnone
          · rw [← get?_updated_eq_none (r := r) (t := t) (n := n),
              ← Subst.get?_set_of_ne _ hqr t]
            exact hq
        · rw [Subst.get?_set_self]
          exact Option.some_ne_none t
      · rw [solution_cons, he V]
        have habsorbs := absorbs_bind_iff hu hr ht hsolvable hty hV
        constructor
        · intro h
          obtain ⟨hvalue, hold⟩ := habsorbs.mp h.absorbs
          exact ⟨hvalue, hold, h.unifies⟩
        · rintro ⟨hvalue, h⟩
          exact ⟨habsorbs.mpr ⟨hvalue, h.absorbs⟩, h.unifies⟩

end

/-! ## Decomposition -/

/-- New equations with less in them, perhaps over opened binders, in the place of an equation
that they have the solutions of. -/
theorem simpler_correct {k : Nat} {s t : Term} (zs : List Var) (es : List (Term × Term))
    (hu : Invariant F m n u) (hs : Settled F n u s) (ht : Settled F n u t) (hk : n ≤ k)
    (hzs : ∀ z ∈ zs, z.binder ∧ m ≤ z.id ∧ z.id < k)
    (hsettled : ∀ e ∈ es, Settled F k { u with locals := zs ++ u.locals } e.1 ∧
      Settled F k { u with locals := zs ++ u.locals } e.2)
    (hless : (es.map (instanceSize u.subst)).sum < s.size + t.size)
    (hiff : ∀ V : Valuation, V.Candidate m →
      (s.read V = t.read V ↔ ∀ e ∈ es, e.1.read V = e.2.read V)) :
    Progress.Correct F m k { u with equations := (s, t) :: u.equations }
      (.simpler { u with locals := zs ++ u.locals, equations := es ++ u.equations }) := by
  have hmono := hu.mono hk
  have hknown : ∀ {r : Term}, Known F u.locals r → Known F (zs ++ u.locals) r := by
    intro r hr q hq
    refine (hr q hq).imp_right ?_
    rintro ⟨z, hz, e⟩
    exact ⟨z, List.mem_append_right zs hz, e⟩
  refine ⟨⟨⟨hmono.sound.subst, fun e he => ?_⟩, hu.solved, fun e he => ?_, fun z hz => ?_⟩, rfl,
    ?_, fun V hV => ?_⟩
  · rcases List.mem_append.mp he with he | he
    · exact ⟨(hsettled e he).1.sound, (hsettled e he).2.sound⟩
    · exact hmono.sound.equations e he
  · rcases List.mem_append.mp he with he | he
    · exact ⟨(hsettled e he).1.known, (hsettled e he).2.known⟩
    · exact ⟨hknown (hu.equations e he).1, hknown (hu.equations e he).2⟩
  · rcases List.mem_append.mp hz with hz | hz
    · exact hzs z hz
    · exact hmono.locals z hz
  · rw [load, load, List.map_append, List.sum_append, List.map_cons, List.sum_cons]
    dsimp only
    rw [hs.instanceSize_eq ht]
    omega
  · rw [solution_cons, hiff V hV]
    constructor
    · intro h
      exact ⟨fun e he => h.unifies e (by simp [he]), h.absorbs,
        fun e he => h.unifies e (by simp [he])⟩
    · rintro ⟨hes, h⟩
      refine ⟨h.absorbs, fun e he => ?_⟩
      rcases List.mem_append.mp he with he | he
      · exact hes e he
      · exact h.unifies e he

theorem settled_zip {ss ts : List Term} (hss : ∀ a ∈ ss, Settled F n u a)
    (hts : ∀ b ∈ ts, Settled F n u b) :
    ∀ e ∈ (ss.zip ts).reverse, Settled F n u e.1 ∧ Settled F n u e.2 := by
  rintro ⟨a, b⟩ he
  have hmem := List.of_mem_zip (List.mem_reverse.mp he)
  exact ⟨hss a hmem.1, hts b hmem.2⟩

/-- The body of a settled abstraction with its binder opened. -/
theorem settled_renameVar {x z : Var} {body : Term} (hu : Invariant F m n u) {k : Nat}
    (h : Settled F n u (.lambda x body)) (hk : n ≤ k) (hz : n ≤ z.id) (hzk : z.id < k)
    (hty : z.ty = x.ty) :
    Settled F ((body.renameVar x z).run k).2 { u with locals := z :: u.locals }
      ((body.renameVar x z).run k).1 := by
  have hbody := h.sound.lambda.2.2.mono hk
  have hren := rename_spec body (fits_update hbody hzk hty)
  have hfree : ∀ q ∈ ((body.renameVar x z).run k).1.free,
      q = .var z ∨ q ∈ (Term.lambda x body).free := by
    intro q hq
    obtain ⟨p, hp, rfl⟩ := (hren.free q).mp hq
    cases p with
    | var v =>
      by_cases hvx : v = x
      · simp [Replaceable.rename, Renaming.update, hvx]
      · simp only [Replaceable.rename, Renaming.update, if_neg hvx, id]
        exact Or.inr (free_of_body hp (by simpa using hvx))
    | metaVar w => exact Or.inr (free_of_body (r := .metaVar w) hp (by simp))
  refine ⟨renameVar_sound hbody hzk hty, fun q hq => ?_, fun q hq => ?_⟩
  · rcases hfree q hq with rfl | hq
    · exact Or.inr ⟨z, by simp, rfl⟩
    · refine (h.known q hq).imp_right ?_
      rintro ⟨v, hv, e⟩
      exact ⟨v, by simp [hv], e⟩
  · rcases hfree q hq with rfl | hq
    · by_contra hne
      obtain ⟨image, e⟩ := Option.ne_none_iff_exists'.mp hne
      exact absurd (hu.sound.subst.image e).1 (Nat.not_lt.mpr hz)
    · exact h.unbound q hq

/-- What is drawn later occurs in no solution of a settled term. -/
theorem Settled.not_occurs {t : Term} (h : Settled F n u t) (hF : ∀ r ∈ F, r.id < m)
    (hmn : m ≤ n) (hu : Invariant F m n u) (hV : V.Candidate m) {z : Var} (hz : n ≤ z.id) :
    ¬(t.read V).occurs (.var z) := by
  intro hocc
  rcases occurs_of_known hF hu h.sound.wf h.known hV hocc with hlt | ⟨y, hy, e⟩
  · simp only [Replaceable.id] at hlt
    omega
  · obtain rfl := Replaceable.var.inj e
    exact absurd (hu.locals z hy).2.2 (Nat.not_lt.mpr hz)

theorem decompose_lambda_correct {x y : Var} {s t : Term} (hF : ∀ r ∈ F, r.id < m) (hmn : m ≤ n)
    (hu : Invariant F m n u) (hs : Settled F n u (.lambda x s)) (ht : Settled F n u (.lambda y t))
    (hty : (Term.lambda x s).ty = (Term.lambda y t).ty) :
    ((u.decompose (.lambda x s) (.lambda y t)).run n).1.Correct F m
      ((u.decompose (.lambda x s) (.lambda y t)).run n).2
      { u with equations := (.lambda x s, .lambda y t) :: u.equations } := by
  rw [Term.ty, Term.ty] at hty
  have hxy := (SimpleType.arrow.inj hty).1
  obtain ⟨_, hx, hsbody⟩ := hs.sound.lambda
  have htbody := ht.sound.lambda.2.2
  let z : Var := { x with id := n }
  let s' := ((s.renameVar x z).run (n + 1)).1
  let k := ((s.renameVar x z).run (n + 1)).2
  let t' := ((t.renameVar y z).run k).1
  have hk : n + 1 ≤ k := increasing_renameVar x z s (n + 1)
  have hnk : n ≤ k := Nat.le_of_succ_le hk
  have hk' : k ≤ ((t.renameVar y z).run k).2 := increasing_renameVar y z t k
  have hs' := settled_renameVar (z := z) hu hs (Nat.le_succ n) (Nat.le_refl n) (Nat.lt_succ_self n)
    rfl
  have ht' := settled_renameVar (z := z) hu ht hnk (Nat.le_refl n) hk hxy
  refine simpler_correct [z] [(s', t')] hu hs ht (Nat.le_trans hnk hk') ?_ ?_ ?_
    fun V hV => ?_
  · intro v hv
    rw [List.mem_singleton.mp hv]
    exact ⟨hx, hmn, Nat.lt_of_lt_of_le hk hk'⟩
  · intro e he
    rw [List.mem_singleton.mp he]
    exact ⟨hs'.mono hk', ht'⟩
  · have hnew : instanceSize u.subst (s', t') = s'.size + t'.size :=
      (hs'.mono hk').instanceSize_eq ht'
    have hssize : s'.size = s.size := size_renameVar x z s (n + 1)
    have htsize : t'.size = t.size := size_renameVar y z t k
    rw [List.map_singleton, List.sum_singleton, hnew, hssize, htsize, size_lambda, size_lambda]
    omega
  · have hreads : s'.read V = (s.read (V.under x)).relabel (Nameless.opening [z]) :=
      read_renameVar (hsbody.mono (Nat.le_succ n)) (Nat.lt_succ_self n) hx rfl hV
    have hreadt : t'.read V = (t.read (V.under y)).relabel (Nameless.opening [z]) :=
      read_renameVar (htbody.mono hnk) hk hx hxy hV
    have hnots : ¬(s.read (V.under x)).mentions z := by
      rw [← Nameless.occurs_var_iff]
      exact hs.not_occurs hF hmn hu hV (Nat.le_refl n)
    have hnott : ¬(t.read (V.under y)).mentions z := by
      rw [← Nameless.occurs_var_iff]
      exact ht.not_occurs hF hmn hu hV (Nat.le_refl n)
    -- the opened binder is new for both bodies, so they are the same if their openings are
    have hbody : s.read (V.under x) = t.read (V.under y) ↔ s'.read V = t'.read V := by
      rw [hreads, hreadt]
      refine ⟨fun h => by rw [h], Nameless.relabel_opening_injective (by simp) ?_ ?_⟩
      · simpa using hnots
      · simpa using hnott
    rw [Term.read, Term.read, hxy, Nameless.lambda.injEq, hbody]
    simp

theorem decompose_metaApp_correct {z w : MetaVar} {ss ts : List Term} (hu : Invariant F m n u)
    (hs : Settled F n u (.metaApp z ss)) (ht : Settled F n u (.metaApp w ts))
    (hsflex : (Term.metaApp z ss).flexible? = none)
    (htflex : (Term.metaApp w ts).flexible? = none) :
    ((u.decompose (.metaApp z ss) (.metaApp w ts)).run n).1.Correct F m
      ((u.decompose (.metaApp z ss) (.metaApp w ts)).run n).2
      { u with equations := (.metaApp z ss, .metaApp w ts) :: u.equations } := by
  obtain ⟨_, hss, hssSound⟩ := hs.sound.metaApp
  obtain ⟨_, hts, htsSound⟩ := ht.sound.metaApp
  have hiff : ∀ V : Valuation, V.Candidate m →
      ((Term.metaApp z ss).read V = (Term.metaApp w ts).read V ↔
        z = w ∧ ∀ e ∈ ss.zip ts, e.1.read V = e.2.read V) := fun V hV =>
    read_metaApp_eq_iff hV.rigid (inputs_of_flexible?_eq_none hsflex hss)
      (inputs_of_flexible?_eq_none htflex hts) hss hts
  unfold decompose
  dsimp only
  split
  · rename_i hzw
    have hlen : ss.length = ts.length := by
      have hmap : ss.map Term.ty = ts.map Term.ty := by rw [hss, hts, hzw]
      simpa using congrArg List.length hmap
    have hsettled : ∀ a ∈ ss, Settled F n u a := fun a ha =>
      hs.part (hssSound a ha) fun r hr => free_of_mem_metaApp ha hr
    have hsettled' : ∀ b ∈ ts, Settled F n u b := fun b hb =>
      ht.part (htsSound b hb) fun r hr => free_of_mem_metaApp hb hr
    refine simpler_correct [] _ hu hs ht (Nat.le_refl n) (by simp)
      (settled_zip hsettled hsettled') ?_ fun V hV => ?_
    · rw [List.map_reverse, List.sum_reverse, sum_instanceSize_zip hlen hsettled hsettled',
        size_metaApp, size_metaApp]
      omega
    · rw [hiff V hV]
      simp [hzw]
  · rename_i hzw
    intro V hV hsolution
    exact hzw ((hiff V hV).mp (solution_cons.mp hsolution).1).1

theorem size_headPart_le (t : Term) {i : Nat} (hi : i < t.args.length) :
    (t.headPart i).size + sizeAll (t.args.drop i) ≤ t.size ∧
      (i = 0 → (t.headPart i).size + sizeAll (t.args.drop i) < t.size) := by
  have hsplit := sizeAll_append (t.args.take i) (t.args.drop i)
  rw [List.take_append_drop] at hsplit
  cases t with
  | app h as =>
    rw [size_app]
    rcases headPart_cases (Term.app h as) i with ⟨hlen, _⟩ | ⟨rfl, e⟩ | ⟨hpos, _, e⟩
    · omega
    · rw [e]
      simp only [Term.args, Term.head, List.drop_zero]
      omega
    · rw [e, size_app]
      simp only [Term.args, Term.head] at hsplit ⊢
      omega
  | _ => simp [Term.args] at hi

/-- Applications are taken apart at the end of the shorter list of arguments. -/
theorem decompose_app_correct {s t : Term} (hu : Invariant F m n u) (hs : Settled F n u s)
    (ht : Settled F n u t) {i j : Nat} (hi : i < s.args.length) (hj : j < t.args.length)
    (hij : i = 0 ∨ j = 0) (hlen : (s.args.drop i).length = (t.args.drop j).length) :
    Progress.Correct F m n { u with equations := (s, t) :: u.equations }
      (.simpler { u with equations := ((s.args.drop i).zip (t.args.drop j)).reverse ++
        (s.headPart i, t.headPart j) :: u.equations }) := by
  have hargs : ∀ {r : Term} {l : Nat}, Settled F n u r → ∀ a ∈ r.args.drop l, Settled F n u a :=
    fun {r l} hr a ha => hr.part (hr.sound.args a (List.mem_of_mem_drop ha)) fun q hq =>
      mem_free_head_args.mpr (Or.inr ⟨a, List.mem_of_mem_drop ha, hq⟩)
  have hhead : ∀ {r : Term} (l : Nat), Settled F n u r → Settled F n u (r.headPart l) :=
    fun l hr => hr.part (headPart_sound hr.sound l) fun q hq => headPart_free hq
  have happend : ((s.args.drop i).zip (t.args.drop j)).reverse ++
      (s.headPart i, t.headPart j) :: u.equations =
        (((s.args.drop i).zip (t.args.drop j)).reverse ++ [(s.headPart i, t.headPart j)]) ++
          u.equations := by simp
  rw [happend]
  refine simpler_correct [] _ hu hs ht (Nat.le_refl n) (by simp) ?_ ?_ fun V hV => ?_
  · intro e he
    rcases List.mem_append.mp he with he | he
    · exact settled_zip (hargs hs) (hargs ht) e he
    · rw [List.mem_singleton.mp he]
      exact ⟨hhead i hs, hhead j ht⟩
  · have hs' := size_headPart_le s hi
    have ht' := size_headPart_le t hj
    rw [List.map_append, List.sum_append, List.map_reverse, List.sum_reverse,
      sum_instanceSize_zip hlen (hargs hs) (hargs ht), List.map_singleton, List.sum_singleton,
      (hhead i hs).instanceSize_eq (hhead j ht)]
    rcases hij with h | h
    · have hlt := hs'.2 h
      omega
    · have hlt := ht'.2 h
      omega
  · rw [read_eq_iff_of_headPart hs.sound.wf ht.sound.wf hV hlen]
    constructor
    · rintro ⟨hheads, hzip⟩ e he
      rcases List.mem_append.mp he with he | he
      · exact hzip e (List.mem_reverse.mp he)
      · rw [List.mem_singleton.mp he]
        exact hheads
    · intro h
      exact ⟨h (s.headPart i, t.headPart j) (by simp), fun e he => h e (by simp [he])⟩

theorem decompose_correct {s t : Term} (hF : ∀ r ∈ F, r.id < m) (hmn : m ≤ n)
    (hu : Invariant F m n u) (hs : Settled F n u s) (ht : Settled F n u t) (hty : s.ty = t.ty)
    (hsflex : s.flexible? = none) (htflex : t.flexible? = none)
    (halpha : s.alphaEquals t = false) :
    ((u.decompose s t).run n).1.Correct F m ((u.decompose s t).run n).2
      { u with equations := (s, t) :: u.equations } := by
  unfold decompose
  split
  · exact decompose_lambda_correct hF hmn hu hs ht hty
  · exact decompose_metaApp_correct hu hs ht hsflex htflex
  · rename_i hlambda hmeta
    dsimp only
    split
    · rename_i hmin
      have hargs : s.args = [] ∨ t.args = [] := by
        rw [← List.length_eq_zero_iff, ← List.length_eq_zero_iff]
        omega
      intro V hV hsolution
      exact read_ne_of_no_args hs.sound.wf ht.sound.wf hV hsflex htflex hargs hlambda hmeta halpha
        (solution_cons.mp hsolution).1
    · rename_i hmin
      refine decompose_app_correct hu hs ht (by omega) (by omega) (by omega) ?_
      rw [List.length_drop, List.length_drop]
      omega

/-! ## Steps -/

theorem advance_correct [Iteration] {s t : Term} (hF : ∀ r ∈ F, r.id < m) (hmn : m ≤ n)
    (hu : Invariant F m n u) (hs : Settled F n u s) (ht : Settled F n u t) :
    ((u.advance s t).run n).1.Correct F m ((u.advance s t).run n).2
      { u with equations := (s, t) :: u.equations } := by
  unfold advance
  split
  · rename_i hty
    intro V hV hsolution
    exact hty (hV.typed hs.sound ht.sound (solution_cons.mp hsolution).1)
  · rename_i hty
    have hty := not_not.mp hty
    split
    · rename_i halpha
      refine simpler_correct [] [] hu hs ht (Nat.le_refl n) (by simp) (by simp) ?_
        fun V hV => ?_
      · have hpos := s.size_pos
        simp only [List.map_nil, List.sum_nil]
        omega
      · have hread := read_congr_nameless hs.sound.wf ht.sound.wf hV.closed
          ((alphaEquals_iff s t).mp halpha)
        simp [hread]
    · rename_i halpha
      have hne : s.nameless ≠ t.nameless := fun e => halpha ((alphaEquals_iff s t).mpr e)
      split
      · rename_i r _ hflex
        obtain ⟨rfl, hsolvable⟩ := flexible?_eq_some hs.sound.wf hflex
        have hr := (flexible?_sound hs.sound hflex).2
        refine bind_correct hu hs ht hsolvable (hr.trans hty) hF ?_ fun V => ?_
        · rintro rfl
          exact hne rfl
        · rw [Valuation.read_toTerm]
      · rename_i r _ hflex
        obtain ⟨rfl, hsolvable⟩ := flexible?_eq_some ht.sound.wf hflex
        have hr := (flexible?_sound ht.sound hflex).2
        refine bind_correct hu ht hs hsolvable (hr.trans hty.symm) hF ?_ fun V => ?_
        · rintro rfl
          exact hne rfl
        · rw [Valuation.read_toTerm]
          exact eq_comm
      · rename_i hsflex htflex
        exact decompose_correct hF hmn hu hs ht hty hsflex htflex (by simpa using halpha)

theorem Progress.Correct.congr {u u' : Unifier} {p : Progress} (h : p.Correct F m n u)
    (hsubst : u'.subst = u.subst) (hload : load u' = load u) (hne : u.equations ≠ [])
    (hiff : ∀ V : Valuation, V.Candidate m → (Solution V u' ↔ Solution V u)) :
    p.Correct F m n u' := by
  cases p with
  | solved => exact absurd h hne
  | clash => exact fun V hV hsolution => h V hV ((hiff V hV).mp hsolution)
  | simpler v =>
    obtain ⟨hinv, hv, hlt, hsolutions⟩ := h
    refine ⟨hinv, hv.trans hsubst.symm, by omega, fun V hV => ?_⟩
    rw [hsolutions V hV, hiff V hV]
  | bound v =>
    obtain ⟨hinv, hlt, hsolutions⟩ := h
    refine ⟨hinv, by rwa [hsubst], fun V hV => ?_⟩
    rw [hsolutions V hV, hiff V hV]

theorem step_correct [Iteration] (hF : ∀ r ∈ F, r.id < m) (hmn : m ≤ n) (hu : Invariant F m n u) :
    (u.step.run n).1.Correct F m (u.step.run n).2 u := by
  obtain ⟨σ, locals, equations⟩ := u
  cases equations with
  | nil => exact rfl
  | cons e es =>
    obtain ⟨s, t⟩ := e
    obtain ⟨hs, ht⟩ := hu.sound.equations (s, t) (by simp)
    obtain ⟨hsknown, htknown⟩ := hu.equations (s, t) (by simp)
    have hrest : Invariant F m n ⟨σ, locals, es⟩ :=
      ⟨⟨hu.sound.subst, fun e he => hu.sound.equations e (List.mem_cons_of_mem _ he)⟩, hu.solved,
        fun e he => hu.equations e (List.mem_cons_of_mem _ he), hu.locals⟩
    let s' := ((s.subst σ).run n).1
    let k := ((s.subst σ).run n).2
    let t' := ((t.subst σ).run k).1
    have hk : n ≤ k := increasing_subst σ s n
    have hk' : k ≤ ((t.subst σ).run k).2 := increasing_subst σ t k
    have hσ : σ.Sound k := hu.sound.subst.mono hk
    have ht := ht.mono hk
    have hs' := (settled_instance hrest hs hsknown).mono hk'
    have ht' := settled_instance (hrest.mono hk) ht htknown
    have hstep := advance_correct hF (Nat.le_trans hmn (Nat.le_trans hk hk'))
      (hrest.mono (Nat.le_trans hk hk')) hs' ht'
    rw [step_cons rfl, Fresh.run_bind, Fresh.run_bind]
    refine hstep.congr rfl ?_ (List.cons_ne_nil _ _) fun V hV => ?_
    · have hssize : (readBefore σ s .plain).size = s'.size := by
        rw [← nameless_instance hu.sound.subst hs, size_nameless]
      have htsize : (readBefore σ t .plain).size = t'.size := by
        rw [← nameless_instance hσ ht, size_nameless]
      have hinstance : instanceSize σ (s', t') = s'.size + t'.size := hs'.instanceSize_eq ht'
      rw [load, load, List.map_cons, List.map_cons, List.sum_cons, List.sum_cons]
      change instanceSize σ (s, t) + _ = instanceSize σ (s', t') + _
      rw [hinstance, instanceSize, hssize, htsize]
    · have hreads (h : Solution V ⟨σ, locals, es⟩) :
          s.read V = t.read V ↔ s'.read V = t'.read V := by
        rw [h.absorbs.read_instance hV.closed hV.rigid hu.sound.subst hu.solved.simple hs,
          h.absorbs.read_instance hV.closed hV.rigid hσ hu.solved.simple ht]
      exact (solution_cons (u := ⟨σ, locals, es⟩)).trans
        ((and_congr_left hreads).trans (solution_cons (u := ⟨σ, locals, es⟩)).symm)

end Unifier

end TermAlgebra
