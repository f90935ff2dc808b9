import TermAlgebra.Proofs.AlphaEquivalence
import TermAlgebra.Proofs.Counterparts

/-!
# Matches in step

Two matches of terms that differ in bound names only run in step: the binders that the one passes
correspond by their places to those that the other passes, and what both have found reads the
same. Main statement: `unnamed_term`.
-/

namespace TermAlgebra

theorem Var.id_le_of_lt {x y : Var} (h : compare x y = .lt) : x.id ≤ y.id := by
  by_contra hlt
  have hids : compare x.id y.id = .gt := Nat.compare_eq_gt.mpr (by omega)
  change cmp x y = .lt at h
  simp [cmp, compareLex, compareOn, hids] at h

namespace Term

theorem freeVars_sorted (t : Term) : t.freeVars.Pairwise fun x y => compare x y = .lt := by
  refine t.free.sorted.filterMap _ fun r s hrs x hx y hy => ?_
  cases r with
  | metaVar z => cases hx
  | var x' =>
    cases s with
    | metaVar z => cases hy
    | var y' =>
      cases hx
      cases hy
      exact hrs

/-- What is found first is not younger than anything else that could be found. -/
theorem id_le_of_find? {t : Term} {p : Var → Bool} {x y : Var} (h : t.freeVars.find? p = some x)
    (hy : .var y ∈ t.free) (hpy : p y) : x.id ≤ y.id := by
  obtain ⟨_, before, after, e, hbefore⟩ := List.find?_eq_some_iff_append.mp h
  have hmem := mem_freeVars.mpr hy
  have hsorted := t.freeVars_sorted
  rw [e] at hmem hsorted
  rcases List.mem_append.mp hmem with hmem | hmem
  · have hnot := hbefore y hmem
    rw [hpy] at hnot
    cases hnot
  · rcases List.mem_cons.mp hmem with rfl | hmem
    · exact Nat.le_refl y.id
    · have hafter := (List.pairwise_append.mp hsorted).2.1
      exact Var.id_le_of_lt ((List.pairwise_cons.mp hafter).1 y hmem)

end Term

namespace Matcher

open Term Nameless

/-! ## Runs in step -/

/-- Outcomes of one kind; what successful runs leave is related. -/
inductive Alike (R : Subst → Subst → Prop) :
    Except MatchError Unit × Subst → Except MatchError Unit × Subst → Prop where
  | ok {σ τ : Subst} : R σ τ → Alike R (.ok (), σ) (.ok (), τ)
  | mismatch (e e' : Mismatch) (σ τ : Subst) :
      Alike R (.error (.mismatch e), σ) (.error (.mismatch e'), τ)
  | pattern (e e' : PatternRequired) (σ τ : Subst) :
      Alike R (.error (.pattern e), σ) (.error (.pattern e'), τ)

/-- Runs that start related end alike. -/
def InStep (m n : Nat) (R : Subst → Subst → Prop) (f g : Matcher Unit) : Prop :=
  ∀ σ τ k l, m ≤ k → n ≤ l → σ.Sound k → τ.Sound l → R σ τ →
    Alike R (exec f σ k).1 (exec g τ l).1

variable {m n : Nat} {R : Subst → Subst → Prop} {σ τ : Subst}

theorem InStep.bind {f g : Matcher Unit} {f' g' : Unit → Matcher Unit} (h : InStep m n R f g)
    (hf : Keeps m f) (hg : Keeps n g) (h' : InStep m n R (f' ()) (g' ())) :
    InStep m n R (f >>= f') (g >>= g') := by
  intro σ τ k l hk hl hσ hτ hR
  have halike := h σ τ k l hk hl hσ hτ hR
  obtain ⟨hle, hleft⟩ := hf σ k hk hσ
  obtain ⟨hle', hright⟩ := hg τ l hl hτ
  rw [exec_bind, exec_bind]
  rcases e : exec f σ k with ⟨⟨r, σ'⟩, k'⟩
  rcases e' : exec g τ l with ⟨⟨r', τ'⟩, l'⟩
  rw [e] at halike hle hleft
  rw [e'] at halike hle' hright
  cases halike with
  | ok hR' => exact h' _ _ _ _ (Nat.le_trans hk hle) (Nat.le_trans hl hle') hleft hright hR'
  | mismatch d d' => exact .mismatch d d' _ _
  | pattern d d' => exact .pattern d d' _ _

theorem Alike.map {R' : Subst → Subst → Prop} {f g : Subst → Subst}
    {a b : Except MatchError Unit × Subst} (h : Alike R a b)
    (hR : ∀ σ τ, R σ τ → R' (f σ) (g τ)) : Alike R' (a.1, f a.2) (b.1, g b.2) := by
  cases h with
  | ok h => exact .ok (hR _ _ h)
  | mismatch e e' σ τ => exact .mismatch e e' _ _
  | pattern e e' σ τ => exact .pattern e e' _ _

theorem alike_ite {c c' : Prop} [Decidable c] [Decidable c'] (h : c ↔ c') (hR : R σ τ)
    (e e' : Mismatch) (k l : Nat) :
    Alike R (if c then ((Except.ok (), σ), k) else ((.error (.mismatch e), σ), k)).1
      (if c' then ((Except.ok (), τ), l) else ((.error (.mismatch e'), τ), l)).1 := by
  by_cases hc : c
  · rw [if_pos hc, if_pos (h.mp hc)]
    exact .ok hR
  · rw [if_neg hc, if_neg fun hc' => hc (h.mpr hc')]
    exact .mismatch e e' σ τ

/-- Comparisons with former images. -/
theorem alike_compare {r q : Replaceable} {image image' object object' : Term}
    (hr : σ.get? r = some image) (hq : τ.get? q = some image')
    (h : object.nameless = image.nameless ↔ object'.nameless = image'.nameless) (hR : R σ τ)
    (k l : Nat) : Alike R (exec (assign r object) σ k).1 (exec (assign q object') τ l).1 := by
  rw [exec_assign, exec_assign, hr, hq]
  refine alike_ite ?_ hR _ _ k l
  rw [alphaEquals_iff, alphaEquals_iff, eq_comm, h, eq_comm]

/-! ## Binders in scope -/

/-- The binders of the pattern in scope are mapped to those of the object, and no other image
contains a variable that the object binds. -/
structure Tracks (B : OrderedSet Var) (es : List (Var × Var)) (σ : Subst) : Prop where
  binders : ∀ x : Var, x.binder → σ.get? (.var x) = (es.lookup x).map Term.var
  images : ∀ r t, r.binder? = none → σ.get? r = some t → ∀ y ∈ B, ¬t.nameless.mentions y

variable {B C : OrderedSet Var} {es fs : List (Var × Var)} {x y : Var}

theorem tracks_empty (B : OrderedSet Var) : Tracks B [] ∅ :=
  ⟨fun _ _ => rfl, fun _ _ _ e => by cases e⟩

theorem Tracks.push (h : Tracks B es σ) (hx : x.binder) (y : Var) :
    Tracks B ((x, y) :: es) (σ.set (.var x) (.var y)) := by
  constructor
  · intro v hv
    by_cases hvx : v = x
    · subst hvx
      simp [σ.get?_set_self]
    · rw [σ.get?_set_of_ne (by simpa using hvx), h.binders v hv, List.lookup_cons,
        beq_false_of_ne hvx]
  · intro r t hr e
    rw [σ.get?_set_of_ne (Replaceable.ne_of_binder hx hr)] at e
    exact h.images r t hr e

theorem Tracks.pop (h : Tracks B es σ) (hx : x.binder) (h' : Tracks B ((x, y) :: es) τ) :
    Tracks B es (τ.update (.var x) (σ.get? (.var x))) := by
  constructor
  · intro v hv
    by_cases hvx : v = x
    · subst hvx
      rw [τ.get?_update_self, h.binders v hv]
    · rw [τ.get?_update_of_ne (by simpa using hvx), h'.binders v hv, List.lookup_cons,
        beq_false_of_ne hvx]
  · intro r t hr e
    rw [τ.get?_update_of_ne (Replaceable.ne_of_binder hx hr)] at e
    exact h'.images r t hr e

theorem Tracks.set (h : Tracks B es σ) {r : Replaceable} (hr : r.binder? = none) {t : Term}
    (ht : ∀ y ∈ B, ¬t.nameless.mentions y) : Tracks B es (σ.set r t) := by
  constructor
  · intro x hx
    rw [σ.get?_set_of_ne (Replaceable.ne_of_binder hx hr).symm, h.binders x hx]
  · intro q s hq e
    rw [Subst.get?_set] at e
    split at e
    · exact Option.some.inj e ▸ ht
    · exact h.images q s hq e

/-- What two runs in step have found. -/
structure Agree (B C : OrderedSet Var) (es fs : List (Var × Var)) (σ τ : Subst) : Prop where
  left : Tracks B es σ
  right : Tracks C fs τ
  images : ∀ r, r.binder? = none → (σ.get? r).map nameless = (τ.get? r).map nameless

theorem Agree.push (h : Agree B C es fs σ τ) {x' y' : Var} (hx : x.binder) (hx' : x'.binder) :
    Agree B C ((x, y) :: es) ((x', y') :: fs) (σ.set (.var x) (.var y))
      (τ.set (.var x') (.var y')) := by
  refine ⟨h.left.push hx y, h.right.push hx' y', fun r hr => ?_⟩
  rw [σ.get?_set_of_ne (Replaceable.ne_of_binder hx hr),
    τ.get?_set_of_ne (Replaceable.ne_of_binder hx' hr)]
  exact h.images r hr

theorem Agree.pop (h : Agree B C es fs σ τ) {x' y' : Var} (hx : x.binder) (hx' : x'.binder)
    {σ' τ' : Subst} (h' : Agree B C ((x, y) :: es) ((x', y') :: fs) σ' τ') :
    Agree B C es fs (σ'.update (.var x) (σ.get? (.var x)))
      (τ'.update (.var x') (τ.get? (.var x'))) := by
  refine ⟨h.left.pop hx h'.left, h.right.pop hx' h'.right, fun r hr => ?_⟩
  rw [σ'.get?_update_of_ne (Replaceable.ne_of_binder hx hr),
    τ'.get?_update_of_ne (Replaceable.ne_of_binder hx' hr)]
  exact h'.images r hr

theorem Agree.get?_eq_none (h : Agree B C es fs σ τ) {r : Replaceable} (hr : r.binder? = none)
    (e : σ.get? r = none) : τ.get? r = none := by
  have himages := h.images r hr
  rw [e] at himages
  exact Option.map_eq_none_iff.mp himages.symm

theorem Agree.images_of (h : Agree B C es fs σ τ) {r : Replaceable} (hr : r.binder? = none)
    {image : Term} (e : σ.get? r = some image) :
    ∃ image', τ.get? r = some image' ∧ image.nameless = image'.nameless := by
  have himages := h.images r hr
  rw [e] at himages
  obtain ⟨image', e', hsame⟩ := Option.map_eq_some_iff.mp himages.symm
  exact ⟨image', e', hsame.symm⟩

/-- An image that is new on both sides, or the same as before on both sides. -/
theorem Agree.assign (h : Agree B C es fs σ τ) {r : Replaceable} (hr : r.binder? = none)
    {object object' : Term} (hsame : object.nameless = object'.nameless)
    (hB : ∀ y ∈ B, ¬object.nameless.mentions y) (hC : ∀ y ∈ C, ¬object.nameless.mentions y)
    (k l : Nat) :
    Alike (Agree B C es fs) (exec (assign r object) σ k).1 (exec (assign r object') τ l).1 := by
  cases e : σ.get? r with
  | some image =>
    obtain ⟨image', e', himage⟩ := h.images_of hr e
    exact alike_compare e e' (by rw [hsame, himage]) h k l
  | none =>
    have e' := h.get?_eq_none hr e
    rw [exec_assign, exec_assign, e, e']
    refine .ok ⟨h.left.set hr hB, h.right.set hr (hsame ▸ hC), fun q hq => ?_⟩
    rw [Subst.get?_set, Subst.get?_set]
    split
    · rw [Option.map_some, Option.map_some, hsame]
    · exact h.images q hq

theorem lookup_eq_none_iff : es.lookup x = none ↔ x ∉ es.map Prod.fst := by
  simp only [List.lookup_eq_none_iff, List.mem_map, not_exists, not_and, bne_iff_ne]
  exact ⟨fun h e he hex => h e he hex.symm, fun h e he hxe => h e he hxe.symm⟩

theorem mem_of_lookup (h : es.lookup x = some y) : (x, y) ∈ es := by
  induction es with
  | nil => cases h
  | cons e es ih =>
    rw [List.lookup_cons] at h
    by_cases hx : x = e.1
    · rw [beq_iff_eq.mpr hx] at h
      obtain rfl := Option.some.inj h
      simp [hx]
    · rw [beq_false_of_ne hx] at h
      exact List.mem_cons_of_mem e (ih h)

theorem ofVar_of_lookup (hes : (es.map Prod.snd).Nodup) (h : es.lookup x = some y) :
    ofVar (es.map Prod.fst) x = ofVar (es.map Prod.snd) y := by
  have hidx : ∃ i, (es.map Prod.fst).idxOf? x = some i ∧ (es.map Prod.snd).idxOf? y = some i := by
    induction es with
    | nil => cases h
    | cons e es ih =>
      obtain ⟨hnew, hes⟩ := List.nodup_cons.mp hes
      rw [List.lookup_cons] at h
      by_cases hx : x = e.1
      · rw [beq_iff_eq.mpr hx] at h
        obtain rfl := Option.some.inj h
        exact ⟨0, by simp [List.idxOf?_cons, hx], by simp [List.idxOf?_cons]⟩
      · rw [beq_false_of_ne hx] at h
        obtain ⟨i, hi, hi'⟩ := ih hes h
        have hy : e.2 ≠ y := fun e' => hnew (e' ▸ List.mem_map_of_mem (mem_of_lookup h))
        refine ⟨i + 1, ?_, ?_⟩
        · simp [List.idxOf?_cons, Ne.symm hx, hi]
        · simp [List.idxOf?_cons, hy, hi']
  obtain ⟨i, hi, hi'⟩ := hidx
  rw [ofVar_eq_bound.mpr hi, ofVar_eq_bound.mpr hi']

theorem Tracks.get?_of_not_mem (h : Tracks B es σ) (hx : x ∉ es.map Prod.fst) (hbinder : x.binder) :
    σ.get? (.var x) = none := by
  rw [h.binders x hbinder, lookup_eq_none_iff.mpr hx, Option.map_none]

/-- A binder in scope is mapped to the binder at the same place. -/
theorem Tracks.exists_image (h : Tracks B es σ) (hes : (es.map Prod.snd).Nodup)
    (hbinder : x.binder) (hx : x ∈ es.map Prod.fst) :
    ∃ y, σ.get? (.var x) = some (.var y) ∧
      ofVar (es.map Prod.fst) x = ofVar (es.map Prod.snd) y := by
  obtain ⟨y, hy⟩ := Option.ne_none_iff_exists'.mp (mt lookup_eq_none_iff.mp (not_not.mpr hx))
  exact ⟨y, by rw [h.binders x hbinder, hy, Option.map_some], ofVar_of_lookup hes hy⟩

/-! ## Parallel problems -/

/-- A binder free in the object that none of the variables is. -/
def Dangles (vs : List Var) (object : Term) (y : Var) : Prop :=
  .var y ∈ object.free ∧ y.binder ∧ y ∉ vs

/-- The binder at the same place if there is one, and the binder itself otherwise. -/
def standIn (es : List (Var × Var)) (x : Var) : Var := (es.lookup x).getD x

/-- The binders that the arguments of a meta-variable stand for. -/
def standIns (es : List (Var × Var)) (args : List Term) : List Var :=
  args.filterMap fun t => t.binder?.map (standIn es)

/-- A match of a pattern with an object leads to a meta-application and a part of the object. The
pairs are the binders of both that it has passed. -/
inductive Meets : List (Var × Var) → Term → Term → List (Var × Var) → MetaVar → List Term → Term →
    Prop where
  | here {es z args object} : Meets es (.metaApp z args) object es z args object
  | body {es x y body objectBody es' z args part} :
      Meets ((x, y) :: es) body objectBody es' z args part →
        Meets es (.lambda x body) (.lambda y objectBody) es' z args part
  | head {es head as object es' z args part} :
      Meets es head (object.headPart (object.args.length - as.length)) es' z args part →
        Meets es (.app head as) object es' z args part
  | arg {es head as object p o es' z args part} : p ∈ as → o ∈ object.args →
      Meets es p o es' z args part → Meets es (.app head as) object es' z args part

/-- Where the match meets a meta-variable, a binder that dangles and is free in the whole object
hides none that is bound there: if any dangle that are bound, then the oldest is one of them. -/
def Unhidden (es : List (Var × Var)) (pattern object : Term) : Prop :=
  ∀ ⦃es' z args part⦄, Meets es pattern object es' z args part →
    (∃ y ∈ es'.map Prod.snd, Dangles (standIns es' args) part y) →
      ∀ v, Dangles (standIns es' args) part v → v ∉ es'.map Prod.snd →
        ∃ y ∈ es'.map Prod.snd, Dangles (standIns es' args) part y ∧ y.id < v.id

/-- A pattern and an object below binders, in a match whose object binds `B` in the end. No binder
that is free in the pattern is in `B`, and what is free in the object is not in `B`. -/
structure Placed (n : Nat) (B : OrderedSet Var) (es : List (Var × Var)) (pattern object : Term) :
    Prop where
  patternSound : Term.Sound n pattern
  isPattern : pattern.isPattern
  objectSound : Term.Sound n object
  binders : ∀ e ∈ es, e.1.binder ∧ e.2.binder ∧ e.2 ∈ B
  nodup : (es.map Prod.snd).Nodup
  bound : ∀ y ∈ object.bound, y ∈ B ∧ y ∉ es.map Prod.snd
  free : ∀ y, .var y ∈ object.free → y ∉ es.map Prod.snd → y ∉ B
  apart : ∀ x, .var x ∈ pattern.free → x.binder → x ∉ es.map Prod.fst → x ∉ B
  unhidden : Unhidden es pattern object

section

variable {pattern object : Term}

theorem Placed.binder_of_mem (h : Placed n B es pattern object) (hx : x ∈ es.map Prod.fst) :
    x.binder := by
  obtain ⟨e, he, rfl⟩ := List.mem_map.mp hx
  exact (h.binders e he).1

theorem Placed.mem_of_mem (h : Placed n B es pattern object) (hy : y ∈ es.map Prod.snd) :
    y.binder ∧ y ∈ B := by
  obtain ⟨e, he, rfl⟩ := List.mem_map.mp hy
  exact (h.binders e he).2

theorem Placed.part (h : Placed n B es pattern object) {p o : Term} (hp : Term.Sound n p)
    (hpattern : p.isPattern) (ho : Term.Sound n o) (hfree : ∀ r ∈ p.free, r ∈ pattern.free)
    (hfree' : ∀ r ∈ o.free, r ∈ object.free) (hbound : ∀ y ∈ o.bound, y ∈ object.bound)
    (hunhidden : Unhidden es p o) : Placed n B es p o where
  patternSound := hp
  isPattern := hpattern
  objectSound := ho
  binders := h.binders
  nodup := h.nodup
  bound y hy := h.bound y (hbound y hy)
  free y hy := h.free y (hfree' _ hy)
  apart x hx := h.apart x (hfree _ hx)
  unhidden := hunhidden

theorem Placed.head {head : Term} {args : List Term} (h : Placed n B es (.app head args) object) :
    Placed n B es head (object.headPart (object.args.length - args.length)) :=
  h.part h.patternSound.head (isPattern_app h.isPattern).1 (headPart_sound h.objectSound _)
    (fun _ hr => free_of_head hr) (fun _ hr => headPart_free hr) (fun _ hy => headPart_bound hy)
    fun _ _ _ _ hmeets => h.unhidden (.head hmeets)

theorem Placed.arg {head : Term} {args : List Term} (h : Placed n B es (.app head args) object)
    {p o : Term} (hp : p ∈ args) (ho : o ∈ object.args) : Placed n B es p o :=
  h.part (h.patternSound.args p hp) ((isPattern_app h.isPattern).2 p hp)
    (h.objectSound.args o ho) (fun _ hr => free_of_mem_app hp hr)
    (fun _ hr => mem_free_head_args.mpr (Or.inr ⟨o, ho, hr⟩))
    (fun _ hy => mem_bound_head_args.mpr (Or.inr ⟨o, ho, hy⟩))
    fun _ _ _ _ hmeets => h.unhidden (.arg hp ho hmeets)

theorem Placed.keeps (h : Placed n B es pattern object) (scope : Stack Var) :
    Keeps n (term scope pattern object) := keeps_term pattern h.patternSound h.objectSound

theorem Placed.body {body objectBody : Term}
    (h : Placed n B es (.lambda x body) (.lambda y objectBody)) :
    Placed n B ((x, y) :: es) body objectBody := by
  obtain ⟨_, hx, hbody⟩ := h.patternSound.lambda
  obtain ⟨_, hy, hobjectBody⟩ := h.objectSound.lambda
  have hyB := h.bound y (by simp)
  have once : y ∉ objectBody.bound := by
    cases h.objectSound.wf with
    | lambda _ once _ => exact once
  have hfree : ∀ {v x : Var} {t : Term}, .var v ∈ t.free → v ≠ x → .var v ∈ (Term.lambda x t).free :=
    fun hv hvx => free_of_body hv (by simpa using hvx)
  refine ⟨hbody, h.isPattern, hobjectBody, ?_, ?_, ?_, ?_, ?_, ?_⟩
  · simpa using ⟨⟨hx, hy, hyB.1⟩, fun a b hab => h.binders (a, b) hab⟩
  · exact List.nodup_cons.mpr ⟨hyB.2, h.nodup⟩
  · intro v hv
    obtain ⟨hvB, hvs⟩ := h.bound v (by simp [hv])
    refine ⟨hvB, ?_⟩
    rw [List.map_cons, List.mem_cons, not_or]
    exact ⟨fun e : v = y => once (e ▸ hv), hvs⟩
  · intro v hv hvs
    rw [List.map_cons, List.mem_cons, not_or] at hvs
    exact h.free v (hfree hv hvs.1) hvs.2
  · intro v hv hb hvs
    rw [List.map_cons, List.mem_cons, not_or] at hvs
    exact h.apart v (hfree hv hvs.1) hb hvs.2
  · exact fun _ _ _ _ hmeets => h.unhidden (.body hmeets)

end

theorem Placed.not_mentions {pattern object : Term} (h : Placed n B es pattern object)
    (hout : ∀ y ∈ es.map Prod.snd, ¬object.nameless.mentions y) :
    ∀ y ∈ B, ¬object.nameless.mentions y := fun y hy hm =>
  h.free y ((mentions_nameless h.objectSound.wf).mp hm) (fun hmem => hout y hmem hm) hy

theorem Placed.sound_set {body objectBody : Term} {k : Nat}
    (h : Placed n B es (.lambda x body) (.lambda y objectBody))
    (hty : (Term.lambda x body).ty = (Term.lambda y objectBody).ty) (hk : n ≤ k)
    (hσ : σ.Sound k) : (σ.set (.var x) (.var y)).Sound k :=
  sound_set_binder h.patternSound h.objectSound (binder_ty_eq hty) hk hσ

/-- Two problems that are equal up to the binders in scope, place by place. -/
structure Parallel (m n : Nat) (B C : OrderedSet Var) (es fs : List (Var × Var))
    (p q s t : Term) : Prop where
  left : Placed m B es p s
  right : Placed n C fs q t
  patterns : Twins (es.map Prod.fst) (fs.map Prod.fst) p q
  objects : Twins (es.map Prod.snd) (fs.map Prod.snd) s t

namespace Parallel

variable {p q s t : Term}

theorem symm (h : Parallel m n B C es fs p q s t) : Parallel n m C B fs es q p t s :=
  ⟨h.right, h.left, h.patterns.symm, h.objects.symm⟩

theorem object_iff (h : Parallel m n B C es fs p q s t) {u : Nameless}
    (hB : ∀ y ∈ B, ¬u.mentions y) (hC : ∀ y ∈ C, ¬u.mentions y) :
    s.nameless = u ↔ t.nameless = u := by
  refine h.objects.nameless_eq_iff h.left.objectSound.wf h.right.objectSound.wf ?_ ?_
  · exact fun y hy => hB y (h.left.mem_of_mem hy).2
  · exact fun y hy => hC y (h.right.mem_of_mem hy).2

end Parallel

theorem exists_find?_contains {t : Term} (ht : t.WellFormed) {ys : List Var} :
    (∃ y, t.freeVars.find? (Stack.mk ys).contains = some y) ↔ ∃ y ∈ ys, t.nameless.mentions y := by
  rw [← Option.isSome_iff_exists, List.find?_isSome]
  simp only [mem_freeVars, mentions_nameless ht, Stack.contains, decide_eq_true_eq]
  exact exists_congr fun y => and_comm

/-! ## Variables -/

section

variable {x' : Var} {s t : Term} (h : Parallel m n B C es fs (.var x) (.var x') s t)

include h

/-- Binders in scope are mapped to binders at one place. -/
theorem alike_var_of_mem (hx : x ∈ es.map Prod.fst) (hR : Agree B C es fs σ τ) (k l : Nat) :
    Alike (Agree B C es fs) (exec (var ⟨es.map Prod.snd⟩ x s) σ k).1
      (exec (var ⟨fs.map Prod.snd⟩ x' t) τ l).1 := by
  have hcorrespond : ofVar (es.map Prod.fst) x = ofVar (fs.map Prod.fst) x' := h.patterns.reading
  have hx' := (mem_iff_of_ofVar_eq hcorrespond).mp hx
  obtain ⟨y, hget, hy⟩ := hR.left.exists_image h.left.nodup (h.left.binder_of_mem hx) hx
  obtain ⟨y', hget', hy'⟩ := hR.right.exists_image h.right.nodup (h.right.binder_of_mem hx') hx'
  have hyy' : ofVar (es.map Prod.snd) y = ofVar (fs.map Prod.snd) y' := by
    rw [← hy, hcorrespond, hy']
  have hs := h.left.objectSound.wf
  have ht := h.right.objectSound.wf
  rw [exec_var_of_some hget, exec_var_of_some hget']
  exact alike_compare hget hget' ⟨h.objects.nameless_eq_free hs ht hyy',
    h.objects.symm.nameless_eq_free ht hs hyy'.symm⟩ hR k l

/-- Binders that are free in the pattern stand for themselves. -/
theorem alike_var_of_binder (hx : x ∉ es.map Prod.fst) (hbinder : x.binder)
    (hR : Agree B C es fs σ τ) (k l : Nat) :
    Alike (Agree B C es fs) (exec (var ⟨es.map Prod.snd⟩ x s) σ k).1
      (exec (var ⟨fs.map Prod.snd⟩ x' t) τ l).1 := by
  have hcorrespond : ofVar (es.map Prod.fst) x = ofVar (fs.map Prod.fst) x' := h.patterns.reading
  obtain rfl := eq_of_ofVar_eq hcorrespond hx
  have hx' : x' ∉ fs.map Prod.fst := mt (mem_iff_of_ofVar_eq hcorrespond).mpr hx
  have hget := hR.left.get?_of_not_mem hx hbinder
  have hget' := hR.right.get?_of_not_mem hx' hbinder
  have hB := h.left.apart x' (by simp) hbinder hx
  have hC := h.right.apart x' (by simp) hbinder hx'
  rw [exec_var_of_binder hget hbinder, exec_var_of_binder hget' hbinder]
  refine alike_ite ?_ hR _ _ k l
  rw [beq_var, beq_var]
  exact h.object_iff (fun y hy e => hB (e ▸ hy)) fun y hy e => hC (e ▸ hy)

/-- Nothing in scope is mapped to by a variable that is no binder. -/
theorem alike_var_of_plain (hbinder : x.binder = false) (hx : x ∉ es.map Prod.fst)
    (hR : Agree B C es fs σ τ) (k l : Nat) :
    Alike (Agree B C es fs) (exec (var ⟨es.map Prod.snd⟩ x s) σ k).1
      (exec (var ⟨fs.map Prod.snd⟩ x' t) τ l).1 := by
  have hcorrespond : ofVar (es.map Prod.fst) x = ofVar (fs.map Prod.fst) x' := h.patterns.reading
  obtain rfl := eq_of_ofVar_eq hcorrespond hx
  have hplain : Replaceable.binder? (.var x') = none := by simp [Replaceable.binder?, hbinder]
  cases e : σ.get? (.var x') with
  | some image =>
    obtain ⟨image', e', himage⟩ := hR.images_of hplain e
    rw [exec_var_of_some e, exec_var_of_some e']
    refine alike_compare e e' ?_ hR k l
    rw [← himage]
    refine h.object_iff (hR.left.images _ _ hplain e) ?_
    rw [himage]
    exact hR.right.images _ _ hplain e'
  | none =>
    have e' := hR.get?_eq_none hplain e
    rw [exec_var_of_plain e hbinder, exec_var_of_plain e' hbinder]
    have hs := h.left.objectSound.wf
    have ht := h.right.objectSound.wf
    have hescape := h.objects.exists_mentions_iff hs ht h.left.nodup h.right.nodup
    by_cases hin : ∃ y ∈ es.map Prod.snd, s.nameless.mentions y
    · obtain ⟨y, hy⟩ := (exists_find?_contains hs).mpr hin
      obtain ⟨y', hy'⟩ := (exists_find?_contains ht).mpr (hescape.mp hin)
      rw [hy, hy']
      exact .mismatch _ _ σ τ
    · have hfind := Option.eq_none_iff_forall_ne_some.mpr fun y hy =>
        hin ((exists_find?_contains hs).mp ⟨y, hy⟩)
      have hfind' := Option.eq_none_iff_forall_ne_some.mpr fun y hy =>
        hin (hescape.mpr ((exists_find?_contains ht).mp ⟨y, hy⟩))
      rw [hfind, hfind']
      have hout : ∀ y ∈ es.map Prod.snd, ¬s.nameless.mentions y := fun y hy hm => hin ⟨y, hy, hm⟩
      have hout' : ∀ y ∈ fs.map Prod.snd, ¬t.nameless.mentions y :=
        fun y hy hm => hin (hescape.mpr ⟨y, hy, hm⟩)
      have hsame : t.nameless = s.nameless := h.objects.nameless_eq_of_eq hs ht hout rfl
      refine hR.assign hplain hsame.symm (h.left.not_mentions hout) ?_ k l
      rw [← hsame]
      exact h.right.not_mentions hout'

end

/-! ## Meta-applications -/

theorem dangles_of_find? {vs : List Var} {object : Term} {y : Var}
    (h : object.freeVars.find? (fun v => v.binder && !vs.contains v) = some y) :
    Dangles vs object y := by
  have hy := List.find?_some h
  rw [Bool.and_eq_true] at hy
  exact ⟨mem_freeVars.mp (List.mem_of_find?_eq_some h), hy.1, by simpa using hy.2⟩

theorem exists_find?_of_dangles {vs : List Var} {object : Term} {y : Var}
    (hy : Dangles vs object y) :
    ∃ v, object.freeVars.find? (fun v => v.binder && !vs.contains v) = some v ∧
      ∀ u, Dangles vs object u → v.id ≤ u.id := by
  have hfound : ∀ u, Dangles vs object u → u.binder && !vs.contains u := by
    intro u hu
    simpa using hu.2
  have hsome : (object.freeVars.find? fun v => v.binder && !vs.contains v).isSome :=
    List.find?_isSome.mpr ⟨y, mem_freeVars.mpr hy.1, hfound y hy⟩
  obtain ⟨v, hv⟩ := Option.isSome_iff_exists.mp hsome
  exact ⟨v, hv, fun u hu => id_le_of_find? hv hu.1 (hfound u hu)⟩

section

variable {z : MetaVar} {args : List Term} {object : Term} {ys vs : List Var}
  (hvs : args.map (binderImage σ) = vs.map some) (hnodup : vs.Nodup)

include hvs hnodup

/-- If the oldest binders that dangle are in scope, the first one that is found is. -/
theorem exec_metaApp_of_inside (hin : ∃ y ∈ ys, Dangles vs object y)
    (hold : ∀ v, Dangles vs object v → v ∉ ys → ∃ y ∈ ys, Dangles vs object y ∧ y.id < v.id)
    (k : Nat) :
    ∃ e, exec (metaApp ⟨ys⟩ z args object) σ k = ((.error (.mismatch e), σ), k) := by
  obtain ⟨y, _, hy⟩ := hin
  obtain ⟨v, hfind, hle⟩ := exists_find?_of_dangles hy
  have hscope : (Stack.mk ys).contains v := by
    rw [Stack.contains, decide_eq_true_eq]
    by_contra hout
    obtain ⟨u, _, hu, hlt⟩ := hold v (dangles_of_find? hfind) hout
    exact absurd hlt (Nat.not_lt.mpr (hle u hu))
  have hrun := exec_metaApp_of_dangling ⟨ys⟩
    (exec_binders_ok hvs hnodup (.metaApp z args) k) hfind (by rw [hscope, Bool.true_or])
  rw [if_pos hscope] at hrun
  exact ⟨_, hrun⟩

theorem exec_metaApp_of_outside (hargs : args ≠ []) (hy : ∃ y, Dangles vs object y)
    (hout : ∀ y ∈ ys, ¬Dangles vs object y) (k : Nat) :
    ∃ e, exec (metaApp ⟨ys⟩ z args object) σ k = ((.error (.pattern e), σ), k) := by
  obtain ⟨y, hy⟩ := hy
  obtain ⟨v, hfind, _⟩ := exists_find?_of_dangles hy
  have hscope : ¬(Stack.mk ys).contains v := by
    rw [Stack.contains, decide_eq_true_eq]
    exact fun hmem => hout v hmem (dangles_of_find? hfind)
  have hrun := exec_metaApp_of_dangling ⟨ys⟩ (exec_binders_ok hvs hnodup (.metaApp z args) k)
    hfind (by simp [hargs])
  rw [if_neg hscope] at hrun
  exact ⟨_, hrun⟩

theorem exec_metaApp_of_not_dangles (hargs : args = [] ∨ ¬∃ y, Dangles vs object y)
    (hout : ∀ y ∈ ys, ¬Dangles vs object y) (k : Nat) :
    exec (metaApp ⟨ys⟩ z args object) σ k =
      exec (assign (.metaVar z) ((abstractOver vs object).run k).1) σ
        ((abstractOver vs object).run k).2 := by
  refine exec_metaApp_eq hvs hnodup ?_
  unfold leaves
  cases hfind : object.freeVars.find? fun v => v.binder && !vs.contains v with
  | none => rfl
  | some v =>
    have hv := dangles_of_find? hfind
    obtain rfl := hargs.resolve_right (not_not.mpr ⟨v, hv⟩)
    simpa [Stack.contains] using fun hmem => hout v hmem hv

end

theorem standIns_map {xs : List Var} (h : ∀ x ∈ xs, x.binder) :
    standIns es (xs.map Term.var) = xs.map (standIn es) := by
  rw [standIns, List.filterMap_map, ← List.filterMap_eq_map]
  exact List.filterMap_congr fun x hx => by simp [Term.binder?, h x hx]

theorem Tracks.binderImage_var {pattern object : Term} (h : Tracks B es σ)
    (hplaced : Placed n B es pattern object) (hbinder : x.binder) :
    binderImage σ (.var x) = some (standIn es x) := by
  have hget := h.binders x hbinder
  cases e : es.lookup x with
  | none =>
    rw [e, Option.map_none] at hget
    simp [binderImage, Term.binder?, hbinder, hget, standIn, e]
  | some y =>
    rw [e, Option.map_some] at hget
    have hy : y.binder := (hplaced.binders _ (mem_of_lookup e)).2.1
    simp [binderImage, Term.binder?, hbinder, hget, standIn, e, hy]

theorem Placed.ofVar_standIn {pattern object : Term} (h : Placed n B es pattern object)
    (hbinder : x.binder) (hx : .var x ∈ pattern.free) :
    ofVar (es.map Prod.snd) (standIn es x) = ofVar (es.map Prod.fst) x := by
  cases e : es.lookup x with
  | some y =>
    rw [standIn, e, Option.getD_some, ofVar_of_lookup h.nodup e]
  | none =>
    have hout := lookup_eq_none_iff.mp e
    have hout' : x ∉ es.map Prod.snd :=
      fun hmem => h.apart x hx hbinder hout (h.mem_of_mem hmem).2
    rw [standIn, e, Option.getD_none, ofVar_of_not_mem hout, ofVar_of_not_mem hout']

/-- The arguments of a meta-variable stand for distinct binders, at the places of the arguments. -/
theorem Tracks.map_binderImage {z : MetaVar} {args : List Term} {object : Term} (h : Tracks B es σ)
    (hplaced : Placed n B es (.metaApp z args) object) :
    args.map (binderImage σ) = (standIns es args).map some ∧
      (standIns es args).map (ofVar (es.map Prod.snd)) =
        args.map (namelessIn (es.map Prod.fst)) ∧ (standIns es args).Nodup := by
  obtain ⟨xs, rfl, hxs, hbinders⟩ := isPattern_metaApp hplaced.isPattern
  have hfree : ∀ x ∈ xs, .var x ∈ (Term.metaApp z (xs.map Term.var)).free := fun x hx =>
    free_of_mem_metaApp (List.mem_map_of_mem hx) (by simp)
  have hplaces : (xs.map (standIn es)).map (ofVar (es.map Prod.snd)) =
      xs.map (ofVar (es.map Prod.fst)) := by
    rw [List.map_map]
    exact List.map_congr_left fun x hx => hplaced.ofVar_standIn (hbinders x hx) (hfree x hx)
  have hnodup : ((xs.map (standIn es)).map (ofVar (es.map Prod.snd))).Nodup :=
    hplaces ▸ hxs.map (ofVar_injective (es.map Prod.fst))
  rw [standIns_map hbinders]
  refine ⟨?_, ?_, hnodup.of_map⟩
  · rw [List.map_map, List.map_map]
    exact List.map_congr_left fun x hx => h.binderImage_var hplaced (hbinders x hx)
  · rw [hplaces, List.map_map]
    rfl

/-- The image of a meta-variable reads as the object closed over what the arguments stand for. -/
theorem nameless_abstractOver {z : MetaVar} {args : List Term} {object : Term} {vs : List Var}
    {k : Nat} (hpattern : Term.Sound k (.metaApp z args)) (hobject : Term.Sound k object)
    (hσ : σ.Sound k) (hvs : args.map (binderImage σ) = vs.map some) :
    ((abstractOver vs object).run k).1.nameless =
      Nameless.lambdas z.inputs (namelessIn vs.reverse object) := by
  obtain ⟨_, fits, hargs⟩ := hpattern.metaApp
  obtain ⟨hbinders, htys⟩ := binderImages_sound hσ hargs hvs
  rw [abstractOver_nameless hobject hbinders, read_plain_unders hobject.wf, htys, fits]

theorem Placed.mem_of_mentions {pattern object : Term} {vs : List Var}
    (h : Placed n B es pattern object) (hout : ∀ y ∈ es.map Prod.snd, ¬Dangles vs object y) :
    ∀ y ∈ es.map Prod.snd, object.nameless.mentions y → y ∈ vs := by
  intro y hy hm
  by_contra hnot
  have hfree := (mentions_nameless h.objectSound.wf).mp hm
  exact hout y hy ⟨hfree, (h.mem_of_mem hy).1, hnot⟩

theorem Placed.not_mentions_closed {pattern object : Term} {vs : List Var}
    (h : Placed n B es pattern object) (hout : ∀ y ∈ es.map Prod.snd, ¬Dangles vs object y)
    (σs : List SimpleType) :
    ∀ y ∈ B, ¬(Nameless.lambdas σs (namelessIn vs.reverse object)).mentions y := by
  intro y hy hm
  rw [mentions_lambdas, namelessIn_eq h.objectSound.wf] at hm
  obtain ⟨hm, hnot⟩ := mentions_of_closing hm
  have hfree := (mentions_nameless h.objectSound.wf).mp hm
  refine h.free y hfree (fun hmem => hnot ?_) hy
  exact List.mem_reverse.mpr (h.mem_of_mentions hout y hmem hm)

namespace Parallel

variable {p q s t : Term} {us vs : List Var}

theorem exists_dangles (h : Parallel m n B C es fs p q s t)
    (huv : us.map (ofVar (es.map Prod.snd)) = vs.map (ofVar (fs.map Prod.snd)))
    (hx : Dangles us s x) :
    ∃ y, Dangles vs t y ∧ (x ∈ es.map Prod.snd ↔ y ∈ fs.map Prod.snd) := by
  have hs := h.left.objectSound.wf
  have ht := h.right.objectSound.wf
  obtain ⟨y, hxy, hy⟩ := h.objects.exists_mentions hs ht h.right.nodup
    ((mentions_nameless hs).mpr hx.1)
  have hmem := mem_iff_of_ofVar_eq hxy
  refine ⟨y, ⟨(mentions_nameless ht).mp hy, ?_, fun hyv => ?_⟩, hmem⟩
  · by_cases hin : x ∈ es.map Prod.snd
    · exact (h.right.mem_of_mem (hmem.mp hin)).1
    · rw [eq_of_ofVar_eq hxy hin]
      exact hx.2.1
  · obtain ⟨u, hu, hux⟩ := List.mem_map.mp (huv ▸ List.mem_map_of_mem hyv)
    obtain rfl := ofVar_injective _ (hux.trans hxy.symm)
    exact hx.2.2 hu

theorem dangles_iff (h : Parallel m n B C es fs p q s t)
    (huv : us.map (ofVar (es.map Prod.snd)) = vs.map (ofVar (fs.map Prod.snd))) :
    ((∃ x, Dangles us s x) ↔ ∃ y, Dangles vs t y) ∧
      ((∃ x ∈ es.map Prod.snd, Dangles us s x) ↔ ∃ y ∈ fs.map Prod.snd, Dangles vs t y) := by
  refine ⟨⟨?_, ?_⟩, ⟨?_, ?_⟩⟩
  · rintro ⟨x, hx⟩
    obtain ⟨y, hy, _⟩ := h.exists_dangles huv hx
    exact ⟨y, hy⟩
  · rintro ⟨y, hy⟩
    obtain ⟨x, hx, _⟩ := h.symm.exists_dangles huv.symm hy
    exact ⟨x, hx⟩
  · rintro ⟨x, hmem, hx⟩
    obtain ⟨y, hy, hiff⟩ := h.exists_dangles huv hx
    exact ⟨y, hiff.mp hmem, hy⟩
  · rintro ⟨y, hmem, hy⟩
    obtain ⟨x, hx, hiff⟩ := h.symm.exists_dangles huv.symm hy
    exact ⟨x, hiff.mp hmem, hx⟩

/-- Closed over what corresponding arguments stand for, the objects read the same. -/
theorem closed_eq (h : Parallel m n B C es fs p q s t)
    (huv : us.map (ofVar (es.map Prod.snd)) = vs.map (ofVar (fs.map Prod.snd)))
    (hout : ∀ x ∈ es.map Prod.snd, ¬Dangles us s x) :
    namelessIn us.reverse s = namelessIn vs.reverse t := by
  refine h.objects.namelessIn_eq_of_covers h.left.objectSound.wf h.right.objectSound.wf
    h.right.nodup (by rw [List.map_reverse, List.map_reverse, huv]) fun x hx hm => ?_
  exact List.mem_reverse.mpr (h.left.mem_of_mentions hout x hx hm)

end Parallel

theorem inStep_metaApp {z : MetaVar} {as bs : List Term} {s t : Term}
    (h : Parallel m n B C es fs (.metaApp z as) (.metaApp z bs) s t) :
    InStep m n (Agree B C es fs) (metaApp ⟨es.map Prod.snd⟩ z as s)
      (metaApp ⟨fs.map Prod.snd⟩ z bs t) := by
  intro σ τ k l hk hl hσ hτ hR
  obtain ⟨hus, husas, hunodup⟩ := hR.left.map_binderImage h.left
  obtain ⟨hvs, hvsbs, hvnodup⟩ := hR.right.map_binderImage h.right
  set us := standIns es as
  set vs := standIns fs bs
  have hargs : as.map (namelessIn (es.map Prod.fst)) = bs.map (namelessIn (fs.map Prod.fst)) := by
    rw [← namelessAllIn_eq_map, ← namelessAllIn_eq_map]
    exact (Nameless.metaApp.inj h.patterns.reading).2
  have huv : us.map (ofVar (es.map Prod.snd)) = vs.map (ofVar (fs.map Prod.snd)) := by
    rw [husas, hargs, hvsbs]
  have hlen : as.length = bs.length := by simpa using congrArg List.length hargs
  have hempty : as = [] ↔ bs = [] := by
    rw [← List.length_eq_zero_iff, ← List.length_eq_zero_iff, hlen]
  obtain ⟨hsome, hinside⟩ := h.dangles_iff huv
  by_cases hin : ∃ x ∈ es.map Prod.snd, Dangles us s x
  · obtain ⟨e, he⟩ := exec_metaApp_of_inside hus hunodup hin (h.left.unhidden .here hin) k
    obtain ⟨e', he'⟩ := exec_metaApp_of_inside hvs hvnodup (hinside.mp hin)
      (h.right.unhidden .here (hinside.mp hin)) l
    rw [he, he']
    exact .mismatch e e' σ τ
  have hout : ∀ x ∈ es.map Prod.snd, ¬Dangles us s x := fun x hx hd => hin ⟨x, hx, hd⟩
  have hout' : ∀ y ∈ fs.map Prod.snd, ¬Dangles vs t y :=
    fun y hy hd => hin (hinside.mpr ⟨y, hy, hd⟩)
  by_cases hviolates : as ≠ [] ∧ ∃ x, Dangles us s x
  · obtain ⟨hne, hdangles⟩ := hviolates
    obtain ⟨e, he⟩ := exec_metaApp_of_outside hus hunodup hne hdangles hout k
    obtain ⟨e', he'⟩ := exec_metaApp_of_outside hvs hvnodup (mt hempty.mpr hne) (hsome.mp hdangles)
      hout' l
    rw [he, he']
    exact .pattern e e' σ τ
  · have hnone : as = [] ∨ ¬∃ x, Dangles us s x := by
      rw [not_and_or, not_not] at hviolates
      exact hviolates
    have hnone' : bs = [] ∨ ¬∃ y, Dangles vs t y := hnone.imp hempty.mp (mt hsome.mpr)
    rw [exec_metaApp_of_not_dangles hus hunodup hnone hout,
      exec_metaApp_of_not_dangles hvs hvnodup hnone' hout']
    have himage := nameless_abstractOver (h.left.patternSound.mono hk) (h.left.objectSound.mono hk)
      hσ hus
    have himage' := nameless_abstractOver (h.right.patternSound.mono hl)
      (h.right.objectSound.mono hl) hτ hvs
    have hclosed := h.closed_eq huv hout
    refine hR.assign rfl (by rw [himage, himage', hclosed]) ?_ ?_ _ _
    · rw [himage]
      exact h.left.not_mentions_closed hout z.inputs
    · rw [himage, hclosed]
      exact h.right.not_mentions_closed hout' z.inputs

/-! ## Terms -/

/-- Every match with the pattern runs in step with its parallels. -/
def Unnamed (m n : Nat) (B C : OrderedSet Var) (p : Term) : Prop :=
  ∀ ⦃es fs : List (Var × Var)⦄ ⦃q s t : Term⦄, Parallel m n B C es fs p q s t →
    InStep m n (Agree B C es fs) (term ⟨es.map Prod.snd⟩ p s) (term ⟨fs.map Prod.snd⟩ q t)

theorem inStep_of_ty {p q s t : Term} {scope scope' : Stack Var} (hpq : p.ty = q.ty)
    (hst : s.ty = t.ty)
    (h : p.ty = s.ty → q.ty = t.ty → InStep m n R (term scope p s) (term scope' q t)) :
    InStep m n R (term scope p s) (term scope' q t) := by
  by_cases hty : p.ty = s.ty
  · exact h hty (by rw [← hpq, hty, hst])
  · intro σ τ k l _ _ _ _ _
    rw [exec_term_of_ty_ne hty, exec_term_of_ty_ne (by rwa [← hpq, ← hst])]
    exact .mismatch _ _ σ τ

theorem unnamed_lambda {x : Var} {body : Term} (ih : Unnamed m n B C body) :
    Unnamed m n B C (.lambda x body) := by
  intro es fs q s t h
  refine inStep_of_ty h.patterns.ty_eq h.objects.ty_eq fun hty hty' => ?_
  intro σ τ k l hk hl hσ hτ hR
  obtain ⟨x', body', rfl, _, hbody⟩ := h.patterns.lambda
  cases hs : s.lambda? with
  | none =>
    have ht := h.objects.symm.lambda?_eq_none hs
    rw [exec_term_lambda_of_not hty hs, exec_term_lambda_of_not hty' ht]
    exact .mismatch _ _ σ τ
  | some _ =>
    cases s with
    | lambda y c =>
      obtain ⟨y', c', rfl, _, hobject⟩ := h.objects.lambda
      have hinner : Parallel m n B C ((x, y) :: es) ((x', y') :: fs) body body' c c' :=
        ⟨h.left.body, h.right.body, hbody, hobject⟩
      have hx := h.left.patternSound.lambda.2.1
      have hx' := h.right.patternSound.lambda.2.1
      have halike := ih hinner _ _ k l hk hl (h.left.sound_set hty hk hσ)
        (h.right.sound_set hty' hl hτ) (hR.push hx hx')
      rw [exec_term_lambda hty, exec_term_lambda hty']
      exact halike.map fun σ' τ' hR' => hR.pop hx hx' hR'
    | _ => cases hs

theorem inStep_terms {ps qs ss ts : List Term}
    (hpq : List.Forall₂ (Twins (es.map Prod.fst) (fs.map Prod.fst)) ps qs)
    (hst : List.Forall₂ (Twins (es.map Prod.snd) (fs.map Prod.snd)) ss ts)
    (hleft : ∀ p ∈ ps, ∀ s ∈ ss, Placed m B es p s)
    (hright : ∀ q ∈ qs, ∀ t ∈ ts, Placed n C fs q t) (ih : ∀ p ∈ ps, Unnamed m n B C p) :
    InStep m n (Agree B C es fs) (terms ⟨es.map Prod.snd⟩ ps ss)
      (terms ⟨fs.map Prod.snd⟩ qs ts) := by
  induction hpq generalizing ss ts with
  | nil =>
    intro σ τ k l _ _ _ _ hR
    rw [terms_nil_left, terms_nil_left]
    exact .ok hR
  | @cons p q ps qs hpq hpqs ihs =>
    cases hst with
    | nil =>
      intro σ τ k l _ _ _ _ hR
      exact .ok hR
    | @cons s t ss ts hst hsts =>
      have hrest := ihs hsts (fun p' hp s' hs => hleft p' (by simp [hp]) s' (by simp [hs]))
        (fun q' hq t' ht => hright q' (by simp [hq]) t' (by simp [ht]))
        fun p' hp => ih p' (by simp [hp])
      have hlast := ih p (by simp) ⟨hleft p (by simp) s (by simp), hright q (by simp) t (by simp),
        hpq, hst⟩
      have hkeeps : Keeps m (terms ⟨es.map Prod.snd⟩ ps ss) :=
        keeps_terms fun p' hp s' hs => (hleft p' (by simp [hp]) s' (by simp [hs])).keeps _
      have hkeeps' : Keeps n (terms ⟨fs.map Prod.snd⟩ qs ts) :=
        keeps_terms fun q' hq t' ht => (hright q' (by simp [hq]) t' (by simp [ht])).keeps _
      intro σ τ k l hk hl hσ hτ hR
      rw [exec_terms_cons, exec_terms_cons]
      exact hrest.bind hkeeps hkeeps' hlast σ τ k l hk hl hσ hτ hR

theorem unnamed_app {head : Term} {args : List Term} (ih : Unnamed m n B C head)
    (ihs : ∀ p ∈ args, Unnamed m n B C p) : Unnamed m n B C (.app head args) := by
  intro es fs q s t h
  refine inStep_of_ty h.patterns.ty_eq h.objects.ty_eq fun hty hty' => ?_
  intro σ τ k l hk hl hσ hτ hR
  obtain ⟨head', args', rfl, hhead, hargs⟩ := h.patterns.app
  obtain ⟨_, hobjects⟩ := h.objects.head_args
  rw [exec_term_app hty, exec_term_app hty', ← hargs.length_eq, ← hobjects.length_eq]
  split
  · exact .mismatch _ _ σ τ
  · let i := s.args.length - args.length
    have hterms : InStep m n (Agree B C es fs) (terms ⟨es.map Prod.snd⟩ args (s.args.drop i))
        (terms ⟨fs.map Prod.snd⟩ args' (t.args.drop i)) :=
      inStep_terms hargs (List.forall₂_drop i hobjects)
        (fun p hp o ho => h.left.arg hp (List.mem_of_mem_drop ho))
        (fun p hp o ho => h.right.arg hp (List.mem_of_mem_drop ho)) ihs
    have hright := h.right.head
    rw [← hargs.length_eq, ← hobjects.length_eq] at hright
    have hterm := ih ⟨h.left.head, hright, hhead, h.objects.headPart i⟩
    have hkeeps : Keeps m (terms ⟨es.map Prod.snd⟩ args (s.args.drop i)) :=
      keeps_terms fun p hp o ho => (h.left.arg hp (List.mem_of_mem_drop ho)).keeps _
    have hkeeps' : Keeps n (terms ⟨fs.map Prod.snd⟩ args' (t.args.drop i)) :=
      keeps_terms fun p hp o ho => (h.right.arg hp (List.mem_of_mem_drop ho)).keeps _
    exact hterms.bind hkeeps hkeeps' hterm σ τ k l hk hl hσ hτ hR

theorem unnamed_term (p : Term) : Unnamed m n B C p := by
  induction p using Term.induction with
  | literal v =>
    intro es fs q s t h
    refine inStep_of_ty h.patterns.ty_eq h.objects.ty_eq fun hty hty' => ?_
    intro σ τ k l hk hl hσ hτ hR
    obtain rfl := h.patterns.literal
    rw [exec_term_literal hty, exec_term_literal hty']
    refine alike_ite ?_ hR _ _ k l
    rw [beq_literal, beq_literal]
    exact h.object_iff (fun _ _ hm => hm) fun _ _ hm => hm
  | const c =>
    intro es fs q s t h
    refine inStep_of_ty h.patterns.ty_eq h.objects.ty_eq fun hty hty' => ?_
    intro σ τ k l hk hl hσ hτ hR
    obtain ⟨d, rfl, hname, hd⟩ := h.patterns.const
    rw [exec_term_const hty, exec_term_const hty']
    refine alike_ite ?_ hR _ _ k l
    rw [beq_const, beq_const, hname, hd]
    exact h.object_iff (fun _ _ hm => hm) fun _ _ hm => hm
  | var x =>
    intro es fs q s t h
    refine inStep_of_ty h.patterns.ty_eq h.objects.ty_eq fun hty hty' => ?_
    intro σ τ k l hk hl hσ hτ hR
    obtain ⟨x', rfl, _⟩ := h.patterns.var
    rw [exec_term_var hty, exec_term_var hty']
    by_cases hx : x ∈ es.map Prod.fst
    · exact alike_var_of_mem h hx hR k l
    · cases hbinder : x.binder with
      | true => exact alike_var_of_binder h hx hbinder hR k l
      | false => exact alike_var_of_plain h hbinder hx hR k l
  | lambda x body ih => exact unnamed_lambda ih
  | app head args ih ihs => exact unnamed_app ih ihs
  | metaApp z args _ =>
    intro es fs q s t h
    refine inStep_of_ty h.patterns.ty_eq h.objects.ty_eq fun hty hty' => ?_
    intro σ τ k l hk hl hσ hτ hR
    obtain ⟨args', rfl, _⟩ := h.patterns.metaApp
    rw [exec_term_metaApp hty, exec_term_metaApp hty']
    exact inStep_metaApp h σ τ k l hk hl hσ hτ hR

end Matcher

end TermAlgebra
