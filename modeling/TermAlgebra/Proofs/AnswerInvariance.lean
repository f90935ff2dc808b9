import Mathlib
import TermAlgebra.Proofs.MirroredAnswers

/-!
# Answers and the order of identifiers

Only the order of the identifiers in a query counts. The identifiers that occur are replaced by
their ranks; both the query and the query with other identifiers in the same order come from the
query over ranks, and so do their answers. Main statement: `answer_of_mapIds`, a query is answered
alike whatever its identifiers are, as long as they keep their order, whatever is drawn and whatever
the orders of iteration are.
-/

namespace TermAlgebra

namespace Results

variable {ε ε₁ ε₂ α : Type} {E : ε → ε₁ → Prop} {r : Except ε α} {r₁ : Except ε₁ α}

theorem imp {E' : ε → ε₁ → Prop} (hE : ∀ d d₁, E d d₁ → E' d d₁) (h : Results E Eq r r₁) :
    Results E' Eq r r₁ := by
  cases h with
  | ok h => exact .ok h
  | error h => exact .error (hE _ _ h)

/-- Two results that come from one. -/
theorem common {E' : ε → ε₂ → Prop} {Q : ε₁ → ε₂ → Prop} {r₂ : Except ε₂ α}
    (h₁ : Results E Eq r r₁) (h₂ : Results E' Eq r r₂)
    (hQ : ∀ d d₁ d₂, E d d₁ → E' d d₂ → Q d₁ d₂) : Results Q Eq r₁ r₂ := by
  cases h₁ with
  | ok h₁ =>
    cases h₂ with
    | ok h₂ => exact .ok (h₁.symm.trans h₂)
  | error h₁ =>
    cases h₂ with
    | error h₂ => exact .error (hQ _ _ _ h₁ h₂)

end Results

namespace Renumbering

section Spread

variable {f : Nat → Nat} {k start : Nat} {hf : StrictMonoOn f (Set.Iio k)}
  {hstart : ∀ i < k, f i < start}

/-- Sends the first `k` identifiers where `f` does, and all others behind `start`. -/
def spread (hf : StrictMonoOn f (Set.Iio k)) (hstart : ∀ i < k, f i < start) : Renumbering where
  toFun i := if i < k then f i else start + i
  injective i j h := by
    dsimp only at h
    by_cases hi : i < k <;> by_cases hj : j < k
    · rw [if_pos hi, if_pos hj] at h
      exact hf.injOn hi hj h
    · rw [if_pos hi, if_neg hj] at h
      have hlt := hstart i hi
      omega
    · rw [if_neg hi, if_pos hj] at h
      have hlt := hstart j hj
      omega
    · rw [if_neg hi, if_neg hj] at h
      exact Nat.add_left_cancel h

theorem spread_of_lt {i : Nat} (hi : i < k) : spread hf hstart i = f i := if_pos hi

instance increasing_spread : (spread hf hstart).Increasing := by
  refine ⟨fun i j hij => ?_⟩
  change (if i < k then f i else start + i) < if j < k then f j else start + j
  by_cases hj : j < k
  · have hi : i < k := hij.trans hj
    rw [if_pos hi, if_pos hj]
    exact hf hi hj hij
  · rw [if_neg hj]
    split
    · rename_i hi
      exact Nat.lt_add_right j (hstart i hi)
    · exact Nat.add_lt_add_left hij start

end Spread

/-- A map that keeps some identifiers apart is a renumbering of these. -/
theorem exists_extension {f : Nat → Nat} {ids : List Nat} {k : Nat}
    (hf : Set.InjOn f {i | i ∈ ids}) (hk : ∀ i ∈ ids, f i < k) :
    ∃ π : Renumbering, ∀ i ∈ ids, π i = f i := by
  refine ⟨⟨fun i => if i ∈ ids then f i else k + i, fun i j h => ?_⟩, fun i hi => if_pos hi⟩
  dsimp only at h
  by_cases hi : i ∈ ids <;> by_cases hj : j ∈ ids
  · rw [if_pos hi, if_pos hj] at h
    exact hf hi hj h
  · rw [if_pos hi, if_neg hj] at h
    have hlt := hk i hi
    omega
  · rw [if_neg hi, if_pos hj] at h
    have hlt := hk j hj
    omega
  · rw [if_neg hi, if_neg hj] at h
    exact Nat.add_left_cancel h

end Renumbering

/-! ## Identifiers that occur -/

def Var.mapId (f : Nat → Nat) (x : Var) : Var := { x with id := f x.id }

def MetaVar.mapId (f : Nat → Nat) (z : MetaVar) : MetaVar := { z with id := f z.id }

def Replaceable.mapId (f : Nat → Nat) : Replaceable → Replaceable
  | var x => var (x.mapId f)
  | metaVar z => metaVar (z.mapId f)

section

variable {π : Renumbering} {f g : Nat → Nat}

theorem Var.renumber_mapId {x : Var} (h : π (f x.id) = g x.id) :
    (x.mapId f).renumber π = x.mapId g := by
  rw [renumber, mapId, mapId, h]

theorem MetaVar.renumber_mapId {z : MetaVar} (h : π (f z.id) = g z.id) :
    (z.mapId f).renumber π = z.mapId g := by
  rw [renumber, mapId, mapId, h]

theorem Replaceable.renumber_mapId {r : Replaceable} (h : π (f r.id) = g r.id) :
    (r.mapId f).renumber π = r.mapId g := by
  cases r with
  | var x => exact congrArg var (x.renumber_mapId h)
  | metaVar z => exact congrArg metaVar (z.renumber_mapId h)

end

namespace Term

mutual

/-- Replaces every identifier, also of bound variables. -/
def mapIds (f : Nat → Nat) : Term → Term
  | literal v => literal v
  | const c => const c
  | var x => var (x.mapId f)
  | lambda x body => lambda (x.mapId f) (body.mapIds f)
  | app head args => app (head.mapIds f) (mapIdsAll f args)
  | metaApp z args => metaApp (z.mapId f) (mapIdsAll f args)

def mapIdsAll (f : Nat → Nat) : List Term → List Term
  | [] => []
  | t :: ts => t.mapIds f :: mapIdsAll f ts

end

/-- The identifiers of all variables and meta-variables, bound or free. -/
def ids (t : Term) : List Nat := t.labels.map Prod.fst

theorem mapIdsAll_eq_map (f : Nat → Nat) (ts : List Term) : mapIdsAll f ts = ts.map (mapIds f) := by
  induction ts with
  | nil => rfl
  | cons t ts ih => rw [mapIdsAll, ih, List.map_cons]

theorem map_fst_labelsAll (ts : List Term) : (labelsAll ts).map Prod.fst = ts.flatMap ids := by
  induction ts with
  | nil => rfl
  | cons t ts ih => rw [labelsAll, List.map_append, ih, List.flatMap_cons, ids]

theorem ids_lambda (x : Var) (body : Term) : (lambda x body).ids = x.id :: body.ids := rfl

theorem ids_app (head : Term) (args : List Term) :
    (app head args).ids = head.ids ++ args.flatMap ids := by
  rw [ids, labels, List.map_append, map_fst_labelsAll, ids]

theorem ids_metaApp (z : MetaVar) (args : List Term) :
    (metaApp z args).ids = z.id :: args.flatMap ids := by
  rw [ids, labels, List.map_cons, map_fst_labelsAll]

@[simp]
theorem mapIds_id (t : Term) : t.mapIds id = t := by
  induction t using Term.induction with
  | literal v => rfl
  | const c => rfl
  | var x => rfl
  | lambda x body ih =>
    rw [mapIds, ih]
    rfl
  | app head args ih ihs => rw [mapIds, mapIdsAll_eq_map, ih, List.map_congr_left ihs, List.map_id']
  | metaApp z args ihs =>
    rw [mapIds, mapIdsAll_eq_map, List.map_congr_left ihs, List.map_id']
    rfl

variable {π : Renumbering} {f g : Nat → Nat}

/-- What is done to identifiers that do not occur is of no account. -/
theorem renumber_mapIds {t : Term} (h : ∀ i ∈ t.ids, π (f i) = g i) :
    (t.mapIds f).renumber π = t.mapIds g := by
  have hargs : ∀ {args : List Term},
      (∀ t ∈ args, (∀ i ∈ t.ids, π (f i) = g i) → (t.mapIds f).renumber π = t.mapIds g) →
      (∀ i ∈ args.flatMap ids, π (f i) = g i) →
      (args.map (mapIds f)).map (renumber π) = args.map (mapIds g) := by
    intro args ihs hids
    rw [List.map_map]
    exact List.map_congr_left fun t ht =>
      ihs t ht fun i hi => hids i (List.mem_flatMap.mpr ⟨t, ht, hi⟩)
  induction t using Term.induction with
  | literal v => rfl
  | const c => rfl
  | var x => exact congrArg var (x.renumber_mapId (h x.id List.mem_cons_self))
  | lambda x body ih =>
    rw [ids_lambda, List.forall_mem_cons] at h
    rw [mapIds, renumber_lambda, ih h.2, x.renumber_mapId h.1, mapIds]
  | app head args ih ihs =>
    rw [ids_app, List.forall_mem_append] at h
    rw [mapIds, mapIds, mapIdsAll_eq_map, mapIdsAll_eq_map, renumber_app, ih h.1, hargs ihs h.2]
  | metaApp z args ihs =>
    rw [ids_metaApp, List.forall_mem_cons] at h
    rw [mapIds, mapIds, mapIdsAll_eq_map, mapIdsAll_eq_map, renumber_metaApp, hargs ihs h.2,
      z.renumber_mapId h.1]

theorem idsBelow_mapIds {n : Nat} {t : Term} (h : ∀ i ∈ t.ids, f i < n) :
    IdsBelow n (t.mapIds f) := by
  have hargs : ∀ {args : List Term},
      (∀ t ∈ args, (∀ i ∈ t.ids, f i < n) → IdsBelow n (t.mapIds f)) →
      (∀ i ∈ args.flatMap ids, f i < n) → ∀ t ∈ args.map (mapIds f), IdsBelow n t := by
    intro args ihs hids _ ht
    obtain ⟨t, harg, rfl⟩ := List.mem_map.mp ht
    exact ihs t harg fun i hi => hids i (List.mem_flatMap.mpr ⟨t, harg, hi⟩)
  induction t using Term.induction with
  | literal v => exact ⟨by simp [mapIds], by simp [mapIds]⟩
  | const c => exact ⟨by simp [mapIds], by simp [mapIds]⟩
  | var x => exact idsBelow_var.mpr (h x.id List.mem_cons_self)
  | lambda x body ih =>
    rw [ids_lambda, List.forall_mem_cons] at h
    exact idsBelow_lambda_of h.1 (ih h.2)
  | app head args ih ihs =>
    rw [ids_app, List.forall_mem_append] at h
    rw [mapIds, mapIdsAll_eq_map]
    exact idsBelow_app.mpr ⟨ih h.1, hargs ihs h.2⟩
  | metaApp z args ihs =>
    rw [ids_metaApp, List.forall_mem_cons] at h
    rw [mapIds, mapIdsAll_eq_map]
    exact idsBelow_metaApp.mpr ⟨h.1, hargs ihs h.2⟩

end Term

namespace Subst

def mapIds (f : Nat → Nat) (σ : Subst) : Subst :=
  ⟨σ.entries.map fun e => (e.1.mapId f, e.2.mapIds f)⟩

/-- The identifiers of the keys and those in the images. -/
def ids (σ : Subst) : List Nat := σ.entries.flatMap fun e => e.1.id :: e.2.ids

@[simp]
theorem mapIds_id (σ : Subst) : σ.mapIds id = σ := by
  have hentry : ∀ e : Replaceable × Term, (e.1.mapId id, e.2.mapIds id) = e := by
    rintro ⟨_ | _, t⟩ <;> rw [t.mapIds_id] <;> rfl
  rw [mapIds, List.map_congr_left fun e _ => hentry e, List.map_id']

theorem renumber_mapIds {π : Renumbering} {f g : Nat → Nat} {σ : Subst}
    (h : ∀ i ∈ σ.ids, π (f i) = g i) : (σ.mapIds f).renumber π = σ.mapIds g := by
  rw [renumber, mapIds, mapIds, List.map_map]
  refine congrArg Subst.mk (List.map_congr_left fun e he => ?_)
  have hentry : ∀ i ∈ e.1.id :: e.2.ids, π (f i) = g i := fun i hi =>
    h i (List.mem_flatMap.mpr ⟨e, he, hi⟩)
  rw [List.forall_mem_cons] at hentry
  exact congrArg₂ Prod.mk (e.1.renumber_mapId hentry.1) (Term.renumber_mapIds hentry.2)

theorem drawnBefore_mapIds {f : Nat → Nat} {n : Nat} {σ : Subst} (h : ∀ i ∈ σ.ids, f i < n) :
    (σ.mapIds f).DrawnBefore n := by
  intro p hp
  obtain ⟨e, he, rfl⟩ := List.mem_map.mp hp
  have hentry : ∀ i ∈ e.1.id :: e.2.ids, f i < n := fun i hi =>
    h i (List.mem_flatMap.mpr ⟨e, he, hi⟩)
  rw [List.forall_mem_cons] at hentry
  refine ⟨?_, Term.idsBelow_mapIds hentry.2⟩
  rcases e with ⟨_ | _, _⟩ <;> exact hentry.1

end Subst

namespace Query

open Program (Failure)
open Fresh (attempt)

def mapIds (f : Nat → Nat) : Query → Query
  | matching p o => matching (p.mapIds f) (o.mapIds f)
  | unify s t => unify (s.mapIds f) (t.mapIds f)
  | alpha s t => alpha (s.mapIds f) (t.mapIds f)
  | subst t σ => subst (t.mapIds f) (σ.mapIds f)
  | positions t => positions (t.mapIds f)

/-- All identifiers in a query. -/
def ids : Query → List Nat
  | matching p o => p.ids ++ o.ids
  | unify s t => s.ids ++ t.ids
  | alpha s t => s.ids ++ t.ids
  | subst t σ => t.ids ++ σ.ids
  | positions t => t.ids

@[simp]
theorem mapIds_id (q : Query) : q.mapIds id = q := by
  cases q <;> simp [mapIds]

theorem renumber_mapIds {π : Renumbering} {f g : Nat → Nat} {q : Query}
    (h : ∀ i ∈ q.ids, π (f i) = g i) : (q.mapIds f).renumber π = q.mapIds g := by
  cases q with
  | matching s t | unify s t | alpha s t =>
    rw [ids, List.forall_mem_append] at h
    simp only [mapIds, renumber, Term.renumber_mapIds h.1, Term.renumber_mapIds h.2]
  | subst t σ =>
    rw [ids, List.forall_mem_append] at h
    simp only [mapIds, renumber, Term.renumber_mapIds h.1, Subst.renumber_mapIds h.2]
  | positions t =>
    simp only [mapIds, renumber, Term.renumber_mapIds h]

theorem drawnBefore_mapIds {f : Nat → Nat} {n : Nat} {q : Query} (h : ∀ i ∈ q.ids, f i < n) :
    (q.mapIds f).DrawnBefore n := by
  cases q with
  | matching | unify | alpha =>
    rw [ids, List.forall_mem_append] at h
    exact ⟨Term.idsBelow_mapIds h.1, Term.idsBelow_mapIds h.2⟩
  | subst =>
    rw [ids, List.forall_mem_append] at h
    exact ⟨Term.idsBelow_mapIds h.1, Subst.drawnBefore_mapIds h.2⟩
  | positions => exact Term.idsBelow_mapIds h

/-- Other identifiers that are different where those in a query are make it no less sound. -/
theorem WellFormed.sound_mapIds {f : Nat → Nat} {n : Nat} {q : Query} (hq : q.WellFormed)
    (hf : Set.InjOn f {i | i ∈ q.ids}) (hn : ∀ i ∈ q.ids, f i < n) : (q.mapIds f).Sound n := by
  obtain ⟨π, hπ⟩ := Renumbering.exists_extension hf hn
  have hrenumber : q.renumber π = q.mapIds f := by
    have hids := renumber_mapIds (f := id) hπ
    rwa [mapIds_id] at hids
  exact ⟨drawnBefore_mapIds hn, hrenumber ▸ hq.renumber⟩

/-! ## Ranks -/

variable {q : Query} {k start : Nat} {f g rank : Nat → Nat}

/-- The query over ranks is answered as the query itself, by what is drawn from `start` on. -/
theorem answer_of_ranks (supply : Supply) (I I' : Iteration)
    (hsound : (q.mapIds rank).Sound k) (hf : StrictMonoOn f (Set.Iio k))
    (hstart : ∀ i < k, f i < start)
    (hrank : ∀ i ∈ q.ids, rank i < k ∧ f (rank i) = g i) :
    Results (fun d d' => (Failure.algebra d).Variant (.algebra d')) Eq
      (attempt (@answer .consecutive I (q.mapIds rank)) k).1
      (attempt (@answer supply I' (q.mapIds g)) start).1 := by
  have hlt : ∀ i < k, Renumbering.spread hf hstart i < start := fun i hi => by
    rw [Renumbering.spread_of_lt hi]
    exact hstart i hi
  let e : Relocation := .continuation (.spread hf hstart) hlt
  have hrenumber : (q.mapIds rank).renumber e = q.mapIds g := by
    refine renumber_mapIds fun i hi => ?_
    obtain ⟨hi, hg⟩ := hrank i hi
    exact (Relocation.continuation_of_lt hi).trans ((Renumbering.spread_of_lt hi).trans hg)
  have hrun := (mirrors_answer (e := e) I I' hsound k (Nat.le_refl k)).1
  rw [hrenumber, show e.toFun k = start from Relocation.continuation_start] at hrun
  exact hrun.imp fun d d' hd => ⟨e, congrArg Failure.algebra hd⟩

/-- The lines of an answer, or the error and its text, depend on the order of the identifiers in a
query only, and neither on what is drawn for the answer or in between nor on the orders in which
images are iterated. Queries that commands are resolved to are well-formed (`sound_of_ofCommand`).
-/
theorem answer_of_mapIds {π : Nat → Nat} {n n' : Nat} (hq : q.WellFormed)
    (hπ : StrictMonoOn π {i | i ∈ q.ids}) (hn : ∀ i ∈ q.ids, i < n) (hn' : ∀ i ∈ q.ids, π i < n')
    (supply supply' : Supply) (I I' : Iteration) :
    Results (fun d d' => (Failure.algebra d).Alike (.algebra d') ∧ d.message = d'.message) Eq
      (attempt (@answer supply I q) n).1 (attempt (@answer supply' I' (q.mapIds π)) n').1 := by
  let p : Nat → Prop := (· ∈ q.ids)
  have hfinite : (Set.ofPred p).Finite := q.ids.finite_toSet
  let k := hfinite.toFinset.card
  have hnth : ∀ j < k, Nat.nth p j ∈ q.ids := fun j => Nat.nth_mem_of_lt_card hfinite
  have hmono : StrictMonoOn (Nat.nth p) (Set.Iio k) := Nat.nth_strictMonoOn hfinite
  have hrank : ∀ i ∈ q.ids, Nat.count p i < k ∧ Nat.nth p (Nat.count p i) = i := fun i hi =>
    ⟨Nat.count_lt_card hfinite hi, Nat.nth_count hi⟩
  have hinjective : Set.InjOn (Nat.count p) {i | i ∈ q.ids} := fun i hi j hj h => by
    rw [← (hrank i hi).2, h, (hrank j hj).2]
  have hsound := hq.sound_mapIds hinjective fun i hi => (hrank i hi).1
  have hself := answer_of_ranks supply (g := id) .byKey I hsound hmono
    (fun j hj => hn _ (hnth j hj)) hrank
  have hother := answer_of_ranks supply' (g := π) .byKey I' hsound
    (hπ.comp hmono hnth) (fun j hj => hn' _ (hnth j hj)) fun i hi =>
      ⟨(hrank i hi).1, congrArg π (hrank i hi).2⟩
  rw [mapIds_id] at hself
  refine hself.common hother fun d d₁ d₂ h₁ h₂ => ?_
  have halike : (Failure.algebra d₁).Alike (.algebra d₂) := ⟨_, h₁, h₂⟩
  exact ⟨halike, halike.message⟩

/-- Two variables of one name go by the order of their identifiers, also where these are put close
together, every second identifier that is drawn is somebody else's, and the images of the last two
variables, which get another bound variable each, are updated the other way round. -/
theorem answer_of_mapIds_crowded :
    let o := SimpleType.base "o"
    let z : Var := ⟨3, "X", o, false⟩
    let x : Var := ⟨5, "X", .arrow o o, false⟩
    let y : Var := ⟨9, "Y", .arrow o o, false⟩
    let w : Var := ⟨20, "w", o, true⟩
    let f := Term.const ⟨"f", .arrow o (.arrow o o), false, none⟩
    let g := Term.const ⟨"g", .arrow o (.arrow (.arrow o o) (.arrow (.arrow o o) o)), false, none⟩
    let image := Term.lambda w (.app f [.var w, .var z])
    let q := unify (.app g [.var w, .var x, .var y]) (.app g [.var z, image, image])
    let π : Nat → Nat := fun i => if i < 4 then 0 else if i < 6 then 1 else if i < 10 then 2 else 3
    let everySecond : Supply := ⟨(· + 2), fun n => by omega⟩
    let reversed : Iteration := ⟨fun σ => σ.keys.reverse, fun _ => List.reverse_perm _⟩
    let lines := ["[X := w, X__1 := λw__1.f(w__1, w), Y := λw__2.f(w__2, w)]"]
    q.WellFormed ∧ StrictMonoOn π {i | i ∈ q.ids} ∧ (∀ i ∈ q.ids, i < 21) ∧ (∀ i ∈ q.ids, π i < 4) ∧
      (attempt (@answer .consecutive .byKey q) 21).1 = .ok lines ∧
      (attempt (@answer everySecond reversed (q.mapIds π)) 4).1 = .ok lines := by
  intro o z x y w f g image q π everySecond reversed lines
  have hids : q.ids = [20, 5, 9, 3, 20, 20, 3, 20, 20, 3] := by cbv
  have hlt : ∀ i ∈ q.ids, ∀ j ∈ q.ids, i < j → π i < π j := by simp [hids, π]
  have hπ : StrictMonoOn π {i | i ∈ q.ids} := fun i hi j hj => hlt i hi j hj
  have hn : ∀ i ∈ q.ids, i < 21 := by simp [hids]
  have hn' : ∀ i ∈ q.ids, π i < 4 := by simp [hids, π]
  have hvars : Term.Sound 21 (.var w) ∧ Term.Sound 21 (.var z) ∧ Term.Sound 21 (.var x) ∧
      Term.Sound 21 (.var y) :=
    ⟨Term.sound_var (by decide), Term.sound_var (by decide), Term.sound_var (by decide),
      Term.sound_var (by decide)⟩
  have himage : Term.Sound 21 image := by
    refine Term.sound_lambda (by decide) rfl (by cbv) ?_
    exact Term.sound_app (by simp [hvars, Term.sound_const, f]) rfl (by simp) (by cbv) (by cbv)
  have hs : Term.Sound 21 (.app g [.var w, .var x, .var y]) :=
    Term.sound_app (by simp [hvars, Term.sound_const, g]) rfl (by simp) (by cbv) (by cbv)
  have ht : Term.Sound 21 (.app g [.var z, image, image]) := by
    refine Term.sound_app_of_apart ?_ rfl (by simp) (by cbv) fun v hfree hbound => ?_
    · simp [hvars, himage, Term.sound_const, g]
    · have hv : v = w := by simpa [Term.boundAll, image, f, g] using hbound
      simp [hv, Term.freeAll, image, f, g, w, z] at hfree
  have hq : q.WellFormed := ⟨hs.wf, ht.wf⟩
  have hlines : (attempt (@answer .consecutive .byKey q) 21).1 = .ok lines := by cbv
  have hboth := answer_of_mapIds hq hπ hn hn' .consecutive everySecond .byKey reversed
  rw [hlines] at hboth
  refine ⟨hq, hπ, hn, hn', hlines, ?_⟩
  generalize (attempt (@answer everySecond reversed (q.mapIds π)) 4).1 = r at hboth ⊢
  cases hboth with
  | ok hsame => rw [← hsame]

end Query

end TermAlgebra
