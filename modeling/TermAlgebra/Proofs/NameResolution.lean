import TermAlgebra.Proofs.AlphaEquivalence
import TermAlgebra.Proofs.Counterparts
import TermAlgebra.Proofs.LexicalReading
import TermAlgebra.Query.Basic

/-!
# Name resolution

Resolving a term draws a binder for every abstraction and finds it again by its name. The
identifiers keep the binders apart from each other and from what is declared, so what is resolved
has the lexical meaning of the term. Main statement: a term is resolved exactly if it has a meaning
and that meaning has a type, and what it is resolved to is this meaning.
-/

namespace TermAlgebra.Query

open TermAlgebra.Language (Expr Command)
open Fresh (attempt)
open Term (Sound namelessIn)

/-- What is declared has been drawn before the identifier `n`. -/
def Symbol.DrawnBefore (n : Nat) : Symbol → Prop
  | const _ => True
  | var x => x.id < n
  | metaVar z => z.id < n

def Symbols.DrawnBefore (n : Nat) (s : Symbols) : Prop :=
  ∀ name sym, s.get? name = some sym → sym.DrawnBefore n

/-- No declared variable is a binder. -/
def Symbols.Plain (s : Symbols) : Prop :=
  ∀ name x, s.get? name = some (.var x) → x.binder = false

/-! ## Meanings -/

/-- The meaning of a term below binders, and its type. -/
structure Means (s : Symbols) (scope : List Var) (t : Expr) (d : Nameless) (τ : SimpleType) :
    Prop where
  translate : s.translate (scope.map Var.name) t = some d
  typeIn : d.typeIn (scope.map Var.ty) = some τ

structure MeansAll (s : Symbols) (scope : List Var) (ts : List Expr) (ds : List Nameless)
    (τs : List SimpleType) : Prop where
  translate : s.translateAll (scope.map Var.name) ts = some ds
  typesIn : Nameless.typesIn (scope.map Var.ty) ds = some τs

section Meaning

variable {s : Symbols} {scope : List Var} {d : Nameless} {τ : SimpleType}

theorem Means.unique {t : Expr} {e : Nameless} {ρ : SimpleType} (h : Means s scope t d τ)
    (h' : Means s scope t e ρ) : d = e ∧ τ = ρ := by
  obtain rfl : d = e := Option.some.inj (h.translate.symm.trans h'.translate)
  exact ⟨rfl, Option.some.inj (h.typeIn.symm.trans h'.typeIn)⟩

theorem MeansAll.unique {ts : List Expr} {ds es : List Nameless} {τs ρs : List SimpleType}
    (h : MeansAll s scope ts ds τs) (h' : MeansAll s scope ts es ρs) : ds = es ∧ τs = ρs := by
  obtain rfl : ds = es := Option.some.inj (h.translate.symm.trans h'.translate)
  exact ⟨rfl, Option.some.inj (h.typesIn.symm.trans h'.typesIn)⟩

theorem means_app_iff {head : Expr} {args : List Expr} :
    Means s scope (.app head args) d τ ↔
      ∃ e es σs, Means s scope head e (.arrows σs τ) ∧ MeansAll s scope args es σs ∧
        e.apply es = d := by
  constructor
  · rintro ⟨htranslate, htype⟩
    simp only [Symbols.translate, Option.bind_eq_bind, Option.pure_def, Option.bind_eq_some_iff]
      at htranslate
    obtain ⟨e, hhead, es, hargs, ⟨⟩⟩ := htranslate
    obtain ⟨σs, htype, htypes⟩ := Nameless.typeIn_apply.mp htype
    exact ⟨e, es, σs, ⟨hhead, htype⟩, ⟨hargs, htypes⟩, rfl⟩
  · rintro ⟨e, es, σs, ⟨hhead, htype⟩, ⟨hargs, htypes⟩, rfl⟩
    refine ⟨?_, Nameless.typeIn_apply.mpr ⟨σs, htype, htypes⟩⟩
    rw [Symbols.translate, hhead, hargs]
    rfl

theorem means_metaApp_iff {z : String} {w : MetaVar} {args : List Expr}
    (hz : s.get? z = some (.metaVar w)) :
    Means s scope (.metaApp z args) d τ ↔
      ∃ es, MeansAll s scope args es w.inputs ∧ .metaApp w es = d ∧ w.output = τ := by
  constructor
  · rintro ⟨htranslate, htype⟩
    simp only [Symbols.translate, hz, Option.map_eq_some_iff] at htranslate
    obtain ⟨es, hargs, rfl⟩ := htranslate
    rw [Nameless.typeIn] at htype
    split at htype
    · next htypes => exact ⟨es, ⟨hargs, htypes⟩, rfl, Option.some.inj htype⟩
    · cases htype
  · rintro ⟨es, ⟨hargs, htypes⟩, rfl, rfl⟩
    refine ⟨?_, ?_⟩
    · simp only [Symbols.translate, hz, hargs, Option.map_some]
    · rw [Nameless.typeIn, if_pos htypes]

theorem Means.exists_metaVar {z : String} {args : List Expr}
    (h : Means s scope (.metaApp z args) d τ) : ∃ w, s.get? z = some (.metaVar w) := by
  have htranslate := h.translate
  rw [Symbols.translate] at htranslate
  split at htranslate
  · next w hw => exact ⟨w, hw⟩
  · cases htranslate

theorem means_lambda_iff {v : Var} {body : Expr} :
    Means s scope (.lambda v.name v.ty body) d τ ↔
      ∃ e ρ, Means s (v :: scope) body e ρ ∧ .lambda v.ty e = d ∧ .arrow v.ty ρ = τ := by
  constructor
  · rintro ⟨htranslate, htype⟩
    obtain ⟨e, hbody, rfl⟩ := Option.map_eq_some_iff.mp htranslate
    obtain ⟨ρ, hρ, rfl⟩ := Option.map_eq_some_iff.mp htype
    exact ⟨e, ρ, ⟨hbody, hρ⟩, rfl, rfl⟩
  · rintro ⟨e, ρ, ⟨hbody, htype⟩, rfl, rfl⟩
    exact ⟨Option.map_eq_some_iff.mpr ⟨e, hbody, rfl⟩, Option.map_eq_some_iff.mpr ⟨ρ, htype, rfl⟩⟩

theorem meansAll_cons_iff {t : Expr} {ts : List Expr} {ds : List Nameless}
    {τs : List SimpleType} :
    MeansAll s scope (t :: ts) ds τs ↔
      ∃ e ρ es ρs, Means s scope t e ρ ∧ MeansAll s scope ts es ρs ∧ e :: es = ds ∧
        ρ :: ρs = τs := by
  constructor
  · rintro ⟨htranslate, htypes⟩
    simp only [Symbols.translateAll, Option.bind_eq_bind, Option.pure_def,
      Option.bind_eq_some_iff] at htranslate
    obtain ⟨e, ht, es, hts, ⟨⟩⟩ := htranslate
    simp only [Nameless.typesIn, Option.bind_eq_bind, Option.pure_def,
      Option.bind_eq_some_iff] at htypes
    obtain ⟨ρ, htype, ρs, htypes, ⟨⟩⟩ := htypes
    exact ⟨e, ρ, es, ρs, ⟨ht, htype⟩, ⟨hts, htypes⟩, rfl, rfl⟩
  · rintro ⟨e, ρ, es, ρs, ⟨ht, htype⟩, ⟨hts, htypes⟩, rfl, rfl⟩
    constructor
    · rw [Symbols.translateAll, ht, hts]
      rfl
    · rw [Nameless.typesIn, htype, htypes]
      rfl

end Meaning

/-! ## Runs -/

/-- A run that starts at `n` gives something with the property, or it fails and the condition
holds. -/
inductive Gives {α : Type} (n : Nat) (P : Nat → α → Prop) (Q : Prop) :
    Except ResolveError α × Nat → Prop
  | ok {a n'} : n ≤ n' → P n' a → Gives n P Q (.ok a, n')
  | error {e n'} : n ≤ n' → Q → Gives n P Q (.error e, n')

section Runs

variable {α β : Type} {n : Nat}

theorem Gives.bind {m : Resolve α} {f : α → Resolve β} {P : Nat → α → Prop}
    {P' : Nat → β → Prop} {Q Q' : Prop} (hm : Gives n P Q (attempt m n)) (hQ : Q → Q')
    (hf : ∀ a n', n ≤ n' → P n' a → Gives n' P' Q' (attempt (f a) n')) :
    Gives n P' Q' (attempt (m >>= f) n) := by
  rw [Fresh.attempt_bind]
  generalize attempt m n = r at hm
  cases hm with
  | error hn hq => exact .error hn (hQ hq)
  | @ok a n' hn ha =>
    have hb := hf a n' hn ha
    dsimp only
    generalize attempt (f a) n' = r at hb
    cases hb with
    | error hn' hq => exact .error (hn.trans hn') hq
    | ok hn' hb => exact .ok (hn.trans hn') hb

theorem Gives.imp {P P' : Nat → α → Prop} {Q Q' : Prop} {r : Except ResolveError α × Nat}
    (h : Gives n P Q r) (hP : ∀ n' a, n ≤ n' → P n' a → P' n' a) (hQ : Q → Q') :
    Gives n P' Q' r := by
  cases h with
  | ok hn ha => exact .ok hn (hP _ _ hn ha)
  | error hn hq => exact .error hn (hQ hq)

theorem Gives.of_ok {P : Nat → α → Prop} {Q : Prop} {r : Except ResolveError α × Nat} {a : α}
    {n' : Nat} (h : Gives n P Q r) (hr : r = (.ok a, n')) : P n' a := by
  cases h with
  | ok _ ha =>
    cases hr
    exact ha
  | error => cases hr

theorem Gives.exists_ok {P : Nat → α → Prop} {Q : Prop} {r : Except ResolveError α × Nat}
    (h : Gives n P Q r) (hQ : ¬ Q) : ∃ a n', r = (.ok a, n') := by
  cases h with
  | ok => exact ⟨_, _, rfl⟩
  | error _ hq => exact absurd hq hQ

theorem gives_pure {P : Nat → α → Prop} {Q : Prop} {a : α} (h : P n a) :
    Gives n P Q (attempt (pure a) n) :=
  .ok le_rfl h

theorem attempt_build (m : Term.Build Term) (n : Nat) :
    attempt (Resolve.build m) n =
      ((attempt m n).1.mapError ResolveError.type, (attempt m n).2) := rfl

end Runs

/-! ## Building -/

section Building

variable {n : Nat} {u : Term} {us : List Term}

theorem gives_apply (hu : Sound n u) (hus : ∀ a ∈ us, Sound n a) :
    Gives n
      (fun n' w => Sound n' w ∧ u.ty = .arrows (us.map Term.ty) w.ty ∧
        ∀ scope, namelessIn scope w = (namelessIn scope u).apply (us.map (namelessIn scope)))
      (∀ τ, u.ty ≠ .arrows (us.map Term.ty) τ) (attempt (Resolve.build (u.apply us)) n) := by
  have hrising := Term.rising_apply u us n
  rw [attempt_build]
  rcases hrun : attempt (u.apply us) n with ⟨e | w, n'⟩
  · rw [hrun] at hrising
    refine .error hrising fun τ hτ => ?_
    rw [Term.attempt_apply hτ] at hrun
    cases hrun
  · obtain ⟨hmk, τ, hτ⟩ := Term.apply_eq_ok hrun
    have hsound := Term.mkApp_sound hu hus hτ
    have hread := Term.mkApp_read hu.idsBelow fun a ha => (hus a ha).idsBelow
    rw [hmk] at hsound hread
    rw [hrun] at hrising
    refine .ok hrising ⟨hsound.1, by rw [hsound.2, hτ], fun scope => ?_⟩
    have hargs : us.map (Term.read (Valuation.plain.unders scope)) = us.map (namelessIn scope) :=
      List.map_congr_left fun a ha => Term.read_plain_unders (hus a ha).wf scope
    rw [← Term.read_plain_unders hsound.1.wf, hread, Term.read_plain_unders hu.wf, hargs]

theorem gives_applyMeta {z : MetaVar} (hz : z.id < n) (hus : ∀ a ∈ us, Sound n a) :
    Gives n
      (fun n' w => Sound n' w ∧ us.map Term.ty = z.inputs ∧ w.ty = z.output ∧
        ∀ scope, namelessIn scope w = .metaApp z (us.map (namelessIn scope)))
      (us.map Term.ty ≠ z.inputs) (attempt (Resolve.build (Term.applyMeta z us)) n) := by
  have hrising := Term.rising_applyMeta z us n
  rw [attempt_build]
  rcases hrun : attempt (Term.applyMeta z us) n with ⟨e | w, n'⟩
  · rw [hrun] at hrising
    refine .error hrising fun fits => ?_
    rw [Term.attempt_applyMeta fits] at hrun
    cases hrun
  · obtain ⟨hmk, fits⟩ := Term.applyMeta_eq_ok hrun
    have hsound := Term.mkMetaApp_sound hz hus fits
    have hread := fun V => Term.mkMetaApp_read (z := z) (fun a ha => (hus a ha).idsBelow) V
    rw [hmk] at hsound
    rw [hrun] at hrising
    refine .ok hrising ⟨hsound.1, fits, hsound.2, fun scope => ?_⟩
    have hargs : us.map (Term.read (Valuation.plain.unders scope)) = us.map (namelessIn scope) :=
      List.map_congr_left fun a ha => Term.read_plain_unders (hus a ha).wf scope
    have hw := hread (Valuation.plain.unders scope)
    rw [hmk] at hw
    rw [← Term.read_plain_unders hsound.1.wf, hw, hargs]
    rw [Valuation.metaApp, (Valuation.plain_atomic.unders scope).metaVar z]

theorem gives_abstract {x : Var} {Q : Prop} (hu : Sound n u) (hx : x.id < n) (hbinder : x.binder) :
    Gives n
      (fun n' w => Sound n' w ∧ w.ty = .arrow x.ty u.ty ∧
        ∀ scope, namelessIn scope w = .lambda x.ty (namelessIn (x :: scope) u))
      Q (attempt (Resolve.build (Term.abstract x u)) n) := by
  have hsound := Term.mkLambda_sound hu hx hbinder
  rw [attempt_build, Term.attempt_abstract hbinder]
  refine .ok (Term.increasing_mkLambda x u n) ⟨hsound.1, hsound.2, fun scope => ?_⟩
  rw [← Term.read_plain_unders hsound.1.wf, Term.mkLambda_read hu.idsBelow hx,
    ← Valuation.unders, Term.read_plain_unders hu.wf]

end Building

/-! ## Resolving -/

/-- The binders of a scope differ, and they were made behind the identifier `m`. -/
structure Entered (m n : Nat) (scope : List Var) : Prop where
  le : m ≤ n
  nodup : scope.Nodup
  behind : ∀ v ∈ scope, m ≤ v.id
  before : ∀ v ∈ scope, v.id < n

section Resolving

variable {s : Symbols} {m n : Nat} {scope : List Var}

theorem Entered.mono (h : Entered m n scope) {n' : Nat} (hn : n ≤ n') : Entered m n' scope :=
  ⟨h.le.trans hn, h.nodup, h.behind, fun v hv => (h.before v hv).trans_le hn⟩

theorem Entered.push (h : Entered m n scope) (x : String) (ty : SimpleType) :
    Entered m (n + 1) (⟨n, x, ty, true⟩ :: scope) := by
  refine ⟨h.le.trans (Nat.le_succ n), List.nodup_cons.mpr ⟨?_, h.nodup⟩, ?_, ?_⟩
  · intro hmem
    exact absurd (h.before _ hmem) (Nat.lt_irrefl n)
  · simpa using ⟨h.le, h.behind⟩
  · simpa using fun v hv => (h.before v hv).trans (Nat.lt_succ_self n)

/-- The innermost binder of a name. -/
theorem idxOf?_name (hnodup : scope.Nodup) (x : String) :
    (scope.map Var.name).idxOf? x =
      (scope.find? fun v => v.name == x).bind fun v => scope.idxOf? v := by
  induction scope with
  | nil => rfl
  | cons w scope ih =>
    obtain ⟨hw, hnodup⟩ := List.nodup_cons.mp hnodup
    rw [List.map_cons, List.idxOf?_cons, List.find?_cons]
    by_cases hx : w.name == x
    · simp [hx, List.idxOf?_cons]
    · simp only [hx, ih hnodup]
      cases hfind : scope.find? fun v => v.name == x with
      | none => rfl
      | some v =>
        have hwv : w ≠ v := fun e => hw (e ▸ List.mem_of_find?_eq_some hfind)
        simp [List.idxOf?_cons, hwv]

theorem gives_name (hs : s.DrawnBefore m) (h : Entered m n scope) (x : String) :
    Gives n
      (fun n' u => Sound n' u ∧ Means s scope (.name x) (namelessIn scope u) u.ty)
      (∀ d τ, ¬ Means s scope (.name x) d τ) (attempt (Resolve.name s ⟨scope⟩ x) n) := by
  have hidx := idxOf?_name h.nodup x
  unfold Resolve.name Stack.find?
  cases hfind : scope.find? fun v => v.name == x with
  | some v =>
    have hv := List.mem_of_find?_eq_some hfind
    obtain ⟨i, hi⟩ := Option.isSome_iff_exists.mp (List.isSome_idxOf?.mpr hv)
    rw [hfind, Option.bind_some, hi] at hidx
    obtain ⟨hlt, hget, -⟩ := List.idxOf?_eq_some_iff.mp hi
    refine gives_pure ⟨⟨Term.idsBelow_var.mpr (h.before v hv), .var v⟩, ?_, ?_⟩
    · rw [namelessIn, Nameless.ofVar, hi, Symbols.translate, hidx]
    · rw [namelessIn, Nameless.ofVar, hi, Nameless.typeIn, List.getElem?_map,
        List.getElem?_eq_getElem hlt, hget, Term.ty, Option.map_some]
  | none =>
    rw [hfind, Option.bind_none] at hidx
    have htranslate : s.translate (scope.map Var.name) (.name x) =
        (s.get? x).map Symbol.nameless := by
      rw [Symbols.translate, hidx]
    cases hsym : s.get? x with
    | none =>
      refine .error le_rfl fun d τ hd => ?_
      have hmeaning := hd.translate
      rw [htranslate, hsym] at hmeaning
      cases hmeaning
    | some sym =>
      rw [hsym] at htranslate
      have hdrawn := hs x sym hsym
      cases sym with
      | const c =>
        refine gives_pure ⟨⟨by simp [Term.IdsBelow], .const c⟩, htranslate, ?_⟩
        rw [namelessIn, Nameless.typeIn, Term.ty]
      | var v =>
        have hv : v ∉ scope := fun hmem => absurd (h.behind v hmem) (Nat.not_le.mpr hdrawn)
        refine gives_pure ⟨⟨Term.idsBelow_var.mpr (Nat.lt_of_lt_of_le hdrawn h.le), .var v⟩, ?_, ?_⟩
        · rw [htranslate, namelessIn, Nameless.ofVar_of_not_mem hv]
          rfl
        · rw [namelessIn, Nameless.ofVar_of_not_mem hv, Nameless.typeIn, Term.ty]
      | metaVar z =>
        have hz : z.id < n := Nat.lt_of_lt_of_le hdrawn h.le
        refine (gives_applyMeta hz (by simp)).imp ?_ ?_
        · rintro n' u - ⟨hu, fits, hty, hread⟩
          rw [List.map_nil] at fits
          refine ⟨hu, ?_, ?_⟩
          · rw [htranslate, hread]
            rfl
          · rw [hread, hty, List.map_nil, Nameless.typeIn, Nameless.typesIn,
              if_pos (congrArg some fits)]
        · intro fits d τ hd
          have hmeaning := hd.translate
          rw [htranslate] at hmeaning
          obtain rfl := Option.some.inj hmeaning
          have htype := hd.typeIn
          rw [Symbol.nameless, Nameless.typeIn, Nameless.typesIn] at htype
          split at htype
          · next hinputs => exact fits (Option.some.inj hinputs)
          · cases htype

theorem gives_metaVar (hs : s.DrawnBefore m) (h : Entered m n scope) (z : String) :
    Gives n (fun n' w => w.id < n' ∧ s.get? z = some (.metaVar w))
      (∀ w, s.get? z ≠ some (.metaVar w)) (attempt (Resolve.metaVar s z) n) := by
  unfold Resolve.metaVar
  cases hsym : s.get? z with
  | none => exact .error le_rfl nofun
  | some sym =>
    cases sym with
    | metaVar w => exact gives_pure ⟨Nat.lt_of_lt_of_le (hs z _ hsym) h.le, rfl⟩
    | const | var => exact .error le_rfl nofun

/-- Lists are resolved from left to right. -/
theorem gives_terms {ts : List Expr} (h : Entered m n scope)
    (hts : ∀ t ∈ ts, ∀ {n}, Entered m n scope →
      Gives n (fun n' u => Sound n' u ∧ Means s scope t (namelessIn scope u) u.ty)
        (∀ d τ, ¬ Means s scope t d τ) (attempt (Resolve.term s ⟨scope⟩ t) n)) :
    Gives n
      (fun n' us => (∀ u ∈ us, Sound n' u) ∧
        MeansAll s scope ts (us.map (namelessIn scope)) (us.map Term.ty))
      (∀ ds τs, ¬ MeansAll s scope ts ds τs) (attempt (Resolve.terms s ⟨scope⟩ ts) n) := by
  induction ts generalizing n with
  | nil => exact gives_pure ⟨by simp, rfl, rfl⟩
  | cons t ts ih =>
    rw [Resolve.terms]
    refine (hts t List.mem_cons_self h).bind ?_ fun u n₁ hn₁ hu => ?_
    · intro hfails ds τs hmeans
      obtain ⟨e, ρ, -, -, ht, -⟩ := meansAll_cons_iff.mp hmeans
      exact hfails e ρ ht
    refine (ih (h.mono hn₁) fun v hv => hts v (List.mem_cons_of_mem t hv)).bind ?_
      fun us n₂ hn₂ hus => gives_pure ⟨?_, ?_⟩
    · intro hfails ds τs hmeans
      obtain ⟨-, -, es, ρs, -, hes, -⟩ := meansAll_cons_iff.mp hmeans
      exact hfails es ρs hes
    · simpa using ⟨hu.1.mono hn₂, hus.1⟩
    · exact meansAll_cons_iff.mpr ⟨_, _, _, _, hu.2, hus.2, rfl, rfl⟩

/-- What a term is resolved to below binders is its meaning there. -/
theorem gives_term (hs : s.DrawnBefore m) (h : Entered m n scope) (t : Expr) :
    Gives n (fun n' u => Sound n' u ∧ Means s scope t (namelessIn scope u) u.ty)
      (∀ d τ, ¬ Means s scope t d τ) (attempt (Resolve.term s ⟨scope⟩ t) n) := by
  induction t using Expr.induction generalizing n scope with
  | name x =>
    rw [Resolve.term]
    exact gives_name hs h x
  | literal v =>
    rw [Resolve.term]
    refine gives_pure ⟨⟨by simp [Term.IdsBelow], .literal v⟩, rfl, ?_⟩
    rw [namelessIn, Nameless.typeIn, Term.ty]
  | app head args ih ihs =>
    rw [Resolve.term]
    refine (ih h).bind ?_ fun u n₁ hn₁ hu => ?_
    · intro hfails d τ hmeans
      obtain ⟨e, -, σs, hhead, -⟩ := means_app_iff.mp hmeans
      exact hfails e _ hhead
    refine (gives_terms (h.mono hn₁) fun t ht => ihs t ht).bind ?_ fun us n₂ hn₂ hus => ?_
    · intro hfails d τ hmeans
      obtain ⟨-, es, σs, -, hargs, -⟩ := means_app_iff.mp hmeans
      exact hfails es σs hargs
    refine (gives_apply (hu.1.mono hn₂) hus.1).imp ?_ ?_
    · rintro n' w - ⟨hw, hty, hread⟩
      refine ⟨hw, means_app_iff.mpr ⟨_, _, _, ?_, hus.2, (hread scope).symm⟩⟩
      exact hty ▸ hu.2
    · intro hfails d τ hmeans
      obtain ⟨e, es, σs, hhead, hargs, -⟩ := means_app_iff.mp hmeans
      obtain ⟨rfl, hty⟩ := hhead.unique hu.2
      obtain ⟨rfl, htys⟩ := hargs.unique hus.2
      exact hfails τ (by rw [← hty, htys])
  | metaApp z args ihs =>
    rw [Resolve.term]
    refine (gives_metaVar hs h z).bind ?_ fun w n₁ hn₁ hw => ?_
    · intro hfails d τ hmeans
      obtain ⟨w, hw⟩ := hmeans.exists_metaVar
      exact hfails w hw
    obtain ⟨hw, hz⟩ := hw
    refine (gives_terms (h.mono hn₁) fun t ht => ihs t ht).bind ?_ fun us n₂ hn₂ hus => ?_
    · intro hfails d τ hmeans
      obtain ⟨es, hargs, -⟩ := (means_metaApp_iff hz).mp hmeans
      exact hfails es _ hargs
    refine (gives_applyMeta (hw.trans_le hn₂) hus.1).imp ?_ ?_
    · rintro n' u - ⟨hu, fits, hty, hread⟩
      exact ⟨hu, (means_metaApp_iff hz).mpr ⟨_, fits ▸ hus.2, (hread scope).symm, hty.symm⟩⟩
    · intro hfails d τ hmeans
      obtain ⟨es, hargs, -⟩ := (means_metaApp_iff hz).mp hmeans
      exact hfails (hargs.unique hus.2).2.symm
  | lambda x ty body ih =>
    rw [Resolve.term]
    let v : Var := ⟨n, x, ty, true⟩
    have hmake : Gives n (fun n' w => n' = n + 1 ∧ w = v) False
        (attempt (liftM (Var.make x ty true) : Resolve Var) n) :=
      .ok (Nat.le_succ n) ⟨rfl, rfl⟩
    refine hmake.bind False.elim ?_
    rintro - - - ⟨rfl, rfl⟩
    refine (ih (h.push x ty)).bind ?_ fun u n₁ hn₁ hu => ?_
    · intro hfails d τ hmeans
      obtain ⟨e, ρ, hbody, -⟩ := (means_lambda_iff (v := v)).mp hmeans
      exact hfails e ρ hbody
    refine (gives_abstract hu.1 (Nat.lt_of_succ_le hn₁) rfl).imp ?_ False.elim
    rintro n' w - ⟨hw, hty, hread⟩
    exact ⟨hw, (means_lambda_iff (v := v)).mpr ⟨_, _, hu.2, (hread scope).symm, hty.symm⟩⟩

/-- A term that stands by itself is resolved to its meaning. -/
theorem gives_closed (hs : s.DrawnBefore n) (t : Expr) :
    Gives n (fun n' u => Sound n' u ∧ Means s [] t u.nameless u.ty) (∀ d τ, ¬ Means s [] t d τ)
      (attempt (s.term t) n) :=
  gives_term hs ⟨le_rfl, List.nodup_nil, by simp, by simp⟩ t

end Resolving

/-! ## Tables -/

theorem Symbols.DrawnBefore.mono {s : Symbols} {m n : Nat} (h : s.DrawnBefore m) (hmn : m ≤ n) :
    s.DrawnBefore n := by
  intro name sym hsym
  have hdrawn := h name sym hsym
  cases sym with
  | const => trivial
  | var | metaVar => exact Nat.lt_of_lt_of_le hdrawn hmn

namespace Scoping

variable {α β : Type} {s : Symbols} {n : Nat}

/-- The outcome, the symbols and the next identifier. -/
def exec (m : Scoping α) (s : Symbols) (n : Nat) : (Except ResolveError α × Symbols) × Nat :=
  (m.run.run s).run n

theorem exec_bind (m : Scoping α) (f : α → Scoping β) (s : Symbols) (n : Nat) :
    (m >>= f).exec s n =
      match m.exec s n with
      | ((.ok a, s'), n') => (f a).exec s' n'
      | ((.error e, s'), n') => ((.error e, s'), n') := by
  unfold exec
  rw [ExceptT.run_bind, StateT.run_bind, Fresh.run_bind]
  rcases (m.run.run s).run n with ⟨⟨_ | _, _⟩, _⟩ <;> rfl

theorem exec_get_bind (f : Symbols → Scoping α) (s : Symbols) (n : Nat) :
    ((get : Scoping Symbols) >>= f).exec s n = (f s).exec s n := rfl

theorem exec_term (t : Expr) (s : Symbols) (n : Nat) :
    (term t).exec s n = (((attempt (s.term t) n).1, s), (attempt (s.term t) n).2) := rfl

theorem exec_declare (name : String) (sym : Symbol) (s : Symbols) (n : Nat) :
    (declare name sym).exec s n =
      match s.declare name sym with
      | .ok s' => ((.ok (), s'), n)
      | .error e => ((.error (.scope e), s), n) := by
  unfold declare
  rw [exec_get_bind]
  cases s.declare name sym <;> rfl

/-- The symbols stay, and identifiers go up. -/
def Leaves (s : Symbols) (m : Scoping α) : Prop :=
  ∀ n, s.DrawnBefore n → (m.exec s n).1.2 = s ∧ n ≤ (m.exec s n).2

theorem leaves_pure (a : α) : Leaves s (pure a : Scoping α) := fun _ _ => ⟨rfl, le_rfl⟩

theorem leaves_throw (e : ResolveError) : Leaves s (throw e : Scoping α) :=
  fun _ _ => ⟨rfl, le_rfl⟩

theorem Leaves.bind {m : Scoping α} {f : α → Scoping β} (hm : Leaves s m)
    (hf : ∀ a, Leaves s (f a)) : Leaves s (m >>= f) := by
  intro n hs
  obtain ⟨hsame, hn⟩ := hm n hs
  rw [exec_bind]
  rcases hrun : m.exec s n with ⟨⟨e | a, s'⟩, n'⟩
  · rw [hrun] at hsame hn
    exact ⟨hsame, hn⟩
  · rw [hrun] at hsame hn
    obtain rfl : s' = s := hsame
    obtain ⟨hsame, hn'⟩ := hf a n' (hs.mono hn)
    exact ⟨hsame, Nat.le_trans hn hn'⟩

theorem leaves_term (t : Expr) : Leaves s (term t) := by
  intro n hs
  rw [exec_term]
  have hgives := gives_closed hs t
  generalize attempt (s.term t) n = r at hgives
  cases hgives with
  | ok hn | error hn => exact ⟨rfl, hn⟩

theorem leaves_get_bind {f : Symbols → Scoping α} (hf : Leaves s (f s)) :
    Leaves s ((get : Scoping Symbols) >>= f) := hf

theorem leaves_key (name : String) : Leaves s (key name) := by
  refine leaves_get_bind ?_
  cases s.get? name with
  | none => exact leaves_throw _
  | some sym =>
    cases sym with
    | const => exact leaves_throw _
    | var | metaVar => exact leaves_pure _

theorem leaves_images (σ : Subst) (entries : List (String × Expr)) :
    Leaves s (images σ entries) := by
  induction entries generalizing σ with
  | nil => exact leaves_pure σ
  | cons entry entries ih =>
    obtain ⟨name, t⟩ := entry
    refine (leaves_key name).bind fun r => (leaves_term t).bind fun t => ?_
    cases σ.insert r t with
    | ok σ' => exact ih σ'
    | error e => exact leaves_throw _

end Scoping

/-- What commands keep of a table: everything in it has been drawn, and no variable in it is a
binder. -/
structure Symbols.Declared (n : Nat) (s : Symbols) : Prop where
  drawn : s.DrawnBefore n
  plain : s.Plain

section Tables

open Scoping

variable {s : Symbols} {n : Nat}

theorem declared_empty (n : Nat) : Symbols.Declared n ∅ := ⟨nofun, nofun⟩

theorem Symbols.Declared.declare {name : String} {sym : Symbol} {s' : Symbols} (h : s.Declared n)
    (hdrawn : sym.DrawnBefore n) (hplain : ∀ x, sym = .var x → x.binder = false)
    (hdeclare : s.declare name sym = .ok s') : s'.Declared n := by
  unfold Symbols.declare at hdeclare
  split at hdeclare
  · cases hdeclare
  · cases hdeclare
    constructor
    · intro y other hy
      rw [get?_cons] at hy
      split at hy
      · exact Option.some.inj hy ▸ hdrawn
      · exact h.drawn y other hy
    · intro y x hy
      rw [get?_cons] at hy
      split at hy
      · exact hplain x (Option.some.inj hy)
      · exact h.plain y x hy

/-- A declaration gives no query. -/
theorem Symbols.Declared.exec_declaration {name : String} {sym : Symbol} (h : s.Declared n)
    (hdrawn : sym.DrawnBefore n) (hplain : ∀ x, sym = .var x → x.binder = false) :
    let r := (do Scoping.declare name sym; return none : Scoping (Option Query)).exec s n
    r.1.2.Declared r.2 := by
  dsimp only
  rw [exec_bind, Scoping.exec_declare]
  cases hdeclare : s.declare name sym with
  | ok s' => exact h.declare hdrawn hplain hdeclare
  | error e => exact h

theorem Symbols.Declared.mono (h : s.Declared n) {n' : Nat} (hn : n ≤ n') : s.Declared n' :=
  ⟨h.drawn.mono hn, h.plain⟩

theorem Symbols.Declared.leaves {α : Type} {m : Scoping α} (h : s.Declared n) (hm : Leaves s m) :
    (m.exec s n).1.2.Declared (m.exec s n).2 := by
  obtain ⟨hsame, hn⟩ := hm n h.drawn
  rw [hsame]
  exact h.mono hn

/-- What commands keep of a table, also commands that fail. -/
theorem Symbols.Declared.ofCommand (h : s.Declared n) (c : Command) :
    ((ofCommand c).exec s n).1.2.Declared ((ofCommand c).exec s n).2 := by
  cases c with
  | const c ty =>
    have hdrawn : Symbol.DrawnBefore n (.const { name := c, ty }) := trivial
    exact h.exec_declaration hdrawn nofun
  | var x ty =>
    have hdrawn : Symbol.DrawnBefore (n + 1) (.var ⟨n, x, ty, false⟩) := Nat.lt_succ_self n
    refine (h.mono (Nat.le_succ n)).exec_declaration hdrawn ?_
    rintro _ ⟨⟩
    rfl
  | metaVar z inputs output =>
    have hdrawn : Symbol.DrawnBefore (n + 1) (.metaVar ⟨n, z, inputs, output⟩) :=
      Nat.lt_succ_self n
    exact (h.mono (Nat.le_succ n)).exec_declaration hdrawn nofun
  | matching p o | unify p o | alpha p o =>
    exact h.leaves ((leaves_term p).bind fun _ => (leaves_term o).bind fun _ => leaves_pure _)
  | subst t entries =>
    exact h.leaves ((leaves_term t).bind fun _ => (leaves_images ∅ entries).bind fun _ =>
      leaves_pure _)
  | positions t => exact h.leaves ((leaves_term t).bind fun _ => leaves_pure _)

/-- The tables that commands lead to, with the next identifier. Other identifiers may be drawn
between two commands. -/
inductive Reachable : Nat → Symbols → Prop
  | empty (n : Nat) : Reachable n ∅
  | draw {m n : Nat} {s : Symbols} (hmn : m ≤ n) (h : Reachable m s) : Reachable n s
  | command {n : Nat} {s : Symbols} (c : Command) (h : Reachable n s) :
      Reachable ((ofCommand c).exec s n).2 ((ofCommand c).exec s n).1.2

theorem Reachable.declared (h : Reachable n s) : s.Declared n := by
  induction h with
  | empty n => exact declared_empty n
  | draw hmn _ ih => exact ih.mono hmn
  | command c _ ih => exact ih.ofCommand c

end Tables

/-! ## Lexical scope -/

/-- Whatever table commands lead to, all in it has been drawn before and its variables are no
binders. Over a table of what has been drawn before, a term is resolved exactly if its lexical
meaning is there and has a type; it is resolved to that meaning up to the choice of bound
variables; its free variables are declared, and none is a binder if no declared one is. Terms that
differ in the choice of bound names are resolved to terms that are equal up to bound variables,
also if more identifiers have been drawn for one than for the other. -/
theorem resolve_lexically :
    (∀ n s, Reachable n s → s.DrawnBefore n ∧ s.Plain) ∧
    ∀ n (s : Symbols), s.DrawnBefore n → ∀ t : Expr,
      ((∃ u n', attempt (s.term t) n = (.ok u, n')) ↔
        ∃ d τ, s.translate [] t = some d ∧ d.typeIn [] = some τ) ∧
      (∀ u n', attempt (s.term t) n = (.ok u, n') →
        s.translate [] t = some u.nameless ∧ u.nameless.typeIn [] = some u.ty ∧
        (∀ x, .var x ∈ u.free → ∃ name, s.get? name = some (.var x)) ∧
        (s.Plain → ∀ x, .var x ∈ u.free → x.binder = false)) ∧
      ∀ t' m, t.alike t' → s.DrawnBefore m → ∀ u n', attempt (s.term t) n = (.ok u, n') →
        ∃ u' m', attempt (s.term t') m = (.ok u', m') ∧ u.alphaEquals u' := by
  refine ⟨fun n s h => ⟨h.declared.drawn, h.declared.plain⟩, fun n s hs t => ?_⟩
  have hfree : ∀ u n', attempt (s.term t) n = (.ok u, n') →
      ∀ x, .var x ∈ u.free → ∃ name, s.get? name = some (.var x) := by
    intro u n' h x hx
    obtain ⟨hsound, hmeans⟩ := (gives_closed hs t).of_ok h
    exact Symbols.exists_declared_of_mentions hmeans.translate
      ((Term.mentions_nameless hsound.wf).mpr hx)
  refine ⟨⟨?_, ?_⟩, ?_, ?_⟩
  · rintro ⟨u, n', h⟩
    have hmeans := ((gives_closed hs t).of_ok h).2
    exact ⟨_, _, hmeans.translate, hmeans.typeIn⟩
  · rintro ⟨d, τ, htranslate, htype⟩
    exact (gives_closed hs t).exists_ok fun hfails => hfails d τ ⟨htranslate, htype⟩
  · intro u n' h
    have hmeans := ((gives_closed hs t).of_ok h).2
    refine ⟨hmeans.translate, hmeans.typeIn, hfree u n' h, fun hplain x hx => ?_⟩
    obtain ⟨name, hname⟩ := hfree u n' h x hx
    exact hplain name x hname
  · intro t' m halike hm u n' h
    have hmeans := ((gives_closed hs t).of_ok h).2
    have htranslate : s.translate [] t' = some u.nameless := by
      rw [← Symbols.translate_congr halike]
      exact hmeans.translate
    obtain ⟨u', m', h'⟩ := (gives_closed hm t').exists_ok fun hfails =>
      hfails _ _ ⟨htranslate, hmeans.typeIn⟩
    refine ⟨u', m', h', (Term.alphaEquals_iff u u').mpr ?_⟩
    have hmeans' := ((gives_closed hm t').of_ok h').2
    exact Option.some.inj (htranslate.symm.trans hmeans'.translate)

/-- A variable `x` and a function `f` on its sort. -/
def unarySymbols : Symbols :=
  ⟨[("x", .var ⟨0, "x", .base "o", false⟩),
    ("f", .const { name := "f", ty := .arrow (.base "o") (.base "o") })]⟩

/-- The binder hides the declared `x`, and its name does not matter. -/
theorem resolve_hidden_name :
    let o := SimpleType.base "o"
    let t := Expr.lambda "x" o (.app (.name "f") [.name "x"])
    let t' := Expr.lambda "y" o (.app (.name "f") [.name "y"])
    unarySymbols.DrawnBefore 1 ∧ unarySymbols.Plain ∧ t.alike t' ∧ unarySymbols.DrawnBefore 5 ∧
    ∃ u n', attempt (unarySymbols.term t) 1 = (.ok u, n') ∧
      u.nameless = .lambda o (.app (.const "f" (.arrow o o)) [.bound 0]) ∧
      (∀ x, .var x ∈ u.free → x.binder = false) ∧
      ∃ u' m', attempt (unarySymbols.term t') 5 = (.ok u', m') ∧ u.alphaEquals u' := by
  intro o t t'
  have hget : ∀ name sym, unarySymbols.get? name = some sym →
      sym = .var ⟨0, "x", o, false⟩ ∨ sym = .const { name := "f", ty := .arrow o o } := by
    intro name sym h
    simp only [Symbols.get?, unarySymbols, List.lookup] at h
    split at h
    · exact .inl (Option.some.inj h).symm
    · split at h
      · exact .inr (Option.some.inj h).symm
      · cases h
  have hdrawn : ∀ n, 1 ≤ n → unarySymbols.DrawnBefore n := by
    intro n hn name sym h
    rcases hget name sym h with rfl | rfl
    · exact hn
    · trivial
  have hplain : unarySymbols.Plain := by
    intro name x h
    rcases hget name _ h with ⟨⟨⟩⟩ | h
    · rfl
    · cases h
  have hunused : ¬(Expr.app (.name "f") [.name "x"]).uses "y" := by decide
  have halike : t.alike t' := Expr.alikeIn_rename_binder hunused
  have hmeaning : unarySymbols.translate [] t =
      some (.lambda o (.app (.const "f" (.arrow o o)) [.bound 0])) := by cbv
  obtain ⟨hresolves, hlexical, hrename⟩ := resolve_lexically.2 1 unarySymbols (hdrawn 1 le_rfl) t
  obtain ⟨u, n', hu⟩ := hresolves.mpr ⟨_, .arrow o o, hmeaning, by cbv⟩
  obtain ⟨htranslate, -, -, hfree⟩ := hlexical u n' hu
  exact ⟨hdrawn 1 le_rfl, hplain, halike, hdrawn 5 (by decide), u, n', hu,
    Option.some.inj (htranslate.symm.trans hmeaning), hfree hplain,
    hrename t' 5 halike (hdrawn 5 (by decide)) u n' hu⟩

end TermAlgebra.Query
