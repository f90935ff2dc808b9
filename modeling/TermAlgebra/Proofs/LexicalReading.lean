import TermAlgebra.Proofs.Opening
import TermAlgebra.Proofs.Typing
import TermAlgebra.Query.Symbols

/-!
# Lexical reading of names

What the names of a term mean: a name is bound by the innermost enclosing binder of that name, and
otherwise it is what is declared. The meaning of a term is a nameless term, and no binder's name is
left in it. Main statement: terms that differ in the choice of bound names only have the same
meaning.
-/

namespace TermAlgebra

namespace SimpleType

/-- The type of what takes inputs of the given types, if it takes them. -/
def applied? : SimpleType → List SimpleType → Option SimpleType
  | τ, [] => some τ
  | .arrow σ τ, ρ :: ρs => if σ = ρ then applied? τ ρs else none
  | .base _, _ :: _ => none

theorem applied?_eq_some_iff {τ ρ : SimpleType} {σs : List SimpleType} :
    τ.applied? σs = some ρ ↔ τ = .arrows σs ρ := by
  induction σs generalizing τ with
  | nil => cases τ <;> simp [applied?, arrows]
  | cons σ σs ih =>
    cases τ with
    | base s => simp [applied?, arrows]
    | arrow σ' τ => simp [applied?, arrows, ih]

end SimpleType

namespace Nameless

mutual

/-- The type of a nameless term below binders of the given types, the innermost one first. -/
def typeIn (Γ : List SimpleType) : Nameless → Option SimpleType
  | literal v => some v.sort
  | const _ ty => some ty
  | free x => some x.ty
  | bound i => Γ[i]?
  | lambda ty body => (body.typeIn (ty :: Γ)).map (.arrow ty)
  | app head args => (head.typeIn Γ).bind fun τ => (typesIn Γ args).bind τ.applied?
  | metaApp z args => if typesIn Γ args = some z.inputs then some z.output else none

def typesIn (Γ : List SimpleType) : List Nameless → Option (List SimpleType)
  | [] => some []
  | t :: ts => do return (← t.typeIn Γ) :: (← typesIn Γ ts)

end

variable {Γ : List SimpleType}

theorem typesIn_append {ts us : List Nameless} {σs : List SimpleType} :
    typesIn Γ (ts ++ us) = some σs ↔
      ∃ τs ρs, typesIn Γ ts = some τs ∧ typesIn Γ us = some ρs ∧ τs ++ ρs = σs := by
  induction ts generalizing σs with
  | nil => simp [typesIn]
  | cons t ts ih =>
    simp only [List.cons_append, typesIn, Option.bind_eq_bind, Option.pure_def,
      Option.bind_eq_some_iff, Option.some.injEq, ih]
    constructor
    · rintro ⟨σ, ht, _, ⟨τs, ρs, hts, hus, rfl⟩, rfl⟩
      exact ⟨σ :: τs, ρs, ⟨σ, ht, τs, hts, rfl⟩, hus, rfl⟩
    · rintro ⟨_, ρs, ⟨σ, ht, τs, hts, rfl⟩, hus, rfl⟩
      exact ⟨σ, ht, τs ++ ρs, ⟨τs, ρs, hts, hus, rfl⟩, rfl⟩

theorem typeIn_app {head : Nameless} {args : List Nameless} {τ : SimpleType} :
    (app head args).typeIn Γ = some τ ↔
      ∃ σs, head.typeIn Γ = some (.arrows σs τ) ∧ typesIn Γ args = some σs := by
  simp only [typeIn, Option.bind_eq_some_iff, SimpleType.applied?_eq_some_iff]
  constructor
  · rintro ⟨_, hhead, σs, hargs, rfl⟩
    exact ⟨σs, hhead, hargs⟩
  · rintro ⟨σs, hhead, hargs⟩
    exact ⟨_, hhead, σs, hargs, rfl⟩

/-- Arguments are typed by the type of what they are given to. -/
theorem typeIn_apply {t : Nameless} {args : List Nameless} {τ : SimpleType} :
    (t.apply args).typeIn Γ = some τ ↔
      ∃ σs, t.typeIn Γ = some (.arrows σs τ) ∧ typesIn Γ args = some σs := by
  cases args with
  | nil => simp [typesIn, SimpleType.arrows]
  | cons arg args =>
    cases t with
    | app head init =>
      rw [apply_app]
      simp only [typeIn_app, typesIn_append]
      constructor
      · rintro ⟨_, hhead, σs, ρs, hinit, hargs, rfl⟩
        exact ⟨ρs, ⟨σs, by rwa [← SimpleType.arrows_append], hinit⟩, hargs⟩
      · rintro ⟨ρs, ⟨σs, hhead, hinit⟩, hargs⟩
        exact ⟨_, by rwa [SimpleType.arrows_append], σs, ρs, hinit, hargs, rfl⟩
    | _ => exact typeIn_app

end Nameless

namespace Language.Expr

/-- Induction over a term and the terms in its lists. -/
theorem induction {motive : Expr → Prop} (name : ∀ x, motive (.name x))
    (literal : ∀ v, motive (.literal v))
    (app : ∀ head args, motive head → (∀ t ∈ args, motive t) → motive (.app head args))
    (metaApp : ∀ z args, (∀ t ∈ args, motive t) → motive (.metaApp z args))
    (lambda : ∀ x ty body, motive body → motive (.lambda x ty body)) (t : Expr) : motive t :=
  @Expr.rec motive (fun ts => ∀ t ∈ ts, motive t)
    name literal app metaApp lambda (fun _ h => nomatch h)
    (fun _ _ ht hts s hs => by
      rcases List.mem_cons.1 hs with rfl | hs
      · exact ht
      · exact hts s hs) t

mutual

/-- The terms are the same up to the choice of bound names. The scopes hold the names of the
enclosing binders of each term, the innermost one first. -/
def alikeIn (xs ys : List String) : Expr → Expr → Bool
  | name x, name y => xs.idxOf? x == ys.idxOf? y && ((xs.idxOf? x).isSome || x == y)
  | literal v, literal w => v == w
  | app head args, app head' args' => head.alikeIn xs ys head' && alikeAllIn xs ys args args'
  | metaApp z args, metaApp w args' => z == w && alikeAllIn xs ys args args'
  | lambda x σ body, lambda y τ body' => σ == τ && body.alikeIn (x :: xs) (y :: ys) body'
  | _, _ => false

def alikeAllIn (xs ys : List String) : List Expr → List Expr → Bool
  | [], [] => true
  | s :: ss, t :: ts => s.alikeIn xs ys t && alikeAllIn xs ys ss ts
  | _, _ => false

end

def alike (s t : Expr) : Bool := alikeIn [] [] s t

mutual

/-- The name is used, by an occurrence or by a binder. -/
def uses (z : String) : Expr → Bool
  | name x => x == z
  | literal _ => false
  | app head args => head.uses z || anyUses z args
  | metaApp _ args => anyUses z args
  | lambda x _ body => x == z || body.uses z

def anyUses (z : String) : List Expr → Bool
  | [] => false
  | t :: ts => t.uses z || anyUses z ts

end

mutual

/-- Writes the name `y` for the occurrences of `x` that no binder in the term binds. -/
def rename (x y : String) : Expr → Expr
  | name z => name (if z = x then y else z)
  | literal v => literal v
  | app head args => app (head.rename x y) (renameAll x y args)
  | metaApp z args => metaApp z (renameAll x y args)
  | lambda z ty body => lambda z ty (if z = x then body else body.rename x y)

def renameAll (x y : String) : List Expr → List Expr
  | [] => []
  | t :: ts => t.rename x y :: renameAll x y ts

end

theorem anyUses_iff {z : String} {ts : List Expr} : anyUses z ts ↔ ∃ t ∈ ts, t.uses z := by
  induction ts with
  | nil => simp [anyUses]
  | cons t ts ih => simp [anyUses, ih]

theorem alikeAllIn_map {xs ys : List String} {f : Expr → Expr} {ts : List Expr}
    (h : ∀ t ∈ ts, t.alikeIn xs ys (f t)) : alikeAllIn xs ys ts (ts.map f) := by
  induction ts with
  | nil => rfl
  | cons t ts ih =>
    rw [List.map_cons, alikeAllIn, Bool.and_eq_true]
    exact ⟨h t List.mem_cons_self, ih fun u hu => h u (List.mem_cons_of_mem t hu)⟩

theorem renameAll_eq_map (x y : String) (ts : List Expr) :
    renameAll x y ts = ts.map (rename x y) := by
  induction ts with
  | nil => rfl
  | cons t ts ih => rw [renameAll, ih, List.map_cons]

theorem idxOf?_cons_of_ne {xs ys : List String} {z z' w : String} (hz : w ≠ z) (hz' : w ≠ z')
    (h : xs.idxOf? z = ys.idxOf? z') : (w :: xs).idxOf? z = (w :: ys).idxOf? z' := by
  rw [List.idxOf?_cons, List.idxOf?_cons, if_neg (by simpa using hz), if_neg (by simpa using hz'), h]

/-- A term is like itself where its names are bound by the same binders. -/
theorem alikeIn_self {t : Expr} {xs ys : List String}
    (h : ∀ z, t.uses z → xs.idxOf? z = ys.idxOf? z) : t.alikeIn xs ys t := by
  induction t using Expr.induction generalizing xs ys with
  | name x => simp [alikeIn, h x (by simp [uses])]
  | literal v => simp [alikeIn]
  | app head args ih ihs =>
    rw [alikeIn, Bool.and_eq_true]
    refine ⟨ih fun z hz => h z (by simp [uses, hz]), ?_⟩
    have hargs := alikeAllIn_map (f := id) fun t ht => ihs t ht fun z hz =>
      h z (by simp only [uses, Bool.or_eq_true]; exact .inr (anyUses_iff.mpr ⟨t, ht, hz⟩))
    rwa [List.map_id] at hargs
  | metaApp z args ihs =>
    rw [alikeIn, Bool.and_eq_true]
    refine ⟨beq_self_eq_true z, ?_⟩
    have hargs := alikeAllIn_map (f := id) fun t ht => ihs t ht fun z hz =>
      h z (by simp only [uses]; exact anyUses_iff.mpr ⟨t, ht, hz⟩)
    rwa [List.map_id] at hargs
  | lambda x ty body ih =>
    rw [alikeIn, Bool.and_eq_true]
    refine ⟨beq_self_eq_true ty, ih fun z hz => ?_⟩
    by_cases hx : x = z
    · simp [hx, List.idxOf?_cons]
    · exact idxOf?_cons_of_ne hx hx (h z (by simp [uses, hz]))

/-- A new name for a binder around the term, where the term does not use it yet. -/
theorem alikeIn_rename {t : Expr} {xs ys : List String} {x y : String} (hy : ¬ t.uses y)
    (hx : xs.idxOf? x = ys.idxOf? y) (hbound : (xs.idxOf? x).isSome)
    (h : ∀ z, t.uses z → z ≠ x → xs.idxOf? z = ys.idxOf? z) :
    t.alikeIn xs ys (t.rename x y) := by
  induction t using Expr.induction generalizing xs ys with
  | name z =>
    rw [rename]
    by_cases hz : z = x
    · simp [alikeIn, hz, ← hx, hbound]
    · simp [alikeIn, hz, h z (by simp [uses]) hz]
  | literal v => simp [alikeIn, rename]
  | app head args ih ihs =>
    simp only [uses, Bool.or_eq_true, not_or] at hy
    rw [rename, renameAll_eq_map, alikeIn, Bool.and_eq_true]
    refine ⟨ih hy.1 hx hbound fun z hz => h z (by simp [uses, hz]), alikeAllIn_map fun t ht => ?_⟩
    have huses : ∀ z, t.uses z → anyUses z args := fun z hz => anyUses_iff.mpr ⟨t, ht, hz⟩
    exact ihs t ht (fun hu => hy.2 (huses y hu)) hx hbound fun z hz =>
      h z (by simp [uses, huses z hz])
  | metaApp z args ihs =>
    rw [uses] at hy
    rw [rename, renameAll_eq_map, alikeIn, Bool.and_eq_true]
    refine ⟨beq_self_eq_true z, alikeAllIn_map fun t ht => ?_⟩
    have huses : ∀ z, t.uses z → anyUses z args := fun z hz => anyUses_iff.mpr ⟨t, ht, hz⟩
    exact ihs t ht (fun hu => hy (huses y hu)) hx hbound fun z hz =>
      h z (by simp [uses, huses z hz])
  | lambda w ty body ih =>
    simp only [uses, Bool.or_eq_true, beq_iff_eq, not_or] at hy
    rw [rename, alikeIn, Bool.and_eq_true]
    refine ⟨beq_self_eq_true ty, ?_⟩
    split
    · next hwx =>
      -- A binder of the old name ends the renaming.
      refine alikeIn_self fun z hz => ?_
      by_cases hzw : w = z
      · simp [hzw, List.idxOf?_cons]
      · exact idxOf?_cons_of_ne hzw hzw (h z (by simp [uses, hz]) fun e => hzw (hwx.trans e.symm))
    · next hwx =>
      refine ih hy.2 (idxOf?_cons_of_ne hwx hy.1 hx) ?_ fun z hz hzx => ?_
      · rw [List.idxOf?_cons, if_neg (by simpa using hwx), Option.isSome_map]
        exact hbound
      · by_cases hzw : w = z
        · simp [hzw, List.idxOf?_cons]
        · exact idxOf?_cons_of_ne hzw hzw (h z (by simp [uses, hz]) hzx)

/-- Renaming one binder, with all its occurrences, to a name that its body does not use. -/
theorem alikeIn_rename_binder {xs : List String} {x y : String} {ty : SimpleType} {body : Expr}
    (hy : ¬ body.uses y) :
    (lambda x ty body).alikeIn xs xs (lambda y ty (body.rename x y)) := by
  rw [alikeIn, Bool.and_eq_true]
  refine ⟨beq_self_eq_true ty, alikeIn_rename hy ?_ ?_ fun z hz hzx => ?_⟩
  · simp [List.idxOf?_cons]
  · simp [List.idxOf?_cons]
  · have hzy : y ≠ z := fun e => hy (e ▸ hz)
    rw [List.idxOf?_cons, List.idxOf?_cons, if_neg (by simpa using Ne.symm hzx),
      if_neg (by simpa using hzy)]

end Language.Expr

namespace Query

open TermAlgebra.Language (Expr)

/-- What a declared name stands for by itself. -/
def Symbol.nameless : Symbol → Nameless
  | const c => .const c.name c.ty
  | var x => .free x
  | metaVar z => .metaApp z []

namespace Symbols

mutual

/-- The meaning of a term below binders of the given names, the innermost one first. Binders hide
variables and constants, but not the meta-variable in front of brackets. -/
def translate (s : Symbols) (scope : List String) : Expr → Option Nameless
  | .name x =>
    match scope.idxOf? x with
    | some i => some (.bound i)
    | none => (s.get? x).map Symbol.nameless
  | .literal v => some (.literal v)
  | .app head args => do return (← s.translate scope head).apply (← s.translateAll scope args)
  | .metaApp z args =>
    match s.get? z with
    | some (.metaVar z) => (s.translateAll scope args).map (.metaApp z)
    | _ => none
  | .lambda x ty body => (s.translate (x :: scope) body).map (.lambda ty)

def translateAll (s : Symbols) (scope : List String) : List Expr → Option (List Nameless)
  | [] => some []
  | t :: ts => do return (← s.translate scope t) :: (← s.translateAll scope ts)

end

variable {s : Symbols} {xs ys : List String}

theorem translateAll_congr {ts us : List Expr}
    (h : ∀ t ∈ ts, ∀ u, t.alikeIn xs ys u → s.translate xs t = s.translate ys u)
    (hts : Expr.alikeAllIn xs ys ts us) : s.translateAll xs ts = s.translateAll ys us := by
  induction ts generalizing us with
  | nil =>
    cases us with
    | nil => rfl
    | cons u us => cases hts
  | cons t ts ih =>
    cases us with
    | nil => cases hts
    | cons u us =>
      rw [Expr.alikeAllIn, Bool.and_eq_true] at hts
      rw [translateAll, translateAll, h t List.mem_cons_self u hts.1,
        ih (fun v hv => h v (List.mem_cons_of_mem t hv)) hts.2]

/-- Bound names leave no trace in the meaning. -/
theorem translate_congr {t u : Expr} (h : t.alikeIn xs ys u) :
    s.translate xs t = s.translate ys u := by
  induction t using Expr.induction generalizing xs ys u with
  | name x =>
    cases u with
    | name y =>
      simp only [Expr.alikeIn, Bool.and_eq_true, Bool.or_eq_true, beq_iff_eq] at h
      obtain ⟨hidx, hname⟩ := h
      rw [translate, translate, ← hidx]
      cases hx : xs.idxOf? x with
      | some i => rfl
      | none =>
        rw [hx] at hname
        rw [hname.resolve_left (by simp)]
    | _ => cases h
  | literal v =>
    cases u with
    | literal w =>
      simp only [Expr.alikeIn, beq_iff_eq] at h
      rw [translate, translate, h]
    | _ => cases h
  | app head args ih ihs =>
    cases u with
    | app head' args' =>
      rw [Expr.alikeIn, Bool.and_eq_true] at h
      rw [translate, translate, ih h.1, translateAll_congr (fun t ht u hu => ihs t ht hu) h.2]
    | _ => cases h
  | metaApp z args ihs =>
    cases u with
    | metaApp w args' =>
      simp only [Expr.alikeIn, Bool.and_eq_true, beq_iff_eq] at h
      rw [translate, translate, h.1, translateAll_congr (fun t ht u hu => ihs t ht hu) h.2]
    | _ => cases h
  | lambda x σ body ih =>
    cases u with
    | lambda y τ body' =>
      simp only [Expr.alikeIn, Bool.and_eq_true, beq_iff_eq] at h
      rw [translate, translate, h.1, ih h.2]
    | _ => cases h

theorem exists_of_mem_translateAll {ts : List Expr} {ds : List Nameless} {d : Nameless}
    (h : s.translateAll xs ts = some ds) (hd : d ∈ ds) :
    ∃ t ∈ ts, s.translate xs t = some d := by
  induction ts generalizing ds with
  | nil =>
    cases h
    cases hd
  | cons t ts ih =>
    simp only [translateAll, Option.bind_eq_bind, Option.pure_def, Option.bind_eq_some_iff] at h
    obtain ⟨e, ht, es, hts, ⟨⟩⟩ := h
    rcases List.mem_cons.mp hd with rfl | hd
    · exact ⟨t, List.mem_cons_self, ht⟩
    · obtain ⟨u, hu, htranslate⟩ := ih hts hd
      exact ⟨u, List.mem_cons_of_mem t hu, htranslate⟩

/-- The free variables of a meaning are declared. -/
theorem exists_declared_of_mentions {t : Expr} {d : Nameless} (h : s.translate xs t = some d)
    {x : Var} (hx : d.mentions x) : ∃ name, s.get? name = some (.var x) := by
  induction t using Expr.induction generalizing xs d with
  | name y =>
    rw [translate] at h
    split at h
    · cases h
      cases hx
    · obtain ⟨sym, hsym, rfl⟩ := Option.map_eq_some_iff.mp h
      cases sym with
      | var z =>
        obtain rfl : z = x := hx
        exact ⟨y, hsym⟩
      | const | metaVar => cases hx
  | literal v =>
    cases h
    cases hx
  | app head args ih ihs =>
    simp only [translate, Option.bind_eq_bind, Option.pure_def, Option.bind_eq_some_iff] at h
    obtain ⟨e, hhead, es, hargs, ⟨⟩⟩ := h
    rcases Nameless.mentions_apply.mp hx with hx | ⟨a, ha, hx⟩
    · exact ih hhead hx
    · obtain ⟨t, ht, htranslate⟩ := exists_of_mem_translateAll hargs ha
      exact ihs t ht htranslate hx
  | metaApp z args ihs =>
    rw [translate] at h
    split at h
    · obtain ⟨es, hargs, rfl⟩ := Option.map_eq_some_iff.mp h
      rw [Nameless.mentions, Nameless.mentionsAny_iff] at hx
      obtain ⟨a, ha, hx⟩ := hx
      obtain ⟨t, ht, htranslate⟩ := exists_of_mem_translateAll hargs ha
      exact ihs t ht htranslate hx
    · cases h
  | lambda y ty body ih =>
    rw [translate] at h
    obtain ⟨e, hbody, rfl⟩ := Option.map_eq_some_iff.mp h
    exact ih hbody hx

end Symbols

end Query

end TermAlgebra
