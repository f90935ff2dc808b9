import TermAlgebra.Proofs.Reading

/-!
# Opening and closing

Opening puts free variables in the place of the outermost loose indices, closing does the reverse.
Main statement: what does not mention the variables is determined by its opening.
-/

namespace TermAlgebra

namespace Nameless

/-! ## Free variables -/

mutual

/-- The variable occurs free. -/
def mentions (x : Var) : Nameless → Prop
  | literal _ => False
  | const _ _ => False
  | free y => y = x
  | bound _ => False
  | lambda _ body => body.mentions x
  | app head args => head.mentions x ∨ mentionsAny x args
  | metaApp _ args => mentionsAny x args

def mentionsAny (x : Var) : List Nameless → Prop
  | [] => False
  | t :: ts => t.mentions x ∨ mentionsAny x ts

end

variable {x y : Var}

theorem mentionsAny_iff {ts : List Nameless} : mentionsAny x ts ↔ ∃ t ∈ ts, t.mentions x := by
  induction ts with
  | nil => simp [mentionsAny]
  | cons t ts ih => simp [mentionsAny, ih]

theorem mentions_apply {t : Nameless} {args : List Nameless} :
    (t.apply args).mentions x ↔ t.mentions x ∨ ∃ a ∈ args, a.mentions x := by
  cases args with
  | nil => simp
  | cons a as =>
    cases t with
    | app head bs =>
      rw [apply_app]
      simp only [mentions, mentionsAny_iff, List.mem_append, or_and_right, exists_or, or_assoc]
    | _ => simp only [apply, mentions, mentionsAny_iff]

/-- Maps of labels that agree on what occurs give the same term. -/
theorem relabel_congr {t : Nameless} {ρ κ : Label → Label}
    (hbound : ∀ i, ρ (.bound i) = κ (.bound i))
    (hfree : ∀ x, t.mentions x → ρ (.free x) = κ (.free x)) : t.relabel ρ = t.relabel κ := by
  induction t using Nameless.induction generalizing ρ κ with
  | literal v => rfl
  | const c σ => rfl
  | free x => exact congrArg ofLabel (hfree x rfl)
  | bound i => exact congrArg ofLabel (hbound i)
  | lambda σ body ih =>
    have hbody : body.relabel (Label.lift ρ) = body.relabel (Label.lift κ) := by
      apply ih
      · intro i
        cases i with
        | zero => rfl
        | succ i => exact congrArg (Label.shift 1) (hbound i)
      · exact fun x hx => congrArg (Label.shift 1) (hfree x hx)
    rw [relabel, relabel, hbody]
  | app head args ih ihs =>
    have hhead := ih hbound fun x hx => hfree x (Or.inl hx)
    have hargs : args.map (relabel ρ) = args.map (relabel κ) :=
      List.map_congr_left fun t ht => ihs t ht hbound fun x hx =>
        hfree x (Or.inr (mentionsAny_iff.mpr ⟨t, ht, hx⟩))
    rw [relabel, relabel, relabelAll_eq_map, relabelAll_eq_map, hhead, hargs]
  | metaApp z args ihs =>
    have hargs : args.map (relabel ρ) = args.map (relabel κ) :=
      List.map_congr_left fun t ht => ihs t ht hbound fun x hx =>
        hfree x (mentionsAny_iff.mpr ⟨t, ht, hx⟩)
    rw [relabel, relabel, relabelAll_eq_map, relabelAll_eq_map, hargs]

theorem relabel_id (t : Nameless) : t.relabel id = t := by
  have hlift : Label.lift id = id := by
    funext l
    rcases l with x | _ | i <;> rfl
  induction t using Nameless.induction with
  | literal v => rfl
  | const c σ => rfl
  | free x => rfl
  | bound i => rfl
  | lambda σ body ih => rw [relabel, hlift, ih]
  | app head args ih ihs =>
    have hargs : args.map (relabel id) = args := by
      conv => rhs; rw [← List.map_id args]
      exact List.map_congr_left ihs
    rw [relabel, relabelAll_eq_map, ih, hargs]
  | metaApp z args ihs =>
    have hargs : args.map (relabel id) = args := by
      conv => rhs; rw [← List.map_id args]
      exact List.map_congr_left ihs
    rw [relabel, relabelAll_eq_map, hargs]

theorem shift_eq_free {k : Nat} {l : Label} : l.shift k = .free y ↔ l = .free y := by
  cases l <;> simp [Label.shift]

theorem mentions_of_relabel {t : Nameless} {ρ : Label → Label} (h : (t.relabel ρ).mentions y) :
    (∃ x, t.mentions x ∧ ρ (.free x) = .free y) ∨ ∃ i, ρ (.bound i) = .free y := by
  induction t using Nameless.induction generalizing ρ with
  | literal v => cases h
  | const c σ => cases h
  | free x =>
    refine Or.inl ⟨x, rfl, ?_⟩
    cases hl : ρ (.free x) with
    | free z =>
      simp only [relabel, hl, ofLabel, mentions] at h
      rw [h]
    | bound j =>
      simp only [relabel, hl, ofLabel, mentions] at h
  | bound i =>
    refine Or.inr ⟨i, ?_⟩
    cases hl : ρ (.bound i) with
    | free z =>
      simp only [relabel, hl, ofLabel, mentions] at h
      rw [h]
    | bound j =>
      simp only [relabel, hl, ofLabel, mentions] at h
  | lambda σ body ih =>
    rcases ih h with ⟨x, hx, e⟩ | ⟨i, e⟩
    · exact Or.inl ⟨x, hx, shift_eq_free.mp e⟩
    · cases i with
      | zero => cases e
      | succ i => exact Or.inr ⟨i, shift_eq_free.mp e⟩
  | app head args ih ihs =>
    rw [relabel, mentions, relabelAll_eq_map, mentionsAny_iff] at h
    rcases h with h | ⟨_, hft, h⟩
    · rcases ih h with ⟨x, hx, e⟩ | hbound
      · exact Or.inl ⟨x, Or.inl hx, e⟩
      · exact Or.inr hbound
    · obtain ⟨t, ht, rfl⟩ := List.mem_map.mp hft
      rcases ihs t ht h with ⟨x, hx, e⟩ | hbound
      · exact Or.inl ⟨x, Or.inr (mentionsAny_iff.mpr ⟨t, ht, hx⟩), e⟩
      · exact Or.inr hbound
  | metaApp z args ihs =>
    rw [relabel, mentions, relabelAll_eq_map, mentionsAny_iff] at h
    obtain ⟨_, hft, h⟩ := h
    obtain ⟨t, ht, rfl⟩ := List.mem_map.mp hft
    rcases ihs t ht h with ⟨x, hx, e⟩ | hbound
    · exact Or.inl ⟨x, mentionsAny_iff.mpr ⟨t, ht, hx⟩, e⟩
    · exact Or.inr hbound

theorem mentions_relabel {t : Nameless} {ρ : Label → Label} (h : t.mentions x)
    (e : ρ (.free x) = .free y) : (t.relabel ρ).mentions y := by
  induction t using Nameless.induction generalizing ρ with
  | literal v => cases h
  | const c σ => cases h
  | free z =>
    obtain rfl : z = x := h
    rw [relabel, e]
    rfl
  | bound i => cases h
  | lambda σ body ih => exact ih h (shift_eq_free.mpr e)
  | app head args ih ihs =>
    rw [relabel, mentions, relabelAll_eq_map, mentionsAny_iff]
    rcases h with h | h
    · exact Or.inl (ih h e)
    · obtain ⟨t, ht, h⟩ := mentionsAny_iff.mp h
      exact Or.inr ⟨t.relabel ρ, List.mem_map_of_mem ht, ihs t ht h e⟩
  | metaApp z args ihs =>
    rw [relabel, mentions, relabelAll_eq_map, mentionsAny_iff]
    obtain ⟨t, ht, h⟩ := mentionsAny_iff.mp h
    exact ⟨t.relabel ρ, List.mem_map_of_mem ht, ihs t ht h e⟩

theorem mentions_shift {k : Nat} {t : Nameless} :
    (t.relabel (Label.shift k)).mentions x ↔ t.mentions x := by
  constructor
  · intro h
    rcases mentions_of_relabel h with ⟨y, hy, e⟩ | ⟨i, e⟩
    · obtain rfl := Label.free.inj e
      exact hy
    · cases e
  · exact fun h => mentions_relabel h rfl

/-! ## Free variables of instances -/

theorem mentions_of_fill {t : Nameless} {s : Label → Nameless} (h : (t.fill s).mentions y) :
    ∃ l, (s l).mentions y ∧ ∀ x, l = .free x → t.mentions x := by
  induction t using Nameless.induction generalizing s with
  | literal v => cases h
  | const c σ => cases h
  | free x => exact ⟨.free x, h, fun z e => Label.free.inj e⟩
  | bound i => exact ⟨.bound i, h, fun z e => by cases e⟩
  | lambda σ body ih =>
    obtain ⟨l, hl, hfree⟩ := ih h
    rcases l with x | _ | i
    · exact ⟨.free x, mentions_shift.mp hl, fun z e => hfree z e⟩
    · cases hl
    · exact ⟨.bound i, mentions_shift.mp hl, fun z e => by cases e⟩
  | app head args ih ihs =>
    rw [fill, mentions_apply, fillAll_eq_map] at h
    rcases h with h | ⟨_, hft, h⟩
    · obtain ⟨l, hl, hfree⟩ := ih h
      exact ⟨l, hl, fun x e => Or.inl (hfree x e)⟩
    · obtain ⟨t, ht, rfl⟩ := List.mem_map.mp hft
      obtain ⟨l, hl, hfree⟩ := ihs t ht h
      exact ⟨l, hl, fun x e => Or.inr (mentionsAny_iff.mpr ⟨t, ht, hfree x e⟩)⟩
  | metaApp z args ihs =>
    rw [fill, mentions, fillAll_eq_map, mentionsAny_iff] at h
    obtain ⟨_, hft, h⟩ := h
    obtain ⟨t, ht, rfl⟩ := List.mem_map.mp hft
    obtain ⟨l, hl, hfree⟩ := ihs t ht h
    exact ⟨l, hl, fun x e => mentionsAny_iff.mpr ⟨t, ht, hfree x e⟩⟩

theorem mentions_fill {t : Nameless} {s : Label → Nameless} (h : t.mentions x)
    (hs : (s (.free x)).mentions y) : (t.fill s).mentions y := by
  induction t using Nameless.induction generalizing s with
  | literal v => cases h
  | const c σ => cases h
  | free z =>
    obtain rfl : z = x := h
    exact hs
  | bound i => cases h
  | lambda σ body ih => exact ih h (mentions_shift.mpr hs)
  | app head args ih ihs =>
    rw [fill, mentions_apply, fillAll_eq_map]
    rcases h with h | h
    · exact Or.inl (ih h hs)
    · obtain ⟨t, ht, h⟩ := mentionsAny_iff.mp h
      exact Or.inr ⟨t.fill s, List.mem_map_of_mem ht, ihs t ht h hs⟩
  | metaApp z args ihs =>
    rw [fill, mentions, fillAll_eq_map, mentionsAny_iff]
    obtain ⟨t, ht, h⟩ := mentionsAny_iff.mp h
    exact ⟨t.fill s, List.mem_map_of_mem ht, ihs t ht h hs⟩

theorem mentions_environment {filled : List Nameless} {l : Label}
    (h : (environment filled l).mentions y) : l = .free y ∨ ∃ a ∈ filled, a.mentions y := by
  cases l with
  | free x =>
    obtain rfl : x = y := h
    exact Or.inl rfl
  | bound i =>
    refine Or.inr ?_
    change (filled[i]?.getD (bound (i - filled.length))).mentions y at h
    cases e : filled[i]? with
    | none =>
      rw [e] at h
      cases h
    | some a =>
      rw [e] at h
      exact ⟨a, List.mem_of_getElem? e, h⟩

theorem mentions_of_openLambdas {t : Nameless} {args filled : List Nameless}
    (h : (t.openLambdas args filled).mentions y) :
    t.mentions y ∨ (∃ a ∈ args, a.mentions y) ∨ ∃ a ∈ filled, a.mentions y := by
  have hfill : (t.fill (environment filled)).mentions y →
      t.mentions y ∨ ∃ a ∈ filled, a.mentions y := by
    intro h
    obtain ⟨l, hl, hfree⟩ := mentions_of_fill h
    exact (mentions_environment hl).imp_left (hfree y)
  cases args with
  | nil =>
    rw [openLambdas_nil] at h
    exact (hfill h).imp_right Or.inr
  | cons arg args =>
    cases hl : t.isLambda with
    | true =>
      cases t with
      | lambda σ body =>
        rcases mentions_of_openLambdas (t := body) h with h | ⟨a, ha, hay⟩ | ⟨a, ha, hay⟩
        · exact Or.inl h
        · exact Or.inr (Or.inl ⟨a, by simp [ha], hay⟩)
        · rcases List.mem_cons.mp ha with rfl | ha
          · exact Or.inr (Or.inl ⟨a, by simp, hay⟩)
          · exact Or.inr (Or.inr ⟨a, ha, hay⟩)
      | _ => cases hl
    | false =>
      rw [openLambdas_of_not_lambda hl, mentions_apply] at h
      rcases h with h | h
      · exact (hfill h).imp_right Or.inr
      · exact Or.inr (Or.inl h)
termination_by args.length

theorem mentions_openLambdas {t : Nameless} {args filled : List Nameless} (h : t.mentions x) :
    (t.openLambdas args filled).mentions x := by
  have hfill : (t.fill (environment filled)).mentions x := mentions_fill h rfl
  cases args with
  | nil =>
    rw [openLambdas_nil]
    exact hfill
  | cons arg args =>
    cases hl : t.isLambda with
    | true =>
      cases t with
      | lambda σ body => exact mentions_openLambdas (t := body) h
      | _ => cases hl
    | false =>
      rw [openLambdas_of_not_lambda hl, mentions_apply]
      exact Or.inl hfill
termination_by args.length

/-! ## Opening and closing -/

/-- Loose indices become the variables, the innermost one first. -/
def opening (xs : List Var) : Label → Label
  | .free x => .free x
  | .bound i =>
    match xs[i]? with
    | some x => .free x
    | none => .bound (i - xs.length)

def closing (xs : List Var) : Label → Label
  | .free x =>
    match xs.idxOf? x with
    | some i => .bound i
    | none => .free x
  | .bound i => .bound (i + xs.length)

theorem opening_closing (xs : List Var) (l : Label) : opening xs (closing xs l) = l := by
  cases l with
  | free x =>
    cases e : xs.idxOf? x with
    | none => simp only [closing, e, opening]
    | some i =>
      obtain ⟨hi, hx, _⟩ := List.idxOf?_eq_some_iff.mp e
      have hget : xs[i]? = some x := by rw [List.getElem?_eq_getElem hi, hx]
      simp only [closing, e, opening, hget]
  | bound i => simp [closing, opening]

theorem relabel_opening_closing (xs : List Var) (t : Nameless) :
    (t.relabel (closing xs)).relabel (opening xs) = t := by
  rw [relabel_relabel]
  conv => rhs; rw [← relabel_id t]
  congr 1
  funext l
  exact opening_closing xs l

theorem closing_opening_bound {xs : List Var} (hxs : xs.Nodup) (i : Nat) :
    closing xs (opening xs (.bound i)) = .bound i := by
  cases e : xs[i]? with
  | none =>
    have hlen := List.getElem?_eq_none_iff.mp e
    have hi : i - xs.length + xs.length = i := by omega
    simp only [opening, e, closing, hi]
  | some x =>
    obtain ⟨hi, hx⟩ := List.getElem?_eq_some_iff.mp e
    have hidx : xs.idxOf? x = some i := by
      refine List.idxOf?_eq_some_iff.mpr ⟨hi, hx, fun j hj hxj => ?_⟩
      exact List.pairwise_iff_getElem.mp hxs j i (by omega) hi hj (hxj.trans hx.symm)
    simp only [opening, e, closing, hidx]

theorem closing_opening_free {xs : List Var} (hx : x ∉ xs) :
    closing xs (opening xs (.free x)) = .free x := by
  simp only [opening, closing, List.idxOf?_eq_none_iff.mpr hx]

theorem relabel_closing_opening {xs : List Var} (hxs : xs.Nodup) {t : Nameless}
    (h : ∀ x ∈ xs, ¬t.mentions x) : (t.relabel (opening xs)).relabel (closing xs) = t := by
  rw [relabel_relabel]
  conv => rhs; rw [← relabel_id t]
  apply relabel_congr
  · exact closing_opening_bound hxs
  · exact fun x hx => closing_opening_free fun hmem => h x hmem hx

theorem relabel_opening_injective {xs : List Var} (hxs : xs.Nodup) {s t : Nameless}
    (hs : ∀ x ∈ xs, ¬s.mentions x) (ht : ∀ x ∈ xs, ¬t.mentions x)
    (h : s.relabel (opening xs) = t.relabel (opening xs)) : s = t := by
  rw [← relabel_closing_opening hxs hs, h, relabel_closing_opening hxs ht]

theorem mentions_of_opening {xs : List Var} {t : Nameless}
    (h : (t.relabel (opening xs)).mentions y) : t.mentions y ∨ y ∈ xs := by
  rcases mentions_of_relabel h with ⟨x, hx, e⟩ | ⟨i, e⟩
  · obtain rfl := Label.free.inj e
    exact Or.inl hx
  · cases he : xs[i]? with
    | none =>
      simp only [opening, he] at e
      cases e
    | some x =>
      simp only [opening, he] at e
      obtain rfl := Label.free.inj e
      exact Or.inr (List.mem_of_getElem? he)

theorem opening_shift (xs : List Var) (t : Nameless) :
    (t.relabel (Label.shift xs.length)).relabel (opening xs) = t := by
  rw [relabel_relabel]
  conv => rhs; rw [← relabel_id t]
  congr 1
  funext l
  cases l with
  | free x => rfl
  | bound i => simp [Label.shift, opening]

theorem mentions_of_closing {xs : List Var} {t : Nameless}
    (h : (t.relabel (closing xs)).mentions y) : t.mentions y ∧ y ∉ xs := by
  rcases mentions_of_relabel h with ⟨x, hx, e⟩ | ⟨i, e⟩
  · cases hidx : xs.idxOf? x with
    | none =>
      simp only [closing, hidx] at e
      obtain rfl := Label.free.inj e
      exact ⟨hx, List.idxOf?_eq_none_iff.mp hidx⟩
    | some i =>
      simp only [closing, hidx] at e
      cases e
  · cases e

/-! ## Abstractions over several binders -/

/-- Abstracts over binders of the types, the first one outermost. -/
def lambdas (σs : List SimpleType) (body : Nameless) : Nameless := σs.foldr lambda body

theorem mentions_lambdas {σs : List SimpleType} {body : Nameless} :
    (lambdas σs body).mentions x ↔ body.mentions x := by
  induction σs with
  | nil => exact Iff.rfl
  | cons σ σs ih => exact ih

theorem openLambdas_lambdas {σs : List SimpleType} {args : List Nameless}
    (hlen : σs.length = args.length) (body : Nameless) (filled : List Nameless) :
    (lambdas σs body).openLambdas args filled =
      body.fill (environment (args.reverse ++ filled)) := by
  induction σs generalizing args filled with
  | nil =>
    obtain rfl : args = [] := List.length_eq_zero_iff.mp hlen.symm
    exact openLambdas_nil body filled
  | cons σ σs ih =>
    cases args with
    | nil => cases hlen
    | cons a as =>
      have hrest := ih (Nat.succ.inj hlen) (a :: filled)
      rw [List.reverse_cons, List.append_assoc, List.singleton_append]
      exact hrest

theorem instantiate_lambdas {σs : List SimpleType} {args : List Nameless}
    (hlen : σs.length = args.length) (body : Nameless) :
    (lambdas σs body).instantiate args = body.fill (environment args.reverse) := by
  rw [instantiate, openLambdas_lambdas hlen, List.append_nil]

/-- Variables fill the binders that were closed over them. -/
theorem environment_opening (xs : List Var) (l : Label) :
    environment (xs.map free) l = ofLabel (opening xs l) := by
  cases l with
  | free x => rfl
  | bound i =>
    simp only [environment, opening, List.getElem?_map, List.length_map]
    cases xs[i]? <;> rfl

end Nameless

/-! ## Readings -/

namespace Valuation

/-- What a replaceable stands for, if it has an image. -/
def image? (V : Valuation) : Replaceable → Option Nameless
  | .var v => some (V.var v)
  | .metaVar z => V.metaVar z

def update (V : Valuation) (x : Var) (image : Nameless) : Valuation where
  var v := if v = x then image else V.var v
  metaVar := V.metaVar

theorem under_opening (V : Valuation) (x y : Var) :
    (V.under x).relabel (Nameless.opening [y]) = V.update x (.free y) := by
  simp only [relabel, under, update, Valuation.mk.injEq]
  constructor
  · funext v
    split
    · rfl
    · exact Nameless.opening_shift [y] (V.var v)
  · funext z
    cases V.metaVar z with
    | none => rfl
    | some image => exact congrArg some (Nameless.opening_shift [y] image)

theorem plain_unders (xs : List Var) :
    plain.unders xs = plain.relabel (Nameless.closing xs) := by
  have hvar : (plain.unders xs).var = (plain.relabel (Nameless.closing xs)).var := by
    funext v
    rw [Term.plain_unders_var]
    simp only [relabel, plain, Nameless.relabel, Nameless.closing, Nameless.ofVar]
    cases xs.idxOf? v <;> rfl
  have hmeta : (plain.unders xs).metaVar = (plain.relabel (Nameless.closing xs)).metaVar := by
    funext z
    rw [Term.plain_unders_metaVar]
    rfl
  cases h : plain.unders xs
  rw [h] at hvar hmeta
  cases h' : plain.relabel (Nameless.closing xs)
  rw [h'] at hvar hmeta
  rw [Valuation.mk.injEq]
  exact ⟨hvar, hmeta⟩

theorem mentions_metaApp {V : Valuation} {z : MetaVar} {args : List Nameless} {y : Var}
    (h : (V.metaApp z args).mentions y) :
    (∃ image, V.metaVar z = some image ∧ image.mentions y) ∨ ∃ a ∈ args, a.mentions y := by
  unfold metaApp at h
  cases e : V.metaVar z with
  | none =>
    rw [e] at h
    exact Or.inr (Nameless.mentionsAny_iff.mp h)
  | some image =>
    rw [e] at h
    rcases Nameless.mentions_of_openLambdas h with h | h | ⟨a, ha, _⟩
    · exact Or.inl ⟨image, rfl, h⟩
    · exact Or.inr h
    · cases ha

theorem unders_append (V : Valuation) (xs ys : List Var) :
    V.unders (xs ++ ys) = (V.unders ys).unders xs := by
  induction xs with
  | nil => rfl
  | cons x xs ih => rw [List.cons_append, unders, ih, unders]

end Valuation

namespace Term

theorem read_opening (t : Term) (V : Valuation) (x y : Var) :
    (t.read (V.under x)).relabel (Nameless.opening [y]) = t.read (V.update x (.free y)) := by
  rw [← read_relabel, V.under_opening]

theorem namelessIn_eq {t : Term} (ht : t.WellFormed) (xs : List Var) :
    namelessIn xs t = t.nameless.relabel (Nameless.closing xs) := by
  rw [← read_plain_unders ht, Valuation.plain_unders, read_relabel, read_plain ht]

theorem namelessIn_opening {t : Term} (ht : t.WellFormed) (xs : List Var) :
    (namelessIn xs t).relabel (Nameless.opening xs) = t.nameless := by
  rw [namelessIn_eq ht, Nameless.relabel_opening_closing]

theorem fill_read_unders (t : Term) (xs : List Var) :
    (t.read (Valuation.plain.unders xs)).fill (Nameless.environment (xs.map .free)) =
      t.read .plain := by
  rw [← read_fill t (plain_unders_metaVar xs), Valuation.plain_unders]
  apply read_congr
  · intro v _
    change (Nameless.ofLabel (Nameless.closing xs (.free v))).fill _ = .free v
    rw [Nameless.fill_ofLabel, Nameless.environment_opening, Nameless.opening_closing]
    rfl
  · intro z _
    rfl

/-- What a reading mentions comes from what a free replaceable stands for. -/
theorem mentions_of_read {t : Term} {V : Valuation} {y : Var} (h : (t.read V).mentions y) :
    ∃ r ∈ t.free, ∃ image, V.image? r = some image ∧ image.mentions y := by
  induction t using Term.induction generalizing V with
  | literal v => cases h
  | const c => cases h
  | var x => exact ⟨.var x, by simp, V.var x, rfl, h⟩
  | lambda x body ih =>
    obtain ⟨r, hr, image, e, himage⟩ := ih h
    have hrx : r ≠ .var x := by
      rintro rfl
      simp only [Valuation.image?, Valuation.under, if_true] at e
      obtain rfl := Option.some.inj e
      cases himage
    refine ⟨r, free_of_body hr hrx, ?_⟩
    cases r with
    | var v =>
      have hvx : v ≠ x := by simpa using hrx
      simp only [Valuation.image?, Valuation.under, if_neg hvx] at e
      obtain rfl := Option.some.inj e
      exact ⟨V.var v, rfl, Nameless.mentions_shift.mp himage⟩
    | metaVar z =>
      obtain ⟨image₀, e₀, rfl⟩ := Option.map_eq_some_iff.mp e
      exact ⟨image₀, e₀, Nameless.mentions_shift.mp himage⟩
  | app head args ih ihs =>
    rw [read_app, Nameless.mentions_apply] at h
    rcases h with h | ⟨_, hft, h⟩
    · obtain ⟨r, hr, himage⟩ := ih h
      exact ⟨r, free_of_head hr, himage⟩
    · obtain ⟨t, ht, rfl⟩ := List.mem_map.mp hft
      obtain ⟨r, hr, himage⟩ := ihs t ht h
      exact ⟨r, free_of_mem_app ht hr, himage⟩
  | metaApp z args ihs =>
    rw [read_metaApp] at h
    rcases Valuation.mentions_metaApp h with ⟨image, e, h⟩ | ⟨_, hft, h⟩
    · exact ⟨.metaVar z, free_metaVar z args, image, e, h⟩
    · obtain ⟨t, ht, rfl⟩ := List.mem_map.mp hft
      obtain ⟨r, hr, himage⟩ := ihs t ht h
      exact ⟨r, free_of_mem_metaApp ht hr, himage⟩

/-- Without images of meta-variables, nothing that occurs is dropped. -/
theorem mentions_read {t : Term} {V : Valuation} (hV : ∀ z, V.metaVar z = none) {v y : Var}
    (hv : .var v ∈ t.free) (h : (V.var v).mentions y) : (t.read V).mentions y := by
  induction t using Term.induction generalizing V with
  | literal w => simp at hv
  | const c => simp at hv
  | var x =>
    obtain rfl : v = x := by simpa using hv
    exact h
  | lambda x body ih =>
    rw [free_lambda, OrderedSet.mem_erase] at hv
    have hvx : v ≠ x := by simpa using hv.1
    refine ih (V := V.under x) (by simp [Valuation.under, hV]) hv.2 ?_
    simp only [Valuation.under, if_neg hvx]
    exact Nameless.mentions_shift.mpr h
  | app head args ih ihs =>
    rw [free_app, OrderedSet.mem_union, mem_freeAll] at hv
    rw [read_app, Nameless.mentions_apply]
    rcases hv with hv | ⟨t, ht, hv⟩
    · exact Or.inl (ih hV hv h)
    · exact Or.inr ⟨t.read V, List.mem_map_of_mem ht, ihs t ht hV hv h⟩
  | metaApp z args ihs =>
    rw [free_metaApp, OrderedSet.mem_insert, mem_freeAll] at hv
    rw [read_metaApp]
    simp only [Valuation.metaApp, hV, Nameless.mentions, Nameless.mentionsAny_iff]
    rcases hv with hv | ⟨t, ht, hv⟩
    · cases hv
    · exact ⟨t.read V, List.mem_map_of_mem ht, ihs t ht hV hv h⟩

theorem mentions_nameless {t : Term} (ht : t.WellFormed) {y : Var} :
    t.nameless.mentions y ↔ .var y ∈ t.free := by
  rw [← read_plain ht]
  constructor
  · intro h
    obtain ⟨r, hr, image, e, himage⟩ := mentions_of_read h
    cases r with
    | var v =>
      obtain rfl := Option.some.inj e
      obtain rfl : v = y := himage
      exact hr
    | metaVar z => cases e
  · exact fun hy => mentions_read (V := .plain) (fun _ => rfl) hy rfl

theorem alphaEquals_iff (s t : Term) : s.alphaEquals t ↔ s.nameless = t.nameless := by
  rw [alphaEquals_eq_alphaIn]
  exact alphaIn_iff rfl s t

end Term

end TermAlgebra
