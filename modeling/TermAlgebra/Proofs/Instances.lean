import TermAlgebra.Proofs.Expansion

/-!
# Instances by solvable variables

Unification binds variables that are no binders and meta-variables without inputs; other
meta-variables stay where they are. Then a reading is the term with a value in the place of every
free replaceable: it has what occurs in the values, it is larger than each of them, and a
substitution whose images the values agree with makes no difference to it.
-/

namespace TermAlgebra

namespace Nameless

/-! ## Size -/

mutual

def size : Nameless → Nat
  | literal _ => 1
  | const _ _ => 1
  | free _ => 1
  | bound _ => 1
  | lambda _ body => 1 + body.size
  | app head args => 1 + head.size + sizeAll args
  | metaApp _ args => 1 + sizeAll args

def sizeAll : List Nameless → Nat
  | [] => 0
  | t :: ts => t.size + sizeAll ts

end

theorem size_pos (t : Nameless) : 0 < t.size := by
  cases t <;> rw [size] <;> omega

theorem sizeAll_append (ss ts : List Nameless) : sizeAll (ss ++ ts) = sizeAll ss + sizeAll ts := by
  induction ss with
  | nil => simp [sizeAll]
  | cons s ss ih => rw [List.cons_append, sizeAll, sizeAll, ih, Nat.add_assoc]

theorem size_le_sizeAll {t : Nameless} {ts : List Nameless} (h : t ∈ ts) :
    t.size ≤ sizeAll ts := by
  induction ts with
  | nil => cases h
  | cons s ts ih =>
    rw [sizeAll]
    rcases List.mem_cons.mp h with rfl | h
    · exact Nat.le_add_right _ _
    · exact Nat.le_trans (ih h) (Nat.le_add_left _ _)

theorem sizeAll_map_congr {f g : Nameless → Nameless} {ts : List Nameless}
    (h : ∀ t ∈ ts, (f t).size = (g t).size) : sizeAll (ts.map f) = sizeAll (ts.map g) := by
  induction ts with
  | nil => rfl
  | cons t ts ih =>
    rw [List.map_cons, List.map_cons, sizeAll, sizeAll, h t (by simp),
      ih fun s hs => h s (by simp [hs])]

theorem size_relabel (t : Nameless) (ρ : Label → Label) : (t.relabel ρ).size = t.size := by
  have hlabel : ∀ l : Label, (ofLabel l).size = 1 := fun l => by cases l <;> rfl
  induction t using Nameless.induction generalizing ρ with
  | literal v => rfl
  | const c σ => rfl
  | free x => exact hlabel _
  | bound i => exact hlabel _
  | lambda σ body ih => rw [relabel, size, size, ih]
  | app head args ih ihs =>
    have hargs := sizeAll_map_congr (g := id) fun t ht => ihs t ht ρ
    rw [List.map_id] at hargs
    rw [relabel, relabelAll_eq_map, size, size, ih, hargs]
  | metaApp z args ihs =>
    have hargs := sizeAll_map_congr (g := id) fun t ht => ihs t ht ρ
    rw [List.map_id] at hargs
    rw [relabel, relabelAll_eq_map, size, size, hargs]

theorem le_size_apply (t : Nameless) (args : List Nameless) :
    t.size + sizeAll args ≤ (t.apply args).size := by
  cases args with
  | nil => simp [sizeAll]
  | cons a as =>
    cases t with
    | app head bs =>
      rw [apply_app, size, size, sizeAll_append]
      omega
    | _ => simp only [apply, size]; omega

theorem size_apply_le (t : Nameless) (args : List Nameless) :
    (t.apply args).size ≤ 1 + t.size + sizeAll args := by
  cases args with
  | nil =>
    rw [apply_nil]
    omega
  | cons a as =>
    cases t with
    | app head bs =>
      rw [apply_app, size, size, sizeAll_append]
      omega
    | _ => simp only [apply, size]; omega

/-! ## Occurrences -/

mutual

/-- The variable or meta-variable occurs free. -/
def occurs (r : Replaceable) : Nameless → Prop
  | literal _ => False
  | const _ _ => False
  | free x => r = .var x
  | bound _ => False
  | lambda _ body => body.occurs r
  | app head args => head.occurs r ∨ occursAny r args
  | metaApp z args => r = .metaVar z ∨ occursAny r args

def occursAny (r : Replaceable) : List Nameless → Prop
  | [] => False
  | t :: ts => t.occurs r ∨ occursAny r ts

end

variable {r : Replaceable}

theorem occursAny_iff {ts : List Nameless} : occursAny r ts ↔ ∃ t ∈ ts, t.occurs r := by
  induction ts with
  | nil => simp [occursAny]
  | cons t ts ih => simp [occursAny, ih]

theorem occursAny_map {ts : List Nameless} {f : Nameless → Nameless}
    (h : ∀ t ∈ ts, (f t).occurs r ↔ t.occurs r) : occursAny r (ts.map f) ↔ occursAny r ts := by
  rw [occursAny_iff, occursAny_iff]
  constructor
  · rintro ⟨_, hft, hr⟩
    obtain ⟨t, ht, rfl⟩ := List.mem_map.mp hft
    exact ⟨t, ht, (h t ht).mp hr⟩
  · rintro ⟨t, ht, hr⟩
    exact ⟨f t, List.mem_map_of_mem ht, (h t ht).mpr hr⟩

theorem occurs_apply {t : Nameless} {args : List Nameless} :
    (t.apply args).occurs r ↔ t.occurs r ∨ ∃ a ∈ args, a.occurs r := by
  cases args with
  | nil => simp
  | cons a as =>
    cases t with
    | app head bs =>
      rw [apply_app]
      simp only [occurs, occursAny_iff, List.mem_append, or_and_right, exists_or, or_assoc]
    | _ => simp only [apply, occurs, occursAny_iff]

theorem occurs_relabel {t : Nameless} {ρ : Label → Label} (hρ : Label.Local ρ) :
    (t.relabel ρ).occurs r ↔ t.occurs r := by
  induction t using Nameless.induction generalizing ρ with
  | literal v => rfl
  | const c σ => rfl
  | free x => rw [relabel, hρ.free x, ofLabel]
  | bound i =>
    obtain ⟨j, hj⟩ := hρ.bound i
    rw [relabel, hj]
    rfl
  | lambda σ body ih => exact ih hρ.lift
  | app head args ih ihs =>
    rw [relabel, relabelAll_eq_map, occurs, occurs, ih hρ,
      occursAny_map fun t ht => ihs t ht hρ]
  | metaApp z args ihs =>
    rw [relabel, relabelAll_eq_map, occurs, occurs, occursAny_map fun t ht => ihs t ht hρ]

theorem occurs_var_iff {t : Nameless} {x : Var} : t.occurs (.var x) ↔ t.mentions x := by
  induction t using Nameless.induction with
  | literal v => rfl
  | const c σ => rfl
  | free y =>
    rw [occurs, mentions, Replaceable.var.injEq]
    exact eq_comm
  | bound i => rfl
  | lambda σ body ih => exact ih
  | app head args ih ihs =>
    rw [occurs, mentions, occursAny_iff, mentionsAny_iff, ih]
    exact or_congr Iff.rfl (exists_congr fun t => and_congr_right fun ht => ihs t ht)
  | metaApp z args ihs =>
    rw [occurs, mentions, occursAny_iff, mentionsAny_iff]
    constructor
    · rintro (h | ⟨t, ht, h⟩)
      · cases h
      · exact ⟨t, ht, (ihs t ht).mp h⟩
    · rintro ⟨t, ht, h⟩
      exact Or.inr ⟨t, ht, (ihs t ht).mpr h⟩

end Nameless

namespace Replaceable

/-- The term that has only the replaceable in it. -/
def toTerm : Replaceable → Term
  | var x => .var x
  | metaVar z => .metaApp z []

/-- What unification may bind: no binders, and only meta-variables without inputs. -/
def Solvable (r : Replaceable) : Prop := r.binder? = none ∧ r.arity = 0

instance (r : Replaceable) : Decidable r.Solvable := inferInstanceAs (Decidable (_ ∧ _))

theorem solvable_var {x : Var} : Solvable (.var x) ↔ x.binder = false := by
  simp [Solvable, binder?, arity]

theorem solvable_metaVar {z : MetaVar} : Solvable (.metaVar z) ↔ z.inputs = [] := by
  simp [Solvable, binder?, arity, MetaVar.arity]

@[simp]
theorem free_toTerm (r : Replaceable) : r.toTerm.free = .singleton r := by
  apply OrderedSet.ext
  intro q
  cases r <;> simp [toTerm, Term.freeAll]

@[simp]
theorem bound_toTerm (r : Replaceable) : r.toTerm.bound = ∅ := by
  cases r <;> simp [toTerm, Term.boundAll]

theorem Solvable.toTerm_wellFormed {r : Replaceable} (h : r.Solvable) : r.toTerm.WellFormed := by
  cases r with
  | var x => exact .var x
  | metaVar z =>
    refine .metaApp (solvable_metaVar.mp h).symm (by simp) ?_
    simp [Term.Apart, Term.boundAll]

theorem Solvable.toTerm_sound {r : Replaceable} {n : Nat} (h : r.Solvable) (hr : r.id < n) :
    Term.Sound n r.toTerm := by
  refine ⟨⟨fun q hq => ?_, by simp⟩, h.toTerm_wellFormed⟩
  rw [free_toTerm, OrderedSet.mem_singleton] at hq
  rwa [hq]

end Replaceable

namespace Valuation

/-! ## Values -/

/-- What a variable reads as, or a meta-variable without arguments. -/
def value (V : Valuation) : Replaceable → Nameless
  | .var x => V.var x
  | .metaVar z => V.metaApp z []

theorem read_toTerm (V : Valuation) (r : Replaceable) : r.toTerm.read V = V.value r := by
  cases r with
  | var x => rfl
  | metaVar z => exact Term.read_metaApp V z []

theorem value_relabel (V : Valuation) (r : Replaceable) (ρ : Nameless.Label → Nameless.Label) :
    (V.relabel ρ).value r = (V.value r).relabel ρ := by
  cases r with
  | var x => rfl
  | metaVar z => exact (Term.metaApp_relabel V z [] ρ).symm

theorem value_under_self (V : Valuation) (x : Var) : (V.under x).value (.var x) = .bound 0 :=
  if_pos rfl

theorem value_under {V : Valuation} {x : Var} {r : Replaceable} (h : r ≠ .var x) :
    (V.under x).value r = (V.value r).weaken := by
  rw [Nameless.weaken, ← value_relabel]
  cases r with
  | var v =>
    have hvx : v ≠ x := by simpa using h
    exact if_neg hvx
  | metaVar z => rfl

theorem occurs_plain_value {r q : Replaceable} : (plain.value r).occurs q ↔ q = r := by
  cases r <;> simp [value, plain, metaApp, Nameless.occurs, Nameless.occursAny]

/-- Meta-variables with inputs stand for themselves. -/
def Rigid (V : Valuation) : Prop := ∀ z : MetaVar, z.inputs ≠ [] → V.metaVar z = none

theorem rigid_plain : plain.Rigid := fun _ _ => rfl

theorem Rigid.under {V : Valuation} (h : V.Rigid) (x : Var) : (V.under x).Rigid := by
  intro z hz
  simp [Valuation.under, h z hz]

end Valuation

namespace Term

open TermAlgebra.Valuation

variable {V W : Valuation}

/-- A meta-variable has no inputs and no arguments, or it has inputs and stays. -/
theorem metaApp_cases {z : MetaVar} {args : List Term} (fits : args.map ty = z.inputs) :
    z.inputs = [] ∧ args = [] ∨ z.inputs ≠ [] ∧ args ≠ [] := by
  rw [← fits]
  cases args <;> simp

theorem read_rigid_metaApp (hV : V.Rigid) {z : MetaVar} (hz : z.inputs ≠ []) (args : List Term) :
    (metaApp z args).read V = .metaApp z (args.map (read V)) := by
  rw [read_metaApp, Valuation.metaApp, hV z hz]

/-! ## What occurs in a reading -/

theorem occurs_map_read {args : List Term} {q : Replaceable}
    (h : ∀ t ∈ args, (t.read V).occurs q ↔ ∃ r ∈ t.free, (V.value r).occurs q) :
    (∃ a ∈ args.map (read V), a.occurs q) ↔ ∃ r ∈ freeAll args, (V.value r).occurs q := by
  constructor
  · rintro ⟨_, ha, hq⟩
    obtain ⟨t, ht, rfl⟩ := List.mem_map.mp ha
    obtain ⟨r, hr, hq⟩ := (h t ht).mp hq
    exact ⟨r, mem_freeAll.mpr ⟨t, ht, hr⟩, hq⟩
  · rintro ⟨r, hr, hq⟩
    obtain ⟨t, ht, hr⟩ := mem_freeAll.mp hr
    exact ⟨t.read V, List.mem_map_of_mem ht, (h t ht).mpr ⟨r, hr, hq⟩⟩

theorem occurs_read {t : Term} (ht : t.WellFormed) (hV : V.Rigid) {q : Replaceable} :
    (t.read V).occurs q ↔ ∃ r ∈ t.free, (V.value r).occurs q := by
  induction ht generalizing V with
  | literal v => simp [read, Nameless.occurs]
  | const c => simp [read, Nameless.occurs]
  | var x => simp [read, value]
  | @lambda x body _ _ _ ih =>
    rw [read, Nameless.occurs, ih (hV.under x)]
    constructor
    · rintro ⟨r, hr, hq⟩
      have hrx : r ≠ .var x := by
        rintro rfl
        rw [value_under_self] at hq
        exact hq
      rw [value_under hrx, Nameless.weaken, Nameless.occurs_relabel (Nameless.Label.local_shift 1)] at hq
      exact ⟨r, free_of_body hr hrx, hq⟩
    · rintro ⟨r, hr, hq⟩
      rw [free_lambda, OrderedSet.mem_erase] at hr
      refine ⟨r, hr.2, ?_⟩
      rwa [value_under hr.1, Nameless.weaken, Nameless.occurs_relabel (Nameless.Label.local_shift 1)]
  | @app head args _ _ _ _ _ _ ih ihs =>
    rw [read_app, Nameless.occurs_apply, ih hV, occurs_map_read fun t ht => ihs t ht hV, free_app]
    simp only [OrderedSet.mem_union, or_and_right, exists_or]
  | @metaApp z args fits _ _ ihs =>
    rcases metaApp_cases fits with ⟨_, rfl⟩ | ⟨hz, _⟩
    · rw [show metaApp z [] = Replaceable.toTerm (.metaVar z) from rfl, read_toTerm]
      simp
    · have hvalue : (V.value (.metaVar z)).occurs q ↔ q = .metaVar z := by
        simp [value, Valuation.metaApp, hV z hz, Nameless.occurs, Nameless.occursAny]
      rw [read_rigid_metaApp hV hz, Nameless.occurs, Nameless.occursAny_iff,
        occurs_map_read fun t ht => ihs t ht hV, free_metaApp]
      simp only [OrderedSet.mem_insert, or_and_right, exists_or, exists_eq_left, hvalue]

theorem occurs_nameless {t : Term} (ht : t.WellFormed) {q : Replaceable} :
    t.nameless.occurs q ↔ q ∈ t.free := by
  rw [← read_plain ht, occurs_read ht rigid_plain]
  simp [occurs_plain_value]

/-! ## How large a reading is -/

/-- A value is smaller than the reading of any larger term that it comes into. -/
theorem size_value_lt {t : Term} (ht : t.WellFormed) (hV : V.Rigid) {r : Replaceable}
    (hr : r ∈ t.free) : t = r.toTerm ∨ (V.value r).size < (t.read V).size := by
  have hle : ∀ {s : Term} {W : Valuation},
      s = r.toTerm ∨ (W.value r).size < (s.read W).size → (W.value r).size ≤ (s.read W).size := by
    rintro s W (rfl | h)
    · simp only [read_toTerm, Nat.le_refl]
    · exact Nat.le_of_lt h
  induction ht generalizing V with
  | literal v => simp at hr
  | const c => simp at hr
  | var x =>
    rw [free_var, OrderedSet.mem_singleton] at hr
    exact Or.inl (by rw [hr]; rfl)
  | @lambda x body _ _ _ ih =>
    rw [free_lambda, OrderedSet.mem_erase] at hr
    have hbody := hle (ih (hV.under x) hr.2)
    rw [value_under hr.1, Nameless.weaken, Nameless.size_relabel] at hbody
    rw [read, Nameless.size]
    exact Or.inr (by omega)
  | @app head args _ nonempty _ _ _ _ ih ihs =>
    rw [free_app, OrderedSet.mem_union, mem_freeAll] at hr
    have happ := Nameless.le_size_apply (head.read V) (args.map (read V))
    rw [read_app]
    refine Or.inr (Nat.lt_of_lt_of_le ?_ happ)
    rcases hr with hr | ⟨t, ht, hr⟩
    · have hhead := hle (ih hV hr)
      obtain ⟨a, as, rfl⟩ := List.exists_cons_of_ne_nil nonempty
      have ha := (a.read V).size_pos
      rw [List.map_cons, Nameless.sizeAll]
      omega
    · have harg := hle (ihs t ht hV hr)
      have hmem := Nameless.size_le_sizeAll (List.mem_map_of_mem (f := read V) ht)
      have hhead := (head.read V).size_pos
      omega
  | @metaApp z args fits _ _ ihs =>
    rcases metaApp_cases fits with ⟨_, rfl⟩ | ⟨hz, hne⟩
    · rw [free_metaApp, OrderedSet.mem_insert, mem_freeAll] at hr
      rcases hr with rfl | ⟨_, ht, _⟩
      · exact Or.inl rfl
      · cases ht
    · rw [free_metaApp, OrderedSet.mem_insert, mem_freeAll] at hr
      rw [read_rigid_metaApp hV hz, Nameless.size]
      rcases hr with rfl | ⟨t, ht, hr⟩
      · obtain ⟨a, as, rfl⟩ := List.exists_cons_of_ne_nil hne
        have ha := (a.read V).size_pos
        have hvalue : (V.value (.metaVar z)).size = 1 := by
          simp [value, Valuation.metaApp, hV z hz, Nameless.size, Nameless.sizeAll]
        rw [hvalue, List.map_cons, Nameless.sizeAll]
        exact Or.inr (by omega)
      · have harg := hle (ihs t ht hV hr)
        have hmem := Nameless.size_le_sizeAll (List.mem_map_of_mem (f := read V) ht)
        exact Or.inr (by omega)

theorem sizeAll_map_le {ts : List Term} {f : Term → Nameless} {m : Nat}
    (h : ∀ t ∈ ts, (f t).size ≤ t.size * m) : Nameless.sizeAll (ts.map f) ≤ sizeAll ts * m := by
  induction ts with
  | nil => simp [Nameless.sizeAll]
  | cons t ts ih =>
    have ht := h t (by simp)
    have hts := ih fun s hs => h s (by simp [hs])
    rw [List.map_cons, Nameless.sizeAll, sizeAll, Nat.add_mul]
    omega

/-- A reading grows with the values at most. -/
theorem size_read_le {t : Term} (ht : t.WellFormed) (hV : V.Rigid) {m : Nat} (hm : 0 < m)
    (h : ∀ r ∈ t.free, (V.value r).size ≤ m) : (t.read V).size ≤ t.size * m := by
  induction ht generalizing V with
  | literal v =>
    rw [read, Nameless.size, size_literal, Nat.one_mul]
    exact hm
  | const c =>
    rw [read, Nameless.size, size_const, Nat.one_mul]
    exact hm
  | var x =>
    rw [size_var, Nat.one_mul]
    exact h (.var x) (by simp)
  | @lambda x body _ _ _ ih =>
    have hbody : (body.read (V.under x)).size ≤ body.size * m := by
      refine ih (hV.under x) fun r hr => ?_
      by_cases hrx : r = .var x
      · rw [hrx, value_under_self]
        exact hm
      · rw [value_under hrx, Nameless.weaken, Nameless.size_relabel]
        exact h r (free_of_body hr hrx)
    rw [read, Nameless.size, size_lambda, Nat.add_mul]
    omega
  | @app head args _ _ _ _ _ _ ih ihs =>
    have hhead := ih hV fun r hr => h r (free_of_head hr)
    have hargs := sizeAll_map_le (f := read V) fun t ht =>
      ihs t ht hV fun r hr => h r (free_of_mem_app ht hr)
    have happ := Nameless.size_apply_le (head.read V) (args.map (read V))
    rw [read_app, size_app, Nat.add_mul, Nat.add_mul]
    omega
  | @metaApp z args fits _ _ ihs =>
    rcases metaApp_cases fits with ⟨_, rfl⟩ | ⟨hz, _⟩
    · rw [show metaApp z [] = Replaceable.toTerm (.metaVar z) from rfl, read_toTerm]
      have hvalue := h (.metaVar z) (by simp)
      simpa [Replaceable.toTerm, sizeAll] using hvalue
    · have hargs := sizeAll_map_le (f := read V) fun t ht =>
        ihs t ht hV fun r hr => h r (free_of_mem_metaApp ht hr)
      rw [read_rigid_metaApp hV hz, Nameless.size, size_metaApp, Nat.add_mul]
      omega

theorem size_namelessIn (t : Term) (xs : List Var) : (namelessIn xs t).size = t.size := by
  have hall : ∀ {ts : List Term} {xs : List Var}, (∀ t ∈ ts, (namelessIn xs t).size = t.size) →
      Nameless.sizeAll (ts.map (namelessIn xs)) = sizeAll ts := by
    intro ts xs h
    induction ts with
    | nil => rfl
    | cons t ts ih =>
      rw [List.map_cons, Nameless.sizeAll, sizeAll, h t (by simp), ih fun s hs => h s (by simp [hs])]
  induction t using Term.induction generalizing xs with
  | literal v => rw [namelessIn, Nameless.size, size_literal]
  | const c => rw [namelessIn, Nameless.size, size_const]
  | var x =>
    rw [namelessIn, Nameless.ofVar, size_var]
    split <;> rfl
  | lambda x body ih => rw [namelessIn, Nameless.size, size_lambda, ih]
  | app head args ih ihs =>
    rw [namelessIn, namelessAllIn_eq_map, Nameless.size, size_app, ih,
      hall fun t ht => ihs t ht xs]
  | metaApp z args ihs =>
    rw [namelessIn, namelessAllIn_eq_map, Nameless.size, size_metaApp,
      hall fun t ht => ihs t ht xs]

theorem size_nameless (t : Term) : t.nameless.size = t.size := t.size_namelessIn []

/-! ## Substitution before a reading -/

/-- A reading replaces values in the nameless term. -/
theorem subst_read_rigid {t : Term} (ht : t.WellFormed) {θ : Replaceable → Option Nameless}
    (hV : V.Rigid) (hW : W.Rigid)
    (closed : ∀ r image, θ r = some image → ∀ ρ, Nameless.Label.Local ρ → image.relabel ρ = image)
    (hθ : ∀ z : MetaVar, z.inputs ≠ [] → θ (.metaVar z) = none)
    (h : ∀ r, (V.value r).subst θ = W.value r) : (t.read V).subst θ = t.read W := by
  induction ht generalizing V W with
  | literal v => rfl
  | const c => rfl
  | var x => exact h (.var x)
  | @lambda x body _ _ _ ih =>
    rw [read, read, Nameless.subst]
    congr 1
    refine ih (hV.under x) (hW.under x) fun r => ?_
    by_cases hrx : r = .var x
    · rw [hrx, value_under_self, value_under_self]
      rfl
    · rw [value_under hrx, value_under hrx, Nameless.weaken,
        ← Nameless.subst_relabel closed _ (Nameless.Label.local_shift 1), h, Nameless.weaken]
  | @app head args _ _ _ _ _ _ ih ihs =>
    have hargs : (args.map (read V)).map (.subst θ) = args.map (read W) := by
      rw [List.map_map]
      exact List.map_congr_left fun t ht => ihs t ht hV hW h
    rw [read_app, read_app, Nameless.apply_subst, ih hV hW h, hargs]
  | @metaApp z args fits _ _ ihs =>
    rcases metaApp_cases fits with ⟨_, rfl⟩ | ⟨hz, _⟩
    · rw [show metaApp z [] = Replaceable.toTerm (.metaVar z) from rfl, read_toTerm, read_toTerm]
      exact h (.metaVar z)
    · have hargs : (args.map (read V)).map (.subst θ) = args.map (read W) := by
        rw [List.map_map]
        exact List.map_congr_left fun t ht => ihs t ht hV hW h
      rw [read_rigid_metaApp hV hz, read_rigid_metaApp hW hz, Nameless.subst, hθ z hz]
      dsimp only
      rw [Nameless.substAll_eq_map, hargs]

end Term

end TermAlgebra
