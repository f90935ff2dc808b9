import TermAlgebra.Term.TypeError

/-!
# Substitutions

Finite maps from variables and meta-variables to terms, listed by the identifiers of the keys.
The lemmas say what each operation does to the images, and which keys it leaves.
-/

namespace TermAlgebra

structure Subst where
  entries : List (Replaceable × Term)

namespace Subst

def empty : Subst := ⟨[]⟩

instance : EmptyCollection Subst := ⟨empty⟩

instance : Inhabited Subst := ⟨empty⟩

def size (σ : Subst) : Nat := σ.entries.length

def isEmpty (σ : Subst) : Bool := σ.entries.isEmpty

def keys (σ : Subst) : List Replaceable := σ.entries.map Prod.fst

def get? (σ : Subst) (r : Replaceable) : Option Term := σ.entries.lookup r

def contains (σ : Subst) (r : Replaceable) : Bool := (σ.get? r).isSome

/-- Replaces the image of a key, or puts the key in front of the first one made after it. -/
def place (r : Replaceable) (t : Term) : List (Replaceable × Term) → List (Replaceable × Term)
  | [] => [(r, t)]
  | (r', t') :: es =>
    if r' = r then (r, t) :: es
    else if r.id < r'.id then (r, t) :: (r', t') :: es
    else (r', t') :: place r t es

/-- Maps a key to a term, whatever the type of the term is. -/
def set (σ : Subst) (r : Replaceable) (t : Term) : Subst := ⟨place r t σ.entries⟩

/-- Maps a key to a term of its type. -/
def insert (σ : Subst) (r : Replaceable) (t : Term) : Except TypeError Subst :=
  if r.ty = t.ty then return σ.set r t else throw (.mismatch r.ty t.ty)

def erase (σ : Subst) (r : Replaceable) : Subst := ⟨σ.entries.filter fun e => e.1 ≠ r⟩

/-- Maps a key to a term, or leaves it without an image. -/
def update (σ : Subst) (r : Replaceable) : Option Term → Subst
  | some t => σ.set r t
  | none => σ.erase r

/-- Gives the keys that are listed with a term this term as their image. -/
def overwrite (σ : Subst) (es : List (Replaceable × Term)) : Subst :=
  ⟨σ.entries.map fun e => (e.1, (es.lookup e.1).getD e.2)⟩

/-- Some free replaceable of the term has an image. -/
def affects (σ : Subst) (t : Term) : Bool := t.free.toList.any σ.contains

/-- The variable is free in the image of some free replaceable of the term. -/
def captures (σ : Subst) (x : Var) (t : Term) : Bool :=
  (t.free.toList.filterMap σ.get?).any fun image => image.free.contains (.var x)

/-- Keys get their printed names first, then the variables of the images. -/
def text (σ : Subst) : Option String := do
  let names := Names.ofTerms (σ.keys.map fun r => (r.id, r.name)) (σ.entries.map Prod.snd)
  let texts ← σ.entries.mapM fun e =>
    (e.2.textAt names 0).map (names.get e.1.id e.1.name ++ " := " ++ ·)
  return "[" ++ String.intercalate ", " texts ++ "]"

end Subst

/-- The order in which the keys of a substitution come when all its images are gone through: any
order, and any other one for another substitution. -/
class Iteration where
  keys : Subst → List Replaceable
  perm : ∀ σ, (keys σ).Perm σ.keys

/-- By the identifiers of the keys. -/
instance Iteration.byKey : Iteration := ⟨Subst.keys, fun _ => .refl _⟩

namespace Subst

/-- The keys and their images in the order of iteration. -/
def iterate [I : Iteration] (σ : Subst) : List (Replaceable × Term) :=
  (I.keys σ).filterMap fun k => (σ.get? k).map (k, ·)

/-! ## Images -/

theorem get?_empty (q : Replaceable) : (∅ : Subst).get? q = none := rfl

theorem lookup_cons (q r : Replaceable) (t : Term) (es : List (Replaceable × Term)) :
    ((r, t) :: es).lookup q = if q = r then some t else es.lookup q := by
  rw [List.lookup_cons]
  by_cases h : q = r
  · subst h
    simp
  · rw [beq_eq_false_iff_ne.mpr h, if_neg h]

theorem lookup_place (r : Replaceable) (t : Term) (es : List (Replaceable × Term))
    (q : Replaceable) : (place r t es).lookup q = if q = r then some t else es.lookup q := by
  induction es with
  | nil => exact lookup_cons q r t []
  | cons e es ih =>
    rcases e with ⟨r', t'⟩
    unfold place
    split
    · rename_i hr
      subst hr
      rw [lookup_cons, lookup_cons]
      by_cases h : q = r' <;> simp [h]
    · split
      · exact lookup_cons q r t _
      · rename_i hr _
        rw [lookup_cons, lookup_cons, ih]
        by_cases h : q = r
        · subst h
          rw [if_pos rfl, if_pos rfl, if_neg (Ne.symm hr)]
        · rw [if_neg h, if_neg h]

theorem get?_set (σ : Subst) (r : Replaceable) (t : Term) (q : Replaceable) :
    (σ.set r t).get? q = if q = r then some t else σ.get? q :=
  lookup_place r t σ.entries q

theorem get?_erase (σ : Subst) (r q : Replaceable) :
    (σ.erase r).get? q = if q = r then none else σ.get? q := by
  change (σ.entries.filter fun e => e.1 ≠ r).lookup q = if q = r then none else σ.entries.lookup q
  induction σ.entries with
  | nil => exact (ite_self _).symm
  | cons e es ih =>
    rcases e with ⟨r', t'⟩
    by_cases hr : r' = r
    · subst hr
      rw [List.filter_cons_of_neg (by simp), ih, lookup_cons]
      by_cases h : q = r' <;> simp [h]
    · rw [List.filter_cons_of_pos (by simpa using hr), lookup_cons, lookup_cons, ih]
      by_cases h : q = r
      · subst h
        rw [if_pos rfl, if_pos rfl, if_neg (Ne.symm hr)]
      · rw [if_neg h, if_neg h]

theorem get?_update (σ : Subst) (r : Replaceable) (image : Option Term) (q : Replaceable) :
    (σ.update r image).get? q = if q = r then image else σ.get? q := by
  cases image with
  | some t => exact get?_set σ r t q
  | none => exact get?_erase σ r q

theorem lookup_overwrite (es entries : List (Replaceable × Term)) (q : Replaceable) :
    (entries.map fun e => (e.1, (es.lookup e.1).getD e.2)).lookup q =
      (entries.lookup q).map (es.lookup q).getD := by
  induction entries with
  | nil => rfl
  | cons e entries ih =>
    rw [List.map_cons, lookup_cons, lookup_cons, ih]
    by_cases h : q = e.1
    · rw [if_pos h, if_pos h, h, Option.map_some]
    · rw [if_neg h, if_neg h]

theorem get?_overwrite (σ : Subst) (es : List (Replaceable × Term)) (q : Replaceable) :
    (σ.overwrite es).get? q = (σ.get? q).map (es.lookup q).getD :=
  lookup_overwrite es σ.entries q

/-! ## Keys -/

theorem keys_overwrite (σ : Subst) (es : List (Replaceable × Term)) :
    (σ.overwrite es).keys = σ.keys := by
  rw [keys, overwrite, List.map_map]
  rfl

theorem contains_iff (σ : Subst) (r : Replaceable) : σ.contains r ↔ r ∈ σ.keys := by
  change (σ.entries.lookup r).isSome ↔ r ∈ σ.entries.map Prod.fst
  induction σ.entries with
  | nil => simp
  | cons e es ih =>
    rcases e with ⟨r', t⟩
    rw [lookup_cons, List.map_cons, List.mem_cons]
    by_cases h : r = r'
    · simp [h]
    · rw [if_neg h, ih]
      simp [h]

theorem mem_iterate [I : Iteration] {σ : Subst} {e : Replaceable × Term} :
    e ∈ σ.iterate ↔ σ.get? e.1 = some e.2 := by
  rw [iterate, List.mem_filterMap]
  constructor
  · rintro ⟨k, _, h⟩
    obtain ⟨t, ht, rfl⟩ := Option.map_eq_some_iff.mp h
    exact ht
  · intro h
    refine ⟨e.1, (Iteration.perm σ).mem_iff.mpr ?_, by rw [h]; rfl⟩
    rw [← contains_iff, contains, h]
    rfl

theorem lookup_filterMap_get? (σ : Subst) (ks : List Replaceable) (q : Replaceable) :
    (ks.filterMap fun k => (σ.get? k).map (k, ·)).lookup q = if q ∈ ks then σ.get? q else none := by
  induction ks with
  | nil => rfl
  | cons k ks ih =>
    by_cases hq : q = k
    · subst hq
      rw [if_pos List.mem_cons_self]
      cases hget : σ.get? q with
      | none =>
        rw [List.filterMap_cons_none (by rw [hget]; rfl), ih, hget]
        exact ite_self none
      | some t =>
        rw [List.filterMap_cons_some (b := (q, t)) (by rw [hget]; rfl), lookup_cons, if_pos rfl]
    · have hmem : q ∈ k :: ks ↔ q ∈ ks := by simp [hq]
      simp only [hmem]
      cases hget : σ.get? k with
      | none => rw [List.filterMap_cons_none (by rw [hget]; rfl), ih]
      | some t =>
        rw [List.filterMap_cons_some (b := (k, t)) (by rw [hget]; rfl), lookup_cons, if_neg hq, ih]

/-- Every key comes with its image. -/
theorem lookup_iterate [Iteration] (σ : Subst) (q : Replaceable) :
    σ.iterate.lookup q = σ.get? q := by
  rw [iterate, lookup_filterMap_get?]
  split
  · rfl
  · rename_i hq
    rw [(Iteration.perm σ).mem_iff, ← contains_iff, contains, Option.not_isSome_iff_eq_none] at hq
    exact hq.symm

theorem mem_keys_set (σ : Subst) (r : Replaceable) (t : Term) (q : Replaceable) :
    q ∈ (σ.set r t).keys ↔ q = r ∨ q ∈ σ.keys := by
  rw [← contains_iff, ← contains_iff, contains, contains, get?_set]
  by_cases h : q = r <;> simp [h]

theorem affects_iff (σ : Subst) (t : Term) :
    σ.affects t ↔ ∃ r ∈ t.free, (σ.get? r).isSome := by
  unfold affects
  rw [List.any_eq_true]
  rfl

theorem captures_iff (σ : Subst) (x : Var) (t : Term) :
    σ.captures x t ↔ ∃ r ∈ t.free, ∃ image, σ.get? r = some image ∧ .var x ∈ image.free := by
  unfold captures
  rw [List.any_eq_true]
  constructor
  · rintro ⟨image, hi, hx⟩
    obtain ⟨r, hr, e⟩ := List.mem_filterMap.mp hi
    exact ⟨r, hr, image, e, OrderedSet.contains_iff.mp hx⟩
  · rintro ⟨r, hr, image, e, hx⟩
    exact ⟨image, List.mem_filterMap.mpr ⟨r, hr, e⟩, OrderedSet.contains_iff.mpr hx⟩

/-- Only an image of the key's type is accepted. -/
theorem insert_eq_ok_iff (σ : Subst) (r : Replaceable) (t : Term) (τ : Subst) :
    σ.insert r t = .ok τ ↔ r.ty = t.ty ∧ τ = σ.set r t := by
  unfold insert
  split
  · rename_i h
    constructor
    · intro e
      exact ⟨h, (Except.ok.inj e).symm⟩
    · rintro ⟨_, rfl⟩
      rfl
  · rename_i h
    constructor
    · intro e
      exact nomatch e
    · intro ⟨e, _⟩
      exact absurd e h

end Subst

end TermAlgebra
