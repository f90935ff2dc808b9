/-!
# Finite sets in increasing order

A set lists its elements in strictly increasing order, and only the empty set has no list, so sets
with the same elements are equal. `insert`, `erase` and `union` give back one of their arguments
whenever that is the answer already. The lemmas say which elements each operation leaves.
-/

universe u

namespace TermAlgebra

/-- A set keeps one list, which its copies share. -/
structure OrderedSet (α : Type u) [Ord α] where
  /-- The elements; the empty set keeps no list at all. -/
  shared : Option (List α)
  proper : ∀ xs ∈ shared, xs ≠ [] ∧ xs.Pairwise fun x y => compare x y = .lt

namespace OrderedSet

variable {α : Type u} [Ord α]

def empty : OrderedSet α := ⟨none, nofun⟩

instance : EmptyCollection (OrderedSet α) := ⟨empty⟩

instance : Inhabited (OrderedSet α) := ⟨empty⟩

/-- The set of the elements of a list in order. -/
def ofSorted : (xs : List α) → (xs.Pairwise fun x y => compare x y = .lt) → OrderedSet α
  | [], _ => empty
  | x :: xs, h => ⟨some (x :: xs), by
      rintro _ ⟨⟩
      exact ⟨List.cons_ne_nil x xs, h⟩⟩

def toList (s : OrderedSet α) : List α := s.shared.getD []

theorem sorted (s : OrderedSet α) : s.toList.Pairwise fun x y => compare x y = .lt := by
  rcases s with ⟨_ | xs, proper⟩
  · exact .nil
  · exact (proper xs rfl).2

@[simp]
theorem toList_empty : (∅ : OrderedSet α).toList = [] := rfl

@[simp]
theorem toList_ofSorted {xs : List α} (h : xs.Pairwise fun x y => compare x y = .lt) :
    (ofSorted xs h).toList = xs := by
  cases xs <;> rfl

instance : Membership α (OrderedSet α) := ⟨fun s x => x ∈ s.toList⟩

instance [DecidableEq α] (x : α) (s : OrderedSet α) : Decidable (x ∈ s) :=
  inferInstanceAs (Decidable (x ∈ s.toList))

/-- Looks no further than whether there is a list. -/
def isEmpty (s : OrderedSet α) : Bool := s.shared.isNone

def size (s : OrderedSet α) : Nat := s.shared.elim 0 List.length

def singleton (x : α) : OrderedSet α := ofSorted [x] (List.pairwise_singleton _ x)

/-- Braces around the elements in order, separated by commas. -/
def text (element : α → String) (s : OrderedSet α) : String :=
  "\x7b" ++ String.intercalate ", " (s.toList.map element) ++ "\x7d"

def contains (s : OrderedSet α) (x : α) : Bool :=
  s.shared.any fun xs => xs.any fun y => compare x y == .eq

/-- Some element is in both sets; the elements of the smaller set are looked up. -/
def intersects (s t : OrderedSet α) : Bool :=
  if s.size ≤ t.size then !s.isEmpty && s.toList.any t.contains
  else !t.isEmpty && t.toList.any s.contains

def erase (s : OrderedSet α) (x : α) : OrderedSet α :=
  if s.contains x then ofSorted (s.toList.filter fun y => compare x y != .eq) (s.sorted.filter _)
  else s

/-- Puts an element in front of the first greater one, unless an equal one is there. -/
def place (x : α) : List α → List α
  | [] => [x]
  | y :: ys =>
    match compare x y with
    | .lt => x :: y :: ys
    | .eq => y :: ys
    | .gt => y :: place x ys

variable [Std.LawfulEqOrd α]

theorem mem_place {x z : α} {xs : List α} : z ∈ place x xs ↔ z = x ∨ z ∈ xs := by
  induction xs with
  | nil => simp [place]
  | cons y ys ih =>
    unfold place
    split
    · simp
    · rename_i h
      have hxy : x = y := Std.LawfulEqOrd.eq_of_compare h
      subst hxy
      simp
    · rw [List.mem_cons, ih, List.mem_cons]
      exact or_left_comm

variable [Std.TransOrd α]

theorem sorted_place {x : α} {xs : List α} (h : xs.Pairwise fun x y => compare x y = .lt) :
    (place x xs).Pairwise fun x y => compare x y = .lt := by
  induction xs with
  | nil => exact List.pairwise_singleton _ x
  | cons y ys ih =>
    obtain ⟨hy, hys⟩ := List.pairwise_cons.mp h
    unfold place
    split
    · rename_i hxy
      refine List.pairwise_cons.mpr ⟨?_, h⟩
      intro z hz
      rcases List.mem_cons.mp hz with rfl | hz
      · exact hxy
      · exact Std.TransCmp.lt_trans hxy (hy z hz)
    · exact h
    · rename_i hxy
      refine List.pairwise_cons.mpr ⟨?_, ih hys⟩
      intro z hz
      rcases mem_place.mp hz with rfl | hz
      · exact Std.OrientedCmp.gt_iff_lt.mp hxy
      · exact hy z hz

theorem sorted_foldr_place (xs : List α) :
    (xs.foldr place []).Pairwise fun x y => compare x y = .lt := by
  induction xs with
  | nil => exact .nil
  | cons x xs ih => exact sorted_place ih

def ofList (xs : List α) : OrderedSet α := ofSorted (xs.foldr place []) (sorted_foldr_place xs)

def insert (s : OrderedSet α) (x : α) : OrderedSet α :=
  if s.contains x then s else ofSorted (place x s.toList) (sorted_place s.sorted)

/-! ## Elements -/

omit [Std.LawfulEqOrd α] [Std.TransOrd α] in
theorem mem_toList {s : OrderedSet α} {x : α} : x ∈ s.toList ↔ x ∈ s := Iff.rfl

omit [Std.LawfulEqOrd α] [Std.TransOrd α] in
theorem mem_ofSorted {xs : List α} {h : xs.Pairwise fun x y => compare x y = .lt} {x : α} :
    x ∈ ofSorted xs h ↔ x ∈ xs := by
  rw [← mem_toList, toList_ofSorted]

omit [Std.LawfulEqOrd α] [Std.TransOrd α] in
@[simp]
theorem not_mem_empty (x : α) : x ∉ (∅ : OrderedSet α) := List.not_mem_nil

omit [Std.LawfulEqOrd α] [Std.TransOrd α] in
@[simp]
theorem mem_singleton {x y : α} : y ∈ singleton x ↔ y = x := List.mem_singleton

omit [Std.TransOrd α] in
theorem nodup_toList (s : OrderedSet α) : s.toList.Nodup := by
  refine s.sorted.imp fun {x y} hlt hxy => ?_
  simp [hxy] at hlt

omit [Std.LawfulEqOrd α] [Std.TransOrd α] in
theorem size_eq (s : OrderedSet α) : s.size = s.toList.length := by
  rcases s with ⟨_ | xs, _⟩ <;> rfl

omit [Std.LawfulEqOrd α] [Std.TransOrd α] in
/-- A list is kept exactly if there is something to list. -/
theorem shared_eq_none_iff {s : OrderedSet α} : s.shared = none ↔ s.toList = [] := by
  rcases s with ⟨_ | xs, proper⟩
  · exact iff_of_true rfl rfl
  · exact iff_of_false nofun (proper xs rfl).1

omit [Std.LawfulEqOrd α] [Std.TransOrd α] in
theorem isEmpty_iff {s : OrderedSet α} : s.isEmpty ↔ ∀ x, x ∉ s := by
  rw [isEmpty, Option.isNone_iff_eq_none, shared_eq_none_iff]
  exact List.eq_nil_iff_forall_not_mem

omit [Std.TransOrd α] in
@[simp]
theorem contains_iff {s : OrderedSet α} {x : α} : s.contains x ↔ x ∈ s := by
  have hany : s.contains x = s.toList.any fun y => compare x y == .eq := by
    rcases s with ⟨_ | xs, _⟩ <;> rfl
  rw [hany, List.any_eq_true]
  constructor
  · intro ⟨y, hy, h⟩
    have hxy : x = y := Std.LawfulEqOrd.eq_of_compare (beq_iff_eq.mp h)
    rw [hxy]
    exact hy
  · intro h
    exact ⟨x, h, beq_iff_eq.mpr Std.compare_self⟩

omit [Std.TransOrd α] in
theorem all_contains_iff {s t : OrderedSet α} : s.toList.all t.contains ↔ ∀ x ∈ s, x ∈ t := by
  rw [List.all_eq_true]
  exact forall₂_congr fun x _ => contains_iff

/-- Nothing is looked up when both sets share their list. -/
def isSubset (s t : OrderedSet α) : Bool :=
  withPtrEq s t (fun _ => s.toList.all t.contains) fun h =>
    all_contains_iff.mpr fun _ hx => h ▸ hx

omit [Std.TransOrd α] in
@[simp]
theorem isSubset_iff {s t : OrderedSet α} : s.isSubset t ↔ ∀ x ∈ s, x ∈ t := all_contains_iff

/-- Sets of one size are equal when one includes the other; nothing is compared when both sets
share their list. -/
def same (s t : OrderedSet α) : Bool :=
  withPtrEq s t (fun _ => s.size == t.size && s.isSubset t) fun h => by
    subst h
    simp

omit [Std.TransOrd α] in
@[simp]
theorem intersects_iff {s t : OrderedSet α} : s.intersects t ↔ ∃ x, x ∈ s ∧ x ∈ t := by
  -- asking for emptiness first saves a search and changes nothing
  have hany : ∀ u v : OrderedSet α,
      !u.isEmpty && u.toList.any v.contains ↔ ∃ x, x ∈ u ∧ x ∈ v := by
    intro u v
    rw [Bool.and_eq_true, Bool.not_eq_true', Bool.eq_false_iff, Ne, isEmpty_iff, List.any_eq_true]
    constructor
    · rintro ⟨-, x, hu, hv⟩
      exact ⟨x, hu, contains_iff.mp hv⟩
    · rintro ⟨x, hu, hv⟩
      exact ⟨fun h => h x hu, x, hu, contains_iff.mpr hv⟩
  unfold intersects
  split
  · exact hany s t
  · exact (hany t s).trans (exists_congr fun x => and_comm)

def union (s t : OrderedSet α) : OrderedSet α :=
  if t.isSubset s then s
  else if s.isSubset t then t
  else ofList (s.toList ++ t.toList)

instance : Union (OrderedSet α) := ⟨union⟩

@[simp]
theorem mem_ofList {xs : List α} {x : α} : x ∈ ofList xs ↔ x ∈ xs := by
  rw [ofList, mem_ofSorted]
  induction xs with
  | nil => exact Iff.rfl
  | cons y ys ih => rw [List.foldr_cons, mem_place, ih, List.mem_cons]

@[simp]
theorem mem_insert {s : OrderedSet α} {x y : α} : y ∈ s.insert x ↔ y = x ∨ y ∈ s := by
  unfold insert
  split
  · rename_i h
    have hx : x ∈ s := contains_iff.mp h
    constructor
    · exact Or.inr
    · rintro (rfl | hy)
      · exact hx
      · exact hy
  · rw [mem_ofSorted, mem_place, mem_toList]

omit [Std.TransOrd α] in
@[simp]
theorem mem_erase {s : OrderedSet α} {x y : α} : y ∈ s.erase x ↔ y ≠ x ∧ y ∈ s := by
  unfold erase
  split
  · rw [mem_ofSorted, List.mem_filter, bne_iff_ne, mem_toList, and_comm]
    refine and_congr (not_congr ?_) Iff.rfl
    exact Std.LawfulEqCmp.compare_eq_iff_eq.trans eq_comm
  · rename_i h
    have hx : x ∉ s := fun hx => h (contains_iff.mpr hx)
    constructor
    · intro hy
      exact ⟨fun e => hx (e ▸ hy), hy⟩
    · exact And.right

@[simp]
theorem mem_union {s t : OrderedSet α} {x : α} : x ∈ s ∪ t ↔ x ∈ s ∨ x ∈ t := by
  change x ∈ s.union t ↔ _
  unfold union
  split
  · rename_i h
    exact ⟨Or.inl, fun hx => hx.elim id (isSubset_iff.mp h x)⟩
  · split
    · rename_i h
      exact ⟨Or.inr, fun hx => hx.elim (isSubset_iff.mp h x) id⟩
    · rw [mem_ofList, List.mem_append, mem_toList, mem_toList]

/-! ## Equality -/

omit [Std.LawfulEqOrd α] in
theorem eq_of_mem_iff {xs ys : List α} (hxs : xs.Pairwise fun x y => compare x y = .lt)
    (hys : ys.Pairwise fun x y => compare x y = .lt) (h : ∀ x, x ∈ xs ↔ x ∈ ys) : xs = ys := by
  induction xs generalizing ys with
  | nil =>
    cases ys with
    | nil => rfl
    | cons y ys => exact absurd ((h y).mpr List.mem_cons_self) List.not_mem_nil
  | cons x xs ih =>
    cases ys with
    | nil => exact absurd ((h x).mp List.mem_cons_self) List.not_mem_nil
    | cons y ys =>
      obtain ⟨hx, hxs₁⟩ := List.pairwise_cons.mp hxs
      obtain ⟨hy, hys₁⟩ := List.pairwise_cons.mp hys
      have irrefl (z : α) : compare z z ≠ .lt := by simp [Std.compare_self]
      have hxy : x = y := by
        rcases List.mem_cons.mp ((h x).mp List.mem_cons_self) with e | hxy
        · exact e
        · rcases List.mem_cons.mp ((h y).mpr List.mem_cons_self) with e | hyx
          · exact e.symm
          · exact absurd (Std.TransCmp.lt_trans (hx y hyx) (hy x hxy)) (irrefl x)
      subst hxy
      refine congrArg _ (ih hxs₁ hys₁ fun z => ?_)
      constructor
      · intro hz
        rcases List.mem_cons.mp ((h z).mp (List.mem_cons_of_mem x hz)) with rfl | hz'
        · exact absurd (hx z hz) (irrefl z)
        · exact hz'
      · intro hz
        rcases List.mem_cons.mp ((h z).mpr (List.mem_cons_of_mem x hz)) with rfl | hz'
        · exact absurd (hy z hz) (irrefl z)
        · exact hz'

omit [Std.LawfulEqOrd α] [Std.TransOrd α] in
theorem toList_injective {s t : OrderedSet α} (h : s.toList = t.toList) : s = t := by
  rcases s with ⟨_ | xs, hs⟩ <;> rcases t with ⟨_ | ys, ht⟩
  · rfl
  · exact absurd h.symm (ht ys rfl).1
  · exact absurd h (hs xs rfl).1
  · obtain rfl : xs = ys := h
    rfl

omit [Std.LawfulEqOrd α] in
/-- A set is determined by its elements. -/
@[ext]
theorem ext {s t : OrderedSet α} (h : ∀ x, x ∈ s ↔ x ∈ t) : s = t :=
  toList_injective (eq_of_mem_iff s.sorted t.sorted h)

end OrderedSet

end TermAlgebra
