import Mathlib.Data.Set.Card
import TermAlgebra.OrderedSet

/-!
# Sets that are built step by step

A set is built from the empty set, single elements and lists by unions, insertions and erasures.
Each operation may hand back one of its arguments. Whatever way a set was built, it is the one
representation of the finite set that the same steps give in mathematics, and every question about
it is answered by that finite set.
-/

universe u

namespace TermAlgebra.OrderedSet

variable {α : Type u} [Ord α]

/-- The finite set that a set stands for. -/
def carrier (s : OrderedSet α) : Set α := {x | x ∈ s}

@[simp]
theorem mem_carrier {s : OrderedSet α} {x : α} : x ∈ s.carrier ↔ x ∈ s := Iff.rfl

/-! ## What a set answers -/

theorem carrier_eq_empty_iff {s : OrderedSet α} : s.carrier = ∅ ↔ ∀ x, x ∉ s :=
  Set.eq_empty_iff_forall_notMem

theorem shared_eq_none_iff_carrier {s : OrderedSet α} : s.shared = none ↔ s.carrier = ∅ := by
  simp only [shared_eq_none_iff, carrier_eq_empty_iff, List.eq_nil_iff_forall_not_mem, mem_toList]

theorem isEmpty_iff_carrier {s : OrderedSet α} : s.isEmpty ↔ s.carrier = ∅ := by
  simp only [isEmpty_iff, carrier_eq_empty_iff]

variable [Std.LawfulEqOrd α]

/-- No element is listed twice, so the list is as long as the finite set is large. -/
theorem size_eq_ncard (s : OrderedSet α) : s.size = s.carrier.ncard := by
  classical
  have hcarrier : s.carrier = (s.toList.toFinset : Set α) := by
    ext x
    simp [mem_toList]
  rw [hcarrier, Set.ncard_coe_finset, List.toFinset_card_of_nodup s.nodup_toList, size_eq]

theorem isSubset_iff_carrier {s t : OrderedSet α} :
    s.isSubset t ↔ s.carrier ⊆ t.carrier := by
  simp [Set.subset_def]

theorem intersects_iff_carrier {s t : OrderedSet α} :
    s.intersects t ↔ (s.carrier ∩ t.carrier).Nonempty := by
  simp [Set.Nonempty]

theorem same_iff_carrier [Std.TransOrd α] {s t : OrderedSet α} :
    s.same t ↔ s.carrier = t.carrier := by
  change (s.size == t.size && s.isSubset t) = true ↔ _
  simp only [Bool.and_eq_true, beq_iff_eq, isSubset_iff_carrier, size_eq_ncard]
  constructor
  · intro ⟨hsize, hsub⟩
    have hfinite : t.carrier.Finite := t.toList.finite_toSet
    exact Set.eq_of_subset_of_ncard_le hsub (Nat.le_of_eq hsize.symm) hfinite
  · intro h
    simp [h]

variable [Std.TransOrd α]

omit [Std.LawfulEqOrd α] in
theorem eq_iff_carrier {s t : OrderedSet α} : s = t ↔ s.carrier = t.carrier := by
  constructor
  · intro h
    rw [h]
  · intro h
    ext x
    rw [← mem_carrier, h, mem_carrier]

/-! ## What the operations leave -/

omit [Std.LawfulEqOrd α] [Std.TransOrd α] in
@[simp]
theorem carrier_empty : (∅ : OrderedSet α).carrier = ∅ := by
  ext x
  simp

omit [Std.LawfulEqOrd α] [Std.TransOrd α] in
@[simp]
theorem carrier_singleton (x : α) : (singleton x).carrier = {x} := by
  ext y
  simp

@[simp]
theorem carrier_ofList (xs : List α) : (ofList xs).carrier = {x | x ∈ xs} := by
  ext x
  simp

@[simp]
theorem carrier_union (s t : OrderedSet α) : (s ∪ t).carrier = s.carrier ∪ t.carrier := by
  ext x
  simp

@[simp]
theorem carrier_insert (s : OrderedSet α) (x : α) :
    (s.insert x).carrier = Insert.insert x s.carrier := by
  ext y
  simp

omit [Std.TransOrd α] in
@[simp]
theorem carrier_erase (s : OrderedSet α) (x : α) : (s.erase x).carrier = s.carrier \ {x} := by
  ext y
  simp [and_comm]

/-! ## Constructions -/

/-- A way to build a set. -/
inductive Construction (α : Type u) where
  | empty
  | singleton (x : α)
  | collect (xs : List α)
  | union (c d : Construction α)
  | insert (c : Construction α) (x : α)
  | erase (c : Construction α) (x : α)

namespace Construction

def build : Construction α → OrderedSet α
  | empty => ∅
  | singleton x => .singleton x
  | collect xs => .ofList xs
  | union c d => c.build ∪ d.build
  | insert c x => c.build.insert x
  | erase c x => c.build.erase x

/-- The same steps on sets in the mathematical sense. -/
def elements {α : Type u} : Construction α → Set α
  | empty => ∅
  | singleton x => {x}
  | collect xs => {x | x ∈ xs}
  | union c d => c.elements ∪ d.elements
  | insert c x => Insert.insert x c.elements
  | erase c x => c.elements \ {x}

@[simp]
theorem carrier_build (c : Construction α) : c.build.carrier = c.elements := by
  induction c with
  | empty => simp [build, elements]
  | singleton x => simp [build, elements]
  | collect xs => simp [build, elements]
  | union c d ihc ihd => simp [build, elements, ihc, ihd]
  | insert c x ih => simp [build, elements, ih]
  | erase c x ih => simp [build, elements, ih]

end Construction

/-- A set in the program answers every question about one set as the finite set `A` does. -/
structure Represents (s : OrderedSet α) (A : Set α) : Prop where
  ascending : s.toList.Pairwise fun x y => compare x y = .lt
  listed : ∀ x, x ∈ s.toList ↔ x ∈ A
  unallocated : s.shared = none ↔ A = ∅
  isEmpty : s.isEmpty ↔ A = ∅
  size : s.size = A.ncard
  length : s.toList.length = A.ncard
  contains : ∀ x, s.contains x ↔ x ∈ A

omit [Std.TransOrd α] in
theorem represents_carrier (s : OrderedSet α) : s.Represents s.carrier where
  ascending := s.sorted
  listed _ := Iff.rfl
  unallocated := shared_eq_none_iff_carrier
  isEmpty := isEmpty_iff_carrier
  size := s.size_eq_ncard
  length := s.size_eq.symm.trans s.size_eq_ncard
  contains _ := contains_iff

/-- Whatever steps two sets were built by, each represents the finite set these steps give, and they
are compared as the finite sets are. -/
theorem Construction.build_canonical (c d : Construction α) :
    c.build.Represents c.elements ∧
    (c.build.isSubset d.build ↔ c.elements ⊆ d.elements) ∧
    (c.build.intersects d.build ↔ (c.elements ∩ d.elements).Nonempty) ∧
    (c.build.same d.build ↔ c.elements = d.elements) ∧
    (c.build = d.build ↔ c.elements = d.elements) := by
  have represents := represents_carrier c.build
  rw [carrier_build] at represents
  simp only [isSubset_iff_carrier, intersects_iff_carrier, same_iff_carrier, eq_iff_carrier,
    carrier_build, represents, and_self]

/-- Taking out all that was put in leaves the set that was never filled. -/
theorem build_erase_all :
    (Construction.erase (.erase (.union (.collect [3, 1, 3]) (.singleton 1)) 3) 1 :
      Construction Int).build = Construction.empty.build := by
  have canonical := Construction.build_canonical
    (.erase (.erase (.union (.collect [3, 1, 3]) (.singleton 1)) 3) 1 : Construction Int) .empty
  apply canonical.2.2.2.2.mpr
  ext x
  simp [Construction.elements]
  omega

end TermAlgebra.OrderedSet
