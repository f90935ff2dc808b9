import Mathlib
import TermAlgebra.Proofs.Layout
import TermAlgebra.Subst

/-!
# Printed names tell variables apart

Names are given one after the other, each the first form of the name that is not taken yet. Main
statement: `names_tell_apart`, in the text of a term and of a substitution no two identifiers share
a name, and none has the name of a constant.
-/

namespace TermAlgebra

open Term (Symbol symbolsAll labelsAll constantNamesAll)

/-! ## Labels and constants -/

namespace Term

/-- Identifier and name of what gets a printed name. -/
def Symbol.label? : Symbol → Option (Nat × String)
  | var x => some (x.id, x.name)
  | metaVar z => some (z.id, z.name)
  | _ => none

def Symbol.constantName? : Symbol → Option String
  | const c => some c.name
  | _ => none

theorem labelsAll_of_labels {ts : List Term}
    (h : ∀ t ∈ ts, t.labels = t.symbols.filterMap Symbol.label?) :
    labelsAll ts = (symbolsAll ts).filterMap Symbol.label? := by
  induction ts with
  | nil => rfl
  | cons t ts ih =>
    rw [labelsAll, symbolsAll, List.filterMap_append, h t List.mem_cons_self,
      ih fun s hs => h s (List.mem_cons_of_mem t hs)]

theorem labels_eq (t : Term) : t.labels = t.symbols.filterMap Symbol.label? := by
  induction t using Term.induction with
  | literal v => rfl
  | const c => rfl
  | var x => rfl
  | lambda x body ih =>
    rw [labels, symbols, ih]
    rfl
  | app head args ih ihs =>
    rw [labels, symbols, ih, labelsAll_of_labels ihs, List.filterMap_append]
  | metaApp z args ihs =>
    rw [labels, symbols, labelsAll_of_labels ihs]
    rfl

theorem constantNamesAll_of_constantNames {ts : List Term}
    (h : ∀ t ∈ ts, t.constantNames = t.symbols.filterMap Symbol.constantName?) :
    constantNamesAll ts = (symbolsAll ts).filterMap Symbol.constantName? := by
  induction ts with
  | nil => rfl
  | cons t ts ih =>
    rw [constantNamesAll, symbolsAll, List.filterMap_append, h t List.mem_cons_self,
      ih fun s hs => h s (List.mem_cons_of_mem t hs)]

theorem constantNames_eq (t : Term) :
    t.constantNames = t.symbols.filterMap Symbol.constantName? := by
  induction t using Term.induction with
  | literal v => rfl
  | const c => rfl
  | var x => rfl
  | lambda x body ih =>
    rw [constantNames, symbols, ih]
    rfl
  | app head args ih ihs =>
    rw [constantNames, symbols, ih, constantNamesAll_of_constantNames ihs, List.filterMap_append]
  | metaApp z args ihs =>
    rw [constantNames, symbols, constantNamesAll_of_constantNames ihs]
    rfl

theorem mem_labelsAll {ts : List Term} {label : Nat × String} :
    label ∈ labelsAll ts ↔ ∃ t ∈ ts, ∃ a ∈ t.symbols, a.label? = some label := by
  rw [labelsAll_of_labels fun t _ => t.labels_eq, List.mem_filterMap]
  simp only [mem_symbolsAll]
  tauto

theorem mem_constantNamesAll {ts : List Term} {s : String} :
    s ∈ constantNamesAll ts ↔ ∃ t ∈ ts, ∃ c : Constant, .const c ∈ t.symbols ∧ c.name = s := by
  rw [constantNamesAll_of_constantNames fun t _ => t.constantNames_eq, List.mem_filterMap]
  simp only [mem_symbolsAll]
  constructor
  · rintro ⟨a, ⟨t, ht, ha⟩, e⟩
    cases a with
    | const c => exact ⟨t, ht, c, ha, Option.some.inj e⟩
    | _ => cases e
  · rintro ⟨t, ht, c, hc, rfl⟩
    exact ⟨.const c, ⟨t, ht, hc⟩, rfl⟩

end Term

namespace Names

/-! ## The search for a name -/

theorem candidate_injective (name : String) : Function.Injective (candidate name) := by
  -- a suffix makes the name longer, and suffixes are told apart by their numbers
  have hsuffix : ∀ i : Nat, name ≠ name ++ ("__" ++ toString i) := by
    intro i h
    have hlen := congrArg String.length h
    simp at hlen
  intro i j h
  unfold candidate at h
  rw [String.append_assoc, String.append_assoc] at h
  split at h <;> split at h
  · omega
  · exact absurd h (hsuffix j)
  · exact absurd h.symm (hsuffix i)
  · rw [String.append_right_inj, String.append_right_inj] at h
    exact Nat.repr_injective h

/-- Among one candidate more than there are taken names, one is free. -/
theorem exists_candidate_not_mem (taken : List String) (name : String) :
    ∃ i < taken.length + 1, candidate name i ∉ taken := by
  by_contra h
  push Not at h
  have hnodup := (List.nodup_range (n := taken.length + 1)).map (candidate_injective name)
  have htaken : (List.range (taken.length + 1)).map (candidate name) ⊆ taken := by
    intro s hs
    obtain ⟨i, hi, rfl⟩ := List.mem_map.mp hs
    exact h i (List.mem_range.mp hi)
  have hlen := hnodup.length_le_of_subset htaken
  rw [List.length_map, List.length_range] at hlen
  omega

/-- The search ends at the first free candidate. -/
theorem unused_spec (taken : List String) (name : String) :
    ∃ i, unused taken name = candidate name i ∧ candidate name i ∉ taken ∧
      ∀ j < i, candidate name j ∈ taken := by
  obtain ⟨k, hk, hfree⟩ := exists_candidate_not_mem taken name
  unfold unused
  cases e : (List.range (taken.length + 1)).find? fun i => !taken.contains (candidate name i) with
  | none =>
    have hall := List.find?_eq_none.mp e k (List.mem_range.mpr hk)
    simp [hfree] at hall
  | some i =>
    obtain ⟨hi, _, hbefore⟩ := List.find?_range_eq_some.mp e
    exact ⟨i, rfl, by simpa using hi, fun j hj => by simpa using hbefore j hj⟩

theorem unused_not_mem (taken : List String) (name : String) : unused taken name ∉ taken := by
  obtain ⟨i, e, hi, _⟩ := unused_spec taken name
  rwa [e]

/-! ## Giving names -/

variable {constants : List String} {done : List (Nat × String)} {state : Names × List String}

theorem get?_add (state : Names × List String) (label : Nat × String) (id : Nat) :
    (add state label).1.get? id =
      (state.1.get? id).or (if id = label.1 then some (unused state.2 label.2) else none) := by
  unfold add
  split
  · next s hs =>
    by_cases h : id = label.1
    · rw [h, hs]
      rfl
    · rw [if_neg h, Option.or_none]
  · simp only [get?, List.lookup_append, List.lookup_cons, List.lookup_nil]
    by_cases h : id = label.1
    · simp [h]
    · rw [if_neg h, beq_eq_false_iff_ne.mpr h]

theorem mem_taken_add (state : Names × List String) (label : Nat × String) (s : String) :
    s ∈ (add state label).2 ↔
      s ∈ state.2 ∨ state.1.get? label.1 = none ∧ s = unused state.2 label.2 := by
  unfold add
  split
  · next hs => simp [hs]
  · next hs => simp [hs, or_comm]

/-- What holds when names have been given to the labels in `done`. -/
structure Given (constants : List String) (done : List (Nat × String))
    (state : Names × List String) : Prop where
  taken_iff : ∀ s, s ∈ state.2 ↔ s ∈ constants ∨ ∃ id, state.1.get? id = some s
  isSome_iff : ∀ id, (state.1.get? id).isSome ↔ id ∈ done.map Prod.fst
  injective : ∀ i j s, state.1.get? i = some s → state.1.get? j = some s → i = j
  not_constant : ∀ i s, state.1.get? i = some s → s ∉ constants

theorem given_nil (constants : List String) : Given constants [] (⟨[]⟩, constants) := by
  constructor <;> simp [get?]

/-- An entry is an old one, or the one that has been made. -/
theorem get?_add_eq_some {label : Nat × String} {id : Nat} {s : String}
    (h : (add state label).1.get? id = some s) :
    state.1.get? id = some s ∨
      state.1.get? label.1 = none ∧ id = label.1 ∧ s = unused state.2 label.2 := by
  rw [get?_add, Option.or_eq_some_iff] at h
  rcases h with h | ⟨hnone, h⟩
  · exact Or.inl h
  · split at h
    · next hid =>
      subst hid
      exact Or.inr ⟨hnone, rfl, (Option.some.inj h).symm⟩
    · cases h

theorem get?_add_of_eq_some (label : Nat × String) {id : Nat} {s : String}
    (h : state.1.get? id = some s) : (add state label).1.get? id = some s := by
  rw [get?_add, h]
  rfl

theorem get?_add_self (label : Nat × String) (h : state.1.get? label.1 = none) :
    (add state label).1.get? label.1 = some (unused state.2 label.2) := by
  rw [get?_add, h, if_pos rfl]
  rfl

theorem Given.add (h : Given constants done state) (label : Nat × String) :
    Given constants (done ++ [label]) (add state label) := by
  -- a name that was given before was taken, so the new one differs from it
  have hnew : ∀ id, state.1.get? id ≠ some (unused state.2 label.2) := fun id hid =>
    unused_not_mem state.2 label.2 ((h.taken_iff _).mpr (Or.inr ⟨id, hid⟩))
  constructor
  · intro s
    rw [mem_taken_add, h.taken_iff]
    constructor
    · rintro ((hs | ⟨id, hid⟩) | ⟨hnone, rfl⟩)
      · exact Or.inl hs
      · exact Or.inr ⟨id, get?_add_of_eq_some label hid⟩
      · exact Or.inr ⟨label.1, get?_add_self label hnone⟩
    · rintro (hs | ⟨id, hid⟩)
      · exact Or.inl (Or.inl hs)
      · rcases get?_add_eq_some hid with hid | ⟨hnone, -, hs⟩
        · exact Or.inl (Or.inr ⟨id, hid⟩)
        · exact Or.inr ⟨hnone, hs⟩
  · intro id
    rw [get?_add, Option.isSome_or, Bool.or_eq_true, h.isSome_iff]
    by_cases hid : id = label.1 <;> simp [hid]
  · intro i j s hi hj
    rcases get?_add_eq_some hi with hi | ⟨-, rfl, rfl⟩ <;>
      rcases get?_add_eq_some hj with hj | ⟨-, rfl, hs⟩
    · exact h.injective i j s hi hj
    · exact absurd (hs ▸ hi) (hnew i)
    · exact absurd hj (hnew j)
    · rfl
  · intro i s hi
    rcases get?_add_eq_some hi with hi | ⟨-, -, rfl⟩
    · exact h.not_constant i s hi
    · exact fun hs => unused_not_mem state.2 label.2 ((h.taken_iff _).mpr (Or.inl hs))

theorem Given.foldl (h : Given constants done state) (labels : List (Nat × String)) :
    Given constants (done ++ labels) (labels.foldl Names.add state) := by
  induction labels generalizing done state with
  | nil => rwa [List.append_nil]
  | cons label labels ih =>
    rw [List.foldl_cons, List.append_cons]
    exact ih (h.add label)

theorem given_assign (constants : List String) (labels : List (Nat × String)) :
    Given constants labels (labels.foldl add (⟨[]⟩, constants)) :=
  (given_nil constants).foldl labels

/-- Later labels leave the entries as they are. -/
theorem get?_foldl_of_eq_some (labels : List (Nat × String)) {id : Nat} {s : String}
    (h : state.1.get? id = some s) : (labels.foldl add state).1.get? id = some s := by
  induction labels generalizing state with
  | nil => exact h
  | cons label labels ih => exact ih (get?_add_of_eq_some label h)

/-- The form of the name is the first one that is not taken. -/
def FirstUnused (taken : String → Prop) (name s : String) : Prop :=
  ∃ i, s = candidate name i ∧ ¬taken s ∧ ∀ j < i, taken (candidate name j)

theorem FirstUnused.eq_self {taken : String → Prop} {name s : String}
    (h : FirstUnused taken name s) (hname : ¬taken name) : s = name := by
  obtain ⟨i, rfl, _, hbefore⟩ := h
  cases i with
  | zero => rfl
  | succ i => exact absurd (hbefore 0 (Nat.succ_pos i)) hname

/-- At its first occurrence an identifier gets the first form of its name that is neither the name
of a constant nor given to an earlier identifier. -/
theorem exists_firstUnused (constants : List String) {before : List (Nat × String)} {id : Nat}
    (name : String) (after : List (Nat × String)) (hid : id ∉ before.map Prod.fst) :
    ∃ s, (assign constants (before ++ (id, name) :: after)).get? id = some s ∧
      FirstUnused (fun s => s ∈ constants ∨ ∃ label ∈ before,
        (assign constants (before ++ (id, name) :: after)).get? label.1 = some s) name s := by
  have hgiven := given_assign constants before
  have hnone : (before.foldl add (⟨[]⟩, constants)).1.get? id = none := by
    have hnot := mt (hgiven.isSome_iff id).mp hid
    simpa using hnot
  have hsplit : assign constants (before ++ (id, name) :: after) =
      (after.foldl add (add (before.foldl add (⟨[]⟩, constants)) (id, name))).1 := by
    rw [assign, List.foldl_append, List.foldl_cons]
  have hkeep : ∀ {j s}, (before.foldl add (⟨[]⟩, constants)).1.get? j = some s →
      (assign constants (before ++ (id, name) :: after)).get? j = some s := fun h => by
    rw [hsplit]
    exact get?_foldl_of_eq_some after (get?_add_of_eq_some _ h)
  have htaken : ∀ s, s ∈ (before.foldl add (⟨[]⟩, constants)).2 ↔
      s ∈ constants ∨ ∃ label ∈ before,
        (assign constants (before ++ (id, name) :: after)).get? label.1 = some s := by
    intro s
    rw [hgiven.taken_iff]
    refine or_congr_right ⟨?_, ?_⟩
    · rintro ⟨j, hj⟩
      have hmem := (hgiven.isSome_iff j).mp (by rw [hj]; rfl)
      obtain ⟨label, hlabel, rfl⟩ := List.mem_map.mp hmem
      exact ⟨label, hlabel, hkeep hj⟩
    · rintro ⟨label, hlabel, hs⟩
      obtain ⟨s', hs'⟩ := Option.isSome_iff_exists.mp
        ((hgiven.isSome_iff label.1).mpr (List.mem_map_of_mem hlabel))
      obtain rfl := Option.some.inj ((hkeep hs').symm.trans hs)
      exact ⟨label.1, hs'⟩
  obtain ⟨i, e, hfree, hbefore⟩ := unused_spec (before.foldl add (⟨[]⟩, constants)).2 name
  refine ⟨candidate name i, ?_, i, rfl, mt (htaken _).mpr hfree,
    fun j hj => (htaken _).mp (hbefore j hj)⟩
  rw [hsplit, ← e]
  exact get?_foldl_of_eq_some after (get?_add_self (id, name) hnone)

/-- A display name that looks like a generated one is taken like any other. -/
example : (assign ["x"] [(0, "x"), (1, "x__1"), (2, "x"), (0, "x")]).entries =
    [(0, "x__1"), (1, "x__1__1"), (2, "x__2")] := by
  decide

/-! ## What is printed together -/

/-- The names tell apart what is printed with them: the given labels and the terms. -/
structure TellsApart (names : Names) (labels : List (Nat × String)) (ts : List Term) : Prop where
  /-- Every variable and meta-variable that is printed has a name, ... -/
  covers_label : ∀ label ∈ labels, ∃ s, names.get? label.1 = some s
  covers_var : ∀ t ∈ ts, ∀ x, .var x ∈ t.symbols → ∃ s, names.get? x.id = some s
  covers_metaVar : ∀ t ∈ ts, ∀ z, .metaVar z ∈ t.symbols → ∃ s, names.get? z.id = some s
  /-- ... so that a term is printed alike with every larger table. -/
  text_eq : ∀ t ∈ ts, ∀ names' : Names,
    (∀ id s, names.get? id = some s → names'.get? id = some s) →
      ∀ context, t.textAt names context = t.textAt names' context
  injective : ∀ i j s, names.get? i = some s → names.get? j = some s → i = j
  not_constant : ∀ t ∈ ts, ∀ c, .const c ∈ t.symbols → ∀ id, names.get? id ≠ some c.name
  /-- At its first occurrence an identifier gets the first form of its name that no constant and
  no earlier identifier has. -/
  first : ∀ before id name after, labels ++ labelsAll ts = before ++ (id, name) :: after →
    id ∉ before.map Prod.fst → ∃ s, names.get? id = some s ∧ FirstUnused (fun s =>
      (∃ t ∈ ts, ∃ c : Constant, .const c ∈ t.symbols ∧ c.name = s) ∨
        ∃ label ∈ before, names.get? label.1 = some s) name s
  /-- The name itself is kept unless it is taken. -/
  keeps : ∀ before id name after, labels ++ labelsAll ts = before ++ (id, name) :: after →
    id ∉ before.map Prod.fst →
      (∀ t ∈ ts, ∀ c : Constant, .const c ∈ t.symbols → c.name ≠ name) →
        (∀ label ∈ before, names.get? label.1 ≠ some name) → names.get? id = some name

theorem tellsApart_ofTerms (labels : List (Nat × String)) (ts : List Term) :
    (ofTerms labels ts).TellsApart labels ts := by
  have hgiven := given_assign (constantNamesAll ts) (labels ++ labelsAll ts)
  have hcovers : ∀ label ∈ labels ++ labelsAll ts, ∃ s, (ofTerms labels ts).get? label.1 = some s :=
    fun label hlabel => Option.isSome_iff_exists.mp
      ((hgiven.isSome_iff label.1).mpr (List.mem_map_of_mem hlabel))
  have hsymbol : ∀ t ∈ ts, ∀ a ∈ t.symbols, ∀ label, a.label? = some label →
      ∃ s, (ofTerms labels ts).get? label.1 = some s := fun t ht a ha label hlabel =>
    hcovers label (List.mem_append_right _ (Term.mem_labelsAll.mpr ⟨t, ht, a, ha, hlabel⟩))
  have hfirst : ∀ before id name after, labels ++ labelsAll ts = before ++ (id, name) :: after →
      id ∉ before.map Prod.fst → ∃ s, (ofTerms labels ts).get? id = some s ∧ FirstUnused (fun s =>
        (∃ t ∈ ts, ∃ c : Constant, .const c ∈ t.symbols ∧ c.name = s) ∨
          ∃ label ∈ before, (ofTerms labels ts).get? label.1 = some s) name s := by
    intro before id name after e hid
    have hunused := exists_firstUnused (constantNamesAll ts) name after hid
    rw [← e] at hunused
    simp only [← Term.mem_constantNamesAll]
    exact hunused
  constructor
  · exact fun label hlabel => hcovers label (List.mem_append_left _ hlabel)
  · exact fun t ht x hx => hsymbol t ht _ hx (x.id, x.name) rfl
  · exact fun t ht z hz => hsymbol t ht _ hz (z.id, z.name) rfl
  · intro t ht names' hnames
    refine Term.textAt_congr fun a ha => ?_
    cases a with
    | literal v => rfl
    | const c => rfl
    | var x =>
      obtain ⟨s, hs⟩ := hsymbol t ht _ ha (x.id, x.name) rfl
      rw [Symbol.word, Symbol.word, get, get, hs, hnames _ _ hs]
    | metaVar z =>
      obtain ⟨s, hs⟩ := hsymbol t ht _ ha (z.id, z.name) rfl
      rw [Symbol.word, Symbol.word, get, get, hs, hnames _ _ hs]
  · exact hgiven.injective
  · intro t ht c hc id hid
    exact hgiven.not_constant id _ hid (Term.mem_constantNamesAll.mpr ⟨t, ht, c, hc, rfl⟩)
  · exact hfirst
  · intro before id name after e hid hconstant hearlier
    obtain ⟨s, hs, hunused⟩ := hfirst before id name after e hid
    rw [hs, hunused.eq_self]
    rintro (⟨t, ht, c, hc, hname⟩ | ⟨label, hlabel, hname⟩)
    · exact hconstant t ht c hc hname
    · exact hearlier label hlabel hname

end Names

namespace Subst

def keyLabels (σ : Subst) : List (Nat × String) := σ.keys.map fun r => (r.id, r.name)

def images (σ : Subst) : List Term := σ.entries.map Prod.snd

/-- The names that a substitution is printed with. -/
def names (σ : Subst) : Names := .ofTerms σ.keyLabels σ.images

/-- The text of an entry, if the image has one. -/
def entryText (names : Names) (e : Replaceable × Term) : Option String :=
  (e.2.textAt names 0).map (names.get e.1.id e.1.name ++ " := " ++ ·)

theorem text_eq (σ : Subst) :
    σ.text = (σ.entries.mapM (entryText σ.names)).map fun texts =>
      "[" ++ String.intercalate ", " texts ++ "]" :=
  (Option.map_eq_bind ..).symm

end Subst

/-- The text of a term and the text of a substitution, keys and images, are printed with names that
cover all variables and meta-variables, are different for different identifiers, are names of none
of the constants, and are the variables' own unless those are taken. -/
theorem names_tell_apart :
    (∀ t : Term, t.text = t.textAt (.ofTerm t) 0 ∧ (Names.ofTerm t).TellsApart [] [t]) ∧
      ∀ σ : Subst,
        σ.text = (σ.entries.mapM (Subst.entryText σ.names)).map
          (fun texts => "[" ++ String.intercalate ", " texts ++ "]") ∧
        σ.names.TellsApart σ.keyLabels σ.images :=
  ⟨fun t => ⟨rfl, Names.tellsApart_ofTerms [] [t]⟩,
    fun σ => ⟨σ.text_eq, Names.tellsApart_ofTerms σ.keyLabels σ.images⟩⟩

end TermAlgebra
