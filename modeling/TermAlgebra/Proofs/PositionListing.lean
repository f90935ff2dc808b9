import Mathlib.Data.List.Nodup
import Mathlib.Data.List.Perm.Basic
import TermAlgebra.Proofs.Replacement

/-!
# Listed positions

The lists of positions and of head positions are made by one walk over the term, and a subterm is
reached by another. Both see the same children of every subterm. Main statement:
`positions_listed`, what is listed is what is reached, every position once and in order.
-/

namespace TermAlgebra

/-- Steps into the head come before steps to arguments, and numbered steps of one kind from left
to right. -/
def Step.Before : Step → Step → Prop
  | .arg i, .arg j => i < j
  | .metaArg i, .metaArg j => i < j
  | .body, .arg _ => True
  | .metaArg _, .arg _ => True
  | _, _ => False

/-- The path to what lies inside a subterm comes before the path to the subterm. Where two paths
part, the order is that of the steps. -/
inductive Precedes : List Step → List Step → Prop
  | inside (a : Step) (p : List Step) : Precedes (a :: p) []
  | apart {a b : Step} (h : a.Before b) (p q : List Step) : Precedes (a :: p) (b :: q)
  | under (a : Step) {p q : List Step} (h : Precedes p q) : Precedes (a :: p) (a :: q)

theorem Step.Before.ne {a b : Step} (h : a.Before b) : a ≠ b := by
  rintro rfl
  cases a <;> simp [Step.Before] at h

theorem Precedes.ne {p q : List Step} (h : Precedes p q) : p ≠ q := by
  induction h with
  | inside a p => simp
  | apart h p q => simp [h.ne]
  | under a _ ih => simpa using ih

/-- Moves a head position of the part that a step leads to. -/
def HeadPosition.below (p : Position) (step : Step) (h : HeadPosition) : HeadPosition :=
  ⟨⟨p.steps ++ step :: h.position.steps⟩, h.chop⟩

namespace Term

variable {t u s : Term} {step : Step} {steps : List Step}

/-! ## Children -/

/-- The parts inside a head, with the steps to them. -/
def childrenInHead : Term → List (Step × Term)
  | lambda _ body => [(.body, body)]
  | metaApp _ args => (args.zipIdx 1).map fun a => (.metaArg a.2, a.1)
  | _ => []

/-- All parts that one step leads to: those inside the head, and the arguments. -/
def children (t : Term) : List (Step × Term) :=
  childrenInHead t.head ++ (t.args.zipIdx 1).map fun a => (.arg a.2, a.1)

theorem nth?_nil (i : Nat) : nth? [] i = none := by
  cases i <;> rfl

theorem mem_zipIdx_one {ts : List Term} {i : Nat} : (u, i) ∈ ts.zipIdx 1 ↔ nth? ts i = some u := by
  rw [List.mk_mem_zipIdx_iff_le_and_getElem?_sub]
  cases i with
  | zero => simp [nth?]
  | succ i => simp [nth?]

theorem mem_children : (step, u) ∈ t.children ↔ t.child? step = some u := by
  have hargs : (step, u) ∈ ((t.args.zipIdx 1).map fun a => (Step.arg a.2, a.1)) ↔
      ∃ i, nth? t.args i = some u ∧ .arg i = step := by
    simp [mem_zipIdx_one]
  rw [children, List.mem_append, hargs]
  cases step with
  | arg i =>
    rw [child?]
    cases t.head <;> simp [childrenInHead]
  | body =>
    rw [child?]
    cases t.head <;> simp [childrenInHead, lambda?, eq_comm]
  | metaArg i =>
    rw [child?, metaArgs]
    cases t.head <;> simp [childrenInHead, metaApp?, mem_zipIdx_one, nth?_nil]

theorem pairwise_zipIdx (ts : List Term) (k : Nat) :
    (ts.zipIdx k).Pairwise fun a b => a.2 < b.2 := by
  have h : ((ts.zipIdx k).map Prod.snd).Pairwise (· < ·) := by
    rw [List.zipIdx_map_snd]
    exact List.pairwise_lt_range' 1
  exact List.pairwise_map.mp h

theorem pairwise_children (t : Term) : t.children.Pairwise fun c d => c.1.Before d.1 := by
  refine List.pairwise_append.mpr ⟨?_, ?_, ?_⟩
  · cases t.head with
    | metaApp z args => exact List.pairwise_map.mpr (pairwise_zipIdx args 1)
    | lambda x body => exact List.pairwise_singleton _ _
    | _ => exact .nil
  · exact List.pairwise_map.mpr (pairwise_zipIdx t.args 1)
  · intro c hc d hd
    obtain ⟨a, _, rfl⟩ := List.mem_map.mp hd
    cases e : t.head <;> rw [e] at hc <;> simp [childrenInHead] at hc
    · rw [hc]
      trivial
    · obtain ⟨_, _, _, rfl⟩ := hc
      trivial

theorem sizeOf_head_le (t : Term) : sizeOf t.head ≤ sizeOf t := by
  cases t with
  | app head args =>
    rw [app.sizeOf_spec, Term.head]
    omega
  | _ => exact Nat.le_refl _

theorem sizeOf_child_lt (h : t.child? step = some u) : sizeOf u < sizeOf t := by
  have hhead := t.sizeOf_head_le
  rcases child?_cases h with ⟨i, rfl, hi⟩ | ⟨x, rfl, e⟩ | ⟨i, z, args, rfl, e, hi⟩
  · cases t with
    | app head args =>
      have hlt := List.sizeOf_lt_of_mem (mem_of_nth? hi)
      rw [app.sizeOf_spec]
      exact Nat.lt_of_lt_of_le hlt (Nat.le_add_left _ _)
    | _ => exact absurd (mem_of_nth? hi) List.not_mem_nil
  · rw [e, lambda.sizeOf_spec] at hhead
    omega
  · have hlt := List.sizeOf_lt_of_mem (mem_of_nth? hi)
    rw [e, metaApp.sizeOf_spec] at hhead
    omega

/-- Induction from the parts that one step leads to. -/
theorem child_induction {motive : Term → Prop}
    (h : ∀ t, (∀ step u, (step, u) ∈ t.children → motive u) → motive t) (t : Term) : motive t :=
  h t fun _ u _ => child_induction h u
termination_by sizeOf t
decreasing_by exact sizeOf_child_lt (mem_children.mp ‹_›)

/-! ## Positions -/

theorem pathsInAll_eq_flatMap (step : Nat → Step) (k : Nat) (ts : List Term) :
    pathsInAll step k ts = (ts.zipIdx k).flatMap fun a => a.1.paths.map (step a.2 :: ·) := by
  induction ts generalizing k with
  | nil => rfl
  | cons t ts ih => rw [pathsInAll, ih, List.zipIdx_cons, List.flatMap_cons]

/-- The paths inside the children, from child to child, and the root last. -/
theorem paths_eq_flatMap (t : Term) :
    t.paths = (t.children.flatMap fun c => c.2.paths.map (c.1 :: ·)) ++ [[]] := by
  have hhead : pathsInHead t.head =
      (childrenInHead t.head).flatMap fun c => c.2.paths.map (c.1 :: ·) := by
    cases t.head with
    | lambda x body => exact (List.append_nil _).symm
    | metaApp z args => rw [pathsInHead, childrenInHead, List.flatMap_map, pathsInAll_eq_flatMap]
    | _ => rfl
  have hpaths : t.paths = pathsInHead t.head ++ pathsInAll .arg 1 t.args ++ [[]] := by
    cases t with
    | app head args => rfl
    | lambda x body => exact (congrArg (· ++ [[]]) (List.append_nil _)).symm
    | metaApp z args => exact (congrArg (· ++ [[]]) (List.append_nil _)).symm
    | _ => rfl
  rw [hpaths, hhead, pathsInAll_eq_flatMap, children, List.flatMap_append, List.flatMap_map]

theorem descend?_eq_some_cons :
    t.descend? (step :: steps) = some s ↔
      ∃ u, (step, u) ∈ t.children ∧ u.descend? steps = some s := by
  simp only [descend?_cons, Option.bind_eq_some_iff, mem_children]

/-- The listed paths are those that lead to a subterm. -/
theorem mem_paths : steps ∈ t.paths ↔ ∃ s, t.descend? steps = some s := by
  induction steps generalizing t with
  | nil =>
    rw [paths_eq_flatMap]
    exact ⟨fun _ => ⟨t, rfl⟩, fun _ => by simp⟩
  | cons step steps ih =>
    rw [paths_eq_flatMap]
    simp only [descend?_eq_some_cons, List.mem_append, List.mem_flatMap, List.mem_map,
      List.cons.injEq, List.mem_singleton, reduceCtorEq, or_false]
    constructor
    · rintro ⟨⟨_, u⟩, hu, q, hq, rfl, rfl⟩
      obtain ⟨s, hs⟩ := ih.mp hq
      exact ⟨s, u, hu, hs⟩
    · rintro ⟨s, u, hu, hs⟩
      exact ⟨(step, u), hu, steps, ih.mpr ⟨s, hs⟩, rfl, rfl⟩

theorem exists_descend?_of_mem_paths (h : steps ∈ t.paths) : ∃ s, t.descend? steps = some s :=
  mem_paths.mp h

theorem pairwise_paths (t : Term) : t.paths.Pairwise Precedes := by
  induction t using child_induction with
  | h t ih =>
    rw [paths_eq_flatMap]
    refine List.pairwise_append.mpr ⟨List.pairwise_flatMap.mpr ⟨?_, ?_⟩, ?_, ?_⟩
    · rintro ⟨step, u⟩ hu
      exact List.pairwise_map.mpr ((ih step u hu).imp fun h => .under step h)
    · refine t.pairwise_children.imp fun h p hp q hq => ?_
      obtain ⟨p, _, rfl⟩ := List.mem_map.mp hp
      obtain ⟨q, _, rfl⟩ := List.mem_map.mp hq
      exact .apart h p q
    · exact List.pairwise_singleton _ _
    · intro p hp q hq
      obtain ⟨c, _, hp⟩ := List.mem_flatMap.mp hp
      obtain ⟨p, _, rfl⟩ := List.mem_map.mp hp
      obtain rfl := List.mem_singleton.mp hq
      exact .inside c.1 p

/-! ## Head positions -/

/-- The head positions inside a child. -/
def headPathsInChild (c : Step × Term) : List (List Step × Nat) :=
  c.2.headPaths.map (underStep c.1)

theorem headPathsInAll_eq_flatMap (k : Nat) (ts : List Term) :
    headPathsInAll k ts = (ts.zipIdx k).flatMap fun a => headPathsInChild (.metaArg a.2, a.1) := by
  induction ts generalizing k with
  | nil => rfl
  | cons t ts ih =>
    rw [headPathsInAll, ih, List.zipIdx_cons, List.flatMap_cons]
    rfl

theorem headPathsInArgs_eq_flatMap {k : Nat} (ts : List Term) :
    headPathsInArgs (k + 1) ts = (ts.zipIdx (k + 1)).flatMap fun a =>
      headPathsInChild (.arg a.2, a.1) ++ [([], ts.length + k - a.2)] := by
  induction ts generalizing k with
  | nil => rfl
  | cons t ts ih =>
    have hlen : ts.length + 1 + k = ts.length + (k + 1) := by omega
    rw [headPathsInArgs, ih, List.zipIdx_cons, List.flatMap_cons, List.length_cons, hlen,
      Nat.add_sub_cancel, List.append_assoc]
    rfl

/-- First the head positions inside the head, then the head, then for every argument those inside
it and the part that ends with it. -/
theorem headPaths_eq_flatMap (t : Term) :
    t.headPaths = (childrenInHead t.head).flatMap headPathsInChild ++ ([], t.args.length) ::
      (t.args.zipIdx 1).flatMap fun a =>
        headPathsInChild (.arg a.2, a.1) ++ [([], t.args.length - a.2)] := by
  have hhead : headPathsInHead t.head = (childrenInHead t.head).flatMap headPathsInChild := by
    cases t.head with
    | lambda x body => exact (List.append_nil _).symm
    | metaApp z args =>
      rw [headPathsInHead, childrenInHead, List.flatMap_map, headPathsInAll_eq_flatMap]
    | _ => rfl
  have hpaths : t.headPaths =
      headPathsInHead t.head ++ ([], t.args.length) :: headPathsInArgs 1 t.args := by
    cases t <;> rfl
  rw [hpaths, hhead, headPathsInArgs_eq_flatMap]
  rfl

/-- Up to their order, the head positions are those inside the children and the term with any
number of its arguments. -/
theorem headPaths_perm (t : Term) :
    t.headPaths.Perm (t.children.flatMap headPathsInChild ++
      (List.range' 0 (t.args.length + 1)).map fun i => ([], t.args.length - i)) := by
  have hparts : (List.range' 0 (t.args.length + 1)).map (fun i => ([], t.args.length - i)) =
      (([] : List Step), t.args.length) ::
        (t.args.zipIdx 1).map fun a => ([], t.args.length - a.2) := by
    rw [List.range'_succ, List.map_cons, ← List.zipIdx_map_snd, List.map_map]
    rfl
  rw [headPaths_eq_flatMap, hparts, children, List.flatMap_append, List.flatMap_map,
    List.append_assoc]
  refine List.Perm.append_left _ (List.Perm.trans (List.Perm.cons _ ?_) List.perm_middle.symm)
  rw [List.map_eq_flatMap]
  exact (List.flatMap_append_perm _ _ _).symm

theorem mem_headPaths_cons {chop : Nat} :
    (step :: steps, chop) ∈ t.headPaths ↔
      ∃ u, (step, u) ∈ t.children ∧ (steps, chop) ∈ u.headPaths := by
  rw [t.headPaths_perm.mem_iff]
  simp only [headPathsInChild, underStep, List.mem_append, List.mem_flatMap, List.mem_map,
    Prod.mk.injEq, reduceCtorEq, false_and, and_false, exists_false, or_false]
  constructor
  · rintro ⟨⟨_, u⟩, hu, ⟨q, k⟩, hq, e, rfl⟩
    obtain ⟨rfl, rfl⟩ := List.cons.inj e
    exact ⟨u, hu, hq⟩
  · rintro ⟨u, hu, hq⟩
    exact ⟨(step, u), hu, (steps, chop), hq, rfl, rfl⟩

theorem mem_headPaths_nil {chop : Nat} : ([], chop) ∈ t.headPaths ↔ chop ≤ t.args.length := by
  rw [t.headPaths_perm.mem_iff]
  simp only [headPathsInChild, underStep, List.mem_append, List.mem_flatMap, List.mem_map,
    List.mem_range'_1, Prod.mk.injEq, reduceCtorEq, false_and, and_false, exists_false, false_or,
    true_and]
  constructor
  · rintro ⟨i, _, rfl⟩
    omega
  · exact fun h => ⟨t.args.length - chop, by omega, by omega⟩

/-- The listed head positions are those that lead to a subterm with enough arguments. -/
theorem mem_headPaths {chop : Nat} :
    (steps, chop) ∈ t.headPaths ↔ ∃ s, t.descend? steps = some s ∧ chop ≤ s.args.length := by
  induction steps generalizing t with
  | nil =>
    rw [mem_headPaths_nil]
    constructor
    · exact fun h => ⟨t, rfl, h⟩
    · rintro ⟨_, e, h⟩
      exact Option.some.inj e ▸ h
  | cons step steps ih =>
    simp only [mem_headPaths_cons, ih, descend?_eq_some_cons]
    constructor
    · rintro ⟨u, hu, s, hs, h⟩
      exact ⟨s, ⟨u, hu, hs⟩, h⟩
    · rintro ⟨s, ⟨u, hu, hs⟩, h⟩
      exact ⟨u, hu, s, hs, h⟩

theorem exists_descend?_of_mem_headPaths {chop : Nat} (h : (steps, chop) ∈ t.headPaths) :
    ∃ s, t.descend? steps = some s ∧ chop ≤ s.args.length :=
  mem_headPaths.mp h

theorem nodup_headPaths (t : Term) : t.headPaths.Nodup := by
  induction t using child_induction with
  | h t ih =>
    rw [t.headPaths_perm.nodup_iff]
    refine List.nodup_append.mpr ⟨List.nodup_flatMap.mpr ⟨?_, ?_⟩, ?_, ?_⟩
    · rintro ⟨step, u⟩ hu
      refine (ih step u hu).map ?_
      rintro ⟨p, k⟩ ⟨q, l⟩ e
      simpa [underStep] using e
    · refine t.pairwise_children.imp fun {c d} h e hc hd => ?_
      obtain ⟨p, _, rfl⟩ := List.mem_map.mp hc
      obtain ⟨q, _, e⟩ := List.mem_map.mp hd
      exact h.ne (by simpa [underStep] using (congrArg (·.1.head?) e).symm)
    · refine List.Nodup.map_on ?_ List.nodup_range'
      intro i hi j hj e
      rw [List.mem_range'_1] at hi hj
      rw [Prod.mk.injEq] at e
      omega
    · rintro e he _ he' rfl
      obtain ⟨c, _, he⟩ := List.mem_flatMap.mp he
      obtain ⟨p, _, rfl⟩ := List.mem_map.mp he
      obtain ⟨i, _, e⟩ := List.mem_map.mp he'
      simp [underStep] at e

theorem infix_flatMap {α β : Type} {f : α → List β} {xs : List α} {x : α} (h : x ∈ xs) :
    f x <:+: xs.flatMap f := by
  rw [List.flatMap_def]
  exact List.infix_of_mem_flatten (List.mem_map_of_mem h)

/-- The head positions inside a subterm stand together. -/
theorem headPaths_within (h : t.descend? steps = some s) :
    (s.headPaths.map fun e => (steps ++ e.1, e.2)) <:+: t.headPaths := by
  induction steps generalizing t with
  | nil =>
    obtain rfl := Option.some.inj h
    simp
  | cons step steps ih =>
    obtain ⟨u, hu, hs⟩ := descend?_eq_some_cons.mp h
    have hchild : headPathsInChild (step, u) <:+: t.headPaths := by
      rw [headPaths_eq_flatMap]
      rcases List.mem_append.mp hu with hu | hu
      · exact (infix_flatMap hu).trans (List.prefix_append _ _).isInfix
      · obtain ⟨a, ha, e⟩ := List.mem_map.mp hu
        obtain ⟨rfl, rfl⟩ := Prod.mk.inj e
        have hparts := infix_flatMap (f := fun a : Term × Nat =>
          headPathsInChild (.arg a.2, a.1) ++ [([], t.args.length - a.2)]) ha
        have hinside := (List.prefix_append _ _).isInfix.trans hparts
        exact hinside.trans ((List.suffix_cons _ _).trans (List.suffix_append _ _)).isInfix
    refine List.IsInfix.trans ?_ hchild
    simpa [headPathsInChild, underStep, Function.comp_def] using (ih hs).map (underStep step)

/-- The head positions of a subterm at `p`: those inside its head, its head itself, and for every
argument those inside it, followed by the part that ends with the argument. -/
def headBlock (p : Position) (s : Term) : List HeadPosition :=
  ((childrenInHead s.head).flatMap fun c => c.2.headPositions.map (.below p c.1)) ++
    ⟨p, s.args.length⟩ :: (s.args.zipIdx 1).flatMap fun a =>
      a.1.headPositions.map (.below p (.arg a.2)) ++ [⟨p, s.args.length - a.2⟩]

theorem headBlock_eq_map (p : Position) (s : Term) :
    headBlock p s = s.headPaths.map fun e => ⟨⟨p.steps ++ e.1⟩, e.2⟩ := by
  rw [headPaths_eq_flatMap]
  simp [headBlock, headPositions, headPathsInChild, underStep, HeadPosition.below,
    List.map_flatMap, Function.comp_def]

theorem subtermAt_of_descend? {p : Position} (h : t.descend? p.steps = some s) :
    t.subtermAt p = .ok s := by
  rw [subtermAt, h]
  rfl

theorem headSubtermAt_of_descend? {h : HeadPosition} (hs : t.descend? h.position.steps = some s)
    (hchop : h.chop ≤ s.args.length) :
    t.headSubtermAt h = .ok (s.headPart (s.args.length - h.chop)) := by
  have hsplit : t.headSplit h = .ok (s, s.args.length - h.chop) := by
    unfold headSplit
    rw [subtermAt_of_descend? hs]
    exact if_neg (Nat.not_lt.mpr hchop)
  rw [headSubtermAt, hsplit]
  rfl

theorem mem_positions {p : Position} : p ∈ t.positions ↔ ∃ s, t.subtermAt p = .ok s := by
  have hpaths : p ∈ t.positions ↔ p.steps ∈ t.paths := by
    rw [positions, List.mem_map]
    constructor
    · rintro ⟨steps, h, rfl⟩
      exact h
    · exact fun h => ⟨p.steps, h, rfl⟩
  rw [hpaths, mem_paths]
  constructor
  · rintro ⟨s, hs⟩
    exact ⟨s, subtermAt_of_descend? hs⟩
  · rintro ⟨s, hs⟩
    exact ⟨s, subtermAt_eq_ok hs⟩

theorem mem_headPositions {h : HeadPosition} :
    h ∈ t.headPositions ↔ ∃ s, t.headSubtermAt h = .ok s := by
  have hpaths : h ∈ t.headPositions ↔ (h.position.steps, h.chop) ∈ t.headPaths := by
    rw [headPositions, List.mem_map]
    constructor
    · rintro ⟨e, he, rfl⟩
      exact he
    · exact fun he => ⟨_, he, rfl⟩
  rw [hpaths, mem_headPaths]
  constructor
  · rintro ⟨s, hs, hchop⟩
    exact ⟨_, headSubtermAt_of_descend? hs hchop⟩
  · rintro ⟨u, e⟩
    obtain ⟨s, keep, hsplit, _⟩ := headSubtermAt_eq_ok e
    obtain ⟨hs, hchop, _⟩ := headSplit_eq_ok hsplit
    exact ⟨s, hs, hchop⟩

/-- Both lists are exact: a position is listed exactly if there is a subterm at it, and a head
position exactly if there is a head subterm at it, each of them once. What lies inside a subterm is
listed before it, first what is inside its head, then argument after argument; the root is the last
position. The head positions of every subterm stand together: those inside its head, its head with
all arguments disregarded, then for every argument those inside it, directly followed by the part of
the subterm that ends with this argument. -/
theorem positions_listed (t : Term) :
    (∀ p, p ∈ t.positions ↔ ∃ s, t.subtermAt p = .ok s) ∧ t.positions.Nodup ∧
      t.positions.Pairwise (fun p q => Precedes p.steps q.steps) ∧
      t.positions.getLast? = some .root ∧
      (∀ h, h ∈ t.headPositions ↔ ∃ s, t.headSubtermAt h = .ok s) ∧ t.headPositions.Nodup ∧
      ∀ p s, t.subtermAt p = .ok s → headBlock p s <:+: t.headPositions := by
  have hordered : t.positions.Pairwise fun p q => Precedes p.steps q.steps :=
    List.pairwise_map.mpr t.pairwise_paths
  refine ⟨fun p => mem_positions, ?nodup, hordered, ?last, fun h => mem_headPositions, ?nodupHead,
    ?block⟩
  case nodup => exact hordered.imp fun h e => h.ne (congrArg Position.steps e)
  case last =>
    rw [positions, paths_eq_flatMap, List.map_append]
    exact List.getLast?_concat
  case nodupHead =>
    refine t.nodup_headPaths.map ?_
    rintro ⟨p, k⟩ ⟨q, l⟩ e
    simpa using e
  case block =>
    intro p s hs
    rw [headBlock_eq_map, headPositions]
    simpa [Function.comp_def] using
      (headPaths_within (subtermAt_eq_ok hs)).map fun e => HeadPosition.mk ⟨e.1⟩ e.2

/-- In `f (λx.x) y`, what is inside an argument comes before the part that ends with it. -/
example :
    let o := SimpleType.base "o"
    let f : Var := ⟨0, "f", .arrows [.arrow o o, o] o, false⟩
    let x : Var := ⟨1, "x", o, true⟩
    let y : Var := ⟨2, "y", o, false⟩
    (app (var f) [lambda x (var x), var y]).headPositions.map HeadPosition.text =
      ["☆2", "1.0.ε", "1.ε", "☆1", "2.ε", "ε"] := by cbv

end Term

end TermAlgebra
