import TermAlgebra.Proofs.ContextFilling
import TermAlgebra.Proofs.Instances

/-!
# What is observed of a term

Positions, occurrences and kinds are read off a tree in which every binder has a name. Main
statement: terms that are equal up to the choice of bound variables are observed alike.
-/

namespace TermAlgebra.Term

variable {xs ys : List Var} {s t : Term}

/-! ## Constructors -/

/-- The constructor of a term. -/
def form : Term → Kind
  | literal _ => .literal
  | const _ => .constant
  | var _ => .variable
  | lambda _ _ => .lambda
  | app _ _ => .app
  | metaApp _ _ => .metaApp

def Kind.constructors : List Kind := [.literal, .constant, .variable, .lambda, .app, .metaApp]

theorem hasKind_eq_form (t : Term) {k : Kind} (hk : k ∈ Kind.constructors) :
    t.hasKind k = (t.form == k) := by
  simp only [Kind.constructors, List.mem_cons, List.not_mem_nil, or_false] at hk
  rcases hk with rfl | rfl | rfl | rfl | rfl | rfl <;> cases t <;> rfl

theorem isConstant_eq_form (t : Term) : t.isConstant = (t.form == .constant) :=
  t.hasKind_eq_form (k := .constant) (by decide)

theorem isVarTerm_eq_form (t : Term) : t.isVarTerm = (t.head.form == .variable) := by
  unfold isVarTerm headVar?
  cases t.head <;> rfl

theorem isFunctional_eq_form (t : Term) : t.isFunctional = (t.head.form == .constant) := by
  unfold isFunctional root?
  cases t.head <;> rfl

theorem isBetaRedex_eq_form (t : Term) :
    t.isBetaRedex = (t.form == .app && t.head.form == .lambda) := by
  unfold isBetaRedex
  cases t with
  | app head args => cases head <;> rfl
  | _ => rfl

/-! ## Terms side by side -/

namespace Twins

theorem form_eq (h : Twins xs ys s t) : s.form = t.form := by
  have halpha := h.alphaIn
  cases s <;> cases t <;> first | rfl | cases halpha

/-- Induction over two terms side by side. -/
theorem induction {motive : Term → Term → Prop} (literal : ∀ v, motive (.literal v) (.literal v))
    (const : ∀ c d : Constant, c.ty = d.ty → motive (.const c) (.const d))
    (var : ∀ x y : Var, motive (.var x) (.var y))
    (lambda : ∀ (x y : Var) (body body' : Term), motive body body' →
      motive (.lambda x body) (.lambda y body'))
    (app : ∀ (head head' : Term) (args args' : List Term), head.form = head'.form →
      motive head head' → List.Forall₂ (fun u v => u.ty = v.ty ∧ motive u v) args args' →
      motive (.app head args) (.app head' args'))
    (metaApp : ∀ (z : MetaVar) (args args' : List Term), List.Forall₂ motive args args' →
      motive (.metaApp z args) (.metaApp z args'))
    (h : Twins xs ys s t) : motive s t := by
  induction s using Term.induction generalizing xs ys t with
  | literal v =>
    obtain rfl := h.literal
    exact literal v
  | const c =>
    obtain ⟨d, rfl, _, hty⟩ := h.const
    exact const c d hty.symm
  | var x =>
    obtain ⟨y, rfl, _⟩ := h.var
    exact var x y
  | lambda x body ih =>
    obtain ⟨y, body', rfl, _, hbody⟩ := h.lambda
    exact lambda x y body body' (ih hbody)
  | app head args ih ihs =>
    obtain ⟨head', args', rfl, hhead, hargs⟩ := h.app
    refine app head head' args args' hhead.form_eq (ih hhead) ?_
    exact ((List.forall₂_and_left _ _).mpr ⟨ihs, hargs⟩).imp fun u v huv =>
      ⟨huv.2.ty_eq, huv.1 huv.2⟩
  | metaApp z args ihs =>
    obtain ⟨args', rfl, hargs⟩ := h.metaApp
    refine metaApp z args args' ?_
    exact ((List.forall₂_and_left _ _).mpr ⟨ihs, hargs⟩).imp fun u v huv => huv.1 huv.2

/-! ### Positions -/

theorem pathsInAll_eq {ss ts : List Term} (h : List.Forall₂ (fun u v => u.paths = v.paths) ss ts)
    (step : Nat → Step) (i : Nat) : pathsInAll step i ss = pathsInAll step i ts := by
  induction h generalizing i with
  | nil => rfl
  | cons huv _ ih => rw [pathsInAll, pathsInAll, huv, ih]

theorem paths_eq (h : Twins xs ys s t) : s.paths = t.paths := by
  -- the steps into the head of an application are those of the head alone
  suffices s.paths = t.paths ∧ pathsInHead s = pathsInHead t from this.1
  refine Twins.induction (motive := fun u v => u.paths = v.paths ∧ pathsInHead u = pathsInHead v)
    ?literal ?const ?var ?lambda ?app ?metaApp h
  case literal => exact fun v => ⟨rfl, rfl⟩
  case const => exact fun c d _ => ⟨rfl, rfl⟩
  case var => exact fun x y => ⟨rfl, rfl⟩
  case lambda =>
    intro x y body body' hbody
    rw [paths, paths, pathsInHead, pathsInHead, hbody.1]
    exact ⟨rfl, rfl⟩
  case app =>
    intro head head' args args' _ hhead hargs
    rw [paths, paths, hhead.2, pathsInAll_eq (hargs.imp fun _ _ huv => huv.2.1)]
    exact ⟨rfl, rfl⟩
  case metaApp =>
    intro z args args' hargs
    rw [paths, paths, pathsInHead, pathsInHead, pathsInAll_eq (hargs.imp fun _ _ huv => huv.1)]
    exact ⟨rfl, rfl⟩

theorem headPathsInAll_eq {ss ts : List Term}
    (h : List.Forall₂ (fun u v => u.headPaths = v.headPaths) ss ts) (i : Nat) :
    headPathsInAll i ss = headPathsInAll i ts := by
  induction h generalizing i with
  | nil => rfl
  | cons huv _ ih => rw [headPathsInAll, headPathsInAll, huv, ih]

theorem headPathsInArgs_eq {ss ts : List Term}
    (h : List.Forall₂ (fun u v => u.headPaths = v.headPaths) ss ts) (i : Nat) :
    headPathsInArgs i ss = headPathsInArgs i ts := by
  induction h generalizing i with
  | nil => rfl
  | cons huv hrest ih => rw [headPathsInArgs, headPathsInArgs, huv, hrest.length_eq, ih]

theorem headPaths_eq (h : Twins xs ys s t) : s.headPaths = t.headPaths := by
  suffices s.headPaths = t.headPaths ∧ headPathsInHead s = headPathsInHead t from this.1
  refine Twins.induction
    (motive := fun u v => u.headPaths = v.headPaths ∧ headPathsInHead u = headPathsInHead v)
    ?literal ?const ?var ?lambda ?app ?metaApp h
  case literal => exact fun v => ⟨rfl, rfl⟩
  case const => exact fun c d _ => ⟨rfl, rfl⟩
  case var => exact fun x y => ⟨rfl, rfl⟩
  case lambda =>
    intro x y body body' hbody
    rw [headPaths, headPaths, headPathsInHead, headPathsInHead, hbody.1]
    exact ⟨rfl, rfl⟩
  case app =>
    intro head head' args args' _ hhead hargs
    rw [headPaths, headPaths, hhead.2, hargs.length_eq,
      headPathsInArgs_eq (hargs.imp fun _ _ huv => huv.2.1)]
    exact ⟨rfl, rfl⟩
  case metaApp =>
    intro z args args' hargs
    rw [headPaths, headPaths, headPathsInHead, headPathsInHead,
      headPathsInAll_eq (hargs.imp fun _ _ huv => huv.1)]
    exact ⟨rfl, rfl⟩

/-! ### Kinds -/

/-- One of them binds some variable exactly if the other does. -/
theorem exists_bound_iff (h : Twins xs ys s t) : (∃ x, x ∈ s.bound) ↔ ∃ y, y ∈ t.bound := by
  have hsome : ∀ {ss ts : List Term},
      List.Forall₂ (fun u v => (∃ x, x ∈ u.bound) ↔ ∃ y, y ∈ v.bound) ss ts →
      ((∃ x, x ∈ boundAll ss) ↔ ∃ y, y ∈ boundAll ts) := by
    intro ss ts h
    induction h with
    | nil => rfl
    | cons huv _ ih =>
      simp only [boundAll, OrderedSet.mem_union, exists_or]
      exact or_congr huv ih
  refine Twins.induction (motive := fun u v => (∃ x, x ∈ u.bound) ↔ ∃ y, y ∈ v.bound)
    ?literal ?const ?var ?lambda ?app ?metaApp h
  case literal => exact fun v => Iff.rfl
  case const => exact fun c d _ => by simp
  case var => exact fun x y => by simp
  case lambda =>
    intro x y body body' _
    exact ⟨fun _ => ⟨y, by simp⟩, fun _ => ⟨x, by simp⟩⟩
  case app =>
    intro head head' args args' _ hhead hargs
    simp only [bound_app, OrderedSet.mem_union, exists_or]
    exact or_congr hhead (hsome (hargs.imp fun _ _ huv => huv.2))
  case metaApp =>
    intro z args args' hargs
    simp only [bound_metaApp]
    exact hsome hargs

theorem hasFirstOrderShape_eq (h : Twins xs ys s t) :
    s.hasFirstOrderShape = t.hasFirstOrderShape := by
  have hall : ∀ {ss ts : List Term},
      List.Forall₂ (fun u v => u.ty = v.ty ∧ u.hasFirstOrderShape = v.hasFirstOrderShape) ss ts →
      areFirstOrder ss = areFirstOrder ts := by
    intro ss ts h
    induction h with
    | nil => rfl
    | cons huv _ ih => rw [areFirstOrder, areFirstOrder, huv.1, huv.2, ih]
  refine Twins.induction (motive := fun u v => u.hasFirstOrderShape = v.hasFirstOrderShape)
    ?literal ?const ?var ?lambda ?app ?metaApp h
  case literal => exact fun v => rfl
  case const =>
    intro c d hty
    rw [hasFirstOrderShape, hasFirstOrderShape, hty]
  case var => exact fun x y => rfl
  case lambda => exact fun x y body body' _ => rfl
  case app =>
    intro head head' args args' hform hhead hargs
    rw [hasFirstOrderShape, hasFirstOrderShape, isConstant_eq_form, isConstant_eq_form, hform,
      hhead, hall hargs]
  case metaApp => exact fun z args args' _ => rfl

theorem isApplicative_eq (h : Twins xs ys s t) : s.isApplicative = t.isApplicative := by
  have hall : ∀ {ss ts : List Term},
      List.Forall₂ (fun u v => u.isApplicative = v.isApplicative) ss ts →
      areApplicative ss = areApplicative ts := by
    intro ss ts h
    induction h with
    | nil => rfl
    | cons huv _ ih => rw [areApplicative, areApplicative, huv, ih]
  refine Twins.induction (motive := fun u v => u.isApplicative = v.isApplicative)
    ?literal ?const ?var ?lambda ?app ?metaApp h
  case literal => exact fun v => rfl
  case const => exact fun c d _ => rfl
  case var => exact fun x y => rfl
  case lambda => exact fun x y body body' _ => rfl
  case app =>
    intro head head' args args' _ hhead hargs
    rw [isApplicative, isApplicative, hhead, hall (hargs.imp fun _ _ huv => huv.2)]
  case metaApp => exact fun z args args' _ => rfl

end Twins

/-! ## Alpha-equivalence -/

theorem twins_of_alphaEquals (h : s.alphaEquals t) : Twins [] [] s t :=
  ⟨rfl, (alphaEquals_iff s t).mp h⟩

theorem free_eq_of_alphaEquals (hs : s.WellFormed) (ht : t.WellFormed) (h : s.alphaEquals t) :
    s.free = t.free := by
  refine OrderedSet.ext fun r => ?_
  rw [← occurs_nameless hs, (alphaEquals_iff s t).mp h, occurs_nameless ht]

theorem isPattern_iff_of_alphaEquals (hs : s.WellFormed) (ht : t.WellFormed)
    (h : s.alphaEquals t) : s.isPattern ↔ t.isPattern :=
  ⟨(twins_of_alphaEquals h).isPattern hs ht (by simp),
    (twins_of_alphaEquals h).symm.isPattern ht hs (by simp)⟩

theorem bound_isEmpty_iff : t.bound.isEmpty ↔ ¬∃ x, x ∈ t.bound := by
  rw [OrderedSet.isEmpty_iff, not_exists]

theorem hasKind_eq_of_alphaEquals (hs : s.WellFormed) (ht : t.WellFormed) (h : s.alphaEquals t)
    (k : Kind) : s.hasKind k = t.hasKind k := by
  have htwins := twins_of_alphaEquals h
  have hform := htwins.form_eq
  have hhead := htwins.head_args.1.form_eq
  have hfree := free_eq_of_alphaEquals hs ht h
  by_cases hk : k ∈ Kind.constructors
  · rw [hasKind_eq_form s hk, hasKind_eq_form t hk, hform]
  cases k with
  | varTerm =>
    change s.isVarTerm = t.isVarTerm
    rw [isVarTerm_eq_form, isVarTerm_eq_form, hhead]
  | functional =>
    change s.isFunctional = t.isFunctional
    rw [isFunctional_eq_form, isFunctional_eq_form, hhead]
  | betaRedex =>
    change s.isBetaRedex = t.isBetaRedex
    rw [isBetaRedex_eq_form, isBetaRedex_eq_form, hform, hhead]
  | ground =>
    have hbound : s.bound.isEmpty = t.bound.isEmpty := by
      rw [Bool.eq_iff_iff, bound_isEmpty_iff, bound_isEmpty_iff, htwins.exists_bound_iff]
    change s.isGround = t.isGround
    rw [isGround, isGround, hfree, hbound]
  | closed =>
    change s.isClosed = t.isClosed
    rw [isClosed, isClosed, hfree]
  | firstOrder =>
    change s.isFirstOrder = t.isFirstOrder
    rw [isFirstOrder, isFirstOrder, htwins.ty_eq, htwins.hasFirstOrderShape_eq]
  | pattern => exact Bool.eq_iff_iff.mpr (isPattern_iff_of_alphaEquals hs ht h)
  | applicative => exact htwins.isApplicative_eq
  | _ => exact absurd (by decide) hk

/-- Nothing that is observed tells the terms apart, neither at the root nor further down. -/
structure ObservedAlike (s t : Term) : Prop where
  ty : s.ty = t.ty
  free : s.free = t.free
  positions : s.positions = t.positions
  headPositions : s.headPositions = t.headPositions
  subterms : ∀ p ∈ s.positions, ∃ u v, s.subtermAt p = .ok u ∧ t.subtermAt p = .ok v ∧
    u.ty = v.ty ∧ u.form = v.form
  headSubterms : ∀ h ∈ s.headPositions, ∃ u v, s.headSubtermAt h = .ok u ∧
    t.headSubtermAt h = .ok v ∧ u.ty = v.ty ∧ u.form = v.form
  kinds : ∀ k, s.hasKind k = t.hasKind k

theorem exists_descend?_of_alphaEquals {steps : List Step} {u : Term} (h : s.alphaEquals t)
    (hu : s.descend? steps = some u) :
    ∃ v, t.descend? steps = some v ∧ ∃ xs ys, Twins xs ys u v := by
  obtain ⟨v, hv, huv⟩ := (twins_of_alphaEquals h).exists_descend? hu
  exact ⟨v, hv, _, _, huv⟩

/-- Terms that are equal up to the choice of bound variables are observed alike. -/
theorem observedAlike_of_alphaEquals (hs : s.WellFormed) (ht : t.WellFormed)
    (h : s.alphaEquals t) : ObservedAlike s t where
  ty := (twins_of_alphaEquals h).ty_eq
  free := free_eq_of_alphaEquals hs ht h
  positions := by rw [positions, positions, (twins_of_alphaEquals h).paths_eq]
  headPositions := by rw [headPositions, headPositions, (twins_of_alphaEquals h).headPaths_eq]
  subterms p hp := by
    obtain ⟨steps, hsteps, rfl⟩ := List.mem_map.mp hp
    obtain ⟨u, hu⟩ := exists_descend?_of_mem_paths hsteps
    obtain ⟨v, hv, _, _, huv⟩ := exists_descend?_of_alphaEquals h hu
    exact ⟨u, v, subtermAt_of_descend? hu, subtermAt_of_descend? hv, huv.ty_eq, huv.form_eq⟩
  headSubterms p hp := by
    obtain ⟨⟨steps, chop⟩, hsteps, rfl⟩ := List.mem_map.mp hp
    obtain ⟨u, hu, hchop⟩ := exists_descend?_of_mem_headPaths hsteps
    obtain ⟨v, hv, _, _, huv⟩ := exists_descend?_of_alphaEquals h hu
    have hlen : u.args.length = v.args.length := huv.head_args.2.length_eq
    have hpart := huv.headPart (u.args.length - chop)
    refine ⟨_, _, headSubtermAt_of_descend? hu hchop,
      headSubtermAt_of_descend? hv (hlen ▸ hchop), ?_⟩
    rw [← hlen]
    exact ⟨hpart.ty_eq, hpart.form_eq⟩
  kinds := hasKind_eq_of_alphaEquals hs ht h

/-- In `λx.Z[x, u]` and `λy.Z[y, u]` the free binder `u` is an argument next to a bound one; the
second name for the binder makes no argument a repeated one. -/
theorem observedAlike_beside_free_binder :
    let o := SimpleType.base "o"
    let z : MetaVar := ⟨0, "Z", [o, o], o⟩
    let u : Var := ⟨1, "u", o, true⟩
    let x : Var := ⟨2, "x", o, true⟩
    let y : Var := ⟨3, "y", o, true⟩
    let term := fun v => lambda v (metaApp z [var v, var u])
    (term x).isPattern ∧ (term x).positions.length = 4 ∧ (term x).bound ≠ (term y).bound ∧
      ObservedAlike (term x) (term y) := by
  intro o z u x y term
  have hwf : ∀ v : Var, v.binder → v.ty = o → (term v).WellFormed := by
    intro v hbinder hty
    refine .lambda hbinder (by simp [boundAll]) (.metaApp ?_ ?_ ?_)
    · simp [hty, o, u, ty, z]
    · intro a ha
      rcases List.mem_cons.mp ha with rfl | ha
      · exact .var v
      · rw [List.mem_singleton.mp ha]
        exact .var u
    · simp [Apart, boundAll]
  have hbound : ∀ v, (term v).bound = .singleton v := fun v => by cbv
  refine ⟨by cbv, by cbv, ?_, ?_⟩
  · rw [hbound, hbound]
    exact fun h => absurd (congrArg OrderedSet.toList h) (by decide)
  · exact observedAlike_of_alphaEquals (hwf x rfl rfl) (hwf y rfl rfl) (by cbv)

end TermAlgebra.Term
