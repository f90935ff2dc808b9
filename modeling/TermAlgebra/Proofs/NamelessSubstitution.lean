import TermAlgebra.Term.Nameless

/-!
# Substitution without names

Substitution on nameless terms. Images have no loose indices, so nothing has to be moved when they
come below binders. A meta-variable gives way to its image with the leading binders filled by the
arguments. Main statements: filling and shifting indices go through every operation.
-/

namespace TermAlgebra.Nameless

theorem induction {motive : Nameless → Prop} (literal : ∀ v, motive (.literal v))
    (const : ∀ c σ, motive (.const c σ)) (free : ∀ x, motive (.free x))
    (bound : ∀ i, motive (.bound i)) (lambda : ∀ σ body, motive body → motive (.lambda σ body))
    (app : ∀ head args, motive head → (∀ t ∈ args, motive t) → motive (.app head args))
    (metaApp : ∀ z args, (∀ t ∈ args, motive t) → motive (.metaApp z args)) (t : Nameless) :
    motive t :=
  @Nameless.rec motive (fun ts => ∀ t ∈ ts, motive t)
    literal const free bound lambda app metaApp (fun _ h => nomatch h)
    (fun _ _ ht hts s hs => by
      rcases List.mem_cons.1 hs with rfl | hs
      · exact ht
      · exact hts s hs) t

def isLambda : Nameless → Bool
  | lambda _ _ => true
  | _ => false

/-- An occurrence of a variable, free or bound. -/
def isVar : Nameless → Bool
  | free _ => true
  | bound _ => true
  | _ => false

theorem isLambda_of_isVar {t : Nameless} (h : t.isVar) : t.isLambda = false := by
  cases t with
  | lambda σ body => cases h
  | _ => rfl

/-- Appends arguments; the head of an application is no application. -/
def apply : Nameless → List Nameless → Nameless
  | t, [] => t
  | app head args, args' => app head (args ++ args')
  | t, args => app t args

@[simp]
theorem apply_nil (t : Nameless) : t.apply [] = t := by cases t <;> rfl

theorem apply_app (head : Nameless) (args args' : List Nameless) :
    (app head args).apply args' = app head (args ++ args') := by
  cases args' <;> simp [apply]

theorem apply_apply (t : Nameless) (as bs : List Nameless) :
    (t.apply as).apply bs = t.apply (as ++ bs) := by
  cases bs with
  | nil => simp
  | cons b bs =>
    cases as with
    | nil => simp
    | cons a as => cases t <;> simp [apply]

/-! ## Labels -/

/-- What an occurrence of a variable refers to. -/
inductive Label where
  | free (x : Var)
  | bound (i : Nat)

namespace Label

/-- The label below `k` more binders. -/
def shift (k : Nat) : Label → Label
  | free x => free x
  | bound i => bound (i + k)

/-- A map of labels below one more binder. -/
def lift (ρ : Label → Label) : Label → Label
  | free x => (ρ (free x)).shift 1
  | bound 0 => bound 0
  | bound (i + 1) => (ρ (bound i)).shift 1

/-- A map of labels below `k` more binders. -/
def liftBy (k : Nat) (ρ : Label → Label) : Label → Label
  | free x => (ρ (free x)).shift k
  | bound i => if i < k then bound i else (ρ (bound (i - k))).shift k

theorem lift_shift (ρ : Label → Label) (l : Label) : lift ρ (l.shift 1) = (ρ l).shift 1 := by
  cases l <;> rfl

theorem lift_comp (ρ κ : Label → Label) : lift κ ∘ lift ρ = lift (κ ∘ ρ) := by
  funext l
  rcases l with x | _ | i
  · exact lift_shift κ (ρ (free x))
  · rfl
  · exact lift_shift κ (ρ (bound i))

theorem liftBy_zero (ρ : Label → Label) : liftBy 0 ρ = ρ := by
  have hzero : ∀ l : Label, l.shift 0 = l := fun l => by cases l <;> rfl
  funext l
  cases l with
  | free x => exact hzero _
  | bound i => simp [liftBy, hzero]

theorem lift_liftBy (k : Nat) (ρ : Label → Label) : lift (liftBy k ρ) = liftBy (k + 1) ρ := by
  have hshift : ∀ l : Label, (l.shift k).shift 1 = l.shift (k + 1) := fun l => by cases l <;> rfl
  funext l
  rcases l with x | _ | i
  · exact hshift _
  · simp [lift, liftBy]
  · have h : i + 1 - (k + 1) = i - k := by omega
    simp only [lift, liftBy, Nat.add_lt_add_iff_right, h]
    split
    · rfl
    · exact hshift _

/-- Free labels stay, and bound labels stay bound. -/
structure Local (ρ : Label → Label) : Prop where
  free : ∀ x, ρ (free x) = Label.free x
  bound : ∀ i, ∃ j, ρ (bound i) = Label.bound j

theorem Local.lift {ρ : Label → Label} (h : Local ρ) : Local (lift ρ) := by
  constructor
  · intro x
    rw [Label.lift, h.free x]
    rfl
  · intro i
    cases i with
    | zero => exact ⟨0, rfl⟩
    | succ i =>
      obtain ⟨j, hj⟩ := h.bound i
      refine ⟨j + 1, ?_⟩
      rw [Label.lift, hj]
      rfl

theorem local_shift (k : Nat) : Local (shift k) := ⟨fun _ => rfl, fun i => ⟨i + k, rfl⟩⟩

end Label

def ofLabel : Label → Nameless
  | .free x => free x
  | .bound i => bound i

mutual

def relabel (ρ : Label → Label) : Nameless → Nameless
  | literal v => literal v
  | const c σ => const c σ
  | free x => ofLabel (ρ (.free x))
  | bound i => ofLabel (ρ (.bound i))
  | lambda σ body => lambda σ (body.relabel (Label.lift ρ))
  | app head args => app (head.relabel ρ) (relabelAll ρ args)
  | metaApp z args => metaApp z (relabelAll ρ args)

def relabelAll (ρ : Label → Label) : List Nameless → List Nameless
  | [] => []
  | t :: ts => t.relabel ρ :: relabelAll ρ ts

end

/-- The term below one more binder. -/
def weaken (t : Nameless) : Nameless := t.relabel (Label.shift 1)

theorem relabelAll_eq_map (ρ : Label → Label) (ts : List Nameless) :
    relabelAll ρ ts = ts.map (relabel ρ) := by
  induction ts with
  | nil => rfl
  | cons t ts ih => rw [relabelAll, ih, List.map_cons]

theorem map_map_congr {f g k : Nameless → Nameless} {ts : List Nameless}
    (h : ∀ t ∈ ts, g (f t) = k t) : (ts.map f).map g = ts.map k := by
  rw [List.map_map]
  exact List.map_congr_left h

theorem relabel_ofLabel (ρ : Label → Label) (l : Label) :
    (ofLabel l).relabel ρ = ofLabel (ρ l) := by
  cases l <;> rfl

theorem relabel_relabel (t : Nameless) (ρ κ : Label → Label) :
    (t.relabel ρ).relabel κ = t.relabel (κ ∘ ρ) := by
  induction t using Nameless.induction generalizing ρ κ with
  | literal v => rfl
  | const c σ => rfl
  | free x => exact relabel_ofLabel κ _
  | bound i => exact relabel_ofLabel κ _
  | lambda σ body ih => simp only [relabel, ih, Label.lift_comp]
  | app head args ih ihs =>
    have hargs := map_map_congr fun t ht => ihs t ht ρ κ
    simp only [relabel, relabelAll_eq_map, ih, hargs]
  | metaApp z args ihs =>
    have hargs := map_map_congr fun t ht => ihs t ht ρ κ
    simp only [relabel, relabelAll_eq_map, hargs]

theorem weaken_relabel (t : Nameless) (ρ : Label → Label) :
    (t.relabel ρ).weaken = t.weaken.relabel (Label.lift ρ) := by
  have h : Label.lift ρ ∘ Label.shift 1 = Label.shift 1 ∘ ρ := by
    funext l
    exact Label.lift_shift ρ l
  rw [weaken, weaken, relabel_relabel, relabel_relabel, h]

theorem isVar_ofLabel (l : Label) : (ofLabel l).isVar := by cases l <;> rfl

theorem isVar_relabel {t : Nameless} (h : t.isVar) (ρ : Label → Label) : (t.relabel ρ).isVar := by
  cases t with
  | free x => exact isVar_ofLabel _
  | bound i => exact isVar_ofLabel _
  | _ => cases h

theorem isLambda_relabel (t : Nameless) (ρ : Label → Label) :
    (t.relabel ρ).isLambda = t.isLambda := by
  cases t with
  | free x => exact isLambda_of_isVar (isVar_ofLabel _)
  | bound i => exact isLambda_of_isVar (isVar_ofLabel _)
  | _ => rfl

theorem apply_relabel (t : Nameless) (args : List Nameless) (ρ : Label → Label) :
    (t.apply args).relabel ρ = (t.relabel ρ).apply (args.map (relabel ρ)) := by
  have hvar : ∀ (l : Label) (a : Nameless) (as : List Nameless),
      (ofLabel l).apply (a :: as) = app (ofLabel l) (a :: as) := fun l a as => by cases l <;> rfl
  cases args with
  | nil => simp
  | cons a as =>
    cases t with
    | free x =>
      simp only [apply, relabel, relabelAll_eq_map, List.map_cons]
      exact (hvar _ _ _).symm
    | bound i =>
      simp only [apply, relabel, relabelAll_eq_map, List.map_cons]
      exact (hvar _ _ _).symm
    | _ => simp [apply, relabel, relabelAll_eq_map]

/-! ## Filling -/

/-- Images of labels below one more binder. -/
def under (s : Label → Nameless) : Label → Nameless
  | .free x => (s (.free x)).weaken
  | .bound 0 => bound 0
  | .bound (i + 1) => (s (.bound i)).weaken

mutual

def fill (s : Label → Nameless) : Nameless → Nameless
  | literal v => literal v
  | const c σ => const c σ
  | free x => s (.free x)
  | bound i => s (.bound i)
  | lambda σ body => lambda σ (body.fill (under s))
  | app head args => (head.fill s).apply (fillAll s args)
  | metaApp z args => metaApp z (fillAll s args)

def fillAll (s : Label → Nameless) : List Nameless → List Nameless
  | [] => []
  | t :: ts => t.fill s :: fillAll s ts

end

theorem fillAll_eq_map (s : Label → Nameless) (ts : List Nameless) :
    fillAll s ts = ts.map (fill s) := by
  induction ts with
  | nil => rfl
  | cons t ts ih => rw [fillAll, ih, List.map_cons]

theorem apply_fill (t : Nameless) (args : List Nameless) (s : Label → Nameless) :
    (t.apply args).fill s = (t.fill s).apply (args.map (fill s)) := by
  cases args with
  | nil => simp
  | cons a as =>
    cases t with
    | app head bs => simp [apply_app, fill, fillAll_eq_map, apply_apply]
    | _ => simp [apply, fill, fillAll_eq_map]

theorem under_shift (s : Label → Nameless) (l : Label) : under s (l.shift 1) = (s l).weaken := by
  cases l <;> rfl

theorem under_lift (s : Label → Nameless) (ρ : Label → Label) :
    under s ∘ Label.lift ρ = under (s ∘ ρ) := by
  funext l
  rcases l with x | _ | i
  · exact under_shift s _
  · rfl
  · exact under_shift s _

theorem fill_ofLabel (s : Label → Nameless) (l : Label) : (ofLabel l).fill s = s l := by
  cases l <;> rfl

theorem fill_relabel (t : Nameless) (ρ : Label → Label) (s : Label → Nameless) :
    (t.relabel ρ).fill s = t.fill (s ∘ ρ) := by
  induction t using Nameless.induction generalizing ρ s with
  | literal v => rfl
  | const c σ => rfl
  | free x => exact fill_ofLabel s _
  | bound i => exact fill_ofLabel s _
  | lambda σ body ih => simp only [relabel, fill, ih, under_lift]
  | app head args ih ihs =>
    have hargs := map_map_congr fun t ht => ihs t ht ρ s
    simp only [relabel, fill, relabelAll_eq_map, fillAll_eq_map, ih, hargs]
  | metaApp z args ihs =>
    have hargs := map_map_congr fun t ht => ihs t ht ρ s
    simp only [relabel, fill, relabelAll_eq_map, fillAll_eq_map, hargs]

theorem relabel_under (s : Label → Nameless) (ρ : Label → Label) :
    relabel (Label.lift ρ) ∘ under s = under (relabel ρ ∘ s) := by
  funext l
  rcases l with x | _ | i
  · exact (weaken_relabel _ ρ).symm
  · rfl
  · exact (weaken_relabel _ ρ).symm

theorem relabel_fill (t : Nameless) (s : Label → Nameless) (ρ : Label → Label) :
    (t.fill s).relabel ρ = t.fill (relabel ρ ∘ s) := by
  induction t using Nameless.induction generalizing ρ s with
  | literal v => rfl
  | const c σ => rfl
  | free x => rfl
  | bound i => rfl
  | lambda σ body ih => simp only [relabel, fill, ih, relabel_under]
  | app head args ih ihs =>
    have hargs := map_map_congr fun t ht => ihs t ht s ρ
    simp only [fill, apply_relabel, fillAll_eq_map, ih, hargs]
  | metaApp z args ihs =>
    have hargs := map_map_congr fun t ht => ihs t ht s ρ
    simp only [fill, relabel, relabelAll_eq_map, fillAll_eq_map, hargs]

/-- Filling below a binder leaves what comes from outside of it as it is. -/
theorem weaken_fill (t : Nameless) (s : Label → Nameless) :
    (t.fill s).weaken = t.weaken.fill (under s) := by
  have h : under s ∘ Label.shift 1 = relabel (Label.shift 1) ∘ s := by
    funext l
    exact under_shift s l
  rw [weaken, weaken, relabel_fill, fill_relabel, h]

/-! ## Images of meta-variables -/

/-- Labels below the binders that have been filled, the innermost one first. -/
def environment (filled : List Nameless) : Label → Nameless
  | .free x => free x
  | .bound i => filled[i]?.getD (bound (i - filled.length))

/-- Fills leading binders by arguments, after those in `filled`, and applies the body to the
arguments left over. -/
def openLambdas : Nameless → List Nameless → List Nameless → Nameless
  | lambda _ body, arg :: args, filled => body.openLambdas args (arg :: filled)
  | body, args, filled => (body.fill (environment filled)).apply args

/-- What becomes of `Z[t₁, …, tₖ]` for an image of `Z`. -/
def instantiate (image : Nameless) (args : List Nameless) : Nameless := image.openLambdas args []

theorem environment_cons_shift (t : Nameless) (filled : List Nameless) (l : Label) :
    environment (t :: filled) (l.shift 1) = environment filled l := by
  cases l with
  | free x => rfl
  | bound i =>
    have h : i + 1 - (filled.length + 1) = i - filled.length := by omega
    simp [Label.shift, environment, h]

theorem environment_shift (filled : List Nameless) (l : Label) :
    environment filled (l.shift filled.length) = ofLabel l := by
  cases l with
  | free x => rfl
  | bound i => simp [Label.shift, environment, ofLabel]

theorem relabel_environment (filled : List Nameless) (ρ : Label → Label) :
    relabel ρ ∘ environment filled =
      environment (filled.map (relabel ρ)) ∘ Label.liftBy filled.length ρ := by
  have hshift : ∀ l : Label,
      environment (filled.map (relabel ρ)) (l.shift filled.length) = ofLabel l := by
    intro l
    have h := environment_shift (filled.map (relabel ρ)) l
    rwa [List.length_map] at h
  funext l
  cases l with
  | free x => exact (hshift _).symm
  | bound i =>
    by_cases h : i < filled.length
    · simp [environment, Label.liftBy, h]
    · have hi := hshift (ρ (.bound (i - filled.length)))
      simp only [Function.comp_apply, Label.liftBy, if_neg h, hi]
      simp [environment, h, relabel]

theorem openLambdas_nil (t : Nameless) (filled : List Nameless) :
    t.openLambdas [] filled = t.fill (environment filled) := by
  cases t <;> simp [openLambdas]

theorem openLambdas_of_not_lambda {t : Nameless} (h : t.isLambda = false)
    (args filled : List Nameless) :
    t.openLambdas args filled = (t.fill (environment filled)).apply args := by
  cases t with
  | lambda σ body => simp [isLambda] at h
  | _ => simp [openLambdas]

theorem openLambdas_relabel (t : Nameless) (args filled : List Nameless) (ρ : Label → Label) :
    (t.openLambdas args filled).relabel ρ =
      (t.relabel (Label.liftBy filled.length ρ)).openLambdas (args.map (relabel ρ))
        (filled.map (relabel ρ)) := by
  have hfill : (t.fill (environment filled)).relabel ρ =
      (t.relabel (Label.liftBy filled.length ρ)).fill (environment (filled.map (relabel ρ))) := by
    rw [relabel_fill, relabel_environment, fill_relabel]
  cases args with
  | nil => rw [List.map_nil, openLambdas_nil, openLambdas_nil, hfill]
  | cons arg args =>
    cases hl : t.isLambda with
    | true =>
      cases t with
      | lambda σ body =>
        have ih := openLambdas_relabel body args (arg :: filled) ρ
        rw [List.length_cons, ← Label.lift_liftBy] at ih
        exact ih
      | _ => cases hl
    | false =>
      have hl' := (isLambda_relabel t (Label.liftBy filled.length ρ)).trans hl
      rw [openLambdas_of_not_lambda hl, openLambdas_of_not_lambda hl', apply_relabel, hfill]
termination_by args.length

theorem instantiate_relabel (image : Nameless) (args : List Nameless) (ρ : Label → Label) :
    (image.instantiate args).relabel ρ =
      (image.relabel ρ).instantiate (args.map (relabel ρ)) := by
  have h := openLambdas_relabel image args [] ρ
  rwa [List.length_nil, Label.liftBy_zero] at h

mutual

/-- Replaces variables and meta-variables by images without loose indices, all at once. -/
def subst (θ : Replaceable → Option Nameless) : Nameless → Nameless
  | literal v => literal v
  | const c σ => const c σ
  | free x => (θ (.var x)).getD (free x)
  | bound i => bound i
  | lambda σ body => lambda σ (body.subst θ)
  | app head args => (head.subst θ).apply (substAll θ args)
  | metaApp z args =>
    match θ (.metaVar z) with
    | some image => image.instantiate (substAll θ args)
    | none => metaApp z (substAll θ args)

def substAll (θ : Replaceable → Option Nameless) : List Nameless → List Nameless
  | [] => []
  | t :: ts => t.subst θ :: substAll θ ts

end

theorem substAll_eq_map (θ : Replaceable → Option Nameless) (ts : List Nameless) :
    substAll θ ts = ts.map (subst θ) := by
  induction ts with
  | nil => rfl
  | cons t ts ih => rw [substAll, ih, List.map_cons]

theorem apply_subst (t : Nameless) (args : List Nameless) (θ : Replaceable → Option Nameless) :
    (t.apply args).subst θ = (t.subst θ).apply (args.map (subst θ)) := by
  cases args with
  | nil => simp
  | cons a as =>
    cases t with
    | app head bs => simp [apply_app, subst, substAll_eq_map, apply_apply]
    | _ => simp [apply, subst, substAll_eq_map]

/-- Images without loose indices stay when they come below binders. -/
theorem subst_relabel {θ : Replaceable → Option Nameless}
    (closed : ∀ r image, θ r = some image → ∀ ρ, Label.Local ρ → image.relabel ρ = image)
    (t : Nameless) {ρ : Label → Label} (hρ : Label.Local ρ) :
    (t.subst θ).relabel ρ = (t.relabel ρ).subst θ := by
  induction t using Nameless.induction generalizing ρ with
  | literal v => rfl
  | const c σ => rfl
  | free x =>
    simp only [subst, relabel, hρ.free x, ofLabel]
    cases h : θ (.var x) with
    | none =>
      simp only [Option.getD_none, relabel, hρ.free x]
      rfl
    | some image => exact closed _ _ h ρ hρ
  | bound i =>
    obtain ⟨j, hj⟩ := hρ.bound i
    simp only [subst, relabel, hj, ofLabel]
  | lambda σ body ih => simp only [subst, relabel, ih hρ.lift]
  | app head args ih ihs =>
    have hargs : (args.map (subst θ)).map (relabel ρ) = (args.map (relabel ρ)).map (subst θ) := by
      rw [map_map_congr fun t ht => ihs t ht hρ, List.map_map]
      rfl
    simp only [subst, relabel, apply_relabel, substAll_eq_map, relabelAll_eq_map, ih hρ, hargs]
  | metaApp z args ihs =>
    have hargs : (args.map (subst θ)).map (relabel ρ) = (args.map (relabel ρ)).map (subst θ) := by
      rw [map_map_congr fun t ht => ihs t ht hρ, List.map_map]
      rfl
    simp only [subst, relabel, substAll_eq_map, relabelAll_eq_map]
    cases h : θ (.metaVar z) with
    | none => simp only [relabel, relabelAll_eq_map, hargs]
    | some image => simp only [instantiate_relabel, closed _ _ h ρ hρ, hargs]

end TermAlgebra.Nameless
