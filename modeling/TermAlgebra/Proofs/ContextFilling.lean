import TermAlgebra.Proofs.Counterparts
import TermAlgebra.Proofs.PositionListing
import TermAlgebra.Proofs.Reinsertion

/-!
# Filling a place in a term

A term can be put literally in the place of a subterm, with no binder renamed: the binders on the
way to the place bind what is free in it. Terms that are equal up to bound variables have their
subterms at the same places, and stay equal when these places are filled with terms that read alike
there. Places of which neither is inside the other may be filled in any order.
-/

namespace TermAlgebra.Term

variable {t u v w new : Term} {a b step : Step} {steps p q : List Step} {x : Var}

/-! ## Binders on a path -/

/-- The binder of the body that a step enters. -/
def binderAt? (t : Term) : Step → Option Var
  | .body => t.head.lambda?.map Prod.fst
  | _ => none

/-- The binders of all bodies that a path enters, the innermost first. -/
def enclosing : List Step → Term → List Var
  | [], _ => []
  | step :: steps, t =>
    match t.child? step with
    | some u => u.enclosing steps ++ (t.binderAt? step).toList
    | none => []

theorem enclosing_cons (h : t.child? step = some u) (steps : List Step) :
    t.enclosing (step :: steps) = u.enclosing steps ++ (t.binderAt? step).toList := by
  rw [enclosing, h]

theorem mem_bound_of_binderAt? (h : t.binderAt? step = some x) : x ∈ t.bound := by
  cases step with
  | body =>
    cases e : t.head with
    | lambda y body =>
      rw [binderAt?, e] at h
      obtain rfl := Option.some.inj h
      exact mem_bound_head_args.mpr (Or.inl (by simp [e]))
    | _ =>
      rw [binderAt?, e] at h
      cases h
  | _ => cases h

theorem mem_bound_of_child? (h : t.child? step = some u) (hx : x ∈ u.bound) : x ∈ t.bound := by
  rw [mem_bound_head_args]
  rcases child?_cases h with ⟨i, rfl, hi⟩ | ⟨y, rfl, e⟩ | ⟨i, z, args, rfl, e, hi⟩
  · exact Or.inr ⟨u, mem_of_nth? hi, hx⟩
  · exact Or.inl (by simp [e, hx])
  · rw [e, bound_metaApp, mem_boundAll]
    exact Or.inl ⟨u, mem_of_nth? hi, hx⟩

theorem mem_bound_of_enclosing (h : x ∈ t.enclosing steps) : x ∈ t.bound := by
  induction steps generalizing t with
  | nil => cases h
  | cons step steps ih =>
    rw [enclosing] at h
    split at h
    · rename_i u hu
      rcases List.mem_append.mp h with hx | hx
      · exact mem_bound_of_child? hu (ih hx)
      · exact mem_bound_of_binderAt? (Option.mem_toList.mp hx)
    · cases h

/-- No variable is bound twice around a place of a well-formed term. -/
theorem nodup_enclosing (ht : t.WellFormed) (steps : List Step) : (t.enclosing steps).Nodup := by
  induction steps generalizing t with
  | nil => exact .nil
  | cons step steps ih =>
    rw [enclosing]
    split
    · rename_i u hu
      have hrest := ih (ht.child? hu)
      rcases child?_cases hu with ⟨i, rfl, _⟩ | ⟨x, rfl, e⟩ | ⟨i, z, args, rfl, _, _⟩
      · exact (List.append_nil _).symm ▸ hrest
      · have hhead := ht.head
        rw [e] at hhead
        cases hhead with
        | lambda _ once _ =>
          rw [binderAt?, e]
          refine List.nodup_append.mpr ⟨hrest, List.nodup_singleton x, fun y hy z hz hyz => ?_⟩
          obtain rfl := List.mem_singleton.mp hz
          exact once (hyz ▸ mem_bound_of_enclosing hy)
      · exact (List.append_nil _).symm ▸ hrest
    · exact .nil

/-! ## Changing one child -/

/-- The term with the given head and arguments. -/
def ofParts (head : Term) : List Term → Term
  | [] => head
  | arg :: args => app head (arg :: args)

/-- Puts a term at an index that is counted from one. -/
def setNth (ts : List Term) (new : Term) : Nat → List Term
  | 0 => ts
  | i + 1 => ts.set i new

def setInHead (new : Term) : Step → Term → Term
  | .body, lambda x _ => lambda x new
  | .metaArg i, metaApp z args => metaApp z (setNth args new i)
  | _, head => head

def setInArgs (new : Term) : Step → List Term → List Term
  | .arg i, args => setNth args new i
  | _, args => args

/-- Puts a term in the place of the part that a step leads to. -/
def setChild (new t : Term) (step : Step) : Term :=
  ofParts (setInHead new step t.head) (setInArgs new step t.args)

section

variable {head : Term} {ts : List Term} {i j : Nat}

theorem ofParts_of_ne_nil (h : ts ≠ []) (head : Term) : ofParts head ts = app head ts := by
  cases ts with
  | nil => exact absurd rfl h
  | cons => rfl

theorem head_ofParts (h : head.isApp = false) (args : List Term) :
    (ofParts head args).head = head := by
  cases args with
  | nil => exact (head_args_of_flat h).1
  | cons => rfl

theorem args_ofParts (h : head.isApp = false) (args : List Term) :
    (ofParts head args).args = args := by
  cases args with
  | nil => exact (head_args_of_flat h).2
  | cons => rfl

theorem nth?_setNth_self (h : nth? ts i = some u) (new : Term) :
    nth? (setNth ts new i) i = some new := by
  cases i with
  | zero => cases h
  | succ i => exact List.getElem?_set_self (List.getElem?_eq_some_iff.mp h).1

theorem nth?_setNth_of_ne (h : j ≠ i) (new : Term) : nth? (setNth ts new i) j = nth? ts j := by
  cases i with
  | zero => rfl
  | succ i =>
    cases j with
    | zero => rfl
    | succ j => exact List.getElem?_set_ne (by omega)

theorem setNth_eq_set (h : nth? ts i = some u) (new : Term) :
    setNth ts new i = ts.set (i - 1) new := by
  cases i with
  | zero => cases h
  | succ i => rfl

theorem setNth_setNth (ts : List Term) (v w : Term) (i : Nat) :
    setNth (setNth ts v i) w i = setNth ts w i := by
  cases i with
  | zero => rfl
  | succ i => exact List.set_set v

theorem setNth_comm (ts : List Term) (v w : Term) (h : i ≠ j) :
    setNth (setNth ts v i) w j = setNth (setNth ts w j) v i := by
  cases i with
  | zero => rfl
  | succ i =>
    cases j with
    | zero => rfl
    | succ j => exact List.set_comm v w (by omega)

/-- A step into the head of an application leads to where it leads in the head alone. -/
theorem child?_ofParts (h : head.isApp = false) (args : List Term) (hstep : ∀ i, step ≠ .arg i) :
    (ofParts head args).child? step = head.child? step ∧
      (ofParts head args).binderAt? step = head.binderAt? step := by
  have hself := (head_args_of_flat h).1
  cases step with
  | arg i => exact absurd rfl (hstep i)
  | body => simp only [child?, binderAt?, head_ofParts h, hself, and_self]
  | metaArg i => simp only [child?, binderAt?, metaArgs, head_ofParts h, hself, and_self]

theorem isApp_setInHead (new : Term) (step : Step) (head : Term) :
    (setInHead new step head).isApp = head.isApp := by
  cases step <;> cases head <;> rfl

theorem setInHead_setInHead (v w : Term) (step : Step) (head : Term) :
    setInHead w step (setInHead v step head) = setInHead w step head := by
  cases step with
  | metaArg i => cases head <;> first | rfl | exact congrArg (metaApp _) (setNth_setNth _ v w i)
  | _ => cases head <;> rfl

theorem setInHead_comm (v w : Term) (h : a ≠ b) (head : Term) :
    setInHead w b (setInHead v a head) = setInHead v a (setInHead w b head) := by
  cases a with
  | metaArg i =>
    cases b with
    | metaArg j =>
      have hij : i ≠ j := mt (congrArg Step.metaArg) h
      cases head <;> first | rfl | exact congrArg _ (setNth_comm _ v w hij)
    | _ => cases head <;> rfl
  | body =>
    cases b with
    | body => exact absurd rfl h
    | _ => cases head <;> rfl
  | arg i => cases b <;> cases head <;> rfl

theorem setInArgs_setInArgs (v w : Term) (step : Step) (args : List Term) :
    setInArgs w step (setInArgs v step args) = setInArgs w step args := by
  cases step with
  | arg i => exact setNth_setNth args v w i
  | _ => rfl

theorem setInArgs_comm (v w : Term) (h : a ≠ b) (args : List Term) :
    setInArgs w b (setInArgs v a args) = setInArgs v a (setInArgs w b args) := by
  cases a with
  | arg i =>
    cases b with
    | arg j => exact setNth_comm args v w (mt (congrArg Step.arg) h)
    | _ => rfl
  | _ => cases b <;> rfl

end

section

variable (hflat : t.head.isApp = false)

include hflat

theorem head_setChild (new : Term) (step : Step) :
    (setChild new t step).head = setInHead new step t.head :=
  head_ofParts ((isApp_setInHead new step t.head).trans hflat) _

theorem args_setChild (new : Term) (step : Step) :
    (setChild new t step).args = setInArgs new step t.args :=
  args_ofParts ((isApp_setInHead new step t.head).trans hflat) _

theorem setChild_setChild (v w : Term) (step : Step) :
    setChild w (setChild v t step) step = setChild w t step := by
  rw [setChild, head_setChild hflat, args_setChild hflat, setInHead_setInHead,
    setInArgs_setInArgs, setChild]

theorem setChild_comm (v w : Term) (h : a ≠ b) :
    setChild w (setChild v t a) b = setChild v (setChild w t b) a := by
  rw [setChild, head_setChild hflat, args_setChild hflat, setInHead_comm v w h,
    setInArgs_comm v w h, setChild, head_setChild hflat, args_setChild hflat]

theorem binderAt?_setChild (new : Term) (a b : Step) :
    (setChild new t a).binderAt? b = t.binderAt? b := by
  cases b with
  | body =>
    rw [binderAt?, binderAt?, head_setChild hflat]
    cases a <;> cases t.head <;> rfl
  | _ => rfl

theorem child?_setChild_self (h : t.child? step = some u) (new : Term) :
    (setChild new t step).child? step = some new := by
  rcases child?_cases h with ⟨i, rfl, hi⟩ | ⟨y, rfl, e⟩ | ⟨i, z, args, rfl, e, hi⟩
  · rw [child?, args_setChild hflat]
    exact nth?_setNth_self hi new
  · rw [child?, head_setChild hflat, e]
    rfl
  · rw [child?, metaArgs, head_setChild hflat, e]
    exact nth?_setNth_self hi new

theorem child?_setChild_of_ne (h : b ≠ a) (new : Term) :
    (setChild new t a).child? b = t.child? b := by
  cases b with
  | arg j =>
    rw [child?, child?, args_setChild hflat]
    cases a with
    | arg i => exact nth?_setNth_of_ne (mt (congrArg Step.arg) h) new
    | _ => rfl
  | body =>
    rw [child?, child?, head_setChild hflat]
    cases a with
    | body => exact absurd rfl h
    | _ => cases t.head <;> rfl
  | metaArg j =>
    rw [child?, child?, metaArgs, metaArgs, head_setChild hflat]
    cases a with
    | metaArg i =>
      have hij : j ≠ i := mt (congrArg Step.metaArg) h
      cases t.head <;> first | rfl | exact nth?_setNth_of_ne hij new
    | _ => cases t.head <;> rfl

end

/-! ## Filling -/

/-- Puts a term in the place that a path leads to and renames no binder; nothing is changed when
there is no such place. -/
def fill (new : Term) : List Step → Term → Term
  | [], _ => new
  | step :: steps, t =>
    match t.child? step with
    | some u => setChild (fill new steps u) t step
    | none => t

theorem fill_cons (h : t.child? step = some u) (new : Term) (steps : List Step) :
    fill new (step :: steps) t = setChild (fill new steps u) t step := by
  rw [fill, h]

theorem child?_cons_eq_some {steps : List Step} (h : t.descend? (step :: steps) = some v) :
    ∃ u, t.child? step = some u ∧ u.descend? steps = some v := by
  rw [descend?_cons] at h
  exact Option.bind_eq_some_iff.mp h

/-- What was put in a place is found there, below the same binders. -/
theorem descend?_fill (ht : t.WellFormed) (h : t.descend? steps = some u) (new : Term) :
    (fill new steps t).descend? steps = some new ∧
      (fill new steps t).enclosing steps = t.enclosing steps := by
  induction steps generalizing t with
  | nil => exact ⟨rfl, rfl⟩
  | cons step steps ih =>
    obtain ⟨c, hc, hu⟩ := child?_cons_eq_some h
    obtain ⟨hdescend, henclosing⟩ := ih (ht.child? hc) hu
    have hchild := child?_setChild_self ht.head_isApp hc (fill new steps c)
    rw [fill_cons hc, descend?_cons, hchild, enclosing_cons hchild, enclosing_cons hc,
      binderAt?_setChild ht.head_isApp, henclosing]
    exact ⟨hdescend, rfl⟩

/-- Neither path leads into the place that the other one leads to. -/
def Diverge (p q : List Step) : Prop := ¬p <+: q ∧ ¬q <+: p

instance (p q : List Step) : Decidable (Diverge p q) := inferInstanceAs (Decidable (_ ∧ _))

theorem Diverge.symm (h : Diverge p q) : Diverge q p := ⟨h.2, h.1⟩

theorem Diverge.cases (h : Diverge p q) : ∃ a b p' q', p = a :: p' ∧ q = b :: q' ∧
    (b ≠ a ∨ b = a ∧ Diverge p' q') := by
  cases p with
  | nil => exact absurd List.nil_prefix h.1
  | cons a p =>
    cases q with
    | nil => exact absurd List.nil_prefix h.2
    | cons b q =>
      refine ⟨a, b, p, q, rfl, rfl, ?_⟩
      by_cases hab : b = a
      · subst hab
        refine Or.inr ⟨rfl, fun hp => h.1 ?_, fun hq => h.2 ?_⟩
        · exact List.cons_prefix_cons.mpr ⟨rfl, hp⟩
        · exact List.cons_prefix_cons.mpr ⟨rfl, hq⟩
      · exact Or.inl hab

/-- Other places are as they were. -/
theorem descend?_fill_of_diverge (ht : t.WellFormed) (hp : t.descend? p = some u)
    (h : Diverge p q) (new : Term) :
    (fill new p t).descend? q = t.descend? q ∧ (fill new p t).enclosing q = t.enclosing q := by
  induction p generalizing t q with
  | nil => exact absurd List.nil_prefix h.1
  | cons a p ih =>
    obtain ⟨c, hc, hu⟩ := child?_cons_eq_some hp
    obtain ⟨_, b, _, q, e, rfl, hab⟩ := h.cases
    obtain ⟨rfl, rfl⟩ := List.cons.inj e
    rw [fill_cons hc]
    rcases hab with hne | ⟨rfl, hdiverge⟩
    · rw [descend?_cons, descend?_cons, enclosing, enclosing,
        child?_setChild_of_ne ht.head_isApp hne, binderAt?_setChild ht.head_isApp]
      exact ⟨rfl, rfl⟩
    · obtain ⟨hdescend, henclosing⟩ := ih (ht.child? hc) hu hdiverge
      have hchild := child?_setChild_self ht.head_isApp hc (fill new p c)
      rw [descend?_cons, descend?_cons, hchild, hc, enclosing_cons hchild, enclosing_cons hc,
        binderAt?_setChild ht.head_isApp, henclosing]
      exact ⟨hdescend, rfl⟩

/-- Two places are filled in any order. -/
theorem fill_comm (ht : t.WellFormed) (hp : t.descend? p = some u) (hq : t.descend? q = some v)
    (h : Diverge p q) (r s : Term) : fill s q (fill r p t) = fill r p (fill s q t) := by
  induction p generalizing t q with
  | nil => exact absurd List.nil_prefix h.1
  | cons a p ih =>
    obtain ⟨_, b, _, q, e, rfl, hab⟩ := h.cases
    obtain ⟨rfl, rfl⟩ := List.cons.inj e
    obtain ⟨c, hc, hu⟩ := child?_cons_eq_some hp
    obtain ⟨d, hd, hv⟩ := child?_cons_eq_some hq
    have hflat := ht.head_isApp
    rw [fill_cons hc, fill_cons hd]
    -- Either the paths part here, and two children are changed, or both lead into one child.
    rcases hab with hne | ⟨rfl, hdiverge⟩
    · have hd' := (child?_setChild_of_ne hflat hne (fill r p c)).trans hd
      have hc' := (child?_setChild_of_ne hflat hne.symm (fill s q d)).trans hc
      rw [fill_cons hd', fill_cons hc', setChild_comm hflat _ _ hne.symm]
    · obtain rfl : c = d := Option.some.inj (hc.symm.trans hd)
      rw [fill_cons (child?_setChild_self hflat hc _), fill_cons (child?_setChild_self hflat hc _),
        setChild_setChild hflat, setChild_setChild hflat, ih (ht.child? hc) hu hv hdiverge]

/-! ## Terms side by side -/

theorem exists_nth? {R : Term → Term → Prop} {ss ts : List Term} (h : List.Forall₂ R ss ts)
    {i : Nat} (hu : nth? ss i = some u) : ∃ v, nth? ts i = some v ∧ R u v := by
  induction h generalizing i with
  | nil => exact absurd (mem_of_nth? hu) List.not_mem_nil
  | cons hst _ ih =>
    match i with
    | 0 => cases hu
    | 1 =>
      obtain rfl := Option.some.inj hu
      exact ⟨_, rfl, hst⟩
    | i + 2 => exact ih (i := i + 1) hu

theorem forall₂_setNth {R : Term → Term → Prop} {ss ts : List Term} (h : List.Forall₂ R ss ts)
    (hvw : R v w) (i : Nat) : List.Forall₂ R (setNth ss v i) (setNth ts w i) := by
  cases i with
  | zero => exact h
  | succ i =>
    induction h generalizing i with
    | nil => exact .nil
    | cons hst hrest ih =>
      cases i with
      | zero => exact .cons hvw hrest
      | succ i => exact .cons hst (ih i)

namespace Twins

variable {xs ys : List Var} {s : Term}

theorem refl (xs : List Var) (t : Term) : Twins xs xs t t := ⟨rfl, rfl⟩

theorem isApp_eq (h : Twins xs ys s t) : s.isApp = t.isApp := by
  have halpha := h.alphaIn
  cases s <;> cases t <;> first | rfl | cases halpha

theorem lambda_of {y : Var} {body body' : Term} (hty : x.ty = y.ty)
    (h : Twins (x :: xs) (y :: ys) body body') :
    Twins xs ys (.lambda x body) (.lambda y body') := by
  refine ⟨(List.cons.inj h.types).2, ?_⟩
  rw [namelessIn, namelessIn, hty, h.reading]

theorem map_reading {ss ts : List Term} (h : List.Forall₂ (Twins xs ys) ss ts) :
    namelessAllIn xs ss = namelessAllIn ys ts := by
  rw [namelessAllIn_eq_map, namelessAllIn_eq_map]
  exact (Fresh.map_eq_map (h.imp fun _ _ hst => hst.reading.symm)).symm

theorem metaApp_of (hty : xs.map Var.ty = ys.map Var.ty) (z : MetaVar) {ss ts : List Term}
    (h : List.Forall₂ (Twins xs ys) ss ts) : Twins xs ys (.metaApp z ss) (.metaApp z ts) := by
  refine ⟨hty, ?_⟩
  rw [namelessIn, namelessIn, map_reading h]

theorem ofParts (h : Twins xs ys s t) {ss ts : List Term}
    (hargs : List.Forall₂ (Twins xs ys) ss ts) :
    Twins xs ys (Term.ofParts s ss) (Term.ofParts t ts) := by
  cases hargs with
  | nil => exact h
  | cons ha has =>
    refine ⟨h.types, ?_⟩
    rw [Term.ofParts, Term.ofParts, namelessIn, namelessIn, h.reading,
      map_reading (.cons ha has)]

/-- A step leads to counterparts, below the binders that it enters. -/
theorem exists_child? (h : Twins xs ys s t) (hu : s.child? step = some u) :
    ∃ v, t.child? step = some v ∧
      Twins ((s.binderAt? step).toList ++ xs) ((t.binderAt? step).toList ++ ys) u v := by
  obtain ⟨hhead, hargs⟩ := h.head_args
  rcases child?_cases hu with ⟨i, rfl, hi⟩ | ⟨x, rfl, e⟩ | ⟨i, z, args, rfl, e, hi⟩
  · exact exists_nth? hargs hi
  · rw [e] at hhead
    obtain ⟨y, body, e', _, hbody⟩ := hhead.lambda
    rw [binderAt?, binderAt?, child?, e, e']
    exact ⟨body, rfl, hbody⟩
  · rw [e] at hhead
    obtain ⟨args', e', hmeta⟩ := hhead.metaApp
    rw [child?, metaArgs, e']
    exact exists_nth? hmeta hi

/-- So does a path. -/
theorem exists_descend? (h : Twins xs ys s t) (hu : s.descend? steps = some u) :
    ∃ v, t.descend? steps = some v ∧
      Twins (s.enclosing steps ++ xs) (t.enclosing steps ++ ys) u v := by
  induction steps generalizing s t xs ys with
  | nil =>
    obtain rfl := Option.some.inj hu
    exact ⟨t, rfl, h⟩
  | cons step steps ih =>
    obtain ⟨c, hc, hu⟩ := child?_cons_eq_some hu
    obtain ⟨d, hd, hcd⟩ := h.exists_child? hc
    rw [descend?_cons, hd, enclosing_cons hc, enclosing_cons hd, List.append_assoc,
      List.append_assoc]
    exact ih hcd hu

theorem setChild (h : Twins xs ys s t) (hu : s.child? step = some u)
    (hvw : Twins ((s.binderAt? step).toList ++ xs) ((t.binderAt? step).toList ++ ys) v w) :
    Twins xs ys (Term.setChild v s step) (Term.setChild w t step) := by
  obtain ⟨hhead, hargs⟩ := h.head_args
  rcases child?_cases hu with ⟨i, rfl, hi⟩ | ⟨x, rfl, e⟩ | ⟨i, z, args, rfl, e, hi⟩
  · exact hhead.ofParts (forall₂_setNth hargs hvw i)
  · rw [e] at hhead
    obtain ⟨y, body, e', hty, _⟩ := hhead.lambda
    rw [binderAt?, binderAt?, e, e'] at hvw
    rw [Term.setChild, Term.setChild, e, e']
    exact (lambda_of hty hvw).ofParts hargs
  · rw [e] at hhead
    obtain ⟨args', e', hmeta⟩ := hhead.metaApp
    rw [Term.setChild, Term.setChild, e, e']
    exact (metaApp_of h.types z (forall₂_setNth hmeta hvw i)).ofParts hargs

/-- Counterparts stay equal when a place in them is filled with terms that read alike there. -/
theorem fill (h : Twins xs ys s t) (hu : s.descend? steps = some u)
    (hvw : Twins (s.enclosing steps ++ xs) (t.enclosing steps ++ ys) v w) :
    Twins xs ys (Term.fill v steps s) (Term.fill w steps t) := by
  induction steps generalizing s t xs ys with
  | nil => exact hvw
  | cons step steps ih =>
    obtain ⟨c, hc, hu⟩ := child?_cons_eq_some hu
    obtain ⟨d, hd, hcd⟩ := h.exists_child? hc
    rw [enclosing_cons hc, enclosing_cons hd, List.append_assoc, List.append_assoc] at hvw
    rw [fill_cons hc, fill_cons hd]
    exact h.setChild hc (ih hcd hu hvw)

end Twins

end TermAlgebra.Term
