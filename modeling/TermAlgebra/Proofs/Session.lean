import Mathlib
import TermAlgebra.Proofs.MatcherSoundness
import TermAlgebra.Proofs.Occurrence
import TermAlgebra.Proofs.UnifierSoundness

/-!
# Sessions

A session applies public operations one after the other to what it has made so far; operands are
given by their place. Main statement: `run_regular`, whatever the operations are, all nodes of all
terms and of all images are regular, and images have the types of their keys.
-/

namespace TermAlgebra

structure Session where
  next : Nat
  vars : List Var
  metaVars : List MetaVar
  terms : List Term
  substs : List Subst

namespace Session

inductive Op where
  | makeVar (name : String) (ty : SimpleType) (binder : Bool)
  | copyVar (x : Nat)
  | makeMetaVar (name : String) (inputs : List SimpleType) (output : SimpleType)
  /-- The variables and meta-variables that occur in a term. -/
  | replaceables (t : Nat)
  | value (v : Literal)
  | constant (c : Constant)
  | var (x : Nat)
  | abstract (x t : Nat)
  | abstractAll (xs : List Nat) (t : Nat)
  | apply (t : Nat) (args : List Nat)
  | applyMeta (z : Nat) (args : List Nat)
  | refreshBinders (t : Nat)
  /-- The head, the arguments and the body. -/
  | parts (t : Nat)
  | headSubterm (t i : Nat)
  | subtermAt (t : Nat) (p : Position)
  | replaceAt (t : Nat) (p : Position) (new : Nat)
  | headSubtermAt (t : Nat) (h : HeadPosition)
  | replaceHeadAt (t : Nat) (h : HeadPosition) (new : Nat)
  | emptySubst
  | insertVar (σ x t : Nat)
  | insertMeta (σ z t : Nat)
  | removeVar (σ x : Nat)
  | removeMeta (σ z : Nat)
  | images (σ : Nat)
  | subst (t σ : Nat)
  | matchWith (p o σ : Nat)
  | matchTerm (p o : Nat)
  | unify (s t : Nat)

def empty : Session := ⟨0, [], [], [], []⟩

def addVars (s : Session) (n : Nat) (xs : List Var) : Session :=
  { s with next := n, vars := s.vars ++ xs }

def addMetaVars (s : Session) (n : Nat) (zs : List MetaVar) : Session :=
  { s with next := n, metaVars := s.metaVars ++ zs }

def addTerms (s : Session) (n : Nat) (ts : List Term) : Session :=
  { s with next := n, terms := s.terms ++ ts }

def addSubsts (s : Session) (n : Nat) (σs : List Subst) : Session :=
  { s with next := n, substs := s.substs ++ σs }

/-- The term that was built, if any. -/
def addBuilt {ε : Type} (s : Session) (r : Except ε Term × Nat) : Session :=
  s.addTerms r.2 r.1.toOption.toList

/-- What an operation adds, if its operands are there. -/
def exec? [Iteration] (s : Session) : Op → Option Session
  | .makeVar name ty binder =>
    let r := (Var.make name ty binder).run s.next
    some (s.addVars r.2 [r.1])
  | .copyVar x => do
    let x ← s.vars[x]?
    let r := x.freshCopy.run s.next
    return s.addVars r.2 [r.1]
  | .makeMetaVar name inputs output =>
    let r := (MetaVar.make name inputs output).run s.next
    some (s.addMetaVars r.2 [r.1])
  | .replaceables t => do
    let t ← s.terms[t]?
    let s := s.addVars s.next (t.freeVars ++ t.bound.toList)
    return s.addMetaVars s.next (t.free.toList.filterMap fun
      | .var _ => none
      | .metaVar z => some z)
  | .value v => some (s.addTerms s.next [.literal v])
  | .constant c => some (s.addTerms s.next [.const c])
  | .var x => do
    let x ← s.vars[x]?
    return s.addTerms s.next [.var x]
  | .abstract x t => do
    let x ← s.vars[x]?
    let t ← s.terms[t]?
    return s.addBuilt (Fresh.attempt (Term.abstract x t) s.next)
  | .abstractAll xs t => do
    let xs ← xs.mapM (s.vars[·]?)
    let t ← s.terms[t]?
    return s.addBuilt (Fresh.attempt (Term.abstractAll xs t) s.next)
  | .apply t args => do
    let t ← s.terms[t]?
    let args ← args.mapM (s.terms[·]?)
    return s.addBuilt (Fresh.attempt (t.apply args) s.next)
  | .applyMeta z args => do
    let z ← s.metaVars[z]?
    let args ← args.mapM (s.terms[·]?)
    return s.addBuilt (Fresh.attempt (Term.applyMeta z args) s.next)
  | .refreshBinders t => do
    let t ← s.terms[t]?
    let r := t.refreshBinders.run s.next
    return s.addTerms r.2 [r.1]
  | .parts t => do
    let t ← s.terms[t]?
    return s.addTerms s.next
      (t.head :: (t.args ++ t.metaArgs ++ (t.lambda?.map Prod.snd).toList))
  | .headSubterm t i => do
    let t ← s.terms[t]?
    return s.addBuilt (t.headSubterm i, s.next)
  | .subtermAt t p => do
    let t ← s.terms[t]?
    return s.addBuilt (t.subtermAt p, s.next)
  | .replaceAt t p new => do
    let t ← s.terms[t]?
    let new ← s.terms[new]?
    return s.addBuilt (Fresh.attempt (t.replaceAt p new) s.next)
  | .headSubtermAt t h => do
    let t ← s.terms[t]?
    return s.addBuilt (t.headSubtermAt h, s.next)
  | .replaceHeadAt t h new => do
    let t ← s.terms[t]?
    let new ← s.terms[new]?
    return s.addBuilt (Fresh.attempt (t.replaceHeadAt h new) s.next)
  | .emptySubst => some (s.addSubsts s.next [∅])
  | .insertVar σ x t => do
    let σ ← s.substs[σ]?
    let x ← s.vars[x]?
    let t ← s.terms[t]?
    return s.addSubsts s.next (σ.insert (.var x) t).toOption.toList
  | .insertMeta σ z t => do
    let σ ← s.substs[σ]?
    let z ← s.metaVars[z]?
    let t ← s.terms[t]?
    return s.addSubsts s.next (σ.insert (.metaVar z) t).toOption.toList
  | .removeVar σ x => do
    let σ ← s.substs[σ]?
    let x ← s.vars[x]?
    return s.addSubsts s.next [σ.erase (.var x)]
  | .removeMeta σ z => do
    let σ ← s.substs[σ]?
    let z ← s.metaVars[z]?
    return s.addSubsts s.next [σ.erase (.metaVar z)]
  | .images σ => do
    let σ ← s.substs[σ]?
    return s.addTerms s.next (σ.keys.filterMap σ.get?)
  | .subst t σ => do
    let t ← s.terms[t]?
    let σ ← s.substs[σ]?
    let r := (t.subst σ).run s.next
    return s.addTerms r.2 [r.1]
  | .matchWith p o σ => do
    let p ← s.terms[p]?
    let o ← s.terms[o]?
    let σ ← s.substs[σ]?
    let r := (p.matchWith o σ).run s.next
    return s.addSubsts r.2 [r.1.2]
  | .matchTerm p o => do
    let p ← s.terms[p]?
    let o ← s.terms[o]?
    let r := (p.matchTerm o).run s.next
    return s.addSubsts r.2 (match r.1 with
      | .ok (.success σ) => [σ]
      | _ => [])
  | .unify l r => do
    let l ← s.terms[l]?
    let r ← s.terms[r]?
    let u := (l.unify r).run s.next
    return s.addSubsts u.2 u.1.toList

/-- An operation without its operands does nothing. -/
def step [Iteration] (s : Session) (op : Op) : Session := (s.exec? op).getD s

def run [Iteration] (ops : List Op) : Session := ops.foldl step empty

/-! ## The invariant -/

/-- Everything made so far is sound for the next identifier. -/
structure Sound (s : Session) : Prop where
  vars : ∀ x ∈ s.vars, x.id < s.next
  metaVars : ∀ z ∈ s.metaVars, z.id < s.next
  terms : ∀ t ∈ s.terms, Term.Sound s.next t
  substs : ∀ σ ∈ s.substs, σ.Sound s.next

variable {s s' : Session} {n : Nat}

theorem empty_sound : empty.Sound := by
  constructor <;> simp [empty]

theorem Sound.advance (h : s.Sound) (hn : s.next ≤ n) : Sound { s with next := n } :=
  ⟨fun x hx => Nat.lt_of_lt_of_le (h.vars x hx) hn,
    fun z hz => Nat.lt_of_lt_of_le (h.metaVars z hz) hn,
    fun t ht => (h.terms t ht).mono hn, fun σ hσ => (h.substs σ hσ).mono hn⟩

theorem Sound.addVars (h : s.Sound) (hn : s.next ≤ n) {xs : List Var} (hxs : ∀ x ∈ xs, x.id < n) :
    (s.addVars n xs).Sound := by
  have hs := h.advance hn
  refine ⟨fun x hx => ?_, hs.metaVars, hs.terms, hs.substs⟩
  rcases List.mem_append.mp hx with hx | hx
  · exact hs.vars x hx
  · exact hxs x hx

theorem Sound.addMetaVars (h : s.Sound) (hn : s.next ≤ n) {zs : List MetaVar}
    (hzs : ∀ z ∈ zs, z.id < n) : (s.addMetaVars n zs).Sound := by
  have hs := h.advance hn
  refine ⟨hs.vars, fun z hz => ?_, hs.terms, hs.substs⟩
  rcases List.mem_append.mp hz with hz | hz
  · exact hs.metaVars z hz
  · exact hzs z hz

theorem Sound.addTerms (h : s.Sound) (hn : s.next ≤ n) {ts : List Term}
    (hts : ∀ t ∈ ts, Term.Sound n t) : (s.addTerms n ts).Sound := by
  have hs := h.advance hn
  refine ⟨hs.vars, hs.metaVars, fun t ht => ?_, hs.substs⟩
  rcases List.mem_append.mp ht with ht | ht
  · exact hs.terms t ht
  · exact hts t ht

theorem Sound.addTerm (h : s.Sound) (hn : s.next ≤ n) {t : Term} (ht : Term.Sound n t) :
    (s.addTerms n [t]).Sound := by
  refine h.addTerms hn fun u hu => ?_
  obtain rfl := List.mem_singleton.mp hu
  exact ht

theorem Sound.addSubsts (h : s.Sound) (hn : s.next ≤ n) {σs : List Subst}
    (hσs : ∀ σ ∈ σs, σ.Sound n) : (s.addSubsts n σs).Sound := by
  have hs := h.advance hn
  refine ⟨hs.vars, hs.metaVars, hs.terms, fun σ hσ => ?_⟩
  rcases List.mem_append.mp hσ with hσ | hσ
  · exact hs.substs σ hσ
  · exact hσs σ hσ

theorem Sound.addBuilt {ε : Type} (h : s.Sound) {r : Except ε Term × Nat} (hn : s.next ≤ r.2)
    (hr : ∀ t, r.1 = .ok t → Term.Sound r.2 t) : (s.addBuilt r).Sound := by
  refine h.addTerms hn fun t ht => ?_
  rcases r with ⟨_ | u, k⟩
  · cases ht
  · obtain rfl := List.mem_singleton.mp ht
    exact hr t rfl

theorem Sound.addInserted (h : s.Sound) {σ : Subst} (hσ : σ ∈ s.substs) {r : Replaceable}
    (hr : r.id < s.next) {t : Term} (ht : t ∈ s.terms) :
    (s.addSubsts s.next (σ.insert r t).toOption.toList).Sound := by
  refine h.addSubsts (Nat.le_refl _) fun τ hτ => ?_
  cases e : σ.insert r t with
  | error err =>
    rw [e] at hτ
    cases hτ
  | ok τ' =>
    rw [e] at hτ
    obtain rfl := List.mem_singleton.mp hτ
    obtain ⟨hty, rfl⟩ := (σ.insert_eq_ok_iff r t τ).mp e
    exact (h.substs σ hσ).set hr hty (h.terms t ht)

/-! ## Steps -/

theorem mem_of_mapM {α : Type} {xs : List α} {is : List Nat} {ys : List α}
    (h : is.mapM (xs[·]?) = some ys) : ∀ y ∈ ys, y ∈ xs := by
  induction is generalizing ys with
  | nil =>
    obtain rfl := Option.some.inj h
    simp
  | cons i is ih =>
    rw [List.mapM_cons] at h
    obtain ⟨z, hz, h⟩ := Option.bind_eq_some_iff.mp h
    obtain ⟨zs, hzs, h⟩ := Option.bind_eq_some_iff.mp h
    obtain rfl := Option.some.inj h
    intro y hy
    rcases List.mem_cons.mp hy with rfl | hy
    · exact List.mem_of_getElem? hz
    · exact ih hzs y hy

theorem parts_sound {t : Term} (ht : Term.Sound n t) :
    ∀ u ∈ t.head :: (t.args ++ t.metaArgs ++ (t.lambda?.map Prod.snd).toList), Term.Sound n u := by
  intro u hu
  simp only [List.mem_cons, List.mem_append, Option.mem_toList] at hu
  rcases hu with rfl | (hu | hu) | hu
  · exact ht.head
  · exact ht.args u hu
  · have hhead := ht.head
    unfold Term.metaArgs at hu
    cases e : t.head with
    | metaApp z args =>
      rw [e] at hu hhead
      exact hhead.metaApp.2.2 u hu
    | _ =>
      rw [e] at hu
      cases hu
  · cases t with
    | lambda x body =>
      obtain rfl := Option.some.inj hu
      exact ht.lambda.2.2
    | _ => cases hu

/-- Building operations, which may fail. -/
theorem Sound.attempt {ε : Type} (h : s.Sound) {m : ExceptT ε Fresh Term} (hm : Fresh.Rising m)
    (hr : ∀ t n, Fresh.attempt m s.next = (.ok t, n) → Term.Sound n t) :
    (s.addBuilt (Fresh.attempt m s.next)).Sound := by
  refine h.addBuilt (hm s.next) fun t e => hr t _ ?_
  rw [← e]

theorem exec?_sound [Iteration] (h : s.Sound) {op : Op} (e : s.exec? op = some s') : s'.Sound := by
  have hterm : ∀ {i : Nat} {t : Term}, s.terms[i]? = some t → Term.Sound s.next t :=
    fun e => h.terms _ (List.mem_of_getElem? e)
  have hterms : ∀ {is : List Nat} {ts : List Term}, is.mapM (s.terms[·]?) = some ts →
      ∀ t ∈ ts, Term.Sound s.next t := fun e t ht => h.terms t (mem_of_mapM e t ht)
  have hsubst : ∀ {i : Nat} {σ : Subst}, s.substs[i]? = some σ → σ.Sound s.next :=
    fun e => h.substs _ (List.mem_of_getElem? e)
  have hrefl := Nat.le_refl s.next
  cases op <;> simp only [exec?, Option.bind_eq_bind, Option.bind_eq_some_iff, Option.pure_def,
    Option.some.injEq] at e
  case makeVar name ty binder =>
    subst e
    exact h.addVars (Nat.le_succ _) (by simp [Var.run_make])
  case copyVar x =>
    obtain ⟨x, hx, rfl⟩ := e
    exact h.addVars (Nat.le_succ _) (by simp [Var.run_freshCopy])
  case makeMetaVar name inputs output =>
    subst e
    exact h.addMetaVars (Nat.le_succ _) (by simp [MetaVar.run_make])
  case replaceables t =>
    obtain ⟨t, ht, rfl⟩ := e
    obtain ⟨hfree, hbound⟩ := (hterm ht).idsBelow
    refine Sound.addMetaVars (h.addVars hrefl fun x hx => ?_) hrefl fun z hz => ?_
    · rcases List.mem_append.mp hx with hx | hx
      · exact hfree _ (Term.mem_freeVars.mp hx)
      · exact hbound x hx
    · obtain ⟨r, hr, hrz⟩ := List.mem_filterMap.mp hz
      cases r with
      | var y => cases hrz
      | metaVar w =>
        obtain rfl := Option.some.inj hrz
        exact hfree _ hr
  case value v =>
    subst e
    exact h.addTerm hrefl ⟨by simp [Term.IdsBelow], .literal v⟩
  case constant c =>
    subst e
    exact h.addTerm hrefl ⟨by simp [Term.IdsBelow], .const c⟩
  case var x =>
    obtain ⟨x, hx, rfl⟩ := e
    have hid := h.vars x (List.mem_of_getElem? hx)
    exact h.addTerm hrefl ⟨Term.idsBelow_var.mpr hid, .var x⟩
  case abstract x t =>
    obtain ⟨x, hx, t, ht, rfl⟩ := e
    have hid := h.vars x (List.mem_of_getElem? hx)
    exact h.attempt (Term.rising_abstract x t) fun u n e =>
      (Term.abstract_sound (hterm ht) hid e).1
  case abstractAll xs t =>
    obtain ⟨xs, hxs, t, ht, rfl⟩ := e
    have hids : ∀ x ∈ xs, x.id < s.next := fun x hx => h.vars x (mem_of_mapM hxs x hx)
    exact h.attempt (Term.rising_abstractAll xs t) fun u n e =>
      Term.abstractAll_sound (hterm ht) hids e
  case apply t args =>
    obtain ⟨t, ht, args, hargs, rfl⟩ := e
    exact h.attempt (Term.rising_apply t args) fun u n e =>
      Term.apply_sound (hterm ht) (hterms hargs) e
  case applyMeta z args =>
    obtain ⟨z, hz, args, hargs, rfl⟩ := e
    have hid := h.metaVars z (List.mem_of_getElem? hz)
    exact h.attempt (Term.rising_applyMeta z args) fun u n e =>
      Term.applyMeta_sound hid (hterms hargs) e
  case refreshBinders t =>
    obtain ⟨t, ht, rfl⟩ := e
    exact h.addTerm (t.increasing_refreshBinders s.next) (Term.refreshBinders_sound (hterm ht)).1
  case parts t =>
    obtain ⟨t, ht, rfl⟩ := e
    exact h.addTerms hrefl (parts_sound (hterm ht))
  case headSubterm t i =>
    obtain ⟨t, ht, rfl⟩ := e
    exact h.addBuilt hrefl fun u e => Term.headSubterm_sound (hterm ht) e
  case subtermAt t p =>
    obtain ⟨t, ht, rfl⟩ := e
    exact h.addBuilt hrefl fun u e => Term.subtermAt_sound (hterm ht) e
  case replaceAt t p new =>
    obtain ⟨t, ht, new, hnew, rfl⟩ := e
    exact h.attempt (Term.rising_replaceAt t p new) fun u n e =>
      (Term.replaceAt_sound (hterm ht) (hterm hnew) e).1
  case headSubtermAt t p =>
    obtain ⟨t, ht, rfl⟩ := e
    exact h.addBuilt hrefl fun u e => Term.headSubtermAt_sound (hterm ht) e
  case replaceHeadAt t p new =>
    obtain ⟨t, ht, new, hnew, rfl⟩ := e
    exact h.attempt (Term.rising_replaceHeadAt t p new) fun u n e =>
      (Term.replaceHeadAt_sound (hterm ht) (hterm hnew) e).1
  case emptySubst =>
    subst e
    exact h.addSubsts hrefl (by simpa using Subst.sound_empty s.next)
  case insertVar σ x t =>
    obtain ⟨σ, hσ, x, hx, t, ht, rfl⟩ := e
    exact h.addInserted (List.mem_of_getElem? hσ) (r := .var x)
      (h.vars x (List.mem_of_getElem? hx)) (List.mem_of_getElem? ht)
  case insertMeta σ z t =>
    obtain ⟨σ, hσ, z, hz, t, ht, rfl⟩ := e
    exact h.addInserted (List.mem_of_getElem? hσ) (r := .metaVar z)
      (h.metaVars z (List.mem_of_getElem? hz)) (List.mem_of_getElem? ht)
  case removeVar σ x =>
    obtain ⟨σ, hσ, x, hx, rfl⟩ := e
    exact h.addSubsts hrefl (by simpa using (hsubst hσ).erase (.var x))
  case removeMeta σ z =>
    obtain ⟨σ, hσ, z, hz, rfl⟩ := e
    exact h.addSubsts hrefl (by simpa using (hsubst hσ).erase (.metaVar z))
  case images σ =>
    obtain ⟨σ, hσ, rfl⟩ := e
    refine h.addTerms hrefl fun t ht => ?_
    obtain ⟨r, _, hr⟩ := List.mem_filterMap.mp ht
    exact ((hsubst hσ).image hr).2.2
  case subst t σ =>
    obtain ⟨t, ht, σ, hσ, rfl⟩ := e
    exact h.addTerm (Term.increasing_subst σ t s.next) (Term.subst_sound (hsubst hσ) (hterm ht)).1
  case matchWith p o σ =>
    obtain ⟨p, hp, o, ho, σ, hσ, rfl⟩ := e
    have hmatch := Term.matchWith_sound (hterm hp) (hterm ho) (hsubst hσ)
    exact h.addSubsts hmatch.1 (by simpa using hmatch.2)
  case matchTerm p o =>
    obtain ⟨p, hp, o, ho, rfl⟩ := e
    have hmatch := Term.matchTerm_sound (hterm hp) (hterm ho)
    refine h.addSubsts hmatch.1 fun σ hσ => ?_
    split at hσ
    · rename_i τ hτ
      obtain rfl := List.mem_singleton.mp hσ
      exact hmatch.2 σ hτ
    · cases hσ
  case unify l r =>
    obtain ⟨l, hl, r, hr, rfl⟩ := e
    have hunify := Term.unify_sound (hterm hl) (hterm hr)
    exact h.addSubsts hunify.1 (by simpa using hunify.2)

theorem step_sound [Iteration] (h : s.Sound) (op : Op) : (s.step op).Sound := by
  unfold step
  cases e : s.exec? op with
  | none => exact h
  | some s' => exact exec?_sound h e

theorem foldl_step_sound [Iteration] (h : s.Sound) (ops : List Op) : (ops.foldl step s).Sound := by
  induction ops generalizing s with
  | nil => exact h
  | cons op ops ih => exact ih (step_sound h op)

theorem run_sound [Iteration] (ops : List Op) : (run ops).Sound := foldl_step_sound empty_sound ops

/-- All that a session makes is regular in every node, images have the types of their keys,
operations that change a term keep its type, and an application has the free replaceables of the
parts it was given, though it may rename their binders. -/
theorem run_regular [Iteration] (ops : List Op) :
    let s := run ops
    (∀ t ∈ s.terms, ∀ u, Term.NodeOf u t → u.Regular) ∧
    (∀ σ ∈ s.substs, ∀ r t, σ.get? r = some t →
      r.ty = t.ty ∧ ∀ u, Term.NodeOf u t → u.Regular) ∧
    (∀ t ∈ s.terms, ∀ σ ∈ s.substs, ((t.subst σ).run s.next).1.ty = t.ty) ∧
    (∀ t ∈ s.terms, (t.refreshBinders.run s.next).1.ty = t.ty) ∧
    (∀ t ∈ s.terms, ∀ new ∈ s.terms, ∀ p r n,
      Fresh.attempt (t.replaceAt p new) s.next = (.ok r, n) → r.ty = t.ty) ∧
    (∀ t ∈ s.terms, ∀ new ∈ s.terms, ∀ h r n,
      Fresh.attempt (t.replaceHeadAt h new) s.next = (.ok r, n) → r.ty = t.ty) ∧
    (∀ t ∈ s.terms, ∀ args, (∀ a ∈ args, a ∈ s.terms) → args ≠ [] → ∀ r n,
      Fresh.attempt (t.apply args) s.next = (.ok r, n) →
        r.free = Term.freeAll (t.head :: (t.args ++ args))) ∧
    (∀ z ∈ s.metaVars, ∀ args, (∀ a ∈ args, a ∈ s.terms) → ∀ r n,
      Fresh.attempt (Term.applyMeta z args) s.next = (.ok r, n) →
        r.free = (Term.freeAll args).insert (.metaVar z)) := by
  intro s
  have h : s.Sound := run_sound ops
  refine ⟨?_, ?_, ?_, ?_, ?_, ?_, ?_, ?_⟩
  · exact fun t ht u hu => ((h.terms t ht).wf.node hu).regular
  · intro σ hσ r t e
    obtain ⟨_, hty, ht⟩ := (h.substs σ hσ).image e
    exact ⟨hty, fun u hu => (ht.wf.node hu).regular⟩
  · exact fun t ht σ hσ => (Term.subst_sound (h.substs σ hσ) (h.terms t ht)).2
  · exact fun t ht => (Term.refreshBinders_sound (h.terms t ht)).2
  · exact fun t ht new hnew p r n e =>
      (Term.replaceAt_sound (h.terms t ht) (h.terms new hnew) e).2
  · exact fun t ht new hnew p r n e =>
      (Term.replaceHeadAt_sound (h.terms t ht) (h.terms new hnew) e).2
  · intro t ht args hargs hne r n e
    have hfree := Term.mkApp_free (h.terms t ht).idsBelow
      (fun a ha => (h.terms a (hargs a ha)).idsBelow) hne
    rwa [(Term.apply_eq_ok e).1] at hfree
  · intro z _ args hargs r n e
    have hfree := Term.mkMetaApp_free (z := z) fun a ha => (h.terms a (hargs a ha)).idsBelow
    rwa [(Term.applyMeta_eq_ok e).1] at hfree

/-- A session that makes `λx.x`. -/
theorem identity_regular :
    let x : Var := ⟨0, "x", .base "o", true⟩
    (Term.lambda x (.var x)).Regular := by
  intro x
  have hmem : (run [.makeVar "x" (.base "o") true, .var 0, .abstract 0 0]).terms[1]? =
      some (Term.lambda x (.var x)) := by cbv
  have h := run_regular [.makeVar "x" (.base "o") true, .var 0, .abstract 0 0]
  exact h.1 _ (List.mem_of_getElem? hmem) _ .here

end Session

end TermAlgebra
