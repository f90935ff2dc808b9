import TermAlgebra.Proofs.MirroredCommands
import TermAlgebra.Proofs.NameResolution

/-!
# Identifiers of resolved commands

All identifiers in a resolved query have been drawn before the next one, as those in the symbols,
and all its terms are well-formed. What happens to later identifiers is of no account for a query.
-/

namespace TermAlgebra

/-! ## Renumbering keeps terms sound -/

section Renumbering

variable {π : Renumbering} {n k : Nat}

theorem Term.isApp_renumber (t : Term) : (t.renumber π).isApp = t.isApp := by
  cases t <;> rfl

theorem Term.map_ty_renumber (ts : List Term) : (ts.map (renumber π)).map ty = ts.map ty := by
  rw [List.map_map]
  exact List.map_congr_left fun t _ => ty_renumber π t

theorem Term.apart_renumber {t : Term} (h : t.Apart) : (t.renumber π).Apart := by
  intro x hx hb
  obtain ⟨r, hr, e⟩ := (mem_free_renumber π).mp hx
  obtain ⟨y, hy, rfl⟩ := (mem_bound_renumber π).mp hb
  rw [← Replaceable.renumber_var] at e
  obtain rfl := (Replaceable.renumber_inj π).mp e
  exact h y hr hy

theorem Term.WellFormed.renumber {t : Term} (h : t.WellFormed) : (t.renumber π).WellFormed := by
  induction h with
  | literal v => exact .literal v
  | const c => exact .const c
  | var x => exact .var (x.renumber π)
  | @lambda x body binder once _ ih =>
    refine .lambda binder (fun hx => ?_) ih
    obtain ⟨y, hy, e⟩ := (mem_bound_renumber π).mp hx
    obtain rfl := (Var.renumber_inj π).mp e
    exact once hy
  | @app head args flat nonempty fits _ _ apart ih ihs =>
    rw [renumber_app]
    refine .app ?_ (by simpa using nonempty) ?_ ih ?_ ?_
    · rw [isApp_renumber, flat]
    · rw [map_ty_renumber, ty_renumber, List.length_map, fits]
    · intro t ht
      obtain ⟨s, hs, rfl⟩ := List.mem_map.mp ht
      exact ihs s hs
    · rw [← renumber_app]
      exact apart_renumber apart
  | @metaApp z args fits _ apart ihs =>
    rw [renumber_metaApp]
    refine .metaApp ?_ ?_ ?_
    · rw [map_ty_renumber, fits, MetaVar.renumber_inputs]
    · intro t ht
      obtain ⟨s, hs, rfl⟩ := List.mem_map.mp ht
      exact ihs s hs
    · rw [← renumber_metaApp]
      exact apart_renumber apart

theorem Term.Sound.renumber (hπ : ∀ i < n, π i < k) {t : Term} (h : Sound n t) :
    Sound k (t.renumber π) := by
  refine ⟨⟨fun r hr => ?_, fun x hx => ?_⟩, h.wf.renumber⟩
  · obtain ⟨q, hq, rfl⟩ := (mem_free_renumber π).mp hr
    rw [Replaceable.renumber_id]
    exact hπ _ (h.idsBelow.1 q hq)
  · obtain ⟨y, hy, rfl⟩ := (mem_bound_renumber π).mp hx
    exact hπ _ (h.idsBelow.2 y hy)

namespace Subst

variable {σ : Subst}

theorem exists_of_get?_renumber {r : Replaceable} {image : Term}
    (h : (σ.renumber π).get? r = some image) :
    ∃ q t, σ.get? q = some t ∧ q.renumber π = r ∧ t.renumber π = image := by
  obtain ⟨q, rfl⟩ : ∃ q : Replaceable, q.renumber π = r := by
    obtain ⟨entries⟩ := σ
    change (entries.map _).lookup r = some image at h
    induction entries with
    | nil => cases h
    | cons e es ih =>
      rw [List.map_cons, lookup_cons] at h
      split at h
      · rename_i hr
        exact ⟨e.1, hr.symm⟩
      · exact ih h
  rw [get?_renumber] at h
  obtain ⟨t, ht, rfl⟩ := Option.map_eq_some_iff.mp h
  exact ⟨q, t, ht, rfl, rfl⟩

theorem WellTyped.renumber (h : σ.WellTyped) : (σ.renumber π).WellTyped := by
  intro r image e
  obtain ⟨q, t, ht, rfl, rfl⟩ := exists_of_get?_renumber e
  obtain ⟨hty, hwf⟩ := h q t ht
  rw [Replaceable.renumber_ty, Term.ty_renumber]
  exact ⟨hty, hwf.renumber⟩

theorem Sound.renumber (hπ : ∀ i < n, π i < k) (h : σ.Sound n) : (σ.renumber π).Sound k := by
  refine ⟨h.wellTyped.renumber, fun r image e => ?_⟩
  obtain ⟨q, t, ht, rfl, rfl⟩ := exists_of_get?_renumber e
  obtain ⟨hid, -, hsound⟩ := h.image ht
  rw [Replaceable.renumber_id]
  exact ⟨hπ _ hid, (hsound.renumber hπ).idsBelow⟩

end Subst

end Renumbering

/-! ## Renumberings that agree -/

section Agreement

variable {π π' : Renumbering} {n : Nat}

/-- Two renumberings that agree on the identifiers below `n`. -/
def Renumbering.AgreeBelow (n : Nat) (π π' : Renumbering) : Prop := ∀ i < n, π i = π' i

theorem Var.renumber_congr (h : Renumbering.AgreeBelow n π π') {x : Var} (hx : x.id < n) :
    x.renumber π = x.renumber π' := by
  rw [renumber, renumber, h x.id hx]

theorem MetaVar.renumber_congr (h : Renumbering.AgreeBelow n π π') {z : MetaVar} (hz : z.id < n) :
    z.renumber π = z.renumber π' := by
  rw [renumber, renumber, h z.id hz]

theorem Replaceable.renumber_congr (h : Renumbering.AgreeBelow n π π') {r : Replaceable}
    (hr : r.id < n) : r.renumber π = r.renumber π' := by
  cases r with
  | var x => exact congrArg var (x.renumber_congr h hr)
  | metaVar z => exact congrArg metaVar (z.renumber_congr h hr)

theorem Term.renumber_congr (h : Renumbering.AgreeBelow n π π') {t : Term} (ht : IdsBelow n t) :
    t.renumber π = t.renumber π' := by
  induction t using Term.induction with
  | literal v => rfl
  | const c => rfl
  | var x => exact congrArg var (x.renumber_congr h (idsBelow_var.mp ht))
  | lambda x body ih =>
    have hx : x.id < n := ht.2 x (by simp)
    rw [renumber_lambda, renumber_lambda, x.renumber_congr h hx, ih (ht.body)]
  | app head args ih ihs =>
    obtain ⟨hhead, hargs⟩ := idsBelow_app.mp ht
    rw [renumber_app, renumber_app, ih hhead, List.map_congr_left fun s hs => ihs s hs (hargs s hs)]
  | metaApp z args ihs =>
    obtain ⟨hz, hargs⟩ := idsBelow_metaApp.mp ht
    rw [renumber_metaApp, renumber_metaApp, z.renumber_congr h hz,
      List.map_congr_left fun s hs => ihs s hs (hargs s hs)]

theorem Replaceable.renumber_eq_self (h : Renumbering.AgreeBelow n π .identity) {r : Replaceable}
    (hr : r.id < n) : r.renumber π = r := by
  rw [renumber_congr h hr]
  cases r <;> rfl

theorem Term.renumber_eq_self (h : Renumbering.AgreeBelow n π .identity) {t : Term}
    (ht : IdsBelow n t) : t.renumber π = t := by
  rw [renumber_congr h ht, renumber_identity]

/-- All keys and images of a substitution have been drawn before `n`. -/
def Subst.DrawnBefore (n : Nat) (σ : Subst) : Prop :=
  ∀ p ∈ σ.entries, p.1.id < n ∧ Term.IdsBelow n p.2

theorem Subst.renumber_congr (h : Renumbering.AgreeBelow n π π') {σ : Subst}
    (hσ : σ.DrawnBefore n) : σ.renumber π = σ.renumber π' := by
  refine congrArg Subst.mk (List.map_congr_left fun p hp => ?_)
  obtain ⟨hkey, himage⟩ := hσ p hp
  rw [p.1.renumber_congr h hkey, p.2.renumber_congr h himage]

theorem Subst.mem_place {r : Replaceable} {t : Term} {es : List (Replaceable × Term)}
    {p : Replaceable × Term} (hp : p ∈ place r t es) : p = (r, t) ∨ p ∈ es := by
  induction es with
  | nil => exact .inl (List.mem_singleton.mp hp)
  | cons q es ih =>
    rw [place] at hp
    split at hp
    · rcases List.mem_cons.mp hp with hp | hp
      · exact .inl hp
      · exact .inr (List.mem_cons_of_mem q hp)
    · split at hp
      · exact List.mem_cons.mp hp
      · rcases List.mem_cons.mp hp with hp | hp
        · exact .inr (hp ▸ List.mem_cons_self)
        · exact (ih hp).imp id (List.mem_cons_of_mem q)

theorem Subst.DrawnBefore.set {σ : Subst} (hσ : σ.DrawnBefore n) {r : Replaceable} {t : Term}
    (hr : r.id < n) (ht : Term.IdsBelow n t) : (σ.set r t).DrawnBefore n := by
  intro p hp
  rcases mem_place hp with rfl | hp
  · exact ⟨hr, ht⟩
  · exact hσ p hp

theorem Subst.DrawnBefore.mono {σ : Subst} (hσ : σ.DrawnBefore n) {m : Nat} (hnm : n ≤ m) :
    σ.DrawnBefore m :=
  fun p hp => ⟨Nat.lt_of_lt_of_le (hσ p hp).1 hnm, (hσ p hp).2.mono hnm⟩

namespace Query

theorem Symbol.renumber_congr (h : Renumbering.AgreeBelow n π π') {sym : Symbol}
    (hsym : sym.DrawnBefore n) : sym.renumber π = sym.renumber π' := by
  cases sym with
  | const c => rfl
  | var x => exact congrArg Symbol.var (x.renumber_congr h hsym)
  | metaVar z => exact congrArg Symbol.metaVar (z.renumber_congr h hsym)

theorem Symbols.Renumbered.congr (h : Renumbering.AgreeBelow n π π') {s s' : Symbols}
    (hs : s.DrawnBefore n) (hrenumbered : s.Renumbered π s') : s.Renumbered π' s' := by
  intro name
  rw [hrenumbered name]
  cases hget : s.get? name with
  | none => rfl
  | some sym => exact congrArg some (sym.renumber_congr h (hs name sym hget))

/-- All identifiers in a query have been drawn before `n`. -/
def DrawnBefore (n : Nat) : Query → Prop
  | matching p o => Term.IdsBelow n p ∧ Term.IdsBelow n o
  | unify s t => Term.IdsBelow n s ∧ Term.IdsBelow n t
  | alpha s t => Term.IdsBelow n s ∧ Term.IdsBelow n t
  | subst t σ => Term.IdsBelow n t ∧ σ.DrawnBefore n
  | positions t => Term.IdsBelow n t

theorem renumber_congr (h : Renumbering.AgreeBelow n π π') {q : Query} (hq : q.DrawnBefore n) :
    q.renumber π = q.renumber π' := by
  cases q with
  | matching s t | unify s t | alpha s t =>
    rw [renumber, renumber, s.renumber_congr h hq.1, t.renumber_congr h hq.2]
  | subst t σ => rw [renumber, renumber, t.renumber_congr h hq.1, σ.renumber_congr h hq.2]
  | positions t => rw [renumber, renumber, t.renumber_congr h hq]

/-- All terms in a query are well-formed, and images have the types of their keys. -/
def WellFormed : Query → Prop
  | matching p o => p.WellFormed ∧ o.WellFormed
  | unify s t => s.WellFormed ∧ t.WellFormed
  | alpha s t => s.WellFormed ∧ t.WellFormed
  | subst t σ => t.WellFormed ∧ σ.WellTyped
  | positions t => t.WellFormed

theorem WellFormed.renumber {q : Query} (h : q.WellFormed) : (q.renumber π).WellFormed := by
  cases q with
  | matching | unify | alpha => exact ⟨h.1.renumber, h.2.renumber⟩
  | subst => exact ⟨h.1.renumber, h.2.renumber⟩
  | positions => exact Term.WellFormed.renumber h

/-- A well-formed query whose variables were drawn before `n`. -/
structure Sound (n : Nat) (q : Query) : Prop where
  drawnBefore : q.DrawnBefore n
  wf : q.WellFormed

theorem DrawnBefore.mono {q : Query} {m n : Nat} (h : q.DrawnBefore m) (hmn : m ≤ n) :
    q.DrawnBefore n := by
  cases q with
  | matching | unify | alpha => exact ⟨h.1.mono hmn, h.2.mono hmn⟩
  | subst => exact ⟨h.1.mono hmn, h.2.mono hmn⟩
  | positions => exact Term.IdsBelow.mono h hmn

theorem Sound.mono {q : Query} {m n : Nat} (h : q.Sound m) (hmn : m ≤ n) : q.Sound n :=
  ⟨h.drawnBefore.mono hmn, h.wf⟩

end Query

end Agreement

/-! ## What resolving draws -/

namespace Query

open TermAlgebra.Language (Expr Command)
open Fresh (attempt)

namespace Scoping

variable {α β : Type} {s : Symbols} {n : Nat}

/-- A run from `n` leaves the symbols, and what it gives has a property for the next identifier. -/
def Ends (s : Symbols) (n : Nat) (P : Nat → α → Prop) (m : Scoping α) : Prop :=
  let r := m.exec s n
  r.1.2 = s ∧ n ≤ r.2 ∧ ∀ a, r.1.1 = .ok a → P r.2 a

theorem ends_pure {P : Nat → α → Prop} {a : α} (h : P n a) : Ends s n P (pure a) := by
  refine ⟨rfl, le_rfl, ?_⟩
  rintro _ ⟨⟩
  exact h

theorem ends_throw {P : Nat → α → Prop} (e : ResolveError) :
    Ends s n P (throw e : Scoping α) := by
  refine ⟨rfl, le_rfl, ?_⟩
  rintro _ ⟨⟩

theorem Ends.bind {P : Nat → α → Prop} {Q : Nat → β → Prop} {m : Scoping α} {f : α → Scoping β}
    (hm : Ends s n P m) (hf : ∀ n' a, n ≤ n' → P n' a → Ends s n' Q (f a)) :
    Ends s n Q (m >>= f) := by
  unfold Ends at hm ⊢
  rw [exec_bind]
  rcases hrun : m.exec s n with ⟨⟨e | a, s'⟩, n'⟩
  · rw [hrun] at hm
    refine ⟨hm.1, hm.2.1, ?_⟩
    rintro _ ⟨⟩
  · rw [hrun] at hm
    obtain ⟨rfl, hn, hP⟩ := hm
    obtain ⟨hsame, hn', hQ⟩ := hf n' a hn (hP a rfl)
    exact ⟨hsame, Nat.le_trans hn hn', hQ⟩

theorem ends_get_bind {P : Nat → α → Prop} {f : Symbols → Scoping α} (h : Ends s n P (f s)) :
    Ends s n P ((get : Scoping Symbols) >>= f) := h

theorem ends_term (hs : s.DrawnBefore n) (t : Expr) :
    Ends s n (fun n' u => Term.Sound n' u) (term t) := by
  unfold Ends
  rw [exec_term]
  have hgives := gives_closed hs t
  generalize attempt (s.term t) n = r at hgives
  cases hgives with
  | ok hn hu =>
    refine ⟨rfl, hn, ?_⟩
    rintro _ ⟨⟩
    exact hu.1
  | error hn =>
    refine ⟨rfl, hn, ?_⟩
    rintro _ ⟨⟩

theorem ends_key (hs : s.DrawnBefore n) (name : String) :
    Ends s n (fun n' r => r.id < n') (key name) := by
  refine ends_get_bind ?_
  cases hget : s.get? name with
  | none => exact ends_throw _
  | some sym =>
    have hsym := hs name sym hget
    cases sym with
    | const c => exact ends_throw _
    | var x => exact ends_pure hsym
    | metaVar z => exact ends_pure hsym

theorem ends_images {σ : Subst} (hs : s.DrawnBefore n) (hσ : σ.DrawnBefore n)
    (htypes : σ.WellTyped) (entries : List (String × Expr)) :
    Ends s n (fun n' σ => σ.DrawnBefore n' ∧ σ.WellTyped) (images σ entries) := by
  induction entries generalizing n σ with
  | nil => exact ends_pure ⟨hσ, htypes⟩
  | cons p ps ih =>
    obtain ⟨name, t⟩ := p
    refine (ends_key hs name).bind fun n₁ r hn₁ hr => ?_
    refine (ends_term (hs.mono hn₁) t).bind fun n₂ u hn₂ hu => ?_
    have hn : n ≤ n₂ := hn₁.trans hn₂
    by_cases hty : r.ty = u.ty
    · rw [Subst.insert, if_pos hty]
      exact ih (hs.mono hn) ((hσ.mono hn).set (hr.trans_le hn₂) hu.idsBelow) (htypes.set hty hu.wf)
    · rw [Subst.insert, if_neg hty]
      exact ends_throw _

end Scoping

/-- A declaration gives no query. -/
theorem exec_declaration_ne {s : Symbols} {n : Nat} (name : String) (sym : Symbol) (q : Query) :
    ((do Scoping.declare name sym; return none : Scoping (Option Query)).exec s n).1.1 ≠
      .ok (some q) := by
  rw [Scoping.exec_bind, Scoping.exec_declare]
  cases s.declare name sym with
  | ok s' => rintro ⟨⟩
  | error e => rintro ⟨⟩

theorem ends_pair {s : Symbols} {n : Nat} (hs : s.DrawnBefore n) {make : Term → Term → Query}
    (hmake : ∀ n' u v, Term.Sound n' u → Term.Sound n' v → (make u v).Sound n') (t t' : Expr) :
    Scoping.Ends s n (fun n' q => ∀ q', q = some q' → q'.Sound n')
      (do let u ← Scoping.term t; return some (make u (← Scoping.term t'))) := by
  refine (Scoping.ends_term hs t).bind fun n₁ u hn₁ hu => ?_
  refine (Scoping.ends_term (hs.mono hn₁) t').bind fun n₂ v hn₂ hv => Scoping.ends_pure ?_
  rintro _ ⟨⟩
  exact hmake n₂ u v (hu.mono hn₂) hv

/-- What a command is resolved to is well-formed and has been drawn before the next identifier. -/
theorem sound_of_ofCommand {s : Symbols} {n : Nat} (hs : s.DrawnBefore n) (c : Command)
    {q : Query} (h : ((ofCommand c).exec s n).1.1 = .ok (some q)) :
    q.Sound ((ofCommand c).exec s n).2 := by
  have hquery : ∀ m : Scoping (Option Query),
      Scoping.Ends s n (fun n' q => ∀ q', q = some q' → q'.Sound n') m →
      (m.exec s n).1.1 = .ok (some q) → q.Sound (m.exec s n).2 :=
    fun m hm hq => hm.2.2 _ hq q rfl
  cases c with
  | const c ty => exact absurd h (exec_declaration_ne c _ q)
  | var x ty => exact absurd h (exec_declaration_ne x _ q)
  | metaVar z inputs output => exact absurd h (exec_declaration_ne z _ q)
  | matching s t | unify s t | alpha s t =>
    refine hquery _ (ends_pair hs ?_ s t) h
    exact fun _ _ _ hu hv => ⟨⟨hu.idsBelow, hv.idsBelow⟩, hu.wf, hv.wf⟩
  | subst t entries =>
    refine hquery _ ((Scoping.ends_term hs t).bind fun n₁ u hn₁ hu => ?_) h
    have hempty : Subst.DrawnBefore n₁ ∅ := fun p hp => absurd hp List.not_mem_nil
    have himages := Scoping.ends_images (hs.mono hn₁) hempty Subst.wellTyped_empty entries
    refine himages.bind fun n₂ σ hn₂ hσ => Scoping.ends_pure ?_
    rintro _ ⟨⟩
    exact ⟨⟨hu.idsBelow.mono hn₂, hσ.1⟩, hu.wf, hσ.2⟩
  | positions t =>
    refine hquery _ ((Scoping.ends_term hs t).bind fun n₁ u hn₁ hu => Scoping.ends_pure ?_) h
    rintro _ ⟨⟩
    exact ⟨hu.idsBelow, hu.wf⟩

end Query

end TermAlgebra
