import TermAlgebra.Proofs.ContextFilling

/-!
# Replacements one after another

A replacement fills a place, up to fresh copies of binders: the builders around the place rename
where a free binder of the new term clashes. What encloses a place is afterwards the binder that
it was, or one that was drawn meanwhile, which captures nothing that was made before. Main
statement: `replacement_fills_context`.
-/

namespace TermAlgebra.Term

variable {t u v new : Term} {steps p q : List Step} {m n : Nat}

/-! ## Fresh copies of binders -/

/-- The same binder, or one drawn from `n` on. -/
def KeptOrFresh (n : Nat) (x y : Var) : Prop := y = x ∨ n ≤ y.id

/-- `t'` is `t` with some binders renamed, to variables drawn from `n` on. -/
structure Renewed (n : Nat) (t t' : Term) : Prop where
  twins : ∀ xs, Twins xs xs t t'
  binders : ∀ steps u, t.descend? steps = some u →
    List.Forall₂ (KeptOrFresh n) (t.enclosing steps) (t'.enclosing steps)

theorem forall₂_trans {α : Type} {R : α → α → Prop} (hR : ∀ x y z, R x y → R y z → R x z)
    {xs ys zs : List α} (h : List.Forall₂ R xs ys) (h' : List.Forall₂ R ys zs) :
    List.Forall₂ R xs zs := by
  induction h generalizing zs with
  | nil => exact h'
  | cons hxy _ ih =>
    cases h' with
    | cons hyz hrest => exact .cons (hR _ _ _ hxy hyz) (ih hrest)

namespace Renewed

variable {s t' head head' : Term} {args args' : List Term}

theorem refl (n : Nat) (t : Term) : Renewed n t t :=
  ⟨fun xs => .refl xs t, fun _ _ _ => List.forall₂_same.mpr fun _ _ => Or.inl rfl⟩

theorem mono (h : Renewed n t t') (hmn : m ≤ n) : Renewed m t t' :=
  ⟨h.twins, fun steps u hu => (h.binders steps u hu).imp fun _ _ => Or.imp_right hmn.trans⟩

theorem trans (h : Renewed n s t) (h' : Renewed n t t') : Renewed n s t' := by
  have hkept : ∀ x y z, KeptOrFresh n x y → KeptOrFresh n y z → KeptOrFresh n x z := by
    rintro x y z hxy (rfl | hz)
    · exact hxy
    · exact Or.inr hz
  constructor
  · exact fun xs => ⟨rfl, (h.twins xs).reading.trans (h'.twins xs).reading⟩
  · intro steps u hu
    obtain ⟨v, hv, _⟩ := (h.twins []).exists_descend? hu
    exact forall₂_trans hkept (h.binders steps u hu) (h'.binders steps v hv)

theorem lambda (x : Var) {body body' : Term} (h : Renewed n body body') :
    Renewed n (.lambda x body) (.lambda x body') := by
  refine ⟨fun xs => .lambda_of rfl (h.twins (x :: xs)), fun steps u hu => ?_⟩
  cases steps with
  | nil => exact .nil
  | cons step steps =>
    obtain ⟨c, hc, hu⟩ := child?_cons_eq_some hu
    rcases child?_cases hc with ⟨i, _, hi⟩ | ⟨y, rfl, e⟩ | ⟨i, z, args, _, e, _⟩
    · exact absurd (mem_of_nth? hi) List.not_mem_nil
    · obtain ⟨rfl, rfl⟩ := Term.lambda.inj e
      exact List.rel_append (h.binders steps u hu) (.cons (Or.inl rfl) .nil)
    · cases e

theorem enclosing_nth? {i : Nat} (h : List.Forall₂ (Renewed n) args args')
    (hu : nth? args i = some u) (hv : u.descend? steps = some v) :
    ∃ u', nth? args' i = some u' ∧
      List.Forall₂ (KeptOrFresh n) (u.enclosing steps) (u'.enclosing steps) := by
  obtain ⟨u', hu', hrenewed⟩ := exists_nth? h hu
  exact ⟨u', hu', hrenewed.binders steps v hv⟩

theorem metaApp (z : MetaVar) (h : List.Forall₂ (Renewed n) args args') :
    Renewed n (.metaApp z args) (.metaApp z args') := by
  refine ⟨fun xs => .metaApp_of rfl z (h.imp fun _ _ hst => hst.twins xs), fun steps u hu => ?_⟩
  cases steps with
  | nil => exact .nil
  | cons step steps =>
    obtain ⟨c, hc, hcu⟩ := child?_cons_eq_some hu
    rcases child?_cases hc with ⟨i, _, hi⟩ | ⟨y, _, e⟩ | ⟨i, w, ts, rfl, e, hi⟩
    · exact absurd (mem_of_nth? hi) List.not_mem_nil
    · cases e
    · obtain ⟨rfl, rfl⟩ := Term.metaApp.inj e
      obtain ⟨d, hd, hbinders⟩ := enclosing_nth? h hi hcu
      have hd' : (Term.metaApp z args').child? (.metaArg i) = some d := hd
      rw [enclosing_cons hc, enclosing_cons hd']
      exact List.rel_append hbinders .nil

theorem ofParts (hflat : head.isApp = false) (hflat' : head'.isApp = false)
    (h : Renewed n head head') (hargs : List.Forall₂ (Renewed n) args args') :
    Renewed n (Term.ofParts head args) (Term.ofParts head' args') := by
  refine ⟨fun xs => (h.twins xs).ofParts (hargs.imp fun _ _ hst => hst.twins xs),
    fun steps u hu => ?_⟩
  cases steps with
  | nil => exact .nil
  | cons step steps =>
    by_cases hstep : ∀ i, step ≠ .arg i
    · obtain ⟨hchild, hbinder⟩ := child?_ofParts hflat args hstep
      obtain ⟨hchild', hbinder'⟩ := child?_ofParts hflat' args' hstep
      have hinside := h.binders (step :: steps) u
      rw [descend?_cons, enclosing, enclosing] at hinside
      rw [descend?_cons, hchild] at hu
      rw [enclosing, enclosing, hchild, hchild', hbinder, hbinder']
      exact hinside hu
    · obtain ⟨i, rfl⟩ : ∃ i, step = .arg i := by simpa using hstep
      obtain ⟨c, hc, hu⟩ := child?_cons_eq_some hu
      have hi := hc
      rw [child?, args_ofParts hflat] at hi
      obtain ⟨d, hd, hbinders⟩ := enclosing_nth? hargs hi hu
      rw [← args_ofParts hflat' args'] at hd
      have hd' : (Term.ofParts head' args').child? (.arg i) = some d := hd
      rw [enclosing_cons hc, enclosing_cons hd']
      exact List.rel_append hbinders .nil

/-- A part that is kept apart from taken binders has all binders renamed, or none. -/
theorem refreshBinders (ht : Sound n t) : Renewed n t (t.refreshBinders.run n).1 := by
  have hren := refreshBinders_renamed ht.idsBelow
  have htwins : ∀ xs, Twins xs xs t (t.refreshBinders.run n).1 := by
    intro xs
    refine ⟨rfl, ?_⟩
    rw [← read_plain_unders ht.wf, ← read_plain_unders (hren.wf ht.wf), hren.refreshed.read]
  refine ⟨htwins, fun steps u hu => ?_⟩
  obtain ⟨v, _, hv⟩ := (htwins []).exists_descend? hu
  have hlen : (t.enclosing steps).length = ((t.refreshBinders.run n).1.enclosing steps).length := by
    simpa using hv.length
  refine List.forall₂_iff_zip.mpr ⟨hlen, fun {x y} hxy => Or.inr ?_⟩
  exact (hren.bound y (mem_bound_of_enclosing (List.of_mem_zip hxy).2)).1

theorem refreshAgainst (ht : Sound n t) (taken : OrderedSet Var) :
    Renewed n t ((t.refreshAgainst taken).run n).1 := by
  unfold Term.refreshAgainst
  split
  · exact refreshBinders ht
  · exact refl n t

theorem mapM_refreshAgainst (taken : OrderedSet Var) {ts : List Term}
    (hts : ∀ t ∈ ts, Sound n t) :
    List.Forall₂ (Renewed n) ts ((ts.mapM (Term.refreshAgainst taken)).run n).1 := by
  refine (Fresh.forall₂_mapM (fun t _ => increasing_refreshAgainst taken t) n).imp ?_
  rintro t t' ⟨ht, k, hk, rfl, _⟩
  exact (refreshAgainst ((hts t ht).mono hk) taken).mono hk

theorem mkLambda (x : Var) {body : Term} (hbody : Sound n body) :
    Renewed n (.lambda x body) ((Term.mkLambda x body).run n).1 := by
  unfold Term.mkLambda
  split
  · exact lambda x (refreshBinders hbody)
  · exact refl n _

theorem mkApp (hflat : head.isApp = false) (hhead : Sound n head)
    (hargs : ∀ s ∈ args, Sound n s) :
    Renewed n (Term.ofParts head args) ((Term.mkApp head args).run n).1 := by
  by_cases hne : args = []
  · subst hne
    exact refl n head
  · obtain ⟨hself, hnil⟩ := head_args_of_flat hflat
    let taken := freeBinders (head :: args)
    let m := ((head.refreshAgainst taken).run n).2
    have hpart := refreshAgainst hhead taken
    have hle : n ≤ m := increasing_refreshAgainst taken head n
    have hall := mapM_refreshAgainst taken fun s hs => (hargs s hs).mono hle
    have hne' : ((args.mapM (Term.refreshAgainst taken)).run m).1 ≠ [] := by
      intro e
      rw [e] at hall
      exact hne (List.forall₂_nil_right_iff.mp hall)
    have hrun : ((Term.mkApp head args).run n).1 =
        .app ((head.refreshAgainst taken).run n).1
          ((args.mapM (Term.refreshAgainst taken)).run m).1 := by
      unfold Term.mkApp
      rw [if_neg (by simpa using hne), hself, hnil]
      rfl
    rw [hrun, ← ofParts_of_ne_nil hne']
    refine ofParts hflat (((hpart.twins []).isApp_eq).symm.trans hflat) hpart ?_
    exact hall.imp fun _ _ hst => hst.mono hle

theorem mkMetaApp (z : MetaVar) (hargs : ∀ s ∈ args, Sound n s) :
    Renewed n (.metaApp z args) ((Term.mkMetaApp z args).run n).1 :=
  metaApp z (mapM_refreshAgainst _ hargs)

/-- A node whose parts have been renamed is renamed once more when it is built. -/
theorem rebuilt (hflat : head.isApp = false) (h : Renewed n head head') (hhead : Sound m head')
    (hargs : List.Forall₂ (Renewed n) args args') (hsound : ∀ s ∈ args', Sound m s)
    (hnm : n ≤ m) : Renewed n (Term.ofParts head args) ((Term.mkApp head' args').run m).1 := by
  have hflat' := ((h.twins []).isApp_eq).symm.trans hflat
  exact (ofParts hflat hflat' h hargs).trans ((mkApp hflat' hhead hsound).mono hnm)

theorem setNth (args : List Term) (h : Renewed n s t') (i : Nat) :
    List.Forall₂ (Renewed n) (Term.setNth args s i) (Term.setNth args t' i) :=
  forall₂_setNth (List.forall₂_same.mpr fun u _ => refl n u) h i

end Renewed

/-- One argument is replaced, and the others are kept. -/
theorem sound_setNth {f : Term → Fresh Term} {ts : List Term} {i : Nat}
    (hf : ∀ t, Fresh.Increasing (f t)) (hts : ∀ s ∈ ts, Sound n s) (hi : nth? ts i = some u)
    (hrun : (f u).run n = (new, m)) (hnew : SoundAt m u.ty new) :
    (updateNth f ts i).run n = (setNth ts new i, m) ∧
      (∀ s ∈ setNth ts new i, Sound m s) ∧ (setNth ts new i).map ty = ts.map ty := by
  have hsound := updateNth_sound hf hts hi (n := n) (by rw [hrun]; exact hnew)
  rw [run_updateNth hi, hrun, ← setNth_eq_set hi] at hsound ⊢
  exact ⟨rfl, hsound⟩

/-- What the builders make along a path is the filled term with some binders renamed. -/
theorem renewed_replaceSteps (ht : Sound n t) (hold : t.descend? steps = some u)
    (hnew : SoundAt n u.ty new) :
    Renewed n (fill new steps t) ((replaceSteps new steps t).run n).1 := by
  induction steps generalizing t with
  | nil => exact .refl n new
  | cons step steps ih =>
    obtain ⟨c, hc, hcu⟩ := child?_cons_eq_some hold
    have hchild := child?_sound ht hc
    have hrenewed := ih hchild hcu
    have hsound := replaceSteps_sound steps hchild hcu hnew
    have hinc := increasing_replaceSteps new steps
    have hle := hinc c n
    have hhead := ht.head
    have hargs := List.forall₂_same.mpr fun s (_ : s ∈ t.args) => Renewed.refl n s
    generalize hrun : (replaceSteps new steps c).run n = run at hrenewed hsound hle
    obtain ⟨c', m⟩ := run
    dsimp only at hrenewed hsound hle
    rw [fill_cons hc]
    -- The child has been renewed already; the builders of the node may renew it once more.
    rcases child?_cases hc with ⟨i, rfl, hi⟩ | ⟨x, rfl, e⟩ | ⟨i, z, args, rfl, e, hi⟩
    · obtain ⟨hupdate, hall, _⟩ := sound_setNth hinc ht.args hi hrun hsound
      rw [replaceSteps_arg, Fresh.run_bind, hupdate]
      exact .rebuilt ht.wf.head_isApp (.refl n _) (hhead.mono hle) (Renewed.setNth _ hrenewed i)
        hall hle
    · rw [e] at hhead
      obtain ⟨hx, hbinder, _⟩ := hhead.lambda
      have hle' := increasing_mkLambda x c' m
      have hlam := mkLambda_sound hsound.1 (Nat.lt_of_lt_of_le hx hle) hbinder
      have hpart := (Renewed.lambda x hrenewed).trans ((Renewed.mkLambda x hsound.1).mono hle)
      rw [replaceSteps_body e, Fresh.run_bind, hrun, Fresh.run_bind, setChild, e]
      exact .rebuilt rfl hpart hlam.1 hargs
        (fun s hs => (ht.args s hs).mono (hle.trans hle')) (hle.trans hle')
    · rw [e] at hhead
      obtain ⟨hz, fits, hmeta⟩ := hhead.metaApp
      obtain ⟨hupdate, hall, hty⟩ := sound_setNth hinc hmeta hi hrun hsound
      have hle' := increasing_mkMetaApp z (setNth args c' i) m
      have hbuilt := mkMetaApp_sound (Nat.lt_of_lt_of_le hz hle) hall (hty.trans fits)
      have hpart := (Renewed.metaApp z (Renewed.setNth args hrenewed i)).trans
        ((Renewed.mkMetaApp z hall).mono hle)
      rw [replaceSteps_metaArg e, Fresh.run_bind, hupdate, Fresh.run_bind, setChild, e]
      exact .rebuilt rfl hpart hbuilt.1 hargs
        (fun s hs => (ht.args s hs).mono (hle.trans hle')) (hle.trans hle')

/-! ## Scopes of which some binders were renamed -/

section

variable {xs ys : List Var} {x : Var}

theorem mem_of_kept (h : List.Forall₂ (KeptOrFresh n) xs ys) (hx : x.id < n) (hmem : x ∈ ys) :
    x ∈ xs := by
  induction h with
  | nil => exact hmem
  | cons hkept _ ih =>
    rcases List.mem_cons.mp hmem with rfl | hmem
    · rcases hkept with rfl | hfresh
      · exact List.mem_cons_self
      · omega
    · exact List.mem_cons_of_mem _ (ih hmem)

/-- A variable that was drawn before, and that is kept, stays where it is. -/
theorem idxOf?_eq_of_kept (h : List.Forall₂ (KeptOrFresh n) xs ys) (hxs : xs.Nodup) (hx : x.id < n)
    (hmem : x ∈ xs → x ∈ ys) : xs.idxOf? x = ys.idxOf? x := by
  induction h with
  | nil => rfl
  | @cons y z xs ys hkept hrest ih =>
    obtain ⟨hy, hxs⟩ := List.nodup_cons.mp hxs
    have hback : x ∈ ys → x ∈ xs := mem_of_kept hrest hx
    rw [List.idxOf?_cons, List.idxOf?_cons]
    by_cases hxy : y = x
    · subst hxy
      obtain rfl : z = y := by
        rcases List.mem_cons.mp (hmem List.mem_cons_self) with rfl | hys
        · rfl
        · exact absurd (hback hys) hy
      simp
    · have hxz : z ≠ x := by
        rcases hkept with rfl | hfresh
        · exact hxy
        · rintro rfl
          omega
      rw [beq_eq_false_iff_ne.mpr hxy, beq_eq_false_iff_ne.mpr hxz, ih hxs fun hx' => ?_]
      exact List.mem_of_ne_of_mem hxz.symm (hmem (List.mem_cons_of_mem y hx'))

/-- At one place of the two scopes is what was kept or drawn there. -/
theorem kept_of_ofVar_eq {y : Var} (h : List.Forall₂ (KeptOrFresh n) xs ys) (hmem : x ∈ xs)
    (hxy : Nameless.ofVar xs x = Nameless.ofVar ys y) : KeptOrFresh n x y := by
  obtain ⟨i, e⟩ := Option.ne_none_iff_exists'.mp (mt List.idxOf?_eq_none_iff.mp (not_not.mpr hmem))
  have e' := Nameless.ofVar_eq_bound.mp (hxy.symm.trans (Nameless.ofVar_eq_bound.mpr e))
  obtain ⟨hi, rfl, _⟩ := List.idxOf?_eq_some_iff.mp e
  obtain ⟨hi', rfl, _⟩ := List.idxOf?_eq_some_iff.mp e'
  exact h.get hi hi'

/-- A term reads the same below both scopes when all binders that are free in it are kept. -/
theorem namelessIn_eq_iff_kept {s : Term} (h : List.Forall₂ (KeptOrFresh n) xs ys)
    (hty : xs.map Var.ty = ys.map Var.ty) (hxs : xs.Nodup) (hys : ys.Nodup) (hs : Sound n s) :
    namelessIn ys s = namelessIn xs s ↔ ∀ x ∈ xs, .var x ∈ s.free → x ∈ ys := by
  constructor
  · intro hreading x hmem hx
    have htwins : Twins xs ys s s := ⟨hty, hreading.symm⟩
    obtain ⟨y, hxy, hy⟩ :=
      htwins.exists_mentions hs.wf hs.wf hys ((mentions_nameless hs.wf).mpr hx)
    have hid := hs.idsBelow.1 _ ((mentions_nameless hs.wf).mp hy)
    rcases kept_of_ofVar_eq h hmem hxy with rfl | hfresh
    · exact (Nameless.mem_iff_of_ofVar_eq hxy).mp hmem
    · exact absurd hid (Nat.not_lt.mpr hfresh)
  · intro hkept
    refine (namelessIn_congr s fun x hx => ?_).symm
    exact idxOf?_eq_of_kept h hxs (hs.idsBelow.1 _ hx) fun hmem => hkept x hmem hx

end

/-! ## One replacement -/

variable {r s tp tq : Term}

theorem attempt_replaceAt_of_not_mem {p : Position} (hp : p ∉ t.positions) (r : Term) (n : Nat) :
    Fresh.attempt (t.replaceAt p r) n = (.error (.index ⟨p.text, t⟩), n) := by
  have hnone : t.subtermAt p = .error ⟨p.text, t⟩ := by
    rw [mem_positions] at hp
    unfold subtermAt
    split
    · rename_i u hu
      exact absurd ⟨u, subtermAt_of_descend? hu⟩ hp
    · rfl
  rw [attempt_replaceAt, hnone]

/-- A replacement that types succeeds, and has put the new term in its place. -/
theorem attempt_replaceAt_ok {p : Position} (ht : Sound n t) (hr : Sound n r)
    (hu : t.descend? p.steps = some u) (hty : u.ty = r.ty) :
    ∃ t' m, Fresh.attempt (t.replaceAt p r) n = (.ok t', m) ∧
      Renewed n (fill r p.steps t) t' ∧ Sound m t' ∧ n ≤ m := by
  have hnew : SoundAt n u.ty r := ⟨hr, hty.symm⟩
  refine ⟨_, _, ?_, renewed_replaceSteps ht hu hnew, (replaceSteps_sound p.steps ht hu hnew).1,
    increasing_replaceSteps r p.steps t n⟩
  rw [attempt_replaceAt, subtermAt_of_descend? hu]
  exact if_neg (not_not.mpr hty)

/-- Only replacements that type succeed. -/
theorem Renewed.of_replaceAt {p : Position} {t' : Term} (ht : Sound n t) (hr : Sound n r)
    (h : Fresh.attempt (t.replaceAt p r) n = (.ok t', m)) :
    (∃ u, t.descend? p.steps = some u ∧ u.ty = r.ty) ∧
      Renewed n (Term.fill r p.steps t) t' ∧ Sound m t' ∧ n ≤ m := by
  obtain ⟨u, hu, hty, hrun⟩ := replaceAt_eq_ok h
  have hrenewed := renewed_replaceSteps ht hu ⟨hr, hty.symm⟩
  have hle := increasing_replaceSteps r p.steps t n
  rw [hrun] at hrenewed hle
  exact ⟨⟨u, hu, hty⟩, hrenewed, (replaceAt_sound ht hr h).1, hle⟩

/-- The new term is found in its place, where it reads as below the binders of `t`. -/
theorem Renewed.exists_subtermAt {p : Position} {t' : Term}
    (h : Renewed n (Term.fill r p.steps t) t') (ht : t.WellFormed)
    (hu : t.descend? p.steps = some u) :
    ∃ v, t'.subtermAt p = .ok v ∧
      namelessIn (t'.enclosing p.steps) v = namelessIn (t.enclosing p.steps) r := by
  obtain ⟨hdescend, henclosing⟩ := descend?_fill ht hu r
  obtain ⟨v, hv, htwins⟩ := (h.twins []).exists_descend? hdescend
  rw [henclosing, List.append_nil, List.append_nil] at htwins
  exact ⟨v, subtermAt_of_descend? hv, htwins.reading.symm⟩

/-! ## Two replacements -/

section

variable (ht : Sound n t) (hp : t.descend? p = some u) (hq : t.descend? q = some v)
  (hdiverge : Diverge p q) (htp : Renewed n (fill r p t) tp)

include ht hp hq hdiverge htp

/-- The other place holds what it held, below binders that were kept or renamed. -/
theorem Renewed.elsewhere :
    ∃ w, tp.descend? q = some w ∧ Twins (t.enclosing q) (tp.enclosing q) v w ∧
      List.Forall₂ (KeptOrFresh n) (t.enclosing q) (tp.enclosing q) := by
  obtain ⟨hdescend, henclosing⟩ := descend?_fill_of_diverge ht.wf hp hdiverge r
  have hv := hdescend.trans hq
  obtain ⟨w, hw, htwins⟩ := (htp.twins []).exists_descend? hv
  have hbinders := htp.binders q v hv
  rw [henclosing, List.append_nil, List.append_nil] at htwins
  exact ⟨w, hw, htwins, henclosing ▸ hbinders⟩

/-- A term reads the same in the other place when the binders that are free in it were kept. -/
theorem Renewed.reads_alike_iff (hwf : tp.WellFormed) (hs : Sound n s) :
    namelessIn (tp.enclosing q) s = namelessIn (t.enclosing q) s ↔
      ∀ x ∈ t.enclosing q, .var x ∈ s.free → x ∈ tp.enclosing q := by
  obtain ⟨w, _, htwins, hbinders⟩ := Renewed.elsewhere ht hp hq hdiverge htp
  exact namelessIn_eq_iff_kept hbinders htwins.types (nodup_enclosing ht.wf q)
    (nodup_enclosing hwf q) hs

/-- If a term reads the same in the other place, then it may be put there before. -/
theorem Renewed.fill_elsewhere
    (hs : namelessIn (tp.enclosing q) s = namelessIn (t.enclosing q) s) :
    Twins [] [] (fill s q (fill r p t)) (fill s q tp) := by
  obtain ⟨hdescend, henclosing⟩ := descend?_fill_of_diverge ht.wf hp hdiverge r
  obtain ⟨w, _, htwins, _⟩ := Renewed.elsewhere ht hp hq hdiverge htp
  refine (htp.twins []).fill (hdescend.trans hq) ?_
  rw [henclosing, List.append_nil, List.append_nil]
  exact ⟨htwins.types, hs.symm⟩

end

/-- What types in the other place may still be put there. -/
theorem Renewed.attempt_elsewhere {q : Position} {k : Nat} (ht : Sound n t)
    (hp : t.descend? p = some u) (hq : t.descend? q.steps = some v) (hdiverge : Diverge p q.steps)
    (htp : Renewed n (fill r p t) tp) (hty : v.ty = s.ty) (hsound : Sound k tp) (hs : Sound k s) :
    ∃ t' k', Fresh.attempt (tp.replaceAt q s) k = (.ok t', k') ∧
      Twins [] [] (fill s q.steps tp) t' := by
  obtain ⟨w, hw, htwins, _⟩ := Renewed.elsewhere ht hp hq hdiverge htp
  obtain ⟨t', k', hrun, hrenewed, _⟩ :=
    attempt_replaceAt_ok hsound hs hw (htwins.ty_eq.symm.trans hty)
  exact ⟨t', k', hrun, hrenewed.twins []⟩

section

variable (ht : Sound n t) (hp : t.descend? p = some u) (hq : t.descend? q = some v)
  (hdiverge : Diverge p q) (htp : Renewed n (fill r p t) tp) (htq : Renewed n (fill s q t) tq)
  (hwfp : tp.WellFormed) (hwfq : tq.WellFormed)

include ht hp hq hdiverge htp htq hwfp hwfq

/-- A term that is put in its place last must read there as where it is put first. -/
theorem Renewed.reads_alike_of_twins (h : Twins [] [] (fill s q tp) (fill r p tq)) :
    namelessIn (tp.enclosing q) s = namelessIn (t.enclosing q) s := by
  obtain ⟨w, hw, _⟩ := Renewed.elsewhere ht hp hq hdiverge htp
  obtain ⟨w', hw', _⟩ := Renewed.elsewhere ht hq hp hdiverge.symm htq
  -- On the left `s` was put there last; on the right it was there when the other place was filled.
  obtain ⟨hlast, hbinders⟩ := descend?_fill hwfp hw s
  obtain ⟨hfirst, hbinders'⟩ := descend?_fill ht.wf hq s
  obtain ⟨a, ha, htwins⟩ := h.exists_descend? hlast
  obtain ⟨b, hb, htwins'⟩ := (htq.twins []).exists_descend? hfirst
  obtain ⟨hkept, hsame⟩ := descend?_fill_of_diverge hwfq hw' hdiverge r
  obtain rfl : a = b := Option.some.inj (ha.symm.trans (hkept.trans hb))
  have hreading := htwins.reading.trans (hsame ▸ htwins'.reading.symm)
  rwa [hbinders, hbinders', List.append_nil, List.append_nil] at hreading

theorem Renewed.fill_fill_iff :
    Twins [] [] (fill s q tp) (fill r p tq) ↔
      namelessIn (tp.enclosing q) s = namelessIn (t.enclosing q) s ∧
        namelessIn (tq.enclosing p) r = namelessIn (t.enclosing p) r := by
  constructor
  · intro h
    exact ⟨reads_alike_of_twins ht hp hq hdiverge htp htq hwfp hwfq h,
      reads_alike_of_twins ht hq hp hdiverge.symm htq htp hwfq hwfp h.symm⟩
  · rintro ⟨hs, hr⟩
    have hleft := fill_elsewhere ht hp hq hdiverge htp hs
    have hright := fill_elsewhere ht hq hp hdiverge.symm htq hr
    rw [← fill_comm ht.wf hp hq hdiverge] at hright
    exact ⟨rfl, hleft.reading.symm.trans hright.reading⟩

end

/-- A replacement fails where there is no place or the types differ, and else fills the place up
to bound variables: the new term reads there as below the binders that enclose the place. Two
places, neither inside the other, may be filled in either order; the results are equal up to bound
variables exactly when neither replacement renames a binder that encloses the other place and is
free in what is put there. -/
theorem replacement_fills_context (ht : Sound n t) :
    (∀ (p : Position) (r : Term), Sound n r →
      (p ∉ t.positions →
        Fresh.attempt (t.replaceAt p r) n = (.error (.index ⟨p.text, t⟩), n)) ∧
      ∀ old, t.subtermAt p = .ok old →
        (old.ty ≠ r.ty →
          Fresh.attempt (t.replaceAt p r) n = (.error (.type (.mismatch old.ty r.ty)), n)) ∧
        (old.ty = r.ty → ∃ t' m, Fresh.attempt (t.replaceAt p r) n = (.ok t', m) ∧
          t'.alphaEquals (fill r p.steps t) ∧ ∃ new, t'.subtermAt p = .ok new ∧
            namelessIn (t'.enclosing p.steps) new = namelessIn (t.enclosing p.steps) r)) ∧
    ∀ (p q : Position) (r s tp tq : Term) (i j m₁ m₂ k l : Nat), Diverge p.steps q.steps →
      Sound n r → Sound n s → n ≤ i → n ≤ j →
      Fresh.attempt (t.replaceAt p r) i = (.ok tp, m₁) →
      Fresh.attempt (t.replaceAt q s) j = (.ok tq, m₂) → m₁ ≤ k → m₂ ≤ l →
      ∃ tpq k' tqp l', Fresh.attempt (tp.replaceAt q s) k = (.ok tpq, k') ∧
        Fresh.attempt (tq.replaceAt p r) l = (.ok tqp, l') ∧
        (tpq.alphaEquals tqp ↔
          (∀ x ∈ t.enclosing q.steps, .var x ∈ s.free → x ∈ tp.enclosing q.steps) ∧
          ∀ x ∈ t.enclosing p.steps, .var x ∈ r.free → x ∈ tq.enclosing p.steps) := by
  constructor
  · intro p r hr
    refine ⟨fun hp => attempt_replaceAt_of_not_mem hp r n, fun old hold => ?_⟩
    constructor
    · intro hty
      rw [attempt_replaceAt, hold]
      exact if_pos hty
    · intro hty
      have hu := subtermAt_eq_ok hold
      obtain ⟨t', m, hrun, hrenewed, _⟩ := attempt_replaceAt_ok ht hr hu hty
      exact ⟨t', m, hrun, (alphaEquals_iff _ _).mpr (hrenewed.twins []).reading.symm,
        hrenewed.exists_subtermAt ht.wf hu⟩
  · intro p q r s tp tq i j m₁ m₂ k l hdiverge hr hs hi hj hrunp hrunq hk hl
    obtain ⟨⟨u, hu, htyr⟩, htp, hsoundp, hip⟩ :=
      Renewed.of_replaceAt (ht.mono hi) (hr.mono hi) hrunp
    obtain ⟨⟨v, hv, htys⟩, htq, hsoundq, hjq⟩ :=
      Renewed.of_replaceAt (ht.mono hj) (hs.mono hj) hrunq
    have htp := htp.mono hi
    have htq := htq.mono hj
    obtain ⟨tpq, k', hrunpq, hpq⟩ := Renewed.attempt_elsewhere ht hu hv hdiverge htp htys
      (hsoundp.mono hk) (hs.mono (hi.trans (hip.trans hk)))
    obtain ⟨tqp, l', hrunqp, hqp⟩ := Renewed.attempt_elsewhere ht hv hu hdiverge.symm htq htyr
      (hsoundq.mono hl) (hr.mono (hj.trans (hjq.trans hl)))
    refine ⟨tpq, k', tqp, l', hrunpq, hrunqp, ?_⟩
    rw [← Renewed.reads_alike_iff ht hu hv hdiverge htp hsoundp.wf hs,
      ← Renewed.reads_alike_iff ht hv hu hdiverge.symm htq hsoundq.wf hr,
      ← Renewed.fill_fill_iff ht hu hv hdiverge htp htq hsoundp.wf hsoundq.wf, alphaEquals_iff]
    constructor
    · intro h
      exact ⟨rfl, hpq.reading.trans (h.trans hqp.reading.symm)⟩
    · intro h
      exact hpq.reading.symm.trans (h.reading.trans hqp.reading)

/-- In `f(λx.a, a)`, the `a` below the binder may be replaced by `x`, which is bound there, and the
other one by `y`, in either order. -/
theorem replacement_fills_context_captured :
    let o := SimpleType.base "o"
    let f := const ⟨"f", .arrow (.arrow o o) (.arrow o o), false, none⟩
    let a := const ⟨"a", o, false, none⟩
    let x : Var := ⟨0, "x", o, true⟩
    let y : Var := ⟨1, "y", o, true⟩
    let t := app f [lambda x a, a]
    let p : Position := ⟨[.arg 2]⟩
    let q : Position := ⟨[.arg 1, .body]⟩
    let tp := app f [lambda x a, var y]
    let tq := app f [lambda x (var x), a]
    Sound 2 t ∧ tq.alphaEquals (fill (var x) q.steps t) ∧
      ∃ tpq k tqp l, Fresh.attempt (tp.replaceAt q (var x)) 2 = (.ok tpq, k) ∧
        Fresh.attempt (tq.replaceAt p (var y)) 2 = (.ok tqp, l) ∧ tpq.alphaEquals tqp := by
  intro o f a x y t p q tp tq
  have hbody : Sound 2 (lambda x a) := sound_lambda (by decide) rfl (by cbv) (sound_const 2 _)
  have ht : Sound 2 t := by
    refine sound_app_of_apart (by simp [hbody, sound_const, f, a]) rfl (by simp) (by cbv) ?_
    simp [Apart, f, a, freeAll]
  have hx : Sound 2 (var x) := sound_var (by decide)
  have hy : Sound 2 (var y) := sound_var (by decide)
  have hp : Fresh.attempt (t.replaceAt p (var y)) 2 = (.ok tp, 2) := by cbv
  have hq : Fresh.attempt (t.replaceAt q (var x)) 2 = (.ok tq, 2) := by cbv
  have hfills := replacement_fills_context ht
  obtain ⟨t', m, hq', halpha, _⟩ := ((hfills.1 q (var x) hx).2 a rfl).2 rfl
  obtain ⟨tpq, k, tqp, l, hpq, hqp, hiff⟩ := hfills.2 p q (var y) (var x) tp tq 2 2 2 2 2 2
    (by decide) hy hx le_rfl le_rfl hp hq le_rfl le_rfl
  obtain rfl : tq = t' := Except.ok.inj (Prod.mk.inj (hq.symm.trans hq')).1
  refine ⟨ht, halpha, tpq, k, tqp, l, hpq, hqp, hiff.mpr ⟨fun v hv _ => hv, fun v hv => ?_⟩⟩
  exact absurd hv List.not_mem_nil

/-- A binder that is renamed captures no more: in `f(λx.a, a)`, the `x` put below the binder is
free if `x` was put in the other place before, and else it is bound. -/
theorem replaceAt_order_matters :
    let o := SimpleType.base "o"
    let f := const ⟨"f", .arrow (.arrow o o) (.arrow o o), false, none⟩
    let a := const ⟨"a", o, false, none⟩
    let x : Var := ⟨0, "x", o, true⟩
    let x₁ : Var := ⟨1, "x", o, true⟩
    let t := app f [lambda x a, a]
    let p : Position := ⟨[.arg 2]⟩
    let q : Position := ⟨[.arg 1, .body]⟩
    let tp := app f [lambda x₁ a, var x]
    let tpq := app f [lambda x₁ (var x), var x]
    let tq := app f [lambda x (var x), a]
    let tqp := app f [lambda x₁ (var x₁), var x]
    Sound 1 t ∧ Sound 1 (var x) ∧ Diverge p.steps q.steps ∧
      Fresh.attempt (t.replaceAt p (var x)) 1 = (.ok tp, 2) ∧
      Fresh.attempt (tp.replaceAt q (var x)) 2 = (.ok tpq, 2) ∧
      Fresh.attempt (t.replaceAt q (var x)) 1 = (.ok tq, 1) ∧
      Fresh.attempt (tq.replaceAt p (var x)) 1 = (.ok tqp, 2) ∧ tpq.alphaEquals tqp = false := by
  intro o f a x x₁ t p q tp tpq tq tqp
  have hbody : Sound 1 (lambda x a) := sound_lambda (by decide) rfl (by cbv) (sound_const 1 _)
  have ht : Sound 1 t := by
    refine sound_app_of_apart (by simp [hbody, sound_const, f, a]) rfl (by simp) (by cbv) ?_
    simp [Apart, f, a, freeAll]
  exact ⟨ht, sound_var (by decide), by decide, by cbv, by cbv, by cbv, by cbv, by cbv⟩

end TermAlgebra.Term
