import TermAlgebra.Proofs.MatchCompleteness

/-!
# Terms below two scopes

Terms that read alike below two scopes are equal up to the variables in scope, which correspond by
their places. Main statements: the reading of one comes from the reading of the other by renaming
what is in scope, and closed over corresponding variables both read the same.
-/

namespace TermAlgebra

namespace Nameless

variable {xs ys : List Var} {x y : Var}

theorem ofVar_eq_bound {i : Nat} : ofVar xs x = .bound i ↔ xs.idxOf? x = some i := by
  unfold ofVar
  cases xs.idxOf? x <;> simp

theorem ofVar_eq_free : ofVar xs x = .free y ↔ x = y ∧ x ∉ xs := by
  unfold ofVar
  cases e : xs.idxOf? x with
  | none => simp [List.idxOf?_eq_none_iff.mp e]
  | some i =>
    obtain ⟨hi, hx, _⟩ := List.idxOf?_eq_some_iff.mp e
    have hmem : x ∈ xs := hx ▸ List.getElem_mem hi
    simp [hmem]

theorem ofVar_of_not_mem (hx : x ∉ xs) : ofVar xs x = .free x := ofVar_eq_free.mpr ⟨rfl, hx⟩

theorem ofLabel_closing (xs : List Var) (x : Var) : ofLabel (closing xs (.free x)) = ofVar xs x := by
  cases e : xs.idxOf? x <;> simp [closing, ofVar, e, ofLabel]

theorem ofLabel_injective {l l' : Label} (h : ofLabel l = ofLabel l') : l = l' := by
  cases l <;> cases l' <;> cases h <;> rfl

theorem opening_of_closing (h : ofVar xs x = ofVar ys y) :
    opening ys (closing xs (.free x)) = .free y := by
  rw [← ofLabel_closing, ← ofLabel_closing] at h
  rw [ofLabel_injective h, opening_closing]

theorem ofVar_injective (xs : List Var) : Function.Injective (ofVar xs) := by
  intro x y h
  have hx := opening_of_closing h
  rw [opening_closing] at hx
  exact Label.free.inj hx

theorem mem_iff_of_ofVar_eq (h : ofVar xs x = ofVar ys y) : x ∈ xs ↔ y ∈ ys := by
  have hiff : ∀ {zs : List Var} {z : Var}, z ∉ zs ↔ ∃ w, ofVar zs z = .free w := fun {zs z} =>
    ⟨fun hz => ⟨z, ofVar_of_not_mem hz⟩, fun ⟨_, hw⟩ => (ofVar_eq_free.mp hw).2⟩
  rw [← not_iff_not, hiff, hiff, h]

theorem eq_of_ofVar_eq (h : ofVar xs x = ofVar ys y) (hx : x ∉ xs) : y = x := by
  rw [ofVar_of_not_mem hx] at h
  exact (ofVar_eq_free.mp h.symm).1

/-- What is at one place of a scope corresponds to what is there in another scope. -/
theorem exists_ofVar_eq (hlen : xs.length = ys.length) (hys : ys.Nodup) (hx : x ∈ xs) :
    ∃ y ∈ ys, ofVar xs x = ofVar ys y := by
  obtain ⟨i, e⟩ := Option.ne_none_iff_exists'.mp (mt List.idxOf?_eq_none_iff.mp (not_not.mpr hx))
  obtain ⟨hi, _⟩ := List.idxOf?_eq_some_iff.mp e
  have hi' : i < ys.length := hlen ▸ hi
  have he' : ys.idxOf? ys[i] = some i := by
    refine List.idxOf?_eq_some_iff.mpr ⟨hi', rfl, fun j hj hji => ?_⟩
    exact List.pairwise_iff_getElem.mp hys j i (by omega) hi' hj hji
  exact ⟨ys[i], List.getElem_mem hi', (ofVar_eq_bound.mpr e).trans (ofVar_eq_bound.mpr he').symm⟩

theorem idxOf?_eq_of_map {us vs : List Var} (h : us.map (ofVar xs) = vs.map (ofVar ys))
    (hxy : ofVar xs x = ofVar ys y) : us.idxOf? x = vs.idxOf? y := by
  induction us generalizing vs with
  | nil =>
    obtain rfl : vs = [] := by simpa using h.symm
    rfl
  | cons u us ih =>
    cases vs with
    | nil => cases h
    | cons v vs =>
      rw [List.map_cons, List.map_cons, List.cons.injEq] at h
      have hiff : u = x ↔ v = y := by
        rw [← (ofVar_injective xs).eq_iff, ← (ofVar_injective ys).eq_iff, h.1, hxy]
      simp only [List.idxOf?_cons, ih h.2, beq_iff_eq, hiff]

end Nameless

namespace Term

open Nameless

/-- Equal up to what is in scope, place by place. -/
structure Twins (xs ys : List Var) (s t : Term) : Prop where
  types : xs.map Var.ty = ys.map Var.ty
  reading : namelessIn xs s = namelessIn ys t

namespace Twins

variable {xs ys us vs : List Var} {s t : Term} {x y : Var}

theorem symm (h : Twins xs ys s t) : Twins ys xs t s := ⟨h.types.symm, h.reading.symm⟩

theorem length (h : Twins xs ys s t) : xs.length = ys.length := by
  simpa using congrArg List.length h.types

theorem alphaIn (h : Twins xs ys s t) : alphaIn xs ys s t := (alphaIn_iff h.types s t).mpr h.reading

theorem ty_eq (h : Twins xs ys s t) : s.ty = t.ty := ty_eq_of_alphaIn h.alphaIn

/-! ## Parts -/

theorem literal {v : Literal} (h : Twins xs ys (literal v) t) : t = .literal v := by
  have halpha := h.alphaIn
  cases t with
  | literal w => rw [eq_of_beq halpha]
  | _ => cases halpha

theorem const {c : Constant} (h : Twins xs ys (const c) t) :
    ∃ d, t = .const d ∧ d.name = c.name ∧ d.ty = c.ty := by
  have halpha := h.alphaIn
  cases t with
  | const d =>
    obtain ⟨hname, hty⟩ := Nameless.const.inj h.reading
    exact ⟨d, rfl, hname.symm, hty.symm⟩
  | _ => cases halpha

theorem var (h : Twins xs ys (var x) t) : ∃ y, t = .var y ∧ ofVar xs x = ofVar ys y := by
  have halpha := h.alphaIn
  cases t with
  | var y => exact ⟨y, rfl, h.reading⟩
  | _ => cases halpha

theorem lambda {body : Term} (h : Twins xs ys (lambda x body) t) :
    ∃ y body', t = .lambda y body' ∧ x.ty = y.ty ∧ Twins (x :: xs) (y :: ys) body body' := by
  have halpha := h.alphaIn
  cases t with
  | lambda y body' =>
    obtain ⟨hty, hbody⟩ := Nameless.lambda.inj h.reading
    exact ⟨y, body', rfl, hty, by rw [List.map_cons, List.map_cons, hty, h.types], hbody⟩
  | _ => cases halpha

theorem all (hty : xs.map Var.ty = ys.map Var.ty) {ss ts : List Term}
    (h : namelessAllIn xs ss = namelessAllIn ys ts) : List.Forall₂ (Twins xs ys) ss ts := by
  rw [namelessAllIn_eq_map, namelessAllIn_eq_map] at h
  exact (Fresh.forall₂_of_map_eq h).imp fun _ _ hst => ⟨hty, hst.2⟩

theorem app {head : Term} {args : List Term} (h : Twins xs ys (app head args) t) :
    ∃ head' args', t = .app head' args' ∧ Twins xs ys head head' ∧
      List.Forall₂ (Twins xs ys) args args' := by
  have halpha := h.alphaIn
  cases t with
  | app head' args' =>
    obtain ⟨hhead, hargs⟩ := Nameless.app.inj h.reading
    exact ⟨head', args', rfl, ⟨h.types, hhead⟩, all h.types hargs⟩
  | _ => cases halpha

theorem metaApp {z : MetaVar} {args : List Term} (h : Twins xs ys (metaApp z args) t) :
    ∃ args', t = .metaApp z args' ∧ List.Forall₂ (Twins xs ys) args args' := by
  have halpha := h.alphaIn
  cases t with
  | metaApp w args' =>
    obtain ⟨rfl, hargs⟩ := Nameless.metaApp.inj h.reading
    exact ⟨args', rfl, all h.types hargs⟩
  | _ => cases halpha

theorem lambda?_eq_none (h : Twins xs ys s t) (ht : t.lambda? = none) : s.lambda? = none := by
  cases s with
  | lambda x body =>
    obtain ⟨y, body', rfl, _⟩ := h.lambda
    cases ht
  | _ => rfl

theorem head_args (h : Twins xs ys s t) :
    Twins xs ys s.head t.head ∧ List.Forall₂ (Twins xs ys) s.args t.args := by
  cases s with
  | app head args =>
    obtain ⟨head', args', rfl, hhead, hargs⟩ := h.app
    exact ⟨hhead, hargs⟩
  | _ =>
    have halpha := h.alphaIn
    cases t with
    | app head' args' => cases halpha
    | _ => exact ⟨h, .nil⟩

theorem headPart (h : Twins xs ys s t) (i : Nat) : Twins xs ys (s.headPart i) (t.headPart i) := by
  obtain ⟨hhead, hargs⟩ := h.head_args
  unfold Term.headPart
  rw [hargs.length_eq]
  split
  · exact h
  · split
    · exact hhead
    · refine ⟨h.types, ?_⟩
      have htake : (s.args.take i).map (namelessIn xs) = (t.args.take i).map (namelessIn ys) :=
        (Fresh.map_eq_map (List.forall₂_take i (hargs.imp fun _ _ hst => hst.symm.reading))).symm
      rw [namelessIn, namelessIn, namelessAllIn_eq_map, namelessAllIn_eq_map, htake, hhead.reading]

/-! ## Renaming -/

section

variable (h : Twins xs ys s t) (hs : s.WellFormed) (ht : t.WellFormed)

include h hs ht

theorem nameless_eq_relabel : t.nameless = s.nameless.relabel (opening ys ∘ closing xs) := by
  rw [← namelessIn_opening ht ys, ← h.reading, namelessIn_eq hs, relabel_relabel]

theorem mentions (hxy : ofVar xs x = ofVar ys y) (hx : s.nameless.mentions x) :
    t.nameless.mentions y := by
  rw [h.nameless_eq_relabel hs ht]
  exact mentions_relabel hx (opening_of_closing hxy)

/-- Every variable of the one corresponds to a variable of the other. -/
theorem exists_mentions (hys : ys.Nodup) (hx : s.nameless.mentions x) :
    ∃ y, ofVar xs x = ofVar ys y ∧ t.nameless.mentions y := by
  by_cases hmem : x ∈ xs
  · obtain ⟨y, _, hxy⟩ := exists_ofVar_eq h.length hys hmem
    exact ⟨y, hxy, h.mentions hs ht hxy hx⟩
  · have hclosing : closing xs (.free x) = .free x := closing_opening_free hmem
    have hreading : (namelessIn ys t).mentions x := by
      rw [← h.reading, namelessIn_eq hs]
      exact mentions_relabel hx hclosing
    rw [namelessIn_eq ht] at hreading
    obtain ⟨hx', hnot⟩ := mentions_of_closing hreading
    exact ⟨x, (ofVar_of_not_mem hmem).trans (ofVar_of_not_mem hnot).symm, hx'⟩

/-- Both contain what is in scope, or neither does. -/
theorem exists_mentions_iff (hxs : xs.Nodup) (hys : ys.Nodup) :
    (∃ x ∈ xs, s.nameless.mentions x) ↔ ∃ y ∈ ys, t.nameless.mentions y := by
  constructor
  · rintro ⟨x, hmem, hx⟩
    obtain ⟨y, hy, hxy⟩ := exists_ofVar_eq h.length hys hmem
    exact ⟨y, hy, h.mentions hs ht hxy hx⟩
  · rintro ⟨y, hmem, hy⟩
    obtain ⟨x, hx, hyx⟩ := exists_ofVar_eq h.symm.length hxs hmem
    exact ⟨x, hx, h.symm.mentions ht hs hyx hy⟩

/-- What contains nothing that is in scope is the same on both sides. -/
theorem nameless_eq_of_eq {u : Nameless} (hu : ∀ x ∈ xs, ¬u.mentions x) (hsu : s.nameless = u) :
    t.nameless = u := by
  rw [h.nameless_eq_relabel hs ht, hsu]
  conv => rhs; rw [← relabel_id u]
  apply relabel_congr
  · intro i
    simp [closing, opening, h.length]
  · intro x hx
    have hnot : x ∉ xs := fun hmem => hu x hmem hx
    rw [Function.comp_apply, show closing xs (.free x) = .free x from closing_opening_free hnot]
    rfl

theorem nameless_eq_iff {u : Nameless} (hu : ∀ x ∈ xs, ¬u.mentions x)
    (hu' : ∀ y ∈ ys, ¬u.mentions y) : s.nameless = u ↔ t.nameless = u :=
  ⟨h.nameless_eq_of_eq hs ht hu, h.symm.nameless_eq_of_eq ht hs hu'⟩

theorem nameless_eq_free (hxy : ofVar xs x = ofVar ys y) (hx : s.nameless = .free x) :
    t.nameless = .free y := by
  rw [h.nameless_eq_relabel hs ht, hx]
  exact congrArg ofLabel (opening_of_closing hxy)

/-- Closed over corresponding variables, both read the same if nothing else is in scope. -/
theorem namelessIn_eq_of_covers (hys : ys.Nodup) (huv : us.map (ofVar xs) = vs.map (ofVar ys))
    (hcovers : ∀ x ∈ xs, s.nameless.mentions x → x ∈ us) : namelessIn us s = namelessIn vs t := by
  have hlen : us.length = vs.length := by simpa using congrArg List.length huv
  rw [namelessIn_eq hs, namelessIn_eq ht, h.nameless_eq_relabel hs ht, relabel_relabel]
  apply relabel_congr
  · intro i
    simp [closing, opening, h.length, hlen]
  · intro x hx
    obtain ⟨y, hxy, _⟩ := h.exists_mentions hs ht hys hx
    rw [Function.comp_apply, Function.comp_apply, opening_of_closing hxy]
    simp only [closing, idxOf?_eq_of_map huv hxy]
    cases e : vs.idxOf? y with
    | some i => rfl
    | none =>
      have hnot : x ∉ us := List.idxOf?_eq_none_iff.mp ((idxOf?_eq_of_map huv hxy).trans e)
      rw [eq_of_ofVar_eq hxy fun hmem => hnot (hcovers x hmem hx)]

end

/-! ## Patterns -/

theorem map_var {zs : List Var} {ts : List Term}
    (h : List.Forall₂ (Twins xs ys) (zs.map Term.var) ts) :
    ∃ ws : List Var, ts = ws.map Term.var ∧ zs.map (ofVar xs) = ws.map (ofVar ys) := by
  induction zs generalizing ts with
  | nil =>
    cases h
    exact ⟨[], rfl, rfl⟩
  | cons z zs ih =>
    rw [List.map_cons] at h
    cases h with
    | cons hz hzs =>
      obtain ⟨w, rfl, hzw⟩ := hz.var
      obtain ⟨ws, rfl, hws⟩ := ih hzs
      exact ⟨w :: ws, rfl, by rw [List.map_cons, List.map_cons, hzw, hws]⟩

theorem isPattern (h : Twins xs ys s t) (hs : s.WellFormed) (ht : t.WellFormed)
    (hys : ∀ y ∈ ys, y.binder) (hpattern : s.isPattern) : t.isPattern := by
  induction s using Term.induction generalizing xs ys t with
  | literal v =>
    have halpha := h.alphaIn
    cases t with
    | literal w => rfl
    | _ => cases halpha
  | const c =>
    have halpha := h.alphaIn
    cases t with
    | const d => rfl
    | _ => cases halpha
  | var x =>
    obtain ⟨y, rfl, _⟩ := h.var
    rfl
  | lambda x body ih =>
    obtain ⟨y, body', rfl, _, hbody⟩ := h.lambda
    cases hs with
    | lambda _ _ hs =>
      cases ht with
      | lambda hy _ ht =>
        have hbinders : ∀ v ∈ y :: ys, v.binder := by
          simpa using ⟨hy, hys⟩
        have hbody' : body'.isPattern := ih hbody hs ht hbinders hpattern
        exact hbody'
  | app head args ih ihs =>
    obtain ⟨head', args', rfl, hhead, hargs⟩ := h.app
    obtain ⟨hp, hps⟩ := isPattern_app hpattern
    refine isPattern_app_of (ih hhead hs.head ht.head hys hp) fun t' ht' => ?_
    obtain ⟨s', hs', hst⟩ := Fresh.exists_of_mem_right hargs ht'
    exact ihs s' hs' hst (hs.args s' hs') (ht.args t' ht') hys (hps s' hs')
  | metaApp z args ihs =>
    obtain ⟨args', rfl, hargs⟩ := h.metaApp
    obtain ⟨zs, rfl, hzs, hbinders⟩ := isPattern_metaApp hpattern
    obtain ⟨ws, rfl, hws⟩ := map_var hargs
    have hmap : (ws.map (ofVar ys)).Nodup := hws ▸ hzs.map (ofVar_injective xs)
    refine isPattern_metaApp_of hmap.of_map fun w hw => ?_
    -- a variable in scope is a binder, and any other is the same on both sides
    obtain ⟨z', hz', hzw⟩ := List.mem_map.mp (hws ▸ List.mem_map_of_mem hw)
    by_cases hmem : w ∈ ys
    · exact hys w hmem
    · rw [← eq_of_ofVar_eq hzw.symm hmem]
      exact hbinders z' hz'

end Twins

end Term

end TermAlgebra
