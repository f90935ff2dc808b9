import TermAlgebra.Proofs.ParserProgress
import TermAlgebra.Proofs.ParserSoundness

/-!
# Failures of the parser

Where a parser fails, the words that it took are the beginning of a phrase, and the error is about
the next token, which is still there. Every rule follows the recursion of the parsers: what is
missing behind the point of failure can be supplied, since there are types, terms and images.
-/

namespace TermAlgebra.Language

open Word

/-- The words are a phrase as a whole. -/
def Complete {α : Type} (Spells : List Word → α → Prop) (w : List Word) : Prop := ∃ a, Spells w a

/-- The words are the beginning of words with a property. -/
def Viable (P : List Word → Prop) (w : List Word) : Prop := ∃ v, P (w ++ v)

theorem Viable.trans {P Q : List Word → Prop} {w : List Word} (h : Viable P w)
    (hpq : ∀ v, P v → Viable Q v) : Viable Q w := by
  obtain ⟨v, hv⟩ := h
  obtain ⟨u, hu⟩ := hpq _ hv
  exact ⟨v ++ u, by rwa [← List.append_assoc]⟩

/-- The error is about the next token of the input. -/
structure Input.Blames (i : Input) (e : ParseError) : Prop where
  offset : i.offset = e.offset
  unknown : e.fault = .unknownToken ↔ i.tokens.head?.map Lexeme.token = some .unknown

namespace Parser

variable {α β : Type} {i i' i'' : Input} {e : ParseError}

/-- The parser fails on the input `i` with the error `e` and leaves the input `i'`. -/
def Fails (p : Parser α) (i : Input) (e : ParseError) (i' : Input) : Prop :=
  p.exec i = (.error e, i')

theorem fails_bind {p : Parser α} {f : α → Parser β} :
    (p >>= f).Fails i e i'' ↔
      p.Fails i e i'' ∨ ∃ a i', p.Takes i a i' ∧ (f a).Fails i' e i'' := by
  unfold Fails Takes
  rw [exec_bind]
  rcases p.exec i with ⟨e' | a, i'⟩ <;> simp

theorem fails_next_bind {f : Option Lexeme → Parser β} :
    (next? >>= f).Fails i e i' ↔ (f i.tokens.head?).Fails i e i' := by
  have : next?.exec i = (.ok i.tokens.head?, i) := rfl
  simp only [Fails, exec_bind, this]

theorem fails_advance_bind {f : Unit → Parser β} :
    (advance >>= f).Fails i e i' ↔ (f ()).Fails i.rest e i' := by
  have : advance.exec i = (.ok (), i.rest) := rfl
  simp only [Fails, exec_bind, this]

theorem fails_fail {k : Expected} (h : (fail k : Parser α).Fails i e i') : i' = i ∧ i.Blames e := by
  rw [Fails, exec_fail] at h
  cases h
  refine ⟨rfl, rfl, ?_⟩
  by_cases hunknown : i.tokens.head?.map Lexeme.token = some .unknown <;> simp [hunknown]

theorem not_fails_eat {t : Token} : ¬ (eat t).Fails i e i' := by
  unfold eat
  rw [fails_next_bind]
  intro h
  split at h
  · split at h <;> cases h
  · cases h

/-- From words that start as told, a failing parser takes the beginning of words with the property,
and its error is about the next token. -/
structure Stops (Starts : List Word → Prop) (p : Parser α) (P : List Word → Prop) : Prop where
  stop : ∀ {i ws e i'}, p.Fails i e i' → i.Sees ws → Starts ws →
    i'.Blames e ∧ ∃ w vs, ws = w ++ vs ∧ i'.Sees vs ∧ Viable P w

namespace Stops

variable {Starts Ends P Q : List Word → Prop} {p : Parser α} {t : Token}

theorem pure (a : α) : Stops Starts (Pure.pure a) P := ⟨nofun⟩

theorem fail {k : Expected} (h : Viable P []) : Stops Starts (fail k : Parser α) P := by
  refine ⟨fun {i ws e i'} hfail hi _ => ?_⟩
  obtain ⟨rfl, hblames⟩ := fails_fail hfail
  exact ⟨hblames, [], ws, rfl, hi, h⟩

theorem anywhere (h : Stops (fun _ => True) p P) : Stops Starts p P :=
  ⟨fun hfail hi _ => h.stop hfail hi trivial⟩

theorem mono (h : Stops Starts p P) (hpq : ∀ w, P w → Viable Q w) : Stops Starts p Q := by
  refine ⟨fun {i ws e i'} hfail hi hws => ?_⟩
  obtain ⟨hblames, w, vs, hsplit, hvs, hw⟩ := h.stop hfail hi hws
  exact ⟨hblames, w, vs, hsplit, hvs, hw.trans hpq⟩

/-- The first parser fails, or it takes a phrase and the second fails behind it. -/
theorem bind {f : α → Parser β} {Spells : List Word → α → Prop}
    (h : Stops Starts p (Complete Spells)) (hsound : Sound p Spells Ends)
    (hP : ∀ w a, Spells w a → Viable P w)
    (hf : ∀ w a, Spells w a → Stops Ends (f a) fun v => P (w ++ v)) : Stops Starts (p >>= f) P := by
  refine ⟨fun {i ws e i'} hfail hi hws => ?_⟩
  rcases fails_bind.mp hfail with hfail | ⟨a, i₁, htakes, hfail⟩
  · exact (h.mono fun w ⟨a, ha⟩ => hP w a ha).stop hfail hi hws
  · obtain ⟨w, us, rfl, hi₁, ha, hus⟩ := hsound htakes hi
    obtain ⟨hblames, v, vs, rfl, hvs, u, hu⟩ := (hf w a ha).stop hfail hi₁ hus
    exact ⟨hblames, w ++ v, vs, (List.append_assoc w v vs).symm, hvs, u, by rwa [List.append_assoc]⟩

theorem map (h : Stops Starts p P) (g : α → β) (hpq : ∀ w, P w → Q w) :
    Stops Starts (p >>= fun a => Pure.pure (g a)) Q := by
  refine ⟨fun {i ws e i'} hfail hi hws => ?_⟩
  rcases fails_bind.mp hfail with hfail | ⟨a, i₁, _, hfail⟩
  · exact (h.mono fun w hw => ⟨[], by simpa using hpq w hw⟩).stop hfail hi hws
  · cases hfail

theorem budget_bind {f : Nat → Parser β} (h : ∀ n, Stops Starts (f n) P) :
    Stops Starts (budget >>= f) P := by
  refine ⟨fun {i ws e i'} hfail hi hws => ?_⟩
  have : budget.exec i = (.ok (i.tokens.length + 1), i) := rfl
  rw [Fails, exec_bind, this] at hfail
  exact (h _).stop hfail hi hws

/-- The next token is the given one. -/
theorem next_bind {f : Option Lexeme → Parser β} (hnone : Stops Starts (f none) P)
    (hsome : ∀ l, Stops (fun ws => ws.head?.map Word.underlying = some l.token) (f (some l)) P) :
    Stops Starts (next? >>= f) P := by
  refine ⟨fun {i ws e i'} hfail hi hws => ?_⟩
  rw [fails_next_bind] at hfail
  have hhead := hi.head?
  cases hl : i.tokens.head? with
  | none =>
    rw [hl] at hfail
    exact hnone.stop hfail hi hws
  | some l =>
    rw [hl] at hfail hhead
    exact (hsome l).stop hfail hi hhead.symm

theorem advance_bind {f : Unit → Parser β} (ht : t ≠ .mark .openBracket)
    (h : Stops (fun _ => True) (f ()) fun v => P (token t :: v)) :
    Stops (fun ws => ws.head?.map Word.underlying = some t) (advance >>= f) P := by
  refine ⟨fun {i ws e i'} hfail hi hws => ?_⟩
  rw [fails_advance_bind] at hfail
  obtain ⟨us, rfl, hi₁⟩ := hi.eq_cons (hi.head?.trans hws) fun hb => absurd hb ht
  obtain ⟨hblames, w, vs, rfl, hvs, v, hv⟩ := h.stop hfail hi₁ trivial
  exact ⟨hblames, token t :: w, vs, rfl, hvs, v, hv⟩

theorem eat_bind {f : Bool → Parser β}
    (hb : t = .mark .openBracket → ∀ ws, Starts ws → EndName ws) (ht : t.isIdent = false)
    (htrue : Stops EndName (f true) fun v => P (token t :: v))
    (hfalse : Stops Starts (f false) P) : Stops Starts (eat t >>= f) P := by
  refine ⟨fun {i ws e i'} hfail hi hws => ?_⟩
  rcases fails_bind.mp hfail with heat | ⟨r, i₁, heat, hbehind⟩
  · exact absurd heat not_fails_eat
  rcases takes_eat.mp heat with ⟨hhead, rfl, rfl⟩ | ⟨-, rfl, rfl⟩
  · obtain ⟨us, rfl, hi₁⟩ := hi.eq_cons hhead fun hbracket => hb hbracket _ hws
    obtain ⟨hblames, w, vs, rfl, hvs, v, hv⟩ := htrue.stop hbehind hi₁ (hi.endName ht)
    exact ⟨hblames, token t :: w, vs, rfl, hvs, v, hv⟩
  · exact hfalse.stop hbehind hi hws

theorem expect_bind {k : Expected} {f : Unit → Parser β}
    (hb : t = .mark .openBracket → ∀ ws, Starts ws → EndName ws) (ht : t.isIdent = false)
    (hP : Viable P [token t]) (hf : Stops EndName (f ()) fun v => P (token t :: v)) :
    Stops Starts (expect t k >>= f) P := by
  obtain ⟨v, hv⟩ := hP
  unfold expect
  rw [bind_assoc]
  refine eat_bind hb ht ?_ ?_
  · simpa using hf
  · simpa [fail_bind] using fail ⟨token t :: v, hv⟩

theorem ident_bind {f : String → Parser β} (hP : ∀ x, Viable P [name x])
    (hf : ∀ x, Stops (fun _ => True) (f x) fun v => P (name x :: v)) :
    Stops Starts (ident >>= f) P := by
  obtain ⟨v, hv⟩ := hP "x"
  unfold ident
  rw [bind_assoc]
  refine next_bind ?_ fun l => ?_
  · simpa [fail_bind] using fail ⟨name "x" :: v, hv⟩
  · rcases l with ⟨t, start, stop⟩
    cases t with
    | ident x =>
      simp only [bind_assoc, pure_bind]
      exact advance_bind nofun (hf x)
    | _ => simpa only [fail_bind] using fail ⟨name "x" :: v, hv⟩

end Stops

/-! ## Lists -/

section Lists

variable {Starts Ends : List Word → Prop} {item : Parser α} {close : Mark} {k : Expected}
  {Spells : List Word → α → Prop}

theorem stops_items (hitem : Stops (fun _ => True) item (Complete Spells))
    (hsound : Sound item Spells Ends) (hne : ∃ w, Complete Spells w) (hclose : close.closes)
    (rounds : Nat) :
    Stops Starts (items item close k rounds)
      (Complete fun w as => ∃ v, w = v ++ [mark close] ∧ Listed Spells v as) := by
  obtain ⟨w₀, a₀, h₀⟩ := hne
  induction rounds generalizing Starts with
  | zero => exact .fail ⟨_, [a₀], w₀, rfl, .single h₀⟩
  | succ rounds ih =>
    refine hitem.anywhere.bind hsound
      (fun w a ha => ⟨[mark close], [a], w, rfl, .single ha⟩) fun w a ha => ?_
    refine .eat_bind (by rintro ⟨⟩; cases hclose) rfl (.pure _) ?_
    refine .eat_bind nofun rfl ?_ (.fail ⟨[mark close], [a], w, rfl, .single ha⟩)
    refine ih.map _ ?_
    rintro _ ⟨as, v, rfl, has⟩
    exact ⟨a :: as, w ++ mark .comma :: v, by simp, .cons ha has⟩

theorem stops_list (hitem : Stops (fun _ => True) item (Complete Spells))
    (hsound : Sound item Spells Ends) (hne : ∃ w, Complete Spells w) (hclose : close.closes) :
    Stops Starts (list item close k)
      (Complete fun w as => ∃ v, w = v ++ [mark close] ∧ Items Spells v as) := by
  refine .eat_bind (by rintro ⟨⟩; cases hclose) rfl (.pure _) (.budget_bind fun n => ?_)
  refine (stops_items hitem hsound hne hclose n).mono ?_
  rintro _ ⟨as, v, rfl, has⟩
  exact ⟨[], as, v, by simp, .some has⟩

end Lists

/-! ## Types -/

variable {Starts : List Word → Prop}

theorem typePhrase_name (s : String) : TypePhrase [name s] (.base s) := .atom (.base s)

theorem stops_typeAtom {type : Parser SimpleType}
    (htype : Stops (fun _ => True) type (Complete TypePhrase))
    (hsound : Sound type TypePhrase EndType) :
    Stops Starts (typeAtom type) (Complete TypeAtom) := by
  have hbase : Viable (Complete TypeAtom) [] := ⟨[name "o"], _, .base "o"⟩
  refine .next_bind (.fail hbase) fun l => ?_
  rcases l with ⟨t, start, stop⟩
  cases t with
  | ident s => exact .advance_bind nofun (.pure _)
  | mark m =>
    cases m with
    | openParen =>
      refine .advance_bind nofun (htype.bind hsound ?_ fun w τ hw => ?_)
      · exact fun w τ hw => ⟨[mark .closeParen], _, .paren hw⟩
      · exact .expect_bind nofun rfl ⟨[], _, .paren hw⟩ (.pure _)
    | _ => exact .fail hbase
  | _ => exact .fail hbase

theorem stops_typeWithin (depth : Nat) :
    Stops Starts (typeWithin depth) (Complete TypePhrase) := by
  induction depth generalizing Starts with
  | zero => exact .fail ⟨[name "o"], _, typePhrase_name "o"⟩
  | succ depth ih =>
    rw [typeWithin_succ]
    refine (stops_typeAtom ih (sound_typeWithin depth)).bind
      (sound_typeAtom (sound_typeWithin depth)) ?_ fun w σ hw => ?_
    · exact fun w σ hw => ⟨[], σ, by simpa using .atom hw⟩
    · refine .eat_bind nofun rfl (ih.map _ ?_) (.pure _)
      rintro v ⟨τ, hv⟩
      exact ⟨_, .arrow hw hv⟩

theorem stops_type : Stops Starts type (Complete TypePhrase) :=
  .budget_bind fun n => stops_typeWithin n

/-! ## Terms -/

theorem termPhrase_name (x : String) : TermPhrase [name x] (.name x) := .calls (.name x) (.nil _)

section Terms

variable {p : Parser Expr}

theorem fails_atom_name {ws : List Word} {x : String} (hi : i.Sees (name x :: ws))
    (h : (atom p).Fails i e i') :
    ws.head? = some attached ∧ (list p .closeBracket .commaOrBracket).Fails i.rest.rest e i' := by
  obtain ⟨start, stop, ls, htokens, rfl⟩ := hi.name
  have hrest : i.rest.tokens = ls := by rw [Input.rest, htokens, List.tail_cons]
  unfold atom at h
  simp only [fails_next_bind, htokens, List.head?_cons, fails_advance_bind, hrest] at h
  rw [head?_words_eq_attached]
  split at h
  · next start' stop' hbracket =>
    split at h
    · next hs =>
      rw [fails_advance_bind] at h
      rcases fails_bind.mp h with h | ⟨args, i₁, _, h⟩
      · exact ⟨⟨_, hbracket, rfl, hs⟩, h⟩
      · cases h
    · cases h
  · cases h

theorem stops_arguments (hp : Stops (fun _ => True) p (Complete TermPhrase))
    (hsound : Sound p TermPhrase EndTerm) (rounds : Nat) (t : Expr) :
    Stops Starts (arguments p rounds t) (fun w => ∃ u, Calls w t u) := by
  induction rounds generalizing Starts t with
  | zero => exact .pure t
  | succ rounds ih =>
    have hcalls : ∀ {w v args u}, Items TermPhrase w args → Calls v (t.apply args) u →
        Calls (mark .openParen :: (w ++ [mark .closeParen] ++ v)) t u := by
      intro w v args u hargs hv
      simpa using Calls.cons hargs hv
    refine .eat_bind nofun rfl ?_ (.pure t)
    refine (stops_list hp hsound ⟨[name "x"], _, termPhrase_name "x"⟩ rfl).bind
      (sound_list hsound rfl) ?_ ?_
    · rintro _ args ⟨v, rfl, hargs⟩
      exact ⟨[], _, hcalls hargs (.nil _)⟩
    · rintro _ args ⟨v, rfl, hargs⟩
      refine (ih _).mono fun w ⟨u, hu⟩ => ⟨[], u, ?_⟩
      simpa using hcalls hargs hu

theorem stops_atom (hp : Stops (fun _ => True) p (Complete TermPhrase))
    (hsound : Sound p TermPhrase EndTerm) : Stops Starts (atom p) (Complete TermAtom) := by
  refine ⟨fun {i ws e i'} hfail hi hws => ?_⟩
  have hatom := hfail
  unfold atom at hfail
  rw [fails_next_bind] at hfail
  split at hfail
  · next x start stop hx =>
    -- Only the arguments of a meta-variable can fail behind a name.
    obtain ⟨us, rfl, -⟩ := hi.eq_cons_of_next hx nofun
    obtain ⟨hattached, hlist⟩ := fails_atom_name hi hatom
    obtain ⟨us, rfl⟩ : ∃ vs, us = attached :: vs := ⟨_, List.eq_cons_of_mem_head? hattached⟩
    have hargs := @stops_list _ (fun _ => True) _ p .closeBracket .commaOrBracket _ hp hsound
      ⟨[name "x"], _, termPhrase_name "x"⟩ rfl
    obtain ⟨hblames, w, vs, rfl, hvs, v, args, u, hu, hargs⟩ :=
      hargs.stop hlist hi.rest.rest trivial
    refine ⟨hblames, name x :: attached :: w, vs, rfl, hvs, v, .metaApp x args, ?_⟩
    rw [List.cons_append, List.cons_append, hu]
    exact .metaApp x hargs
  iterate 4
    · rw [fails_advance_bind] at hfail
      cases hfail
  · next start stop hparen =>
    refine (Stops.advance_bind (t := .mark .openParen) nofun
      (hp.bind hsound ?_ fun w t hw => ?_)).stop hfail hi ?_
    · exact fun w t hw => ⟨[mark .closeParen], _, .paren hw⟩
    · exact .expect_bind nofun rfl ⟨[], _, .paren hw⟩ (.pure _)
    · rw [← hi.head?, hparen]
      rfl
  · exact (Stops.fail ⟨[name "x"], _, .name "x"⟩).stop hfail hi hws

end Terms

theorem stops_termWithin (depth : Nat) :
    Stops Starts (termWithin depth) (Complete TermPhrase) := by
  induction depth generalizing Starts with
  | zero => exact .fail ⟨[name "x"], _, termPhrase_name "x"⟩
  | succ depth ih =>
    have hlambda := fun {w v x ty body} (hw : TypePhrase w ty) (hv : TermPhrase v body) =>
      (⟨_, .lambda hw hv⟩ : Complete TermPhrase
        (mark .backslash :: name x :: mark .colon :: (w ++ mark .fatArrow :: v)))
    have hplain := fun x => @hlambda _ _ x _ _ (typePhrase_name "o") (termPhrase_name "x")
    refine .eat_bind nofun rfl (.ident_bind (fun x => ⟨_, hplain x⟩) fun x =>
      .expect_bind nofun rfl ⟨_, hplain x⟩ ?_) ?_
    · refine stops_type.bind sound_type (fun w ty hw => ?_) fun w ty hw => ?_
      · exact ⟨[mark .fatArrow, name "x"], hlambda hw (termPhrase_name "x")⟩
      · refine .expect_bind nofun rfl ⟨[name "x"], hlambda hw (termPhrase_name "x")⟩ ?_
        exact ih.map _ fun v ⟨body, hv⟩ => hlambda hw hv
    · refine (stops_atom ih (sound_termWithin depth)).bind
        (sound_atom (sound_termWithin depth)) ?_ fun w t hw => ?_
      · exact fun w t hw => ⟨[], t, .calls hw (.nil t)⟩
      · refine .budget_bind fun n => (stops_arguments ih (sound_termWithin depth) n t).mono ?_
        exact fun v ⟨u, hv⟩ => ⟨[], u, by simpa using .calls hw hv⟩

theorem stops_term : Stops Starts term (Complete TermPhrase) :=
  .budget_bind fun n => stops_termWithin n

/-! ## Commands -/

theorem stops_pair :
    Stops Starts pair (Complete fun w (st : Expr × Expr) => ∃ u v, w = u ++ keyword .against :: v ∧
      TermPhrase u st.1 ∧ TermPhrase v st.2) := by
  have hplain := termPhrase_name "x"
  refine stops_term.bind sound_term (fun u s hu => ?_) fun u s hu => ?_
  · exact ⟨[keyword .against, name "x"], (s, _), u, _, rfl, hu, hplain⟩
  · refine .expect_bind nofun rfl ⟨[name "x"], (s, _), u, _, rfl, hu, hplain⟩ ?_
    exact stops_term.map _ fun v ⟨t, hv⟩ => ⟨(s, t), u, v, rfl, hu, hv⟩

theorem stops_image : Stops Starts image (Complete ImagePhrase) := by
  have hplain := fun x => (⟨_, .mk (termPhrase_name "x")⟩ : Complete ImagePhrase
    [name x, mark .colonEq, name "x"])
  refine .ident_bind (fun x => ⟨_, hplain x⟩) fun x => .expect_bind nofun rfl ⟨_, hplain x⟩ ?_
  exact stops_term.map _ fun v ⟨t, hv⟩ => ⟨_, .mk hv⟩

/-- A declared name and the colon behind it. -/
theorem stops_declared {f : String → Parser β} {P : List Word → Prop}
    (hP : ∀ x, Viable P [name x, mark .colon])
    (hf : ∀ x, Stops EndName (f x) fun v => P (name x :: mark .colon :: v)) :
    Stops Starts (do let x ← ident; expect (.mark .colon) .colon; f x) P := by
  refine .ident_bind (fun x => ?_) fun x => .expect_bind nofun rfl (hP x) (hf x)
  obtain ⟨v, hv⟩ := hP x
  exact ⟨mark .colon :: v, hv⟩

theorem stops_commandBody (t : Token) :
    Stops (fun ws => ws.head?.map Word.underlying = some t) (commandBody t)
      (Complete CommandPhrase) := by
  have htype := typePhrase_name "o"
  have hterm := termPhrase_name "x"
  have hnone : Viable (Complete CommandPhrase) [] :=
    ⟨[name "c", mark .colon, name "o"], _, .const htype⟩
  cases t with
  | ident c =>
    refine stops_declared (fun c => ⟨[name "o"], _, .const htype⟩) fun c => ?_
    exact stops_type.map _ fun w ⟨ty, hw⟩ => ⟨_, .const hw⟩
  | keyword k =>
    cases k with
    | var =>
      refine .advance_bind nofun (stops_declared (fun x => ⟨[name "o"], _, .var htype⟩) fun x => ?_)
      exact stops_type.map _ fun w ⟨ty, hw⟩ => ⟨_, .var hw⟩
    | metaVar =>
      refine .advance_bind nofun (stops_declared
        (fun z => ⟨[name "o"], _, .plainMetaVar htype⟩) fun z => ?_)
      refine .eat_bind (fun _ _ h => h) rfl ?_ ?_
      · refine (stops_list stops_type sound_type ⟨_, _, htype⟩ rfl).bind
          (sound_list sound_type rfl) ?_ ?_
        · rintro _ inputs ⟨v, rfl, hin⟩
          exact ⟨[mark .arrow, name "o"], _, by simpa using .metaVar hin htype⟩
        · rintro _ inputs ⟨v, rfl, hin⟩
          refine .expect_bind nofun rfl ⟨[name "o"], _, by simpa using .metaVar hin htype⟩ ?_
          exact stops_type.map _ fun w ⟨ty, hw⟩ => ⟨_, by simpa using .metaVar hin hw⟩
      · exact stops_type.map _ fun w ⟨ty, hw⟩ => ⟨_, .plainMetaVar hw⟩
    | matching | unify | alpha =>
      refine .advance_bind nofun (stops_pair.map _ ?_)
      rintro _ ⟨⟨s, t⟩, u, v, rfl, hs, ht⟩
      exact ⟨_, by constructor <;> assumption⟩
    | subst =>
      refine .advance_bind nofun (stops_term.bind sound_term (fun w t hw => ?_) fun w t hw => ?_)
      · exact ⟨[mark .openBracket, mark .closeBracket], _, .subst hw .none⟩
      · refine .expect_bind (fun _ _ h => h.endName) rfl
          ⟨[mark .closeBracket], _, .subst hw .none⟩ ?_
        refine (stops_list stops_image sound_image ⟨_, ("X", _), .mk hterm⟩ rfl).map _ ?_
        rintro _ ⟨images, v, rfl, hv⟩
        exact ⟨_, .subst hw hv⟩
    | positions =>
      exact .advance_bind nofun (stops_term.map _ fun w ⟨t, hw⟩ => ⟨_, .positions hw⟩)
    | _ => exact .fail hnone
  | _ => exact .fail hnone

theorem stops_command : Stops Starts command (Complete Sentence) := by
  refine .next_bind (.pure none) fun l => ⟨fun {i ws e i'} hfail hi hws => ?_⟩
  rcases fails_bind.mp hfail with hbody | ⟨c, i₁, hbody, hperiod⟩
  · refine ((stops_commandBody l.token).mono ?_).stop hbody hi hws
    exact fun w ⟨c, hw⟩ => ⟨[mark .period], c, .mk hw⟩
  · have hfirst : l.token ≠ .mark .openBracket := by
      intro hb
      rw [hb] at hbody
      exact not_takes_fail hbody
    obtain ⟨us, rfl, -⟩ := hi.eq_cons (hi.head?.trans hws) fun hb => absurd hb hfirst
    obtain ⟨w, us, heq, hi₁, hw⟩ := sound_commandBody hbody hi
    have hstops : Stops (fun _ => True) (do expect (.mark .period) .period; return some c)
        fun v => Complete Sentence (w ++ v) :=
      .expect_bind nofun rfl ⟨[], c, .mk hw⟩ (.pure _)
    obtain ⟨hblames, v, vs, rfl, hvs, u, hu⟩ := hstops.stop hperiod hi₁ trivial
    exact ⟨hblames, w ++ v, vs, by rw [heq, List.append_assoc], hvs, u, by rwa [List.append_assoc]⟩

end Parser

end TermAlgebra.Language
