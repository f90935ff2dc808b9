import TermAlgebra.Proofs.ParserRuns

/-!
# Completeness of the parser

In front of words that do not prolong it, a phrase is taken as a whole and gives the tree that it
spells. The number of nested calls that the input allows is enough, since every call takes a
word. Main statement: a parser of commands takes every sentence.
-/

namespace TermAlgebra.Language

open Word

namespace Parser

variable {α β : Type} {i i' : Input} {a : α} {b : β}

/-- On all inputs that read as `ws` the parser succeeds with `a` and leaves the words `vs`. -/
def Yields (p : Parser α) (ws : List Word) (a : α) (vs : List Word) : Prop :=
  ∀ i : Input, i.Sees ws → ∃ i', p.Takes i a i' ∧ i'.Sees vs

namespace Yields

variable {w : Word} {ws us vs : List Word} {p : Parser α} {t : Token}

theorem pure : Yields (pure a) ws a ws :=
  fun i hi => ⟨i, takes_pure.mpr ⟨rfl, rfl⟩, hi⟩

theorem bind {f : α → Parser β} (hp : Yields p ws a us) (hf : Yields (f a) us b vs) :
    Yields (p >>= f) ws b vs := by
  intro i hi
  obtain ⟨i₁, h₁, hi₁⟩ := hp i hi
  obtain ⟨i₂, h₂, hi₂⟩ := hf i₁ hi₁
  exact ⟨i₂, takes_bind.mpr ⟨a, i₁, h₁, h₂⟩, hi₂⟩

theorem next_bind {f : Option Lexeme → Parser β}
    (hf : ∀ start stop, Yields (f (some ⟨t, start, stop⟩)) (token t :: ws) b vs) :
    Yields (next? >>= f) (token t :: ws) b vs := by
  intro i hi
  obtain ⟨⟨_, start, stop⟩, hl, rfl⟩ := Option.map_eq_some_iff.mp hi.head?
  obtain ⟨i', h, hi'⟩ := hf start stop i hi
  exact ⟨i', takes_next_bind.mpr (hl ▸ h), hi'⟩

theorem advance_bind {f : Unit → Parser β} (hf : Yields (f ()) ws b vs) :
    Yields (advance >>= f) (w :: ws) b vs := by
  intro i hi
  obtain ⟨i', h, hi'⟩ := hf i.rest hi.rest
  exact ⟨i', takes_advance_bind.mpr h, hi'⟩

theorem budget_bind {f : Nat → Parser β} (hf : Yields (f (ws.length + 1)) ws b vs) :
    Yields (budget >>= f) ws b vs := by
  intro i hi
  obtain ⟨i', h, hi'⟩ := hf i hi
  exact ⟨i', takes_budget_bind.mpr (hi.length ▸ h), hi'⟩

theorem eat : Yields (eat t) (token t :: ws) true ws :=
  fun i hi => ⟨i.rest, takes_eat.mpr (.inl ⟨hi.head?, rfl, rfl⟩), hi.rest⟩

theorem not_eat (h : ∀ w ∈ ws.head?, w.underlying ≠ t) : Yields (Parser.eat t) ws false ws := by
  refine fun i hi => ⟨i, takes_eat.mpr (.inr ⟨?_, rfl, rfl⟩), hi⟩
  rw [hi.head?]
  intro heq
  obtain ⟨w, hw, ht⟩ := Option.map_eq_some_iff.mp heq
  exact h w hw ht

theorem expect {e : Expected} : Yields (expect t e) (token t :: ws) () ws :=
  fun i hi => ⟨i.rest, takes_expect.mpr ⟨hi.head?, rfl⟩, hi.rest⟩

theorem ident {x : String} : Yields ident (name x :: ws) x ws :=
  fun i hi => ⟨i.rest, takes_ident.mpr ⟨hi.head?, rfl⟩, hi.rest⟩

section Lists

variable {item : Parser α} {close : Mark} {e : Expected} {Spells : List Word → α → Prop}
  {Ends : List Word → Prop} {as : List α}

theorem items (hends : ∀ m us, m.endsItem → Ends (mark m :: us))
    (hitem : ∀ v a us, Spells v a → v.length ≤ ws.length → Ends us → Yields item (v ++ us) a us)
    (hclose : close.closes) (h : Listed Spells ws as) {rounds : Nat}
    (hrounds : ws.length < rounds) :
    Yields (items item close e rounds) (ws ++ mark close :: vs) as vs := by
  induction h generalizing rounds with
  | single ha =>
    cases rounds with
    | zero => cases hrounds
    | succ rounds =>
      have hend := hends close vs (Mark.endsItem_of_closes hclose)
      exact (hitem _ _ _ ha le_rfl hend).bind (.bind .eat .pure)
  | @cons w v a as ha _ ih =>
    cases rounds with
    | zero => cases hrounds
    | succ rounds =>
      simp only [List.length_append, List.length_cons] at hitem hrounds
      have htail := @ih (fun v a us hv hlen => hitem v a us hv (by omega)) rounds (by omega)
      rw [List.append_assoc, List.cons_append]
      refine (hitem w a _ ha (by omega) (hends .comma _ rfl)).bind ?_
      refine (not_eat ?_).bind (.bind .eat (htail.bind .pure))
      rintro _ ⟨⟩ ⟨⟩
      cases hclose

theorem list (hopens : ∀ v a, Spells v a → Opens v)
    (hends : ∀ m us, m.endsItem → Ends (mark m :: us))
    (hitem : ∀ v a us, Spells v a → v.length ≤ ws.length → Ends us → Yields item (v ++ us) a us)
    (hclose : close.closes) (h : Items Spells ws as) :
    Yields (list item close e) (ws ++ mark close :: vs) as vs := by
  cases h with
  | none => exact .bind .eat .pure
  | some h =>
    have hclosed : (mark close).opens = false := by cases close <;> first | rfl | cases hclose
    refine (not_eat ((h.opens hopens).underlying_ne hclosed _)).bind ?_
    exact .budget_bind (items hends hitem hclose h (by simp))

end Lists

end Yields

/-! ## Types -/

theorem yields_typeAtom {type : Parser SimpleType} {w vs : List Word} {τ : SimpleType}
    (htype : ∀ v σ us, TypePhrase v σ → v.length < w.length → EndType us →
      Yields type (v ++ us) σ us)
    (h : TypeAtom w τ) : Yields (typeAtom type) (w ++ vs) τ vs := by
  cases h with
  | base s => exact .next_bind fun start stop => .advance_bind .pure
  | paren h =>
    rw [List.cons_append, List.append_assoc]
    refine .next_bind fun start stop => .advance_bind ?_
    refine (htype _ _ _ h (by simp) (endType_cons (by decide) _)).bind ?_
    exact .bind .expect .pure

/-- Every nested type comes behind a word of its own, so a depth above the number of words is
enough. -/
theorem yields_typeWithin {depth : Nat} {w vs : List Word} {τ : SimpleType}
    (h : TypePhrase w τ) (hdepth : w.length < depth) (hvs : EndType vs) :
    Yields (typeWithin depth) (w ++ vs) τ vs := by
  induction depth generalizing w vs τ with
  | zero => cases hdepth
  | succ depth ih =>
    rw [typeWithin_succ]
    cases h with
    | atom h =>
      refine (yields_typeAtom (fun v σ us hv hlen => ih hv (by omega)) h).bind ?_
      exact .bind (.not_eat hvs) .pure
    | arrow hatom htail =>
      simp only [List.length_append, List.length_cons] at hdepth
      rw [List.append_assoc]
      refine (yields_typeAtom (fun v σ us hv hlen => ih hv (by omega)) hatom).bind ?_
      refine .bind .eat ?_
      exact .bind (ih htail (by omega) hvs) .pure

theorem yields_type {w vs : List Word} {τ : SimpleType} (h : TypePhrase w τ) (hvs : EndType vs) :
    Yields type (w ++ vs) τ vs :=
  .budget_bind (yields_typeWithin h (by simp) hvs)

/-! ## Terms -/

/-- The parser takes all terms of fewer words than the bound. -/
def YieldsTerms (p : Parser Expr) (bound : Nat) : Prop :=
  ∀ w t us, TermPhrase w t → w.length < bound → EndTerm us → Yields p (w ++ us) t us

section Terms

variable {p : Parser Expr} {bound : Nat} {ws vs : List Word} {t u : Expr}

theorem YieldsTerms.list (hp : YieldsTerms p bound) {close : Mark} {e : Expected}
    (hclose : close.closes) {args : List Expr} (h : Items TermPhrase ws args)
    (hlength : ws.length < bound) :
    Yields (list p close e) (ws ++ mark close :: vs) args vs :=
  .list (fun _ _ => TermPhrase.opens) endTerm_of_endsItem
    (fun v t us hv hlen hus => hp v t us hv (by omega) hus) hclose h

theorem YieldsTerms.atom (hp : YieldsTerms p bound) (h : TermAtom ws t)
    (hlength : ws.length ≤ bound) (hvs : EndName vs) : Yields (atom p) (ws ++ vs) t vs := by
  cases h with
  | name x =>
    intro i hi
    change i.Sees (Word.name x :: vs) at hi
    refine ⟨i.rest, (takes_atom_name hi).mpr ?_, hi.rest⟩
    have hne : vs.head? ≠ some attached := fun hhead => hvs _ hhead rfl
    rw [if_neg hne]
    exact ⟨rfl, rfl⟩
  | literal v =>
    cases v with
    | bool b => cases b <;> exact .next_bind fun start stop => .advance_bind .pure
    | _ => exact .next_bind fun start stop => .advance_bind .pure
  | paren h =>
    rw [List.cons_append, List.append_assoc]
    simp only [List.length_cons, List.length_append] at hlength
    refine .next_bind fun start stop => .advance_bind ?_
    refine (hp _ _ _ h (by omega) (endTerm_cons (by decide) _)).bind ?_
    exact .bind .expect .pure
  | metaApp z hargs =>
    intro i hi
    rw [List.cons_append, List.cons_append, List.append_assoc] at hi
    simp only [List.length_cons, List.length_append] at hlength
    obtain ⟨i', h, hi'⟩ := hp.list rfl hargs (by omega) i.rest.rest hi.rest.rest
    exact ⟨i', (takes_atom_name hi).mpr ⟨_, h, rfl⟩, hi'⟩

theorem YieldsTerms.arguments (hp : YieldsTerms p bound) (h : Calls ws t u)
    (hlength : ws.length ≤ bound) {rounds : Nat} (hrounds : ws.length < rounds)
    (hvs : EndTerm vs) : Yields (arguments p rounds t) (ws ++ vs) u vs := by
  induction rounds generalizing ws t with
  | zero => cases hrounds
  | succ rounds ih =>
    cases h with
    | nil => exact .bind (.not_eat fun w hw => (hvs w hw).2) .pure
    | cons hargs hcalls =>
      rw [List.cons_append, List.append_assoc, List.cons_append]
      simp only [List.length_cons, List.length_append] at hlength hrounds
      refine .bind .eat ?_
      exact (hp.list rfl hargs (by omega)).bind (ih hcalls (by omega) (by omega))

end Terms

theorem yields_termWithin (depth : Nat) : YieldsTerms (termWithin depth) depth := by
  induction depth with
  | zero => exact fun w t us _ hlength => absurd hlength (Nat.not_lt_zero _)
  | succ depth ih =>
    intro w t us h hlength hus
    cases h with
    | lambda hty hbody =>
      simp only [List.cons_append, List.append_assoc]
      simp only [List.length_cons, List.length_append] at hlength
      refine .bind .eat (.bind .ident (.bind .expect ?_))
      refine (yields_type hty (endType_cons (by decide) _)).bind (.bind .expect ?_)
      exact .bind (ih _ _ _ hbody (by omega) hus) .pure
    | calls hatom hcalls =>
      -- What follows the atom is either an argument list or the words behind the whole term.
      rw [List.append_assoc]
      rw [List.length_append] at hlength
      refine .bind (.not_eat (head_ne_backslash_of_termAtom hatom)) ?_
      refine (ih.atom hatom (by omega) (hus.endName_calls hcalls)).bind (.budget_bind ?_)
      exact ih.arguments hcalls (by omega) (by simp) hus

theorem yields_term {w vs : List Word} {t : Expr} (h : TermPhrase w t) (hvs : EndTerm vs) :
    Yields term (w ++ vs) t vs :=
  .budget_bind (yields_termWithin _ _ _ _ h (by simp) hvs)

/-! ## Commands -/

theorem yields_pair {w v vs : List Word} {s t : Expr} (hs : TermPhrase w s) (ht : TermPhrase v t)
    (hvs : EndTerm vs) : Yields pair (w ++ keyword .against :: (v ++ vs)) (s, t) vs :=
  (yields_term hs (endTerm_cons (by decide) _)).bind
    (.bind .expect ((yields_term ht hvs).bind .pure))

theorem yields_image {w vs : List Word} {i : String × Expr} (h : ImagePhrase w i)
    (hvs : EndTerm vs) : Yields image (w ++ vs) i vs := by
  cases h with
  | mk ht => exact .bind .ident (.bind .expect ((yields_term ht hvs).bind .pure))

/-- The parser takes a phrase up to the period behind it. -/
theorem yields_commandBody {w : List Word} {c : Command} (h : CommandPhrase w c)
    (vs : List Word) :
    ∃ t v, w = token t :: v ∧
      Yields (commandBody t) (w ++ mark .period :: vs) c (mark .period :: vs) := by
  have hterm := @endTerm_cons (.mark .period) nofun vs
  have htype := @endType_cons (.mark .period) nofun vs
  cases h with
  | const hty =>
    refine ⟨_, _, rfl, .bind .ident (.bind .expect ?_)⟩
    exact (yields_type hty htype).bind .pure
  | var hty =>
    refine ⟨_, _, rfl, .advance_bind (.bind .ident (.bind .expect ?_))⟩
    exact (yields_type hty htype).bind .pure
  | @metaVar w v z inputs output hin hout =>
    refine ⟨_, _, rfl, ?_⟩
    simp only [List.cons_append, List.append_assoc]
    refine .advance_bind (.bind .ident (.bind .expect (.bind .eat ?_)))
    refine .bind (.list (fun _ _ => TypePhrase.opens) endType_of_endsItem ?_ rfl hin) ?_
    · exact fun v a us hv _ hus => yields_type hv hus
    · exact .bind .expect ((yields_type hout htype).bind .pure)
  | plainMetaVar hout =>
    refine ⟨_, _, rfl, .advance_bind (.bind .ident (.bind .expect ?_))⟩
    exact .bind (.not_eat (hout.opens.underlying_ne rfl _)) ((yields_type hout htype).bind .pure)
  | matching hs ht | unify hs ht | alpha hs ht =>
    refine ⟨_, _, rfl, ?_⟩
    simp only [List.cons_append, List.append_assoc]
    exact .advance_bind ((yields_pair hs ht hterm).bind .pure)
  | subst ht himages =>
    refine ⟨_, _, rfl, ?_⟩
    simp only [List.cons_append, List.append_assoc]
    refine .advance_bind ((yields_term ht (endTerm_cons (by decide) _)).bind (.bind .expect ?_))
    refine .bind (.list (fun _ _ => ImagePhrase.opens) endTerm_of_endsItem ?_ rfl himages) .pure
    exact fun v a us hv _ hus => yields_image hv hus
  | positions ht =>
    refine ⟨_, _, rfl, .advance_bind ?_⟩
    exact (yields_term ht hterm).bind .pure

theorem yields_command {w vs : List Word} {c : Command} (h : Sentence w c) :
    Yields command (w ++ vs) (some c) vs := by
  obtain ⟨h⟩ := h
  rw [List.append_assoc, List.singleton_append]
  obtain ⟨t, v, rfl, hbody⟩ := yields_commandBody h vs
  exact .next_bind fun start stop => hbody.bind (.bind .expect .pure)

theorem yields_command_nil : Yields command [] none [] := by
  intro i hi
  have hnil : i.tokens = [] := List.length_eq_zero_iff.mp hi.length
  refine ⟨i, ?_, hi⟩
  unfold command
  rw [takes_next_bind, hnil]
  exact takes_pure.mpr ⟨rfl, rfl⟩

end Parser

end TermAlgebra.Language
