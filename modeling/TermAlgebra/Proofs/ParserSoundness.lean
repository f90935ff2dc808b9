import TermAlgebra.Proofs.ParserRuns

/-!
# Soundness of the parser

The words that a parser takes spell its result, and the words that it leaves do not prolong them:
a parser takes as much as it can. Main statement: a parser of commands takes a sentence.
-/

namespace TermAlgebra.Language

open Word

variable {i i' : Input} {w : Word} {ws : List Word} {t : Token}

/-- A bracket is attached to identifiers only. -/
theorem Input.Sees.endName (h : i.Sees (w :: ws)) (hw : w.underlying.isIdent = false) :
    EndName ws := by
  obtain ⟨behind, h⟩ := h
  cases hi : i.tokens with
  | nil => simp [hi, words] at h
  | cons l ls =>
    rw [hi, words, List.cons.injEq] at h
    rw [← h.1, underlying_word] at hw
    rw [← h.2, Lexeme.nameEnd, hw]
    intro v hv
    cases ls with
    | nil => cases hv
    | cons l' ls =>
      cases hv
      simp [Lexeme.word]

theorem Input.Sees.eq_cons (h : i.Sees ws) (ht : i.tokens.head?.map Lexeme.token = some t)
    (hb : t = .mark .openBracket → EndName ws) : ∃ vs, ws = token t :: vs ∧ i.rest.Sees vs := by
  rw [h.head?] at ht
  cases ws with
  | nil => cases ht
  | cons w vs =>
    cases ht
    cases w with
    | token t => exact ⟨vs, rfl, h.rest⟩
    | attached => exact absurd rfl (hb rfl _ rfl)

theorem Input.Sees.eq_cons_of_next (h : i.Sees ws) {start stop : Nat}
    (hnext : i.tokens.head? = some ⟨t, start, stop⟩) (hb : t ≠ .mark .openBracket) :
    ∃ vs, ws = token t :: vs ∧ i.rest.Sees vs :=
  h.eq_cons (by rw [hnext]; rfl) fun heq => absurd heq hb

namespace Parser

variable {α : Type} {a : α}

theorem Takes.eat {r : Bool} (h : (eat t).Takes i r i') (hi : i.Sees ws)
    (hb : t = .mark .openBracket → EndName ws) :
    (r = true ∧ ∃ vs, ws = token t :: vs ∧ i'.Sees vs) ∨
      (r = false ∧ i'.Sees ws ∧ ∀ w ∈ ws.head?, w.underlying ≠ t) := by
  rcases takes_eat.mp h with ⟨ht, rfl, rfl⟩ | ⟨ht, rfl, rfl⟩
  · exact .inl ⟨rfl, hi.eq_cons ht hb⟩
  · refine .inr ⟨rfl, hi, fun w hw heq => ht ?_⟩
    rw [hi.head?, hw, ← heq]
    rfl

theorem Takes.expect {e : Expected} {u : Unit} (h : (expect t e).Takes i u i') (hi : i.Sees ws)
    (hb : t = .mark .openBracket → EndName ws) : ∃ vs, ws = token t :: vs ∧ i'.Sees vs := by
  obtain ⟨ht, rfl⟩ := takes_expect.mp h
  exact hi.eq_cons ht hb

theorem Takes.ident {x : String} (h : ident.Takes i x i') (hi : i.Sees ws) :
    ∃ vs, ws = name x :: vs ∧ i'.Sees vs := by
  obtain ⟨ht, rfl⟩ := takes_ident.mp h
  exact hi.eq_cons ht nofun

/-- The words that the parser takes spell its result, and the words behind them end it. -/
def Sound (p : Parser α) (Spells : List Word → α → Prop) (Ends : List Word → Prop) : Prop :=
  ∀ {i ws a i'}, p.Takes i a i' → i.Sees ws →
    ∃ w vs, ws = w ++ vs ∧ i'.Sees vs ∧ Spells w a ∧ Ends vs

/-! ## Lists -/

section Lists

variable {item : Parser α} {close : Mark} {e : Expected} {Spells : List Word → α → Prop}
  {Ends : List Word → Prop}

theorem sound_items (hitem : Sound item Spells Ends) (hclose : close.closes) (rounds : Nat) :
    Sound (items item close e rounds)
      (fun w as => ∃ v, w = v ++ [mark close] ∧ Listed Spells v as) EndName := by
  induction rounds with
  | zero => exact fun h => absurd h not_takes_fail
  | succ rounds ih =>
    intro i ws as i' h hi
    obtain ⟨a, i₁, hitem₁, h⟩ := takes_bind.mp h
    obtain ⟨w, ws, rfl, hi₁, ha, -⟩ := hitem hitem₁ hi
    obtain ⟨r, i₂, heat, h⟩ := takes_bind.mp h
    rcases heat.eat hi₁ (by rintro ⟨⟩; cases hclose) with ⟨rfl, vs, rfl, hi₂⟩ | ⟨rfl, hi₂, -⟩
    · obtain ⟨rfl, rfl⟩ := takes_pure.mp h
      exact ⟨w ++ [mark close], vs, by simp, hi₂, ⟨w, rfl, .single ha⟩, hi₁.endName rfl⟩
    obtain ⟨r, i₃, heat, h⟩ := takes_bind.mp h
    rcases heat.eat hi₂ nofun with ⟨rfl, us, rfl, hi₃⟩ | ⟨rfl, -, -⟩
    · obtain ⟨as, i₄, htail, h⟩ := takes_bind.mp h
      obtain ⟨rfl, rfl⟩ := takes_pure.mp h
      obtain ⟨_, vs, rfl, hi₄, ⟨v, rfl, has⟩, hvs⟩ := ih htail hi₃
      exact ⟨w ++ mark .comma :: v ++ [mark close], vs, by simp, hi₄, ⟨_, rfl, .cons ha has⟩, hvs⟩
    · exact absurd h not_takes_fail

theorem sound_list (hitem : Sound item Spells Ends) (hclose : close.closes) :
    Sound (list item close e)
      (fun w as => ∃ v, w = v ++ [mark close] ∧ Items Spells v as) EndName := by
  intro i ws as i' h hi
  obtain ⟨r, i₁, heat, h⟩ := takes_bind.mp h
  rcases heat.eat hi (by rintro ⟨⟩; cases hclose) with ⟨rfl, vs, rfl, hi₁⟩ | ⟨rfl, hi₁, -⟩
  · obtain ⟨rfl, rfl⟩ := takes_pure.mp h
    exact ⟨[mark close], vs, rfl, hi₁, ⟨[], rfl, .none⟩, hi.endName rfl⟩
  · obtain ⟨w, vs, rfl, hi', ⟨v, rfl, has⟩, hvs⟩ :=
      sound_items hitem hclose _ (takes_budget_bind.mp h) hi₁
    exact ⟨_, vs, rfl, hi', ⟨v, rfl, .some has⟩, hvs⟩

end Lists

/-! ## Types -/

theorem sound_typeAtom {type : Parser SimpleType} (htype : Sound type TypePhrase EndType) :
    Sound (typeAtom type) TypeAtom (fun _ => True) := by
  intro i ws τ i' h hi
  unfold typeAtom at h
  rw [takes_next_bind] at h
  split at h
  · next s start stop hs =>
    rw [takes_advance_bind, takes_pure] at h
    obtain ⟨rfl, rfl⟩ := h
    obtain ⟨vs, rfl, hi'⟩ := hi.eq_cons_of_next hs nofun
    exact ⟨_, vs, rfl, hi', .base s, trivial⟩
  · next start stop hparen =>
    obtain ⟨us, rfl, hi₁⟩ := hi.eq_cons_of_next hparen nofun
    obtain ⟨τ, i₂, hτ, h⟩ := takes_bind.mp (takes_advance_bind.mp h)
    obtain ⟨w, us, rfl, hi₂, hw, -⟩ := htype hτ hi₁
    obtain ⟨_, i₃, hclose, h⟩ := takes_bind.mp h
    obtain ⟨rfl, rfl⟩ := takes_pure.mp h
    obtain ⟨vs, rfl, hi'⟩ := hclose.expect hi₂ nofun
    exact ⟨_, vs, by simp, hi', .paren hw, trivial⟩
  · exact absurd h not_takes_fail

theorem sound_typeWithin (depth : Nat) : Sound (typeWithin depth) TypePhrase EndType := by
  induction depth with
  | zero => exact fun h => absurd h not_takes_fail
  | succ depth ih =>
    intro i ws τ i' h hi
    rw [typeWithin_succ] at h
    obtain ⟨σ, i₁, hatom, h⟩ := takes_bind.mp h
    obtain ⟨w, us, rfl, hi₁, hw, -⟩ := sound_typeAtom ih hatom hi
    obtain ⟨r, i₂, heat, h⟩ := takes_bind.mp h
    rcases heat.eat hi₁ nofun with ⟨rfl, us, rfl, hi₂⟩ | ⟨rfl, hi₂, hend⟩
    · obtain ⟨τ, i₃, htail, h⟩ := takes_bind.mp h
      obtain ⟨rfl, rfl⟩ := takes_pure.mp h
      obtain ⟨v, vs, rfl, hi', hv, hvs⟩ := ih htail hi₂
      exact ⟨_, vs, by simp, hi', .arrow hw hv, hvs⟩
    · obtain ⟨rfl, rfl⟩ := takes_pure.mp h
      exact ⟨w, us, rfl, hi₂, .atom hw, hend⟩

theorem sound_type : Sound type TypePhrase EndType :=
  fun h => sound_typeWithin _ (takes_budget_bind.mp h)

/-! ## Terms -/

section Terms

variable {p : Parser Expr}

theorem sound_atom (hp : Sound p TermPhrase EndTerm) : Sound (atom p) TermAtom EndName := by
  intro i ws t i' h hi
  have htakes := h
  unfold atom at h
  rw [takes_next_bind] at h
  split at h
  · next x start stop hx =>
    obtain ⟨us, rfl, hi₁⟩ := hi.eq_cons_of_next hx nofun
    rw [takes_atom_name hi] at htakes
    split at htakes
    · next hattached =>
      obtain ⟨args, hlist, rfl⟩ := htakes
      cases us with
      | nil => cases hattached
      | cons w us =>
        cases hattached
        obtain ⟨_, vs, rfl, hi', ⟨v, rfl, hargs⟩, hvs⟩ := sound_list hp rfl hlist hi₁.rest
        exact ⟨_, vs, by simp, hi', .metaApp x hargs, hvs⟩
    · next hattached =>
      obtain ⟨rfl, rfl⟩ := htakes
      exact ⟨_, us, rfl, hi₁, .name x, fun w hw heq => hattached (heq ▸ hw)⟩
  iterate 4
    · next hnext =>
      rw [takes_advance_bind, takes_pure] at h
      obtain ⟨rfl, rfl⟩ := h
      obtain ⟨us, rfl, hi₁⟩ := hi.eq_cons_of_next hnext nofun
      exact ⟨_, us, rfl, hi₁, .literal _, hi.endName rfl⟩
  · next start stop hparen =>
    obtain ⟨us, rfl, hi₁⟩ := hi.eq_cons_of_next hparen nofun
    obtain ⟨t, i₂, ht, h⟩ := takes_bind.mp (takes_advance_bind.mp h)
    obtain ⟨w, us, rfl, hi₂, hw, -⟩ := hp ht hi₁
    obtain ⟨_, i₃, hclose, h⟩ := takes_bind.mp h
    obtain ⟨rfl, rfl⟩ := takes_pure.mp h
    obtain ⟨vs, rfl, hi'⟩ := hclose.expect hi₂ nofun
    exact ⟨_, vs, by simp, hi', .paren hw, hi₂.endName rfl⟩
  · exact absurd h not_takes_fail

theorem sound_arguments (hp : Sound p TermPhrase EndTerm) {rounds : Nat} {t u : Expr}
    (h : (arguments p rounds t).Takes i u i') (hi : i.Sees ws) (hrounds : ws.length < rounds)
    (hws : EndName ws) :
    ∃ w vs, ws = w ++ vs ∧ i'.Sees vs ∧ Calls w t u ∧ EndTerm vs := by
  induction rounds generalizing i ws t with
  | zero => cases hrounds
  | succ rounds ih =>
    obtain ⟨r, i₁, heat, h⟩ := takes_bind.mp h
    rcases heat.eat hi nofun with ⟨rfl, us, rfl, hi₁⟩ | ⟨rfl, hi₁, hend⟩
    · obtain ⟨args, i₂, hlist, h⟩ := takes_bind.mp h
      obtain ⟨_, us, rfl, hi₂, ⟨w, rfl, hargs⟩, hus⟩ := sound_list hp rfl hlist hi₁
      simp only [List.length_cons, List.length_append] at hrounds
      obtain ⟨v, vs, rfl, hi', hv, hvs⟩ := ih h hi₂ (by omega) hus
      exact ⟨_, vs, by simp, hi', .cons hargs hv, hvs⟩
    · -- Rounds are never used up, so the last one ended because no argument list follows.
      obtain ⟨rfl, rfl⟩ := takes_pure.mp h
      exact ⟨[], ws, rfl, hi₁, .nil _, fun w hw => ⟨hws w hw, hend w hw⟩⟩

end Terms

theorem sound_termWithin (depth : Nat) : Sound (termWithin depth) TermPhrase EndTerm := by
  induction depth with
  | zero => exact fun h => absurd h not_takes_fail
  | succ depth ih =>
    intro i ws t i' h hi
    obtain ⟨r, i₁, heat, h⟩ := takes_bind.mp h
    rcases heat.eat hi nofun with ⟨rfl, us, rfl, hi₁⟩ | ⟨rfl, hi₁, -⟩
    · obtain ⟨x, i₂, hx, h⟩ := takes_bind.mp h
      obtain ⟨us, rfl, hi₂⟩ := hx.ident hi₁
      obtain ⟨_, i₃, hcolon, h⟩ := takes_bind.mp h
      obtain ⟨us, rfl, hi₃⟩ := hcolon.expect hi₂ nofun
      obtain ⟨ty, i₄, hty, h⟩ := takes_bind.mp h
      obtain ⟨w, us, rfl, hi₄, hw, -⟩ := sound_type hty hi₃
      obtain ⟨_, i₅, harrow, h⟩ := takes_bind.mp h
      obtain ⟨us, rfl, hi₅⟩ := harrow.expect hi₄ nofun
      obtain ⟨body, i₆, hbody, h⟩ := takes_bind.mp h
      obtain ⟨v, vs, rfl, hi', hv, hvs⟩ := ih hbody hi₅
      obtain ⟨rfl, rfl⟩ := takes_pure.mp h
      exact ⟨_, vs, by simp, hi', .lambda hw hv, hvs⟩
    · obtain ⟨t, i₂, hatom, h⟩ := takes_bind.mp h
      obtain ⟨w, us, rfl, hi₂, hw, hus⟩ := sound_atom ih hatom hi₁
      have h := takes_budget_bind.mp h
      obtain ⟨v, vs, rfl, hi', hv, hvs⟩ := sound_arguments ih h hi₂ (by rw [hi₂.length]; simp) hus
      exact ⟨_, vs, by simp, hi', .calls hw hv, hvs⟩

theorem sound_term : Sound term TermPhrase EndTerm :=
  fun h => sound_termWithin _ (takes_budget_bind.mp h)

/-! ## Commands -/

theorem sound_pair : Sound pair
    (fun w st => ∃ u v, w = u ++ keyword .against :: v ∧ TermPhrase u st.1 ∧ TermPhrase v st.2)
    EndTerm := by
  intro i ws st i' h hi
  obtain ⟨s, i₁, hs, h⟩ := takes_bind.mp h
  obtain ⟨u, us, rfl, hi₁, hu, -⟩ := sound_term hs hi
  obtain ⟨_, i₂, hwith, h⟩ := takes_bind.mp h
  obtain ⟨us, rfl, hi₂⟩ := hwith.expect hi₁ nofun
  obtain ⟨t, i₃, ht, h⟩ := takes_bind.mp h
  obtain ⟨v, vs, rfl, hi₃, hv, hvs⟩ := sound_term ht hi₂
  obtain ⟨rfl, rfl⟩ := takes_pure.mp h
  exact ⟨_, vs, by simp, hi₃, ⟨u, v, rfl, hu, hv⟩, hvs⟩

theorem sound_image : Sound image ImagePhrase EndTerm := by
  intro i ws image i' h hi
  obtain ⟨x, i₁, hx, h⟩ := takes_bind.mp h
  obtain ⟨us, rfl, hi₁⟩ := hx.ident hi
  obtain ⟨_, i₂, hcolon, h⟩ := takes_bind.mp h
  obtain ⟨us, rfl, hi₂⟩ := hcolon.expect hi₁ nofun
  obtain ⟨t, i₃, ht, h⟩ := takes_bind.mp h
  obtain ⟨w, vs, rfl, hi₃, hw, hvs⟩ := sound_term ht hi₂
  obtain ⟨rfl, rfl⟩ := takes_pure.mp h
  exact ⟨_, vs, rfl, hi₃, .mk hw, hvs⟩

/-- A declared name and the colon behind it. -/
theorem sound_declared {β : Type} {f : String → Parser β} {b : β}
    (h : (do let x ← ident; expect (.mark .colon) .colon; f x).Takes i b i') (hi : i.Sees ws) :
    ∃ x i₁ vs, ws = name x :: mark .colon :: vs ∧ i₁.Sees vs ∧ EndName vs ∧
      (f x).Takes i₁ b i' := by
  obtain ⟨x, i₁, hx, h⟩ := takes_bind.mp h
  obtain ⟨us, rfl, hi₁⟩ := hx.ident hi
  obtain ⟨_, i₂, hcolon, h⟩ := takes_bind.mp h
  obtain ⟨vs, rfl, hi₂⟩ := hcolon.expect hi₁ nofun
  exact ⟨x, i₂, vs, rfl, hi₂, hi₁.endName rfl, h⟩

theorem sound_commandBody {c : Command} (h : (commandBody t).Takes i c i')
    (hi : i.Sees (token t :: ws)) :
    ∃ w vs, token t :: ws = w ++ vs ∧ i'.Sees vs ∧ CommandPhrase w c := by
  unfold commandBody at h
  split at h
  · obtain ⟨x, i₁, us, rfl, hi₁, -, h⟩ := sound_declared (takes_advance_bind.mp h) hi.rest
    obtain ⟨ty, i₂, hty, h⟩ := takes_bind.mp h
    obtain ⟨w, vs, rfl, hi₂, hw, -⟩ := sound_type hty hi₁
    obtain ⟨rfl, rfl⟩ := takes_pure.mp h
    exact ⟨_, vs, rfl, hi₂, .var hw⟩
  · obtain ⟨z, i₁, us, rfl, hi₁, hname, h⟩ := sound_declared (takes_advance_bind.mp h) hi.rest
    obtain ⟨r, i₂, heat, h⟩ := takes_bind.mp h
    rcases heat.eat hi₁ fun _ => hname with ⟨rfl, us, rfl, hi₂⟩ | ⟨rfl, hi₂, -⟩
    · obtain ⟨inputs, i₃, hin, h⟩ := takes_bind.mp h
      obtain ⟨_, us, rfl, hi₃, ⟨w, rfl, hw⟩, -⟩ := sound_list sound_type rfl hin hi₂
      obtain ⟨_, i₄, harrow, h⟩ := takes_bind.mp h
      obtain ⟨us, rfl, hi₄⟩ := harrow.expect hi₃ nofun
      obtain ⟨output, i₅, hout, h⟩ := takes_bind.mp h
      obtain ⟨v, vs, rfl, hi₅, hv, -⟩ := sound_type hout hi₄
      obtain ⟨rfl, rfl⟩ := takes_pure.mp h
      exact ⟨_, vs, by simp, hi₅, .metaVar hw hv⟩
    · obtain ⟨output, i₃, hout, h⟩ := takes_bind.mp h
      obtain ⟨v, vs, rfl, hi₃, hv, -⟩ := sound_type hout hi₂
      obtain ⟨rfl, rfl⟩ := takes_pure.mp h
      exact ⟨_, vs, rfl, hi₃, .plainMetaVar hv⟩
  · obtain ⟨c, i₁, us, heq, hi₁, -, h⟩ := sound_declared h hi
    obtain ⟨ty, i₂, hty, h⟩ := takes_bind.mp h
    obtain ⟨w, vs, rfl, hi₂, hw, -⟩ := sound_type hty hi₁
    obtain ⟨rfl, rfl⟩ := takes_pure.mp h
    exact ⟨_, vs, heq, hi₂, .const hw⟩
  iterate 3
    · obtain ⟨⟨s, t⟩, i₁, hpair, h⟩ := takes_bind.mp (takes_advance_bind.mp h)
      obtain ⟨_, vs, rfl, hi₁, ⟨u, v, rfl, hu, hv⟩, -⟩ := sound_pair hpair hi.rest
      obtain ⟨rfl, rfl⟩ := takes_pure.mp h
      exact ⟨_, vs, rfl, hi₁, by constructor <;> assumption⟩
  · obtain ⟨t, i₁, ht, h⟩ := takes_bind.mp (takes_advance_bind.mp h)
    obtain ⟨w, us, rfl, hi₁, hw, hus⟩ := sound_term ht hi.rest
    obtain ⟨_, i₂, hbracket, h⟩ := takes_bind.mp h
    obtain ⟨us, rfl, hi₂⟩ := hbracket.expect hi₁ fun _ => hus.endName
    obtain ⟨images, i₃, himages, h⟩ := takes_bind.mp h
    obtain ⟨_, vs, rfl, hi₃, ⟨v, rfl, hv⟩, -⟩ := sound_list sound_image rfl himages hi₂
    obtain ⟨rfl, rfl⟩ := takes_pure.mp h
    exact ⟨_, vs, by simp, hi₃, .subst hw hv⟩
  · obtain ⟨t, i₁, ht, h⟩ := takes_bind.mp (takes_advance_bind.mp h)
    obtain ⟨w, vs, rfl, hi₁, hw, -⟩ := sound_term ht hi.rest
    obtain ⟨rfl, rfl⟩ := takes_pure.mp h
    exact ⟨_, vs, rfl, hi₁, .positions hw⟩
  · exact absurd h not_takes_fail

/-- A parser of commands takes a sentence, or finds no words left. -/
theorem sound_command {o : Option Command} (h : command.Takes i o i') (hi : i.Sees ws) :
    (o = none ∧ ws = []) ∨
      ∃ c w vs, o = some c ∧ ws = w ++ vs ∧ i'.Sees vs ∧ Sentence w c := by
  unfold command at h
  rw [takes_next_bind] at h
  split at h
  · next hnone =>
    refine .inl ⟨(takes_pure.mp h).1, ?_⟩
    have hhead := hi.head?
    rw [hnone] at hhead
    cases ws with
    | nil => rfl
    | cons w ws => cases hhead
  · next l hl =>
    obtain ⟨c, i₁, hbody, h⟩ := takes_bind.mp h
    obtain ⟨_, i₂, hperiod, h⟩ := takes_bind.mp h
    obtain ⟨rfl, rfl⟩ := takes_pure.mp h
    -- The first token has no identifier before it, but the words alone do not say so.
    have hfirst : l.token ≠ .mark .openBracket := by
      intro hb
      rw [hb] at hbody
      exact not_takes_fail hbody
    obtain ⟨us, rfl, -⟩ := hi.eq_cons_of_next hl hfirst
    obtain ⟨w, us, heq, hi₁, hw⟩ := sound_commandBody hbody hi
    obtain ⟨vs, rfl, hi₂⟩ := hperiod.expect hi₁ nofun
    exact .inr ⟨c, _, vs, rfl, by simp [heq], hi₂, .mk hw⟩

end Parser

end TermAlgebra.Language
