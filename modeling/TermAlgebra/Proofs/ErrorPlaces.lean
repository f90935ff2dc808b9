import TermAlgebra.Proofs.Acceptance
import TermAlgebra.Proofs.ParserFailures

/-!
# Places of errors

A parser that fails stands at the first token that does not fit: what it took is the beginning of a
phrase, and with the next token it is that of none. Were there a phrase that begins so, the parser
would fail on it as well, since it reads no farther; but it takes every phrase. Main statement:
`errors_at_first_offence`, for types, terms and commands in every state of the input.
-/

namespace TermAlgebra.Language

open Word

/-! ## Words in front of a token -/

theorem exists_words_append (behind : Option Nat) (us : List Lexeme) :
    ∃ b, ∀ ls, words behind (us ++ ls) = words behind us ++ words b ls := by
  induction us generalizing behind with
  | nil => exact ⟨behind, fun ls => rfl⟩
  | cons u us ih =>
    obtain ⟨b, hb⟩ := ih u.nameEnd
    exact ⟨b, fun ls => by rw [List.cons_append, words, hb, words, List.cons_append]⟩

/-- The end of words that a text may have is that of a text as well, or an attached bracket comes
first in it. -/
theorem Placed.of_append {ws vs : List Word} (h : Placed (ws ++ vs)) :
    Placed vs ∨ ∃ us z vs', ws = us ++ [name z] ∧ vs = Word.attached :: vs' ∧ Placed vs' := by
  generalize hws : ws ++ vs = all at h
  induction h generalizing ws with
  | nil =>
    obtain ⟨-, rfl⟩ := List.append_eq_nil_iff.mp hws
    exact .inl .nil
  | token t hall ih =>
    cases ws with
    | nil =>
      rw [List.nil_append] at hws
      exact .inl (hws ▸ .token t hall)
    | cons w ws =>
      rw [List.cons_append, List.cons.injEq] at hws
      rcases ih hws.2 with hvs | ⟨us, z, vs', rfl, hvs⟩
      · exact .inl hvs
      · exact .inr ⟨w :: us, z, vs', rfl, hvs⟩
  | attached z hall ih =>
    rcases ws with _ | ⟨w, _ | ⟨w', ws⟩⟩
    · rw [List.nil_append] at hws
      exact .inl (hws ▸ .attached z hall)
    · rw [List.singleton_append, List.cons.injEq] at hws
      exact .inr ⟨[], z, _, by rw [hws.1, List.nil_append], hws.2, hall⟩
    · simp only [List.cons_append, List.cons.injEq] at hws
      rcases ih hws.2.2 with hvs | ⟨us, z', vs', rfl, hvs⟩
      · exact .inl hvs
      · exact .inr ⟨w :: w' :: us, z', vs', rfl, hvs⟩

/-- Behind given tokens there may be others that show the words. -/
theorem Placed.exists_tokens {us : List Lexeme} {l : Lexeme} {vs : List Word}
    (h : Placed (words none (us ++ [l]) ++ vs)) :
    ∃ ls, words none (us ++ l :: ls) = words none (us ++ [l]) ++ vs := by
  obtain ⟨b, hb⟩ := exists_words_append none us
  suffices hls : ∃ ls, words l.nameEnd ls = vs by
    obtain ⟨ls, rfl⟩ := hls
    exact ⟨ls, by rw [hb, hb, List.append_assoc]; rfl⟩
  rcases h.of_append with hvs | ⟨ws, z, vs', hws, rfl, hvs⟩
  · obtain ⟨ls, hls⟩ := hvs.exists_words l.stop
    refine ⟨ls, hls _ fun stop hstop => ?_⟩
    unfold Lexeme.nameEnd at hstop
    split at hstop <;> cases hstop
    exact le_rfl
  · -- The bracket has to start where the name ends.
    obtain ⟨ls, hls⟩ := hvs.exists_words (l.stop + 1)
    rw [hb] at hws
    have hlast := congrArg Word.underlying (List.singleton_inj.mp (List.append_inj_right' hws rfl))
    rw [underlying_word] at hlast
    refine ⟨⟨.mark .openBracket, l.stop, l.stop + 1⟩ :: ls, ?_⟩
    rw [words, hls _ (by simp [Lexeme.nameEnd, Token.isIdent])]
    simp [Lexeme.word, Lexeme.nameEnd, hlast, underlying, Token.isIdent]

/-! ## The first offence -/

/-- On the input `i` a call has met the error `e` and left the input `i'`: the error is about the
next token, which is left together with all tokens behind it, and it is met as early as possible.
The tokens that were taken are the beginning of a phrase, but not with the next token, and no phrase
if there is none. -/
structure FirstOffence {α : Type} (Spells : List Word → α → Prop) (i : Input) (e : ParseError)
    (i' : Input) : Prop where
  stop : i'.stop = i.stop
  offset : i'.offset = e.offset
  unknown : e.fault = .unknownToken ↔ i'.tokens.head?.map Lexeme.token = some .unknown
  earliest : ∃ us, i.tokens = us ++ i'.tokens ∧ Viable (Complete Spells) (words none us) ∧
    (∀ l ∈ i'.tokens.head?, ¬ Viable (Complete Spells) (words none (us ++ [l]))) ∧
    (i'.tokens = [] → ¬ Complete Spells (words none us))

namespace Parser

/-- A parser that reads no farther than the next token and takes every phrase fails at the first
offence only. -/
theorem Stops.firstOffence {α β : Type} {p : Parser β} {Spells : List Word → α → Prop}
    (hstops : Stops (fun _ => True) p (Complete Spells)) (hlocal : ∀ d, Local d p p)
    (hplaced : ∀ w a, Spells w a → Placed w)
    (hyields : ∀ w a, Spells w a → ∃ b vs, Yields p w b vs) {i i' : Input} {e : ParseError}
    (hfail : p.Fails i e i') : FirstOffence Spells i e i' := by
  have hleft := (hlocal 0).left i
  rw [hfail] at hleft
  obtain ⟨us, hus⟩ := hleft.tokens
  obtain ⟨hblames, w, vs, hws, hvs, hw⟩ := hstops.stop hfail ⟨none, rfl⟩ trivial
  have hsucceeds : ∀ {j : Input} {j'}, Complete Spells (words none j.tokens) →
      ¬ p.Fails j e j' := by
    rintro j j' ⟨a, ha⟩ hj
    obtain ⟨b, vs, hb⟩ := hyields _ a ha
    obtain ⟨j₁, htakes, -⟩ := hb j ⟨none, rfl⟩
    cases hj.symm.trans htakes
  refine ⟨hleft.stop, hblames.offset, hblames.unknown, us, hus.symm, ?_, ?_, ?_⟩
  · obtain ⟨b, hb⟩ := exists_words_append none us
    rw [← hus, hb] at hws
    have hlength : (words b i'.tokens).length = vs.length := by rw [length_words, hvs.length]
    rw [List.append_inj_left' hws hlength]
    exact hw
  · intro l hl hviable
    obtain ⟨v, a, ha⟩ := hviable
    obtain ⟨ls, hls⟩ : ∃ ls, i'.tokens = l :: ls := ⟨_, List.eq_cons_of_mem_head? hl⟩
    obtain ⟨ls', hls'⟩ := (hplaced _ a ha).exists_tokens
    obtain ⟨j', hj, -⟩ := Local.exec (j := ⟨us ++ l :: ls', 0⟩) hlocal (by rw [← hus, hls]) rfl
      hfail hls
    exact hsucceeds ⟨a, by rw [hls']; exact ha⟩ hj
  · intro hnil hcomplete
    rw [hnil, List.append_nil] at hus
    exact hsucceeds (hus ▸ hcomplete) hfail

end Parser

/-- A failing call stands at the first token that does not fit, and its error is about that token,
whatever the state of the input was before. -/
theorem errors_at_first_offence (i i' : Input) (e : ParseError) :
    (Parser.command.exec i = (.error e, i') → FirstOffence Sentence i e i') ∧
    (Parser.term.exec i = (.error e, i') → FirstOffence TermPhrase i e i') ∧
    (Parser.type.exec i = (.error e, i') → FirstOffence TypePhrase i e i') := by
  refine ⟨Parser.stops_command.firstOffence (fun _ => Parser.local_command)
    (fun _ _ => Sentence.placed) fun w c h => ⟨some c, [], ?_⟩,
    Parser.stops_term.firstOffence (fun _ => Parser.local_term)
    (fun _ _ => TermPhrase.placed) fun w t h => ⟨t, [], ?_⟩,
    Parser.stops_type.firstOffence (fun _ => Parser.local_type)
    (fun _ _ => TypePhrase.placed) fun w τ h => ⟨τ, [], ?_⟩⟩
  · have hyields : Parser.Yields Parser.command (w ++ []) (some c) [] := Parser.yields_command h
    rwa [List.append_nil] at hyields
  · have hyields := Parser.yields_term h (show EndTerm [] by simp [EndTerm])
    rwa [List.append_nil] at hyields
  · have hyields := Parser.yields_type h (show EndType [] by simp [EndType])
    rwa [List.append_nil] at hyields

/-- A command behind a right one ends within its arguments, an unknown token stands in a term, and a
type is not finished at the end of the text. -/
theorem errors_at_commands_terms_types :
    let i := (Parser.command.exec (.ofString "var X : o. subst f(a,) [].")).2
    let j := Input.ofString "f(a, $)"
    let k := Input.ofString "(o -> o"
    FirstOffence Sentence i ⟨.expected .term, 21⟩ (Parser.command.exec i).2 ∧
      FirstOffence TermPhrase j ⟨.unknownToken, 5⟩ (Parser.term.exec j).2 ∧
      FirstOffence TypePhrase k ⟨.expected .closeParen, 7⟩ (Parser.type.exec k).2 := by
  intro i j k
  have hi : (Parser.command.exec
      (Parser.command.exec (.ofString "var X : o. subst f(a,) [].")).2).1 =
      .error ⟨.expected .term, 21⟩ := by cbv
  have hj : (Parser.term.exec (.ofString "f(a, $)")).1 = .error ⟨.unknownToken, 5⟩ := by cbv
  have hk : (Parser.type.exec (.ofString "(o -> o")).1 = .error ⟨.expected .closeParen, 7⟩ := by cbv
  exact ⟨(errors_at_first_offence i _ _).1 (Prod.ext hi rfl),
    (errors_at_first_offence j _ _).2.1 (Prod.ext hj rfl),
    (errors_at_first_offence k _ _).2.2 (Prod.ext hk rfl)⟩

end TermAlgebra.Language
