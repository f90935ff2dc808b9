import TermAlgebra.Proofs.RoundTrip

/-!
# Acceptance

The parser accepts a text exactly when its words are spelled by the grammar, and words spell one
tree at most. Main statement: `accepts_iff_spelled`, for types, terms and commands.
-/

namespace TermAlgebra.Language

open Word

/-! ## Words that a text may have -/

/-- Attached brackets stand directly behind identifiers only. -/
inductive Placed : List Word → Prop where
  | nil : Placed []
  | token (t) {ws} : Placed ws → Placed (token t :: ws)
  | attached (z) {ws} : Placed ws → Placed (name z :: attached :: ws)

theorem Placed.append {ws vs : List Word} (hw : Placed ws) (hv : Placed vs) :
    Placed (ws ++ vs) := by
  induction hw with
  | nil => exact hv
  | token t _ ih => exact .token t ih
  | attached z _ ih => exact .attached z ih

/-- Tokens with gaps between them, but none before an attached bracket, show the words. -/
theorem Placed.exists_words {ws : List Word} (h : Placed ws) (start : Nat) :
    ∃ ls, ∀ behind, (∀ stop, behind = some stop → stop ≤ start) → words behind ls = ws := by
  induction h generalizing start with
  | nil => exact ⟨[], fun _ _ => rfl⟩
  | token t _ ih =>
    obtain ⟨ls, hls⟩ := ih (start + 2)
    refine ⟨⟨t, start + 1, start + 2⟩ :: ls, fun behind hbehind => ?_⟩
    have hne : behind ≠ some (start + 1) := fun hs => by have := hbehind _ hs; omega
    have hname : ∀ stop, Lexeme.nameEnd ⟨t, start + 1, start + 2⟩ = some stop →
        stop ≤ start + 2 := by
      simp only [Lexeme.nameEnd]
      grind
    rw [words, hls _ hname]
    simp [Lexeme.word, hne]
  | attached z _ ih =>
    obtain ⟨ls, hls⟩ := ih (start + 3)
    refine ⟨⟨.ident z, start + 1, start + 2⟩ :: ⟨.mark .openBracket, start + 2, start + 3⟩ :: ls,
      fun behind _ => ?_⟩
    rw [words, words, hls _ (by simp [Lexeme.nameEnd, Token.isIdent])]
    simp [Lexeme.word, Lexeme.nameEnd, Token.isIdent]

theorem Placed.exists_sees {ws : List Word} (h : Placed ws) : ∃ i : Input, i.Sees ws := by
  obtain ⟨ls, hls⟩ := h.exists_words 0
  exact ⟨⟨ls, 0⟩, none, hls none nofun⟩

theorem Listed.placed {α : Type} {Spells : List Word → α → Prop}
    (h : ∀ v a, Spells v a → Placed v) {w : List Word} {as : List α}
    (hlist : Listed Spells w as) : Placed w := by
  induction hlist with
  | single ha => exact h _ _ ha
  | cons ha _ ih => exact (h _ _ ha).append (.token _ ih)

theorem Items.placed {α : Type} {Spells : List Word → α → Prop}
    (h : ∀ v a, Spells v a → Placed v) {w : List Word} {as : List α}
    (hitems : Items Spells w as) : Placed w := by
  cases hitems with
  | none => exact .nil
  | some hlist => exact hlist.placed h

mutual

theorem TypePhrase.placed {w : List Word} {τ : SimpleType} : TypePhrase w τ → Placed w
  | .atom h => h.placed
  | .arrow h h' => h.placed.append (.token _ h'.placed)

theorem TypeAtom.placed {w : List Word} {τ : SimpleType} : TypeAtom w τ → Placed w
  | .base s => .token _ .nil
  | .paren h => .token _ (h.placed.append (.token _ .nil))

end

mutual

theorem TermPhrase.placed {w : List Word} {t : Expr} : TermPhrase w t → Placed w
  | .lambda hty hbody =>
    .token _ (.token _ (.token _ (hty.placed.append (.token _ hbody.placed))))
  | .calls hatom hcalls => hatom.placed.append hcalls.placed

theorem TermAtom.placed {w : List Word} {t : Expr} : TermAtom w t → Placed w
  | .name x => .token _ .nil
  | .literal v => .token _ .nil
  | .paren h => .token _ (h.placed.append (.token _ .nil))
  | .metaApp z h => .attached z ((TermPhrase.placed_items h).append (.token _ .nil))

theorem Calls.placed {w : List Word} {t u : Expr} : Calls w t u → Placed w
  | .nil t => .nil
  | .cons hargs hcalls =>
    .token _ ((TermPhrase.placed_items hargs).append (.token _ hcalls.placed))

theorem TermPhrase.placed_items {w : List Word} {ts : List Expr} :
    Items TermPhrase w ts → Placed w
  | .none => .nil
  | .some h => TermPhrase.placed_listed h

theorem TermPhrase.placed_listed {w : List Word} {ts : List Expr} :
    Listed TermPhrase w ts → Placed w
  | .single h => h.placed
  | .cons h htail => h.placed.append (.token _ (TermPhrase.placed_listed htail))

end

theorem ImagePhrase.placed {w : List Word} {i : String × Expr} (h : ImagePhrase w i) :
    Placed w := by
  cases h with
  | mk ht => exact .token _ (.token _ ht.placed)

theorem CommandPhrase.placed {w : List Word} {c : Command} (h : CommandPhrase w c) :
    Placed w := by
  cases h with
  | const hty => exact .token _ (.token _ hty.placed)
  | var hty | plainMetaVar hty => exact .token _ (.token _ (.token _ hty.placed))
  | metaVar hin hout =>
    have hinputs := hin.placed fun _ _ => TypePhrase.placed
    exact .token _ (.token _ (.token _ (.token _
      (hinputs.append (.token _ (.token _ hout.placed))))))
  | matching hs ht | unify hs ht | alpha hs ht =>
    exact .token _ (hs.placed.append (.token _ ht.placed))
  | subst ht himages =>
    have hentries := himages.placed fun _ _ => ImagePhrase.placed
    exact .token _ (ht.placed.append (.token _ (hentries.append (.token _ .nil))))
  | positions ht => exact .token _ ht.placed

theorem Sentence.placed {w : List Word} {c : Command} (h : Sentence w c) : Placed w := by
  obtain ⟨h⟩ := h
  exact h.placed.append (.token _ .nil)

/-! ## One tree at most -/

/-- Two phrases of the same words are taken by one run of the parser. -/
theorem Placed.unique {α : Type} {p : Parser α} {ws vs vs' : List Word} {a a' : α}
    (hws : Placed ws) (h : Parser.Yields p ws a vs) (h' : Parser.Yields p ws a' vs') :
    a = a' := by
  obtain ⟨i, hi⟩ := hws.exists_sees
  obtain ⟨i₁, h₁, -⟩ := h i hi
  obtain ⟨i₂, h₂, -⟩ := h' i hi
  cases h₁.symm.trans h₂
  rfl

theorem TypePhrase.unique {w : List Word} {σ τ : SimpleType} (hσ : TypePhrase w σ)
    (hτ : TypePhrase w τ) : σ = τ := by
  have hend : EndType [] := by simp [EndType]
  have hplaced : Placed (w ++ []) := hσ.placed.append .nil
  exact hplaced.unique (Parser.yields_type hσ hend) (Parser.yields_type hτ hend)

theorem TermPhrase.unique {w : List Word} {s t : Expr} (hs : TermPhrase w s)
    (ht : TermPhrase w t) : s = t := by
  have hend : EndTerm [] := by simp [EndTerm]
  have hplaced : Placed (w ++ []) := hs.placed.append .nil
  exact hplaced.unique (Parser.yields_term hs hend) (Parser.yields_term ht hend)

theorem Sentence.unique {w : List Word} {c d : Command} (hc : Sentence w c)
    (hd : Sentence w d) : c = d := by
  have hplaced : Placed (w ++ []) := hc.placed.append .nil
  exact Option.some.inj (hplaced.unique (Parser.yields_command hc) (Parser.yields_command hd))

/-! ## Accepted texts -/

/-- The tokens of a text without blanks and comments, where brackets directly behind an identifier
are told apart. -/
def textWords (source : String) : List Word := words none (solidTokens source)

/-- The parser of commands takes a sentence from the front of a text, and nothing behind it. -/
theorem takes_command_iff {source : String} {c : Command} {rest : Nat} :
    (∃ i, Parser.command.Takes (.ofString source) (some c) i ∧ i.tokens.length = rest) ↔
      ∃ w vs, textWords source = w ++ vs ∧ vs.length = rest ∧ Sentence w c := by
  have hi : (Input.ofString source).Sees (textWords source) := ⟨none, rfl⟩
  constructor
  · rintro ⟨i, hcommand, rfl⟩
    rcases Parser.sound_command hcommand hi with ⟨hnone, -⟩ | ⟨c, w, vs, hc, hws, hvs, hw⟩
    · cases hnone
    · cases hc
      exact ⟨w, vs, hws, hvs.length.symm, hw⟩
  · rintro ⟨w, vs, hws, rfl, hw⟩
    rw [hws] at hi
    obtain ⟨i, hcommand, hvs⟩ := Parser.yields_command hw _ hi
    exact ⟨i, hcommand, hvs.length⟩

/-- No command is found only where there is no token left. -/
theorem takes_no_command_iff {source : String} :
    (∃ i, Parser.command.Takes (.ofString source) none i) ↔ textWords source = [] := by
  have hi : (Input.ofString source).Sees (textWords source) := ⟨none, rfl⟩
  constructor
  · rintro ⟨i, hcommand⟩
    rcases Parser.sound_command hcommand hi with ⟨-, hnil⟩ | ⟨c, w, vs, hc, -⟩
    · exact hnil
    · cases hc
  · intro hnil
    rw [hnil] at hi
    obtain ⟨i, hcommand, -⟩ := Parser.yields_command_nil _ hi
    exact ⟨i, hcommand⟩

/-- Types and terms are accepted exactly if the words of the whole text spell them, and a command
exactly if the words up to its end do; a command by itself leaves no word. The words spell no other
tree. -/
theorem accepts_iff_spelled :
    (∀ source τ, parseType source = .ok τ ↔ TypePhrase (textWords source) τ) ∧
    (∀ source t, Expr.parse source = .ok t ↔ TermPhrase (textWords source) t) ∧
    (∀ source c, (∃ i, Parser.command.Takes (.ofString source) (some c) i ∧ i.tokens = []) ↔
      Sentence (textWords source) c) ∧
    (∀ source c, (∃ i, Parser.command.Takes (.ofString source) (some c) i) ↔
      ∃ w vs, textWords source = w ++ vs ∧ Sentence w c) ∧
    (∀ source, (∃ i, Parser.command.Takes (.ofString source) none i) ↔ textWords source = []) ∧
    ∀ w, (∀ σ τ, TypePhrase w σ → TypePhrase w τ → σ = τ) ∧
      (∀ s t, TermPhrase w s → TermPhrase w t → s = t) ∧
      ∀ c d, Sentence w c → Sentence w d → c = d := by
  refine ⟨fun source τ => ?_, fun source t => ?_, fun source c => ?_, fun source c => ?_,
    fun source => takes_no_command_iff, fun w => ⟨fun _ _ => TypePhrase.unique,
    fun _ _ => TermPhrase.unique, fun _ _ => Sentence.unique⟩⟩
  · rw [parseType_eq_ok_iff, ← words_solidTokens, textWords]
  · rw [parse_eq_ok_iff, ← words_solidTokens, textWords]
  · simpa [List.length_eq_zero_iff] using @takes_command_iff source c 0
  · constructor
    · rintro ⟨i, hcommand⟩
      obtain ⟨w, vs, hws, -, hw⟩ := takes_command_iff.mp ⟨i, hcommand, rfl⟩
      exact ⟨w, vs, hws, hw⟩
    · rintro ⟨w, vs, hws, hw⟩
      obtain ⟨i, hcommand, -⟩ := takes_command_iff.mpr ⟨w, vs, hws, rfl, hw⟩
      exact ⟨i, hcommand⟩

/-- Chained and empty argument lists make one application, with a comment between them and a
bracket attached to its identifier. -/
theorem spelled_chained_calls :
    let source := "f(a)()(; c ;)(b, Z[x])"
    let t := Expr.app (.name "f") [.name "a", .name "b", .metaApp "Z" [.name "x"]]
    Expr.parse source = .ok t ∧ TermPhrase (textWords source) t ∧
      ∀ u, TermPhrase (textWords source) u → t = u := by
  intro source t
  have hparse : Expr.parse source = .ok t := by cbv
  have hspelled : TermPhrase (textWords source) t := (accepts_iff_spelled.2.1 source t).mp hparse
  exact ⟨hparse, hspelled, fun u hu => (accepts_iff_spelled.2.2.2.2.2 _).2.1 t u hspelled hu⟩

/-- A bracket apart from the identifier before it starts no arguments. -/
example : textWords "Z [x]" = [name "Z", mark .openBracket, name "x", mark .closeBracket] := by
  cbv

end TermAlgebra.Language
