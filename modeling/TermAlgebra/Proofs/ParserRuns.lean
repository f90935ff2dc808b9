import TermAlgebra.Language.Stream
import TermAlgebra.Proofs.Grammar

/-!
# Runs of the parser

A successful run of a parser takes some tokens and leaves the others. What a run of each basic
parser takes is told here, and what the input looks like as words: the parsers of the grammar are
put together from these. Main statement: behind an identifier an attached bracket, and no other,
starts the arguments of a meta-variable.
-/

namespace TermAlgebra.Language

open Word

namespace Input

/-- The tokens that are left read as the words, if an identifier before them is respected. -/
def Sees (i : Input) (ws : List Word) : Prop := ∃ behind, words behind i.tokens = ws

variable {i : Input} {w : Word} {ws : List Word}

theorem sees_ofString (source : String) : (ofString source).Sees (scan false source.toList) :=
  ⟨none, words_solidTokens source⟩

theorem Sees.length (h : i.Sees ws) : i.tokens.length = ws.length := by
  obtain ⟨behind, rfl⟩ := h
  simp

theorem Sees.rest (h : i.Sees (w :: ws)) : i.rest.Sees ws := by
  obtain ⟨behind, h⟩ := h
  unfold Input.rest
  cases hi : i.tokens with
  | nil => simp [hi, words] at h
  | cons l ls =>
    rw [hi, words, List.cons.injEq] at h
    exact ⟨l.nameEnd, h.2⟩

theorem Sees.head? (h : i.Sees ws) :
    i.tokens.head?.map Lexeme.token = ws.head?.map Word.underlying := by
  obtain ⟨behind, rfl⟩ := h
  cases i.tokens <;> simp [words]

/-- Behind an identifier its end is what the next bracket is compared with. -/
theorem Sees.name {x : String} (h : i.Sees (name x :: ws)) :
    ∃ start stop ls, i.tokens = ⟨.ident x, start, stop⟩ :: ls ∧ words (some stop) ls = ws := by
  obtain ⟨behind, h⟩ := h
  cases hi : i.tokens with
  | nil => simp [hi, words] at h
  | cons l ls =>
    rw [hi, words, List.cons.injEq] at h
    have hl : l.token = .ident x := by rw [← underlying_word behind l, h.1]; rfl
    refine ⟨l.start, l.stop, ls, by rw [← hl], ?_⟩
    rw [← h.2, Lexeme.nameEnd, hl]
    rfl

end Input

theorem head?_words_eq_attached {stop : Nat} {ls : List Lexeme} :
    (words (some stop) ls).head? = some attached ↔
      ∃ l ∈ ls.head?, l.token = .mark .openBracket ∧ l.start = stop := by
  cases ls with
  | nil => simp [words]
  | cons l ls =>
    simp only [words, Lexeme.word, List.head?_cons, Option.some.injEq, eq_comm (a := stop)]
    split <;> simp_all

namespace Parser

variable {α β : Type}

def exec (p : Parser α) (i : Input) : Except ParseError α × Input := ((ExceptT.run p).run i).run

theorem exec_bind (p : Parser α) (f : α → Parser β) (i : Input) :
    (p >>= f).exec i =
      match p.exec i with
      | (.ok a, i') => (f a).exec i'
      | (.error e, i') => (.error e, i') := by
  unfold exec ExceptT.run StateT.run Id.run
  simp only [bind, ExceptT.bind, ExceptT.mk, StateT.bind, ExceptT.bindCont]
  cases p i with
  | mk result i' => cases result <;> rfl

/-- The parser succeeds on the input `i` with the result `a` and leaves the input `i'`. -/
def Takes (p : Parser α) (i : Input) (a : α) (i' : Input) : Prop := p.exec i = (.ok a, i')

variable {i i' i'' : Input} {a : α} {b : β}

theorem takes_pure {a' : α} : (pure a : Parser α).Takes i a' i' ↔ a' = a ∧ i' = i := by
  have : (pure a : Parser α).exec i = (.ok a, i) := rfl
  simp only [Takes, this, Prod.mk.injEq, Except.ok.injEq, eq_comm]

theorem takes_bind {p : Parser α} {f : α → Parser β} :
    (p >>= f).Takes i b i'' ↔ ∃ a i', p.Takes i a i' ∧ (f a).Takes i' b i'' := by
  unfold Takes
  rw [exec_bind]
  constructor
  · intro h
    split at h
    · next a i' heq => exact ⟨a, i', heq, h⟩
    · cases h
  · rintro ⟨a, i', heq, h⟩
    rw [heq]
    exact h

theorem takes_map {p : Parser α} {f : α → β} :
    (f <$> p).Takes i b i' ↔ ∃ a, p.Takes i a i' ∧ b = f a := by
  rw [← bind_pure_comp, takes_bind]
  simp [takes_pure]

theorem takes_get_bind {f : Input → Parser β} :
    (get >>= f).Takes i b i' ↔ (f i).Takes i b i' := by
  have : (get : Parser Input).exec i = (.ok i, i) := rfl
  simp only [Takes, exec_bind, this]

theorem takes_next_bind {f : Option Lexeme → Parser β} :
    (next? >>= f).Takes i b i' ↔ (f i.tokens.head?).Takes i b i' := by
  have : next?.exec i = (.ok i.tokens.head?, i) := rfl
  simp only [Takes, exec_bind, this]

theorem takes_advance_bind {f : Unit → Parser β} :
    (advance >>= f).Takes i b i' ↔ (f ()).Takes i.rest b i' := by
  have : advance.exec i = (.ok (), i.rest) := rfl
  simp only [Takes, exec_bind, this]

theorem takes_budget_bind {f : Nat → Parser β} :
    (budget >>= f).Takes i b i' ↔ (f (i.tokens.length + 1)).Takes i b i' := by
  have : budget.exec i = (.ok (i.tokens.length + 1), i) := rfl
  simp only [Takes, exec_bind, this]

theorem exec_fail (e : Expected) (i : Input) :
    (fail e : Parser α).exec i =
      (.error ⟨if i.tokens.head?.map Lexeme.token = some .unknown then .unknownToken
        else .expected e, i.offset⟩, i) := by
  unfold fail
  rw [exec_bind]
  have hget : (get : Parser Input).exec i = (.ok i, i) := rfl
  rw [hget]
  rcases i with ⟨_ | ⟨⟨t, start, stop⟩, ls⟩, stop'⟩
  · rfl
  · cases t <;> rfl

theorem not_takes_fail {e : Expected} : ¬ (fail e : Parser α).Takes i a i' := by
  unfold fail
  rw [takes_bind]
  rintro ⟨j, i₁, hget, h⟩
  split at h <;> cases h

/-- The next token is the given one and is taken, or it is another and stays. -/
theorem takes_eat {t : Token} {r : Bool} :
    (eat t).Takes i r i' ↔
      (i.tokens.head?.map Lexeme.token = some t ∧ r = true ∧ i' = i.rest) ∨
      (i.tokens.head?.map Lexeme.token ≠ some t ∧ r = false ∧ i' = i) := by
  unfold eat
  rw [takes_next_bind]
  cases i.tokens.head? with
  | none => simp [takes_pure]
  | some l =>
    by_cases h : l.token = t
    · simp only [h, if_true, takes_advance_bind, takes_pure]
      simp [h]
    · simp [h, takes_pure]

theorem takes_expect {t : Token} {e : Expected} {u : Unit} :
    (expect t e).Takes i u i' ↔ i.tokens.head?.map Lexeme.token = some t ∧ i' = i.rest := by
  unfold expect
  simp only [takes_bind, takes_eat]
  by_cases h : i.tokens.head?.map Lexeme.token = some t <;> simp [h, takes_pure, not_takes_fail]

theorem takes_ident {x : String} :
    ident.Takes i x i' ↔ i.tokens.head?.map Lexeme.token = some (.ident x) ∧ i' = i.rest := by
  unfold ident
  rw [takes_next_bind]
  split
  · next heq =>
    simp only [takes_advance_bind, takes_pure, heq]
    simp [eq_comm]
  · next hne =>
    refine iff_of_false not_takes_fail ?_
    rintro ⟨h, -⟩
    obtain ⟨l, hl, ht⟩ := Option.map_eq_some_iff.mp h
    exact hne x l.start l.stop (by rw [hl, ← ht])

/-- A type without arrows at the top. -/
def typeAtom (type : Parser SimpleType) : Parser SimpleType := do
  match ← next? with
  | some ⟨.ident s, _, _⟩ => do
    advance
    return .base s
  | some ⟨.mark .openParen, _, _⟩ => do
    advance
    let τ ← type
    expect (.mark .closeParen) .closeParen
    return τ
  | _ => fail .type

theorem fail_bind (e : Expected) (f : α → Parser β) : (fail e : Parser α) >>= f = fail e := by
  unfold fail
  rw [bind_assoc]
  congr 1
  funext i
  split <;> rfl

theorem typeWithin_succ (depth : Nat) :
    typeWithin (depth + 1) = do
      let input ← typeAtom (typeWithin depth)
      if ← eat (.mark .arrow) then return .arrow input (← typeWithin depth) else return input := by
  rw [typeWithin, typeAtom, bind_assoc]
  congr 1
  funext l
  rcases l with _ | ⟨t, start, stop⟩
  · simp [fail_bind]
  · cases t with
    | mark m => cases m <;> simp [fail_bind]
    | _ => simp [fail_bind]

/-- Behind an identifier an attached bracket starts the arguments of a meta-variable. -/
theorem takes_atom_name {term : Parser Expr} {ws : List Word} {x : String} {t : Expr}
    (hi : i.Sees (name x :: ws)) :
    (atom term).Takes i t i' ↔
      if ws.head? = some attached then
        ∃ args, (list term .closeBracket .commaOrBracket).Takes i.rest.rest args i' ∧
          t = .metaApp x args
      else t = .name x ∧ i' = i.rest := by
  obtain ⟨start, stop, ls, htokens, rfl⟩ := hi.name
  have hrest : i.rest.tokens = ls := by rw [Input.rest, htokens, List.tail_cons]
  unfold atom
  simp only [takes_next_bind, htokens, List.head?_cons, takes_advance_bind, hrest,
    head?_words_eq_attached]
  -- A bracket is attached if it starts where the identifier stops.
  split
  · next start' stop' hbracket =>
    rw [hbracket]
    by_cases hs : start' = stop
    · simp [hs, takes_advance_bind, takes_map]
    · simp [hs, takes_pure]
  · next hbracket =>
    rw [if_neg]
    · exact takes_pure
    · rintro ⟨l, hl, htoken, -⟩
      exact hbracket l.start l.stop (by rw [← htoken]; exact hl)

end Parser

theorem Input.nextItem_eq (i : Input) :
    i.nextItem = match Parser.command.exec i with
      | (.ok none, i') => (none, i')
      | (.ok (some c), i') => (some (.ok c), i')
      | (.error e, i') => (some (.error e), i'.skipCommand) := rfl

end TermAlgebra.Language
