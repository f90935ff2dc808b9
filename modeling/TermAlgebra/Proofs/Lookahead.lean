import TermAlgebra.Language.Stream
import TermAlgebra.Proofs.ParserRuns

/-!
# Lookahead

A parser of commands reads the tokens up to the first period and none behind it, and it reads
offsets only to compare and to report them. So it does the same on two inputs that agree up to the
first period, also where one stands some bytes behind the other. Main statement: the next item of
two such inputs is the same up to the place of its error, and what is left of each starts behind
its first period.
-/

namespace TermAlgebra.Language

def Lexeme.shift (k : Nat) (l : Lexeme) : Lexeme := ⟨l.token, l.start + k, l.stop + k⟩

namespace Input

section Tokens

variable (k stop stop' : Nat)

/-- Two lists of tokens agree up to the first period, those of the second `k` bytes behind; without
a period the texts end at such places as well. The number is that of the tokens before the period. -/
inductive AlignedTokens : Nat → List Lexeme → List Lexeme → Prop where
  | nil : stop' = stop + k → AlignedTokens 0 [] []
  | period {l ls ls'} : l.token = .mark .period → AlignedTokens 0 (l :: ls) (l.shift k :: ls')
  | cons {n l ls ls'} : l.token ≠ .mark .period → AlignedTokens n ls ls' →
      AlignedTokens (n + 1) (l :: ls) (l.shift k :: ls')

end Tokens

/-- The inputs agree up to the first period, which stands behind `n` tokens. -/
def Aligned (k n : Nat) (i j : Input) : Prop := AlignedTokens k i.stop j.stop n i.tokens j.tokens

variable {k n : Nat} {i j : Input}

theorem Aligned.head? (h : Aligned k n i j) :
    j.tokens.head? = i.tokens.head?.map (Lexeme.shift k) := by
  rcases i with ⟨ls, stop⟩
  rcases j with ⟨ls', stop'⟩
  cases h <;> rfl

theorem Aligned.offset (h : Aligned k n i j) : j.offset = i.offset + k := by
  rcases i with ⟨ls, stop⟩
  rcases j with ⟨ls', stop'⟩
  cases h with
  | nil hstop => exact hstop
  | period | cons => rfl

theorem AlignedTokens.le_length {stop stop' : Nat} {ls ls' : List Lexeme}
    (h : AlignedTokens k stop stop' n ls ls') : n ≤ ls.length ∧ n ≤ ls'.length := by
  induction h with
  | nil | period => simp
  | cons _ _ ih => simpa using ih

theorem skipCommand_rest {l : Lexeme} (h : i.tokens.head? = some l)
    (hl : l.token ≠ .mark .period) : i.rest.skipCommand = i.skipCommand := by
  rcases i with ⟨_ | ⟨l', ls⟩, stop⟩
  · cases h
  · cases h
    simp [skipCommand, rest, hl]

theorem rest_of_period {l : Lexeme} (h : i.tokens.head? = some l)
    (hl : l.token = .mark .period) : i.rest = i.skipCommand := by
  rcases i with ⟨_ | ⟨l', ls⟩, stop⟩
  · cases h
  · cases h
    simp [skipCommand, rest, hl]

/-- Past a token that is no period the inputs are still aligned. -/
theorem Aligned.rest {l : Lexeme} (h : Aligned k n i j) (hhead : i.tokens.head? = some l)
    (hl : l.token ≠ .mark .period) : ∃ m, n = m + 1 ∧ Aligned k m i.rest j.rest := by
  rcases i with ⟨ls, stop⟩
  rcases j with ⟨ls', stop'⟩
  cases h with
  | nil => cases hhead
  | period hperiod =>
    cases hhead
    exact absurd hperiod hl
  | cons _ h => exact ⟨_, rfl, h⟩

/-- Two inputs have moved forward side by side, not beyond their first periods. -/
structure Advanced (k n : Nat) (i j i' j' : Input) : Prop where
  aligned : ∃ m ≤ n, Aligned k m i' j'
  left : i'.skipCommand = i.skipCommand
  right : j'.skipCommand = j.skipCommand

theorem Aligned.advanced (h : Aligned k n i j) : Advanced k n i j i j := ⟨⟨n, le_rfl, h⟩, rfl, rfl⟩

end Input

open Input

namespace Parser

variable {α β : Type} {k d : Nat}

/-- The runs give the same, but for errors that the second reports `k` bytes farther on, and move
forward side by side. -/
def Alike (k n : Nat) (p q : Parser α) (i j : Input) : Prop :=
  (q.exec j).1 = (p.exec i).1.mapError (ParseError.shift k) ∧
    Advanced k n i j (p.exec i).2 (q.exec j).2

/-- The parsers do the same on inputs with at most `d` tokens before the first period. -/
structure Agree (k d : Nat) (p q : Parser α) : Prop where
  alike : ∀ {n i j}, n ≤ d → Aligned k n i j → Alike k n p q i j

/-- The same on inputs whose next token is the given one. -/
structure AgreeAt (k d : Nat) (l : Lexeme) (p q : Parser α) : Prop where
  alike : ∀ {n i j}, n ≤ d → Aligned k n i j → i.tokens.head? = some l → Alike k n p q i j

theorem Agree.mono {p q : Parser α} (h : Agree k d p q) {d' : Nat} (hd : d' ≤ d) :
    Agree k d' p q :=
  ⟨fun hn => h.alike (hn.trans hd)⟩

theorem Agree.agreeAt {p q : Parser α} (h : Agree k d p q) (l : Lexeme) : AgreeAt k d l p q :=
  ⟨fun hn hij _ => h.alike hn hij⟩

theorem agree_pure (a : α) : Agree k d (pure a) (pure a) := ⟨fun _ hij => ⟨rfl, hij.advanced⟩⟩

theorem agree_fail (e : Expected) : Agree k d (fail e : Parser α) (fail e) := by
  refine ⟨fun {n i j} _ hij => ?_⟩
  unfold Alike
  rw [exec_fail, exec_fail, hij.head?, hij.offset, Option.map_map]
  exact ⟨rfl, hij.advanced⟩

namespace Agree

variable {p q : Parser α}

theorem bind {f g : α → Parser β} (h : Agree k d p q) (hf : ∀ a, Agree k d (f a) (g a)) :
    Agree k d (p >>= f) (q >>= g) := by
  refine ⟨fun {n i j} hn hij => ?_⟩
  obtain ⟨hresult, ⟨m, hm, hij'⟩, hi, hj⟩ := h.alike hn hij
  unfold Alike
  rw [exec_bind, exec_bind]
  rcases hp : p.exec i with ⟨r, i'⟩
  rcases hq : q.exec j with ⟨r', j'⟩
  rw [hp, hq] at hresult hij'
  rw [hp] at hi
  rw [hq] at hj
  cases r with
  | error e =>
    obtain rfl : r' = .error (e.shift k) := hresult
    exact ⟨rfl, ⟨m, hm, hij'⟩, hi, hj⟩
  | ok a =>
    obtain rfl : r' = .ok a := hresult
    obtain ⟨hresult, ⟨m', hm', hij'⟩, hi', hj'⟩ := (hf a).alike (hm.trans hn) hij'
    exact ⟨hresult, ⟨m', hm'.trans hm, hij'⟩, hi'.trans hi, hj'.trans hj⟩

theorem next_bind {f g : Option Lexeme → Parser β} (hnone : Agree k 0 (f none) (g none))
    (hsome : ∀ l, AgreeAt k d l (f (some l)) (g (some (l.shift k)))) :
    Agree k d (next? >>= f) (next? >>= g) := by
  refine ⟨fun {n i j} hn hij => ?_⟩
  have hexec : ∀ i : Input, next?.exec i = (.ok i.tokens.head?, i) := fun _ => rfl
  unfold Alike
  rw [exec_bind, exec_bind, hexec, hexec, hij.head?]
  cases hhead : i.tokens.head? with
  | none =>
    have hn : n ≤ 0 := by
      have hlength := (AlignedTokens.le_length hij).1
      rw [List.head?_eq_none_iff] at hhead
      rwa [hhead] at hlength
    exact hnone.alike hn hij
  | some l => exact (hsome l).alike hn hij hhead

/-- Budgets differ with what is behind the first period, but both exceed the tokens before it. -/
theorem budget_bind {f g : Nat → Parser β}
    (h : ∀ d' ≤ d, ∀ r r', d' < r → d' < r' → Agree k d' (f r) (g r')) :
    Agree k d (budget >>= f) (budget >>= g) := by
  refine ⟨fun {n i j} hn hij => ?_⟩
  have hexec : ∀ i : Input, budget.exec i = (.ok (i.tokens.length + 1), i) := fun _ => rfl
  obtain ⟨hi, hj⟩ := AlignedTokens.le_length hij
  unfold Alike
  rw [exec_bind, exec_bind, hexec, hexec]
  exact (h n hn _ _ (Nat.lt_succ_of_le hi) (Nat.lt_succ_of_le hj)).alike le_rfl hij

end Agree

theorem AgreeAt.advance_bind {l : Lexeme} {f g : Unit → Parser β} (hl : l.token ≠ .mark .period)
    (h : ∀ d', d = d' + 1 → Agree k d' (f ()) (g ())) :
    AgreeAt k d l (advance >>= f) (advance >>= g) := by
  refine ⟨fun {n i j} hn hij hhead => ?_⟩
  have hexec : ∀ i : Input, advance.exec i = (.ok (), i.rest) := fun _ => rfl
  have hhead' : j.tokens.head? = some (l.shift k) := by rw [hij.head?, hhead, Option.map_some]
  obtain ⟨m, rfl, hrest⟩ := hij.rest hhead hl
  obtain ⟨d', rfl⟩ : ∃ d', d = d' + 1 := ⟨d - 1, by omega⟩
  unfold Alike
  rw [exec_bind, exec_bind, hexec, hexec]
  obtain ⟨hresult, ⟨m', hm', hij'⟩, hi, hj⟩ := (h d' rfl).alike (Nat.le_of_succ_le_succ hn) hrest
  refine ⟨hresult, ⟨m', hm'.trans (Nat.le_succ m), hij'⟩, ?_, ?_⟩
  · rw [hi, skipCommand_rest hhead hl]
  · rw [hj, skipCommand_rest hhead' hl]

namespace Agree

section Basic

variable {t : Token}

theorem eat_bind {f g : Bool → Parser β} (ht : t ≠ .mark .period)
    (htrue : ∀ d', d = d' + 1 → Agree k d' (f true) (g true))
    (hfalse : Agree k d (f false) (g false)) : Agree k d (eat t >>= f) (eat t >>= g) := by
  unfold eat
  rw [bind_assoc, bind_assoc]
  refine next_bind (hfalse.mono (Nat.zero_le d)) fun l => ?_
  by_cases hl : l.token = t
  · have hl' : (l.shift k).token = t := hl
    simp only [hl, hl', if_true, bind_assoc, pure_bind]
    exact .advance_bind (hl ▸ ht) htrue
  · have hl' : ¬ (l.shift k).token = t := hl
    simp only [hl, hl', if_false, pure_bind]
    exact hfalse.agreeAt l

theorem expect_bind {e : Expected} {f g : Unit → Parser β} (ht : t ≠ .mark .period)
    (h : ∀ d', d = d' + 1 → Agree k d' (f ()) (g ())) :
    Agree k d (expect t e >>= f) (expect t e >>= g) := by
  unfold expect
  rw [bind_assoc, bind_assoc]
  refine eat_bind ht ?_ ?_
  · simpa using h
  · simpa [fail_bind] using agree_fail e

theorem ident_bind {f g : String → Parser β}
    (h : ∀ x d', d = d' + 1 → Agree k d' (f x) (g x)) :
    Agree k d (ident >>= f) (ident >>= g) := by
  unfold ident
  rw [bind_assoc, bind_assoc]
  refine next_bind (by simpa [fail_bind] using agree_fail .ident) fun l => ?_
  rcases l with ⟨t, start, stop⟩
  cases t with
  | ident x =>
    simp only [Lexeme.shift, bind_assoc, pure_bind]
    exact .advance_bind nofun (h x)
  | _ => simpa only [Lexeme.shift, fail_bind] using (agree_fail .ident).agreeAt _

end Basic

section Lists

variable {item item' : Parser α} {close : Mark} {e : Expected}

theorem items (hitem : Agree k d item item') (hclose : close ≠ .period) {r r' : Nat} (hr : d < r)
    (hr' : d < r') : Agree k d (items item close e r) (items item' close e r') := by
  induction r generalizing d r' with
  | zero => cases hr
  | succ r ih =>
    cases r' with
    | zero => cases hr'
    | succ r' =>
      refine hitem.bind fun a => eat_bind (by simpa using hclose) (fun _ _ => agree_pure _) ?_
      refine eat_bind nofun (fun d' hd => ?_) (agree_fail e)
      exact (ih (hitem.mono (by omega)) (by omega) (by omega)).bind fun as => agree_pure _

theorem list (hitem : Agree k d item item') (hclose : close ≠ .period) :
    Agree k d (list item close e) (list item' close e) := by
  refine eat_bind (by simpa using hclose) (fun _ _ => agree_pure _) ?_
  exact budget_bind fun d' hd r r' hr hr' => (hitem.mono hd).items hclose hr hr'

end Lists

end Agree

/-! ## Types -/

theorem agree_typeAtom {p q : Parser SimpleType} (h : ∀ d', d = d' + 1 → Agree k d' p q) :
    Agree k d (typeAtom p) (typeAtom q) := by
  refine .next_bind (agree_fail .type) fun l => ?_
  rcases l with ⟨t, start, stop⟩
  have hfail := (@agree_fail SimpleType k d .type).agreeAt ⟨t, start, stop⟩
  cases t with
  | ident s => exact .advance_bind nofun fun _ _ => agree_pure _
  | mark m =>
    cases m with
    | openParen =>
      refine .advance_bind nofun fun d' hd => (h d' hd).bind fun τ => ?_
      exact .expect_bind nofun fun _ _ => agree_pure _
    | _ => exact hfail
  | _ => exact hfail

theorem agree_typeWithin {a b : Nat} (ha : d < a) (hb : d < b) :
    Agree k d (typeWithin a) (typeWithin b) := by
  induction a generalizing d b with
  | zero => cases ha
  | succ a ih =>
    cases b with
    | zero => cases hb
    | succ b =>
      have hlater : ∀ d', d = d' + 1 → Agree k d' (typeWithin a) (typeWithin b) :=
        fun d' hd => ih (by omega) (by omega)
      rw [typeWithin_succ, typeWithin_succ]
      refine (agree_typeAtom hlater).bind fun σ => .eat_bind nofun (fun d' hd => ?_) (agree_pure _)
      exact (hlater d' hd).bind fun τ => agree_pure _

theorem agree_type : Agree k d type type :=
  .budget_bind fun _ _ _ _ hr hr' => agree_typeWithin hr hr'

/-! ## Terms -/

theorem agree_atom {p q : Parser Expr} (h : ∀ d' < d, Agree k d' p q) :
    Agree k d (atom p) (atom q) := by
  refine .next_bind (agree_fail .term) fun l => ?_
  rcases l with ⟨t, start, stop⟩
  have hfail := (@agree_fail Expr k d .term).agreeAt ⟨t, start, stop⟩
  cases t with
  | ident x =>
    refine .advance_bind nofun fun d' hd => .next_bind (agree_pure _) fun l => ?_
    rcases l with ⟨t, start', stop'⟩
    have hname := (@agree_pure Expr k d' (.name x)).agreeAt ⟨t, start', stop'⟩
    cases t with
    | mark m =>
      cases m with
      | openBracket =>
        -- Whether the bracket is attached does not depend on where the two tokens stand.
        by_cases hs : start' = stop
        · simp only [Lexeme.shift, hs, if_true]
          refine .advance_bind nofun fun d'' hd' => ?_
          exact ((h d'' (by omega)).list (by decide)).bind fun args => agree_pure _
        · simpa [Lexeme.shift, hs] using hname
      | _ => exact hname
    | _ => exact hname
  | int n | string s => exact .advance_bind nofun fun _ _ => agree_pure _
  | keyword w =>
    cases w with
    | true | false => exact .advance_bind nofun fun _ _ => agree_pure _
    | _ => exact hfail
  | mark m =>
    cases m with
    | openParen =>
      refine .advance_bind nofun fun d' hd => (h d' (by omega)).bind fun t => ?_
      exact .expect_bind nofun fun _ _ => agree_pure _
    | _ => exact hfail
  | _ => exact hfail

theorem agree_arguments {p q : Parser Expr} (h : ∀ d' < d, Agree k d' p q) {r r' : Nat}
    (hr : d < r) (hr' : d < r') (t : Expr) :
    Agree k d (arguments p r t) (arguments q r' t) := by
  induction r generalizing d r' t with
  | zero => cases hr
  | succ r ih =>
    cases r' with
    | zero => cases hr'
    | succ r' =>
      refine .eat_bind nofun (fun d' hd => ?_) (agree_pure t)
      refine ((h d' (by omega)).list (by decide)).bind fun args => ?_
      exact ih (fun d'' hd' => h d'' (by omega)) (by omega) (by omega) _

theorem agree_termWithin {a b : Nat} (ha : d < a) (hb : d < b) :
    Agree k d (termWithin a) (termWithin b) := by
  induction a generalizing d b with
  | zero => cases ha
  | succ a ih =>
    cases b with
    | zero => cases hb
    | succ b =>
      have hlater : ∀ d' < d, Agree k d' (termWithin a) (termWithin b) :=
        fun d' hd => ih (by omega) (by omega)
      refine .eat_bind nofun (fun d₁ h₁ => ?_) ?_
      · refine .ident_bind fun x d₂ h₂ => .expect_bind nofun fun d₃ h₃ => ?_
        refine agree_type.bind fun ty => .expect_bind nofun fun d₄ h₄ => ?_
        exact (hlater d₄ (by omega)).bind fun body => agree_pure _
      · refine (agree_atom hlater).bind fun t => .budget_bind fun d' hd r r' hr hr' => ?_
        exact agree_arguments (fun d'' hd' => hlater d'' (by omega)) hr hr' t

theorem agree_term : Agree k d term term :=
  .budget_bind fun _ _ _ _ hr hr' => agree_termWithin hr hr'

/-! ## Commands -/

theorem agree_pair : Agree k d pair pair :=
  agree_term.bind fun _ => .expect_bind nofun fun _ _ => agree_term.bind fun _ => agree_pure _

theorem agree_image : Agree k d image image :=
  .ident_bind fun _ _ _ => .expect_bind nofun fun _ _ => agree_term.bind fun _ => agree_pure _

theorem agree_commandBody (l : Lexeme) :
    AgreeAt k d l (commandBody l.token) (commandBody l.token) := by
  rcases l with ⟨t, start, stop⟩
  have hfail := (@agree_fail Command k d .command).agreeAt ⟨t, start, stop⟩
  have hdeclared : ∀ {β : Type} {d} {f : String → Parser β}, (∀ x d', Agree k d' (f x) (f x)) →
      Agree k d (do let x ← ident; expect (.mark .colon) .colon; f x)
        (do let x ← ident; expect (.mark .colon) .colon; f x) :=
    fun hf => .ident_bind fun x _ _ => .expect_bind nofun fun _ _ => hf x _
  cases t with
  | ident c =>
    exact (hdeclared fun c d' => agree_type.bind fun ty => agree_pure _).agreeAt _
  | keyword w =>
    cases w with
    | var =>
      exact .advance_bind nofun fun _ _ =>
        hdeclared fun x d' => agree_type.bind fun ty => agree_pure _
    | metaVar =>
      refine .advance_bind nofun fun _ _ => hdeclared fun z d' => .eat_bind nofun (fun _ _ => ?_) ?_
      · refine (agree_type.list (by decide)).bind fun inputs => .expect_bind nofun fun _ _ => ?_
        exact agree_type.bind fun output => agree_pure _
      · exact agree_type.bind fun output => agree_pure _
    | matching | unify | alpha =>
      exact .advance_bind nofun fun _ _ => agree_pair.bind fun st => agree_pure _
    | subst =>
      refine .advance_bind nofun fun _ _ => agree_term.bind fun t => ?_
      exact .expect_bind nofun fun _ _ => (agree_image.list (by decide)).bind fun images => agree_pure _
    | positions => exact .advance_bind nofun fun _ _ => agree_term.bind fun t => agree_pure _
    | _ => exact hfail
  | _ => exact hfail

theorem exec_expect (t : Token) (e : Expected) (i : Input) :
    (expect t e).exec i =
      if i.tokens.head?.map Lexeme.token = some t then (.ok (), i.rest) else (fail e).exec i := by
  split
  · next h => exact takes_expect.mpr ⟨h, rfl⟩
  · next h =>
    have heat : (eat t).exec i = (.ok false, i) := takes_eat.mpr (.inr ⟨h, rfl, rfl⟩)
    unfold expect
    rw [exec_bind, heat]
    rfl

/-- The end of a command is taken, or it is missed and all tokens stay. -/
theorem exec_expect_period {k n : Nat} {i j : Input} (h : Aligned k n i j) :
    ((expect (.mark .period) .period).exec i = (.ok (), i.skipCommand) ∧
      (expect (.mark .period) .period).exec j = (.ok (), j.skipCommand)) ∨
    ∃ e : ParseError, (expect (.mark .period) .period).exec i = (.error e, i) ∧
      (expect (.mark .period) .period).exec j = (.error (e.shift k), j) := by
  have hcomp : Lexeme.token ∘ Lexeme.shift k = Lexeme.token := rfl
  rw [exec_expect, exec_expect, exec_fail, exec_fail, h.head?, h.offset, Option.map_map, hcomp]
  by_cases hperiod : i.tokens.head?.map Lexeme.token = some (.mark .period)
  · obtain ⟨l, hl, ht⟩ := Option.map_eq_some_iff.mp hperiod
    have hl' : j.tokens.head? = some (l.shift k) := by rw [h.head?, hl, Option.map_some]
    rw [if_pos hperiod, if_pos hperiod, rest_of_period hl ht, rest_of_period hl' ht]
    exact .inl ⟨rfl, rfl⟩
  · rw [if_neg hperiod, if_neg hperiod]
    exact .inr ⟨_, rfl, rfl⟩

theorem exec_command {i : Input} {l : Lexeme} (hl : i.tokens.head? = some l) :
    command.exec i = (do
      let c ← commandBody l.token
      expect (.mark .period) .period
      return some c : Parser (Option Command)).exec i := by
  have hexec : next?.exec i = (.ok (some l), i) := by rw [← hl]; rfl
  unfold command
  rw [exec_bind, hexec]

end Parser

/-! ## Items -/

namespace Input

variable {k n : Nat} {i j : Input}

theorem nextItem_of_nil (h : i.tokens = []) : i.nextItem = (none, i) := by
  rcases i with ⟨ls, stop⟩
  obtain rfl : ls = [] := h
  rfl

/-- The next item is the same up to the place of its error, and what is left starts behind the
first period. -/
theorem Aligned.nextItem (h : Aligned k n i j) (hi : i.tokens ≠ []) :
    ∃ item : Item, i.nextItem = (some item, i.skipCommand) ∧
      j.nextItem = (some (item.mapError (ParseError.shift k)), j.skipCommand) := by
  obtain ⟨l, ls, hls⟩ := List.exists_cons_of_ne_nil hi
  have hhead : i.tokens.head? = some l := by rw [hls, List.head?_cons]
  have hhead' : j.tokens.head? = some (l.shift k) := by rw [h.head?, hhead, Option.map_some]
  obtain ⟨hresult, ⟨m, -, haligned⟩, hskip, hskip'⟩ :=
    (Parser.agree_commandBody l).alike le_rfl h hhead
  have hbody : Parser.commandBody (l.shift k).token = Parser.commandBody l.token := rfl
  rw [nextItem_eq, nextItem_eq, Parser.exec_command hhead, Parser.exec_command hhead', hbody,
    Parser.exec_bind, Parser.exec_bind]
  rcases hexec : (Parser.commandBody l.token).exec i with ⟨r, i'⟩
  rcases hexec' : (Parser.commandBody l.token).exec j with ⟨r', j'⟩
  rw [hexec, hexec'] at hresult haligned
  rw [hexec] at hskip
  rw [hexec'] at hskip'
  rw [← hskip, ← hskip']
  cases r with
  | error e =>
    obtain rfl : r' = .error (e.shift k) := hresult
    exact ⟨.error e, rfl, rfl⟩
  | ok c =>
    obtain rfl : r' = .ok c := hresult
    dsimp only
    rw [Parser.exec_bind, Parser.exec_bind]
    rcases Parser.exec_expect_period haligned with ⟨hperiod, hperiod'⟩ | ⟨e, he, he'⟩
    · rw [hperiod, hperiod']
      exact ⟨.ok c, rfl, rfl⟩
    · rw [he, he']
      exact ⟨.error e, rfl, rfl⟩

end Input

end TermAlgebra.Language
