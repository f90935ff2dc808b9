import TermAlgebra.Proofs.ParserRuns

/-!
# Progress of the parser

Parsers take tokens from the front of the input only, also when they fail, and put none back. What
they make of the tokens that they take depends on these and on the next one, and on none behind it.
Main statement: a parser of commands does the same on every input that starts with the tokens that
it took and the token that it left.
-/

namespace TermAlgebra.Language

/-- The input `i'` is what is left of the input `i`. -/
structure Input.LeftOf (i' i : Input) : Prop where
  tokens : i'.tokens <:+ i.tokens
  stop : i'.stop = i.stop

namespace Input.LeftOf

variable {i i' i'' : Input}

theorem refl (i : Input) : i.LeftOf i := ⟨List.suffix_rfl, rfl⟩

theorem trans (h' : i''.LeftOf i') (h : i'.LeftOf i) : i''.LeftOf i :=
  ⟨h'.tokens.trans h.tokens, h'.stop.trans h.stop⟩

theorem rest (i : Input) : i.rest.LeftOf i := ⟨List.tail_suffix i.tokens, rfl⟩

end Input.LeftOf

/-- The lists have a first token, and it is the same. -/
def SameNext (ls ls' : List Lexeme) : Prop := ∃ l, ls.head? = some l ∧ ls'.head? = some l

theorem SameNext.append {ls ls' : List Lexeme} (h : SameNext ls ls') (us : List Lexeme) :
    SameNext (us ++ ls) (us ++ ls') := by
  cases us with
  | nil => exact h
  | cons u us => exact ⟨u, rfl, rfl⟩

namespace Parser

variable {α β : Type} {d : Nat}

/-- The parser only takes tokens from the front, whether it succeeds or fails. -/
def Drops (p : Parser α) : Prop := ∀ i, (p.exec i).2.tokens <:+ i.tokens

/-- Where the first parser takes less than `d` tokens, the second does the same in front of the
same next token. The two differ in the bounds on nested calls and rounds. -/
structure Local (d : Nat) (p q : Parser α) : Prop where
  left : ∀ i, (p.exec i).2.LeftOf i
  same : ∀ {us ls ls' i j i' r}, us.length < d → SameNext ls ls' → i.tokens = us ++ ls →
    j.tokens = us ++ ls' → p.exec i = (r, i') → i'.tokens = ls →
    ∃ j', q.exec j = (r, j') ∧ j'.tokens = ls'

namespace Local

variable {p q : Parser α}

theorem mono (h : Local d p q) {d' : Nat} (hd : d' ≤ d) : Local d' p q :=
  ⟨h.left, fun hus => h.same (hus.trans_le hd)⟩

/-- Where nothing is asked of the second parser, it may be any. -/
theorem zero (h : Local d p q) (q' : Parser α) : Local 0 p q' :=
  ⟨h.left, fun hus => absurd hus (Nat.not_lt_zero _)⟩

theorem pure (a : α) : Local d (Pure.pure a) (Pure.pure a) := by
  refine ⟨Input.LeftOf.refl, fun {us ls ls' i j i' r} _ _ hi hj hexec hleft => ?_⟩
  have hexec' : ∀ i, (Pure.pure a : Parser α).exec i = (.ok a, i) := fun _ => rfl
  rw [hexec'] at hexec
  cases hexec
  obtain rfl : us = [] := List.append_left_eq_self.mp (hi.symm.trans hleft)
  exact ⟨j, rfl, hj⟩

theorem fail (e : Expected) : Local d (Parser.fail e : Parser α) (Parser.fail e) := by
  refine ⟨fun i => ?_, fun {us ls ls' i j i' r} _ hnext hi hj hexec hleft => ?_⟩
  · rw [exec_fail]
    exact .refl i
  rw [exec_fail] at hexec
  cases hexec
  obtain rfl : us = [] := List.append_left_eq_self.mp (hi.symm.trans hleft)
  obtain ⟨l, hl, hl'⟩ := hnext
  have hoffset : ∀ {i : Input}, i.tokens.head? = some l → i.offset = l.start := by
    rintro ⟨_ | ⟨l', ls⟩, stop⟩ hhead <;> cases hhead
    rfl
  rw [List.nil_append] at hi hj
  rw [← hi] at hl
  rw [← hj] at hl'
  refine ⟨j, ?_, hj⟩
  rw [exec_fail, hl, hl', hoffset hl, hoffset hl']

theorem bind {f g : α → Parser β} (h : Local d p q) (hf : ∀ a, Local d (f a) (g a)) :
    Local d (p >>= f) (q >>= g) := by
  refine ⟨fun i => ?_, fun {us ls ls' i j i' r} hus hnext hi hj hexec hleft => ?_⟩
  · have hp := h.left i
    rw [exec_bind]
    rcases hexec : p.exec i with ⟨e | a, i₁⟩ <;> rw [hexec] at hp
    · exact hp
    · exact ((hf a).left i₁).trans hp
  · have hp := (h.left i).tokens
    rw [exec_bind] at hexec ⊢
    rcases hexec₁ : p.exec i with ⟨e | a, i₁⟩ <;> rw [hexec₁] at hp hexec
    · cases hexec
      obtain ⟨j', hq, hj'⟩ := h.same hus hnext hi hj hexec₁ hleft
      exact ⟨j', by rw [hq], hj'⟩
    · replace hexec : (f a).exec i₁ = (r, i') := hexec
      -- The first parser takes `vs`, the second `ws`.
      have hf' := ((hf a).left i₁).tokens
      rw [hexec, hleft] at hf'
      obtain ⟨ws, hws⟩ := hf'
      obtain ⟨vs, hvs⟩ := hp
      rw [hi, ← hws, ← List.append_assoc] at hvs
      obtain rfl := List.append_cancel_right hvs
      rw [List.append_assoc] at hi hj
      rw [List.length_append] at hus
      obtain ⟨j₁, hq, hj₁⟩ := h.same (by omega) (hnext.append ws) hi hj hexec₁ hws.symm
      obtain ⟨j', hg, hj'⟩ := (hf a).same (by omega) hnext hws.symm hj₁ hexec hleft
      exact ⟨j', by rw [hq]; exact hg, hj'⟩

theorem next_bind {f g : Option Lexeme → Parser β} (h : ∀ l, Local d (f l) (g l)) :
    Local d (next? >>= f) (next? >>= g) := by
  have hexec : ∀ i : Input, next?.exec i = (.ok i.tokens.head?, i) := fun _ => rfl
  refine ⟨fun i => ?_, fun {us ls ls' i j i' r} hus hnext hi hj hrun hleft => ?_⟩
  · rw [exec_bind, hexec]
    exact (h _).left i
  · obtain ⟨l, hl, hl'⟩ := hnext.append us
    rw [← hi] at hl
    rw [← hj] at hl'
    rw [exec_bind, hexec, hl] at hrun
    rw [exec_bind, hexec, hl']
    exact (h _).same hus hnext hi hj hrun hleft

theorem advance_bind {f g : Unit → Parser β} (h : Local (d - 1) (f ()) (g ())) :
    Local d (advance >>= f) (advance >>= g) := by
  have hexec : ∀ i : Input, advance.exec i = (.ok (), i.rest) := fun _ => rfl
  refine ⟨fun i => ?_, fun {us ls ls' i j i' r} hus hnext hi hj hrun hleft => ?_⟩
  · rw [exec_bind, hexec]
    exact (h.left i.rest).trans (.rest i)
  · rw [exec_bind, hexec] at hrun ⊢
    replace hrun : (f ()).exec i.rest = (r, i') := hrun
    cases us with
    | nil =>
      -- A token that was taken is not left.
      have hsuffix := (h.left i.rest).tokens
      obtain ⟨l, hl, -⟩ := hnext
      rw [hrun, hleft, Input.rest, hi] at hsuffix
      cases ls with
      | nil => cases hl
      | cons l' ls => exact absurd hsuffix.length_le (by simp)
    | cons u us =>
      have hlt : us.length < d - 1 := by
        rw [List.length_cons] at hus
        omega
      refine h.same hlt hnext ?_ ?_ hrun hleft
      · rw [Input.rest, hi, List.cons_append, List.tail_cons]
      · rw [Input.rest, hj, List.cons_append, List.tail_cons]

/-- The budgets may differ, but both exceed the number of tokens that are taken. -/
theorem budget_bind {f g : Nat → Parser β}
    (h : ∀ d' ≤ d, ∀ r r', d' ≤ r → d' ≤ r' → Local d' (f r) (g r')) :
    Local d (budget >>= f) (budget >>= g) := by
  have hexec : ∀ i : Input, budget.exec i = (.ok (i.tokens.length + 1), i) := fun _ => rfl
  refine ⟨fun i => ?_, fun {us ls ls' i j i' r} hus hnext hi hj hrun hleft => ?_⟩
  · rw [exec_bind, hexec]
    exact (h 0 (Nat.zero_le d) _ _ (Nat.zero_le _) (Nat.zero_le 0)).left i
  · have hlength : ∀ {i : Input} {ls}, i.tokens = us ++ ls → us.length + 1 ≤ i.tokens.length + 1 :=
      fun hi => by rw [hi, List.length_append]; omega
    rw [exec_bind, hexec] at hrun ⊢
    exact (h _ hus _ _ (hlength hi) (hlength hj)).same (Nat.lt_succ_self _) hnext hi hj hrun hleft

/-- A bound on the rounds does not matter if it is not less than the number of tokens. -/
theorem rounds {ι : Type} {P Q : Nat → ι → Parser α} (hzero : ∀ x, Local 0 (P 0 x) (P 0 x))
    (hsucc : ∀ {d' r r'}, d' ≤ d → d' ≤ r + 1 → d' ≤ r' + 1 →
      (∀ x, Local (d' - 1) (P r x) (Q r' x)) → ∀ x, Local d' (P (r + 1) x) (Q (r' + 1) x))
    {r r' : Nat} (hr : d ≤ r) (hr' : d ≤ r') (x : ι) : Local d (P r x) (Q r' x) := by
  suffices h : ∀ r r' d', d' ≤ d → d' ≤ r → d' ≤ r' → ∀ x, Local d' (P r x) (Q r' x) from
    h r r' d le_rfl hr hr' x
  intro r
  induction r with
  | zero =>
    intro r' d' _ hr _ x
    obtain rfl := Nat.le_zero.mp hr
    exact (hzero x).zero _
  | succ r ih =>
    intro r' d' hd hr hr' x
    cases r' with
    | zero =>
      obtain rfl := Nat.le_zero.mp hr'
      have hfirst : Local 0 (P (r + 1) x) (Q (0 + 1) x) :=
        hsucc (Nat.zero_le d) (Nat.zero_le _) (Nat.zero_le _)
          (ih 0 0 (Nat.zero_le d) (Nat.zero_le _) le_rfl) x
      exact hfirst.zero _
    | succ r' => exact hsucc hd hr hr' (ih r' (d' - 1) (by omega) (by omega) (by omega)) x

section Basic

variable {t : Token}

theorem eat_bind {f g : Bool → Parser β} (htrue : Local (d - 1) (f true) (g true))
    (hfalse : Local d (f false) (g false)) : Local d (eat t >>= f) (eat t >>= g) := by
  unfold eat
  rw [bind_assoc, bind_assoc]
  refine next_bind fun l => ?_
  cases l with
  | none => simpa using hfalse
  | some l =>
    by_cases hl : l.token = t
    · simp only [hl, if_true, bind_assoc, pure_bind]
      exact .advance_bind htrue
    · simpa only [hl, if_false, pure_bind] using hfalse

theorem expect_bind {e : Expected} {f g : Unit → Parser β} (h : Local (d - 1) (f ()) (g ())) :
    Local d (expect t e >>= f) (expect t e >>= g) := by
  unfold expect
  rw [bind_assoc, bind_assoc]
  refine eat_bind ?_ ?_
  · simpa using h
  · simpa [fail_bind] using fail e

theorem ident_bind {f g : String → Parser β} (h : ∀ x, Local (d - 1) (f x) (g x)) :
    Local d (ident >>= f) (ident >>= g) := by
  unfold ident
  rw [bind_assoc, bind_assoc]
  refine next_bind fun l => ?_
  rcases l with _ | ⟨t, start, stop⟩
  · simpa [fail_bind] using fail .ident
  · cases t with
    | ident x =>
      simp only [bind_assoc, pure_bind]
      exact .advance_bind (h x)
    | _ => simpa only [fail_bind] using fail .ident

end Basic

section Lists

variable {item item' : Parser α} {close : Mark} {e : Expected}

theorem items (hitem : Local d item item') {r r' : Nat} (hr : d ≤ r) (hr' : d ≤ r') :
    Local d (items item close e r) (items item' close e r') := by
  refine rounds (P := fun r (_ : Unit) => Parser.items item close e r)
    (Q := fun r _ => Parser.items item' close e r) (fun _ => fail e) ?_ hr hr' ()
  intro d' r r' hd _ _ ih _
  refine (hitem.mono hd).bind fun a => eat_bind (pure _) (eat_bind ?_ (fail e))
  exact (ih ()).bind fun as => pure _

theorem list (hitem : Local d item item') : Local d (list item close e) (list item' close e) :=
  eat_bind (pure _) (budget_bind fun _ hd _ _ hr hr' => (hitem.mono hd).items hr hr')

end Lists

end Local

/-! ## Types -/

theorem local_typeAtom {p q : Parser SimpleType} (h : Local (d - 1) p q) :
    Local d (typeAtom p) (typeAtom q) := by
  refine .next_bind fun l => ?_
  rcases l with _ | ⟨t, start, stop⟩
  · exact .fail _
  · cases t with
    | ident s => exact .advance_bind (.pure _)
    | mark m =>
      cases m with
      | openParen => exact .advance_bind (h.bind fun τ => .expect_bind (.pure _))
      | _ => exact .fail _
    | _ => exact .fail _

theorem local_typeWithin {r r' : Nat} (hr : d ≤ r) (hr' : d ≤ r') :
    Local d (typeWithin r) (typeWithin r') := by
  refine .rounds (P := fun r (_ : Unit) => typeWithin r) (Q := fun r _ => typeWithin r)
    (fun _ => .fail _) ?_ hr hr' ()
  intro d' r r' _ _ _ ih _
  simp only [typeWithin_succ]
  exact (local_typeAtom (ih ())).bind fun σ => .eat_bind ((ih ()).bind fun τ => .pure _) (.pure _)

theorem local_type : Local d type type :=
  .budget_bind fun _ _ _ _ hr hr' => local_typeWithin hr hr'

/-! ## Terms -/

theorem local_atom {p q : Parser Expr} (h : Local (d - 1) p q) : Local d (atom p) (atom q) := by
  have hlater : Local (d - 1 - 1) p q := h.mono (Nat.sub_le _ _)
  refine .next_bind fun l => ?_
  rcases l with _ | ⟨t, start, stop⟩
  · exact .fail _
  · cases t with
    | ident x =>
      refine .advance_bind (.next_bind fun l => ?_)
      rcases l with _ | ⟨t, start', stop'⟩
      · exact .pure _
      · cases t with
        | mark m =>
          cases m with
          | openBracket =>
            by_cases hs : start' = stop
            · simp only [hs, if_true]
              exact .advance_bind (hlater.list.bind fun args => .pure _)
            · simp only [hs, if_false]
              exact .pure _
          | _ => exact .pure _
        | _ => exact .pure _
    | int n | string s => exact .advance_bind (.pure _)
    | keyword w =>
      cases w with
      | true | false => exact .advance_bind (.pure _)
      | _ => exact .fail _
    | mark m =>
      cases m with
      | openParen => exact .advance_bind (h.bind fun t => .expect_bind (.pure _))
      | _ => exact .fail _
    | _ => exact .fail _

theorem local_arguments {p q : Parser Expr} (h : Local (d - 1) p q) {r r' : Nat} (hr : d ≤ r)
    (hr' : d ≤ r') (t : Expr) : Local d (arguments p r t) (arguments q r' t) := by
  refine .rounds (fun t => .pure t) ?_ hr hr' t
  intro d' r r' hd _ _ ih t
  exact .eat_bind ((h.mono (by omega)).list.bind fun args => ih _) (.pure t)

theorem local_termWithin {r r' : Nat} (hr : d ≤ r) (hr' : d ≤ r') :
    Local d (termWithin r) (termWithin r') := by
  refine .rounds (P := fun r (_ : Unit) => termWithin r) (Q := fun r _ => termWithin r)
    (fun _ => .fail _) ?_ hr hr' ()
  intro d' r r' _ _ _ ih _
  refine .eat_bind (.ident_bind fun x => .expect_bind ?_) ?_
  · refine local_type.bind fun ty => .expect_bind ?_
    exact ((ih ()).mono (by omega)).bind fun body => .pure _
  · refine (local_atom (ih ())).bind fun t => .budget_bind fun d'' hd r r' hr hr' => ?_
    exact local_arguments ((ih ()).mono (by omega)) hr hr' t

theorem local_term : Local d term term :=
  .budget_bind fun _ _ _ _ hr hr' => local_termWithin hr hr'

/-! ## Commands -/

theorem local_pair : Local d pair pair :=
  local_term.bind fun _ => .expect_bind (local_term.bind fun _ => .pure _)

theorem local_image : Local d image image :=
  .ident_bind fun _ => .expect_bind (local_term.bind fun _ => .pure _)

theorem local_commandBody (t : Token) : Local d (commandBody t) (commandBody t) := by
  have hdeclared : ∀ {β : Type} {d} {f : String → Parser β}, (∀ x d', Local d' (f x) (f x)) →
      Local d (do let x ← ident; expect (.mark .colon) .colon; f x)
        (do let x ← ident; expect (.mark .colon) .colon; f x) :=
    fun hf => .ident_bind fun x => .expect_bind (hf x _)
  cases t with
  | ident c => exact hdeclared fun c d' => local_type.bind fun ty => .pure _
  | keyword w =>
    cases w with
    | var => exact .advance_bind (hdeclared fun x d' => local_type.bind fun ty => .pure _)
    | metaVar =>
      refine .advance_bind (hdeclared fun z d' => .eat_bind ?_ ?_)
      · refine local_type.list.bind fun inputs => .expect_bind ?_
        exact local_type.bind fun output => .pure _
      · exact local_type.bind fun output => .pure _
    | matching | unify | alpha => exact .advance_bind (local_pair.bind fun st => .pure _)
    | subst =>
      refine .advance_bind (local_term.bind fun t => .expect_bind ?_)
      exact local_image.list.bind fun images => .pure _
    | positions => exact .advance_bind (local_term.bind fun t => .pure _)
    | _ => exact .fail _
  | _ => exact .fail _

theorem local_command : Local d command command := by
  refine .next_bind fun l => ?_
  cases l with
  | none => exact .pure _
  | some l => exact (local_commandBody l.token).bind fun c => .expect_bind (.pure _)

theorem drops_command : Drops command := fun i => (local_command (d := 0)).left i |>.tokens

/-- A run that leaves a token is the same on every input that starts with the tokens that it took
and this one. -/
theorem Local.exec {p : Parser α} (h : ∀ d, Local d p p) {us ls ls' : List Lexeme} {l : Lexeme}
    {i i' j : Input} {r : Except ParseError α} (hi : i.tokens = us ++ l :: ls)
    (hj : j.tokens = us ++ l :: ls') (hexec : p.exec i = (r, i')) (hleft : i'.tokens = l :: ls) :
    ∃ j', p.exec j = (r, j') ∧ j'.tokens = l :: ls' :=
  (h (us.length + 1)).same (Nat.lt_succ_self _) ⟨l, rfl, rfl⟩ hi hj hexec hleft

end Parser

end TermAlgebra.Language
