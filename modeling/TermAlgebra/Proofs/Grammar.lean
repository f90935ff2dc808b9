import TermAlgebra.Proofs.Words

/-!
# Grammar

Which words spell which types, terms and commands. A list has no trailing comma, arrows associate
to the right, the body of an abstraction extends as far as possible, and the argument lists behind
an atom are joined into one application. Readable trees are those that have a spelling in lexical
words; they are computed. Main statement: the tree spelled by lexical words is readable.
-/

namespace TermAlgebra.Language

open Word

section Lists

variable {α : Type} (Spells : List Word → α → Prop)

inductive Listed : List Word → List α → Prop where
  | single {w a} : Spells w a → Listed w [a]
  | cons {w v a as} : Spells w a → Listed v as → Listed (w ++ mark .comma :: v) (a :: as)

/-- A list that may be empty. -/
inductive Items : List Word → List α → Prop where
  | none : Items [] []
  | some {w as} : Listed Spells w as → Items w as

end Lists

mutual

inductive TypePhrase : List Word → SimpleType → Prop where
  | atom {w τ} : TypeAtom w τ → TypePhrase w τ
  | arrow {w v σ τ} : TypeAtom w σ → TypePhrase v τ →
      TypePhrase (w ++ mark .arrow :: v) (.arrow σ τ)

inductive TypeAtom : List Word → SimpleType → Prop where
  | base (s) : TypeAtom [name s] (.base s)
  | paren {w τ} : TypePhrase w τ → TypeAtom (mark .openParen :: (w ++ [mark .closeParen])) τ

end

def literalToken : Literal → Token
  | .int n => .int n
  | .bool true => .keyword .true
  | .bool false => .keyword .false
  | .string s => .string s

mutual

inductive TermPhrase : List Word → Expr → Prop where
  | lambda {w v x ty body} : TypePhrase w ty → TermPhrase v body →
      TermPhrase (mark .backslash :: name x :: mark .colon :: (w ++ mark .fatArrow :: v))
        (.lambda x ty body)
  | calls {w v t u} : TermAtom w t → Calls v t u → TermPhrase (w ++ v) u

inductive TermAtom : List Word → Expr → Prop where
  | name (x) : TermAtom [name x] (.name x)
  | literal (v) : TermAtom [token (literalToken v)] (.literal v)
  | paren {w t} : TermPhrase w t → TermAtom (mark .openParen :: (w ++ [mark .closeParen])) t
  | metaApp (z) {w args} : Items TermPhrase w args →
      TermAtom (Word.name z :: attached :: (w ++ [mark .closeBracket])) (.metaApp z args)

/-- Argument lists behind the term `t` make it the term `u`. -/
inductive Calls : List Word → Expr → Expr → Prop where
  | nil (t) : Calls [] t t
  | cons {w v t u args} : Items TermPhrase w args → Calls v (t.apply args) u →
      Calls (mark .openParen :: (w ++ mark .closeParen :: v)) t u

end

inductive ImagePhrase : List Word → String × Expr → Prop where
  | mk {w x t} : TermPhrase w t → ImagePhrase (name x :: mark .colonEq :: w) (x, t)

/-- A command without its period. -/
inductive CommandPhrase : List Word → Command → Prop where
  | const {w c ty} : TypePhrase w ty → CommandPhrase (name c :: mark .colon :: w) (.const c ty)
  | var {w x ty} : TypePhrase w ty →
      CommandPhrase (keyword .var :: name x :: mark .colon :: w) (.var x ty)
  | metaVar {w v z inputs output} : Items TypePhrase w inputs → TypePhrase v output →
      CommandPhrase
        (keyword .metaVar :: name z :: mark .colon :: mark .openBracket ::
          (w ++ mark .closeBracket :: mark .arrow :: v))
        (.metaVar z inputs output)
  | plainMetaVar {v z output} : TypePhrase v output →
      CommandPhrase (keyword .metaVar :: name z :: mark .colon :: v) (.metaVar z [] output)
  | matching {w v p o} : TermPhrase w p → TermPhrase v o →
      CommandPhrase (keyword .matching :: (w ++ keyword .against :: v)) (.matching p o)
  | unify {w v s t} : TermPhrase w s → TermPhrase v t →
      CommandPhrase (keyword .unify :: (w ++ keyword .against :: v)) (.unify s t)
  | alpha {w v s t} : TermPhrase w s → TermPhrase v t →
      CommandPhrase (keyword .alpha :: (w ++ keyword .against :: v)) (.alpha s t)
  | subst {w v t images} : TermPhrase w t → Items ImagePhrase v images →
      CommandPhrase (keyword .subst :: (w ++ mark .openBracket :: (v ++ [mark .closeBracket])))
        (.subst t images)
  | positions {w t} : TermPhrase w t → CommandPhrase (keyword .positions :: w) (.positions t)

inductive Sentence : List Word → Command → Prop where
  | mk {w c} : CommandPhrase w c → Sentence (w ++ [mark .period]) c

/-! ## First words -/

/-- The word may be the first of a type, a term or an image. -/
def Word.opens : Word → Bool
  | token (.ident _) => true
  | token (.int _) => true
  | token (.string _) => true
  | token (.keyword .true) => true
  | token (.keyword .false) => true
  | token (.mark .backslash) => true
  | token (.mark .openParen) => true
  | _ => false

theorem Word.eq_token_of_opens {w : Word} (h : w.opens) : w = token w.underlying := by
  cases w with
  | token t => rfl
  | attached => cases h

def Opens (ws : List Word) : Prop := ∃ w vs, ws = w :: vs ∧ w.opens

theorem Opens.append {ws : List Word} (h : Opens ws) (vs : List Word) : Opens (ws ++ vs) := by
  obtain ⟨w, us, rfl, hw⟩ := h
  exact ⟨w, us ++ vs, rfl, hw⟩

theorem Opens.underlying_ne {ws : List Word} (h : Opens ws) {t : Token}
    (ht : (token t).opens = false) (vs : List Word) :
    ∀ w ∈ (ws ++ vs).head?, w.underlying ≠ t := by
  obtain ⟨w, us, rfl, hw⟩ := h
  rintro _ ⟨⟩ rfl
  rw [eq_token_of_opens hw, ht] at hw
  cases hw

theorem TypeAtom.opens {w : List Word} {τ : SimpleType} (h : TypeAtom w τ) : Opens w := by
  cases h <;> exact ⟨_, _, rfl, rfl⟩

theorem TypePhrase.opens {w : List Word} {τ : SimpleType} (h : TypePhrase w τ) : Opens w := by
  cases h with
  | atom h => exact h.opens
  | arrow h _ => exact h.opens.append _

theorem TermAtom.opens {w : List Word} {t : Expr} (h : TermAtom w t) : Opens w := by
  cases h with
  | literal v => exact ⟨_, _, rfl, by cases v with | bool b => cases b <;> rfl | _ => rfl⟩
  | _ => exact ⟨_, _, rfl, rfl⟩

theorem TermPhrase.opens {w : List Word} {t : Expr} (h : TermPhrase w t) : Opens w := by
  cases h with
  | lambda _ _ => exact ⟨_, _, rfl, rfl⟩
  | calls h _ => exact h.opens.append _

theorem ImagePhrase.opens {w : List Word} {i : String × Expr} (h : ImagePhrase w i) :
    Opens w := by
  cases h
  exact ⟨_, _, rfl, rfl⟩

theorem Listed.opens {α : Type} {Spells : List Word → α → Prop}
    (h : ∀ v a, Spells v a → Opens v) {w : List Word} {as : List α} (hlist : Listed Spells w as) :
    Opens w := by
  cases hlist with
  | single ha => exact h _ _ ha
  | cons ha _ => exact (h _ _ ha).append _

theorem Items.underlying_ne {α : Type} {Spells : List Word → α → Prop}
    (hopens : ∀ v a, Spells v a → Opens v) {ws : List Word} {as : List α} (h : Items Spells ws as)
    {t : Token} (ht : (token t).opens = false) {vs : List Word}
    (hvs : ∀ w ∈ vs.head?, w.underlying ≠ t) : ∀ w ∈ (ws ++ vs).head?, w.underlying ≠ t := by
  cases h with
  | none => exact hvs
  | some h => exact (h.opens hopens).underlying_ne ht vs

/-! ## Words behind a phrase -/

namespace Mark

def closes : Mark → Bool
  | closeBracket => true
  | closeParen => true
  | _ => false

/-- The mark may follow an item of a list. -/
def endsItem (m : Mark) : Bool := m.closes || m == comma

theorem endsItem_of_closes {m : Mark} (h : m.closes) : m.endsItem := by simp [endsItem, h]

end Mark

/-- The words do not prolong a type before them. -/
def EndType (vs : List Word) : Prop := ∀ w ∈ vs.head?, w.underlying ≠ .mark .arrow

theorem endType_cons {t : Token} (h : t ≠ .mark .arrow) (us : List Word) :
    EndType (token t :: us) := by
  rintro _ ⟨⟩
  exact h

/-- The words do not prolong a name before them. -/
def EndName (vs : List Word) : Prop := ∀ w ∈ vs.head?, w ≠ attached

/-- The words do not prolong a term before them. -/
def EndTerm (vs : List Word) : Prop :=
  ∀ w ∈ vs.head?, w ≠ attached ∧ w.underlying ≠ .mark .openParen

theorem endTerm_cons {t : Token} (h : t ≠ .mark .openParen) (us : List Word) :
    EndTerm (token t :: us) := by
  rintro _ ⟨⟩
  exact ⟨nofun, h⟩

theorem endTerm_of_endsItem (m : Mark) (us : List Word) (h : m.endsItem) :
    EndTerm (mark m :: us) := by
  refine endTerm_cons ?_ us
  rintro ⟨⟩
  cases h

theorem endType_of_endsItem (m : Mark) (us : List Word) (h : m.endsItem) :
    EndType (mark m :: us) := by
  refine endType_cons ?_ us
  rintro ⟨⟩
  cases h

theorem EndTerm.endName {vs : List Word} (h : EndTerm vs) : EndName vs := fun w hw => (h w hw).1

theorem EndTerm.endName_calls {ws vs : List Word} {t u : Expr} (hvs : EndTerm vs)
    (h : Calls ws t u) : EndName (ws ++ vs) := by
  cases h with
  | nil => exact hvs.endName
  | cons _ _ =>
    rintro _ ⟨⟩
    exact nofun

theorem head_ne_backslash_of_termAtom {ws vs : List Word} {t : Expr} (h : TermAtom ws t) :
    ∀ w ∈ (ws ++ vs).head?, w.underlying ≠ .mark .backslash := by
  cases h with
  | literal v =>
    rintro _ ⟨⟩
    cases v with
    | bool b => cases b <;> exact nofun
    | _ => exact nofun
  | _ =>
    rintro _ ⟨⟩
    exact nofun

/-! ## Readable trees -/

def isReadableType : SimpleType → Bool
  | .base s => isName s
  | .arrow σ τ => isReadableType σ && isReadableType τ

def isReadableLiteral : Literal → Bool
  | .string s => isQuotable s
  | _ => true

namespace Expr

def isApp : Expr → Bool
  | app _ _ => true
  | _ => false

mutual

/-- Names are lexical, and an application has arguments and a head that is none itself. -/
def isReadable : Expr → Bool
  | name x => isName x
  | literal v => isReadableLiteral v
  | app head args => head.isReadable && !head.isApp && !args.isEmpty && areReadable args
  | metaApp z args => isName z && areReadable args
  | lambda x ty body => isName x && isReadableType ty && body.isReadable

def areReadable : List Expr → Bool
  | [] => true
  | t :: ts => t.isReadable && areReadable ts

end

theorem areReadable_append (ts us : List Expr) :
    areReadable (ts ++ us) = (areReadable ts && areReadable us) := by
  induction ts with
  | nil => rfl
  | cons t ts ih => rw [List.cons_append, areReadable, areReadable, ih, Bool.and_assoc]

theorem isReadable_apply {t : Expr} {args : List Expr} (ht : t.isReadable)
    (hargs : areReadable args) : (t.apply args).isReadable := by
  unfold apply
  split
  · exact ht
  · next hne =>
    split
    · next head init =>
      simp only [isReadable, Bool.and_eq_true] at ht
      simp_all [isReadable, areReadable_append]
    · next hhead =>
      have happ : t.isApp = false := by
        cases t with
        | app head init => exact absurd rfl (hhead head init)
        | _ => rfl
      simp [isReadable, ht, hargs, hne, happ]

end Expr

def Command.isReadable : Command → Bool
  | const c ty => isName c && isReadableType ty
  | var x ty => isName x && isReadableType ty
  | metaVar z inputs output => isName z && inputs.all isReadableType && isReadableType output
  | matching p o => p.isReadable && o.isReadable
  | unify s t => s.isReadable && t.isReadable
  | alpha s t => s.isReadable && t.isReadable
  | subst t images => t.isReadable && images.all fun i => isName i.1 && i.2.isReadable
  | positions t => t.isReadable

/-! ## What lexical words spell -/

variable {w : List Word}

theorem Listed.forall {α : Type} {Spells : List Word → α → Prop} {as : List α}
    (hlist : Listed Spells w as) {p : α → Bool}
    (h : ∀ v a, Spells v a → v.all Word.isLexical → p a) (hw : w.all Word.isLexical) :
    as.all p := by
  induction hlist with
  | single ha => simp [h _ _ ha hw]
  | cons ha _ ih =>
    simp only [List.all_append, List.all_cons, Bool.and_eq_true] at hw
    simp [h _ _ ha hw.1, ih hw.2.2]

theorem Items.forall {α : Type} {Spells : List Word → α → Prop} {as : List α}
    (hitems : Items Spells w as) {p : α → Bool}
    (h : ∀ v a, Spells v a → v.all Word.isLexical → p a) (hw : w.all Word.isLexical) :
    as.all p := by
  cases hitems with
  | none => rfl
  | some hlist => exact hlist.forall h hw

mutual

theorem TypePhrase.isReadable {w : List Word} {τ : SimpleType} :
    TypePhrase w τ → w.all Word.isLexical → isReadableType τ
  | .atom h, hw => h.isReadable hw
  | .arrow h h', hw => by
    simp only [List.all_append, List.all_cons, Bool.and_eq_true] at hw
    simp [isReadableType, h.isReadable hw.1, h'.isReadable hw.2.2]

theorem TypeAtom.isReadable {w : List Word} {τ : SimpleType} :
    TypeAtom w τ → w.all Word.isLexical → isReadableType τ
  | .base s, hw => by simpa [Word.isLexical, isReadableType] using hw
  | .paren h, hw => by
    simp only [List.all_append, List.all_cons, Bool.and_eq_true] at hw
    exact h.isReadable hw.2.1

end

theorem isReadableLiteral_of_isLexical {v : Literal}
    (h : (Word.token (literalToken v)).isLexical) : isReadableLiteral v := by
  cases v with
  | string s => exact h
  | _ => rfl

mutual

theorem TermPhrase.isReadable {w : List Word} {t : Expr} :
    TermPhrase w t → w.all Word.isLexical → t.isReadable
  | .lambda hty hbody, hw => by
    simp only [List.all_append, List.all_cons, Bool.and_eq_true] at hw
    have hx : isName _ := hw.2.1
    simp [Expr.isReadable, hx, hty.isReadable hw.2.2.2.1, hbody.isReadable hw.2.2.2.2.2]
  | .calls hatom hcalls, hw => by
    rw [List.all_append, Bool.and_eq_true] at hw
    exact hcalls.isReadable hw.2 (hatom.isReadable hw.1)

theorem TermAtom.isReadable {w : List Word} {t : Expr} :
    TermAtom w t → w.all Word.isLexical → t.isReadable
  | .name x, hw => by simpa [Word.isLexical, Expr.isReadable] using hw
  | .literal v, hw => by
    simp only [List.all_cons, List.all_nil, Bool.and_true] at hw
    rw [Expr.isReadable]
    exact isReadableLiteral_of_isLexical hw
  | .paren h, hw => by
    simp only [List.all_append, List.all_cons, Bool.and_eq_true] at hw
    exact h.isReadable hw.2.1
  | .metaApp z h, hw => by
    simp only [List.all_append, List.all_cons, Bool.and_eq_true] at hw
    have hz : isName z := hw.1
    simp [Expr.isReadable, hz, TermPhrase.areReadable_items h hw.2.2.1]

theorem Calls.isReadable {w : List Word} {t u : Expr} :
    Calls w t u → w.all Word.isLexical → t.isReadable → u.isReadable
  | .nil t, _, ht => ht
  | .cons hargs hcalls, hw, ht => by
    simp only [List.all_append, List.all_cons, Bool.and_eq_true] at hw
    have hreadable := Expr.isReadable_apply ht (TermPhrase.areReadable_items hargs hw.2.1)
    exact hcalls.isReadable hw.2.2.2 hreadable

theorem TermPhrase.areReadable_items {w : List Word} {ts : List Expr} :
    Items TermPhrase w ts → w.all Word.isLexical → Expr.areReadable ts
  | .none, _ => rfl
  | .some h, hw => TermPhrase.areReadable_listed h hw

theorem TermPhrase.areReadable_listed {w : List Word} {ts : List Expr} :
    Listed TermPhrase w ts → w.all Word.isLexical → Expr.areReadable ts
  | .single h, hw => by simp [Expr.areReadable, h.isReadable hw]
  | .cons h htail, hw => by
    simp only [List.all_append, List.all_cons, Bool.and_eq_true] at hw
    simp [Expr.areReadable, h.isReadable hw.1, TermPhrase.areReadable_listed htail hw.2.2]

end

theorem ImagePhrase.isReadable {i : String × Expr} (h : ImagePhrase w i)
    (hw : w.all Word.isLexical) : isName i.1 && i.2.isReadable := by
  cases h with
  | mk ht =>
    simp only [List.all_cons, Bool.and_eq_true] at hw
    have hx : isName _ := hw.1
    simp [hx, ht.isReadable hw.2.2]

theorem CommandPhrase.isReadable {c : Command} (h : CommandPhrase w c)
    (hw : w.all Word.isLexical) : c.isReadable := by
  cases h with
  | const hty | var hty =>
    simp only [List.all_cons, Bool.and_eq_true] at hw
    simp_all [Command.isReadable, Word.isLexical, hty.isReadable]
  | metaVar hin hout =>
    simp only [List.all_append, List.all_cons, Bool.and_eq_true] at hw
    have := hin.forall (fun _ _ => TypePhrase.isReadable) hw.2.2.2.2.1
    simp_all [Command.isReadable, Word.isLexical, hout.isReadable]
  | plainMetaVar hout =>
    simp only [List.all_cons, Bool.and_eq_true] at hw
    simp_all [Command.isReadable, Word.isLexical, hout.isReadable]
  | matching hs ht | unify hs ht | alpha hs ht =>
    simp only [List.all_append, List.all_cons, Bool.and_eq_true] at hw
    simp [Command.isReadable, hs.isReadable hw.2.1, ht.isReadable hw.2.2.2]
  | subst ht himages =>
    simp only [List.all_append, List.all_cons, Bool.and_eq_true] at hw
    have := himages.forall (fun _ _ => ImagePhrase.isReadable) hw.2.2.2.1
    rw [Command.isReadable, ht.isReadable hw.2.1, this, Bool.and_self]
  | positions ht =>
    simp only [List.all_cons, Bool.and_eq_true] at hw
    exact ht.isReadable hw.2

end TermAlgebra.Language
