import TermAlgebra.Proofs.Grammar

/-!
# Printing

The text of a readable tree turns into words that spell the tree.
-/

namespace TermAlgebra.Language

open Word

/-- The text turns into words that spell the tree. -/
def Spelled {α : Type} (Spells : List Word → α → Prop) (text : String) (a : α) : Prop :=
  ∃ w, Reads Delimited text.toList w ∧ Spells w a

section Lists

variable {α : Type} {Spells : List Word → α → Prop}

theorem toList_commaSeparated (text : String) (texts : List String) :
    (commaSeparated (text :: texts)).toList =
      if texts = [] then text.toList
      else text.toList ++ ([','] ++ ' ' :: (commaSeparated texts).toList) := by
  cases texts with
  | nil => simp [commaSeparated]
  | cons text' texts =>
    simp only [commaSeparated, String.toList_intercalate, List.map_cons]
    simp [List.intercalate]

theorem spelled_listed {texts : List String} {as : List α}
    (h : List.Forall₂ (Spelled Spells) texts as) (hne : texts ≠ []) :
    Spelled (Listed Spells) (commaSeparated texts) as := by
  induction h with
  | nil => exact absurd rfl hne
  | @cons text a texts as ha htail ih =>
    obtain ⟨w, hw, ha⟩ := ha
    rw [Spelled, toList_commaSeparated]
    split
    · next hnil =>
      subst hnil
      cases htail
      exact ⟨w, hw, .single ha⟩
    · next hcons =>
      obtain ⟨v, hv, has⟩ := ih hcons
      refine ⟨w ++ mark .comma :: v, hw.append ?_ ?_, .cons ha has⟩
      · exact (Reads.mark (m := .comma) rfl).append hv.blank fun _ _ => trivial
      · exact fun rest _ => delimited_cons (by decide) _

theorem spelled_items {texts : List String} {as : List α}
    (h : List.Forall₂ (Spelled Spells) texts as) :
    Spelled (Items Spells) (commaSeparated texts) as := by
  cases texts with
  | nil =>
    cases h
    exact ⟨[], fun behind rest hrest => scan_of_delimited hrest behind, .none⟩
  | cons text texts =>
    obtain ⟨w, hw, has⟩ := spelled_listed h nofun
    exact ⟨w, hw, .some has⟩

theorem spelled_map {text : α → String} {as : List α}
    (h : ∀ a ∈ as, Spelled Spells (text a) a) :
    Spelled (Items Spells) (commaSeparated (as.map text)) as :=
  spelled_items (List.forall₂_map_left_iff.mpr (List.forall₂_same.mpr h))

end Lists

/-- A text in parentheses. -/
theorem spelled_paren {α : Type} {Spells : List Word → α → Prop} {text : String} {a : α}
    (h : Spelled Spells text a) (hopens : ∀ w, Spells w a → Opens w) :
    ∃ w, Spells w a ∧ Reads Delimited ("(" ++ text ++ ")").toList
      (mark .openParen :: (w ++ [mark .closeParen])) := by
  obtain ⟨w, hw, ha⟩ := h
  have hread := hw.paren ((hopens w ha).underlying_ne rfl _)
  refine ⟨w, ha, ?_⟩
  simpa [String.toList_append] using hread.weaken fun rest _ => trivial

theorem spelled_typeText {τ : SimpleType} (h : isReadableType τ) :
    Spelled TypePhrase (typeText τ) τ := by
  induction τ with
  | base s => exact ⟨_, .name h, .atom (.base s)⟩
  | arrow σ τ ihσ ihτ =>
    rw [isReadableType, Bool.and_eq_true] at h
    have hinput : Spelled TypeAtom
        (if σ.isBase then typeText σ else "(" ++ typeText σ ++ ")") σ := by
      cases σ with
      | base s => exact ⟨_, .name h.1, .base s⟩
      | arrow _ _ =>
        obtain ⟨w, hσ, hw⟩ := spelled_paren (ihσ h.1) fun _ => TypePhrase.opens
        exact ⟨_, hw, .paren hσ⟩
    obtain ⟨w, hw, hσ⟩ := hinput
    obtain ⟨v, hv, hτ⟩ := ihτ h.2
    refine ⟨_, ?_, .arrow hσ hτ⟩
    simpa [typeText, String.toList_append, Mark.text] using hw.between .arrow hv

theorem spelled_literalText {v : Literal} (h : isReadableLiteral v) :
    Spelled TermAtom (literalText v) (.literal v) := by
  refine ⟨_, ?_, .literal v⟩
  cases v with
  | int n => exact .int n
  | bool b =>
    cases b with
    | false => exact .keyword .false
    | true => exact .keyword .true
  | string s => simpa [literalText, literalToken, String.toList_append] using Reads.string h

/-- A head of an application: only an abstraction is put into parentheses. -/
def headText (t : Expr) : String := if t.isLambda then "(" ++ t.text ++ ")" else t.text

theorem spelled_of_atom {t : Expr} {text : String} (h : Spelled TermAtom text t) :
    Spelled TermPhrase text t := by
  obtain ⟨w, hw, ht⟩ := h
  exact ⟨w, hw, by simpa using TermPhrase.calls ht (.nil t)⟩

theorem apply_eq_app {head : Expr} {args : List Expr} (hhead : head.isApp = false)
    (hargs : args.isEmpty = false) : head.apply args = .app head args := by
  cases head with
  | app _ _ => cases hhead
  | _ => simp [Expr.apply, hargs]

mutual

theorem spelled_text : (t : Expr) → t.isReadable →
    Spelled TermPhrase t.text t ∧ (t.isApp = false → Spelled TermAtom (headText t) t)
  | .name x, h => by
    have hatom : Spelled TermAtom x (.name x) := ⟨_, .name h, .name x⟩
    exact ⟨spelled_of_atom hatom, fun _ => hatom⟩
  | .literal v, h => by
    have hatom := spelled_literalText h
    exact ⟨spelled_of_atom hatom, fun _ => hatom⟩
  | .app head args, h => by
    simp only [Expr.isReadable, Bool.and_eq_true, Bool.not_eq_true'] at h
    obtain ⟨w, hw, hhead⟩ := (spelled_text head h.1.1.1).2 h.1.1.2
    obtain ⟨v, hv, hargs⟩ := spelled_items (spelled_texts args h.2)
    refine ⟨?_, nofun⟩
    have hcalls := Calls.cons hargs (.nil (head.apply args))
    rw [apply_eq_app h.1.1.2 h.1.2] at hcalls
    refine ⟨_, ?_, .calls hhead hcalls⟩
    have hclose : ∀ w ∈ [mark .closeParen].head?, w.underlying ≠ .unknown := by
      rintro _ ⟨⟩
      exact nofun
    have hfirst := hargs.underlying_ne (fun _ _ => TermPhrase.opens) rfl hclose
    -- The parenthesis ends the head and attaches nothing, so the two texts may touch.
    have hread := hw.append (hv.paren hfirst) fun _ _ => delimited_cons (by decide) _
    simpa [Expr.text, headText, String.toList_append] using hread.weaken fun _ _ => trivial
  | .metaApp z args, h => by
    simp only [Expr.isReadable, Bool.and_eq_true] at h
    obtain ⟨w, hw, hargs⟩ := spelled_items (spelled_texts args h.2)
    have hatom : Spelled TermAtom (z ++ "[" ++ commaSeparated (Expr.texts args) ++ "]")
        (.metaApp z args) := by
      refine ⟨_, ?_, .metaApp z hargs⟩
      simpa [String.toList_append] using (hw.brackets h.1).weaken fun _ _ => trivial
    exact ⟨spelled_of_atom hatom, fun _ => hatom⟩
  | .lambda x ty body, h => by
    simp only [Expr.isReadable, Bool.and_eq_true] at h
    obtain ⟨w, hw, hty⟩ := spelled_typeText h.1.2
    obtain ⟨v, hv, hbody⟩ := (spelled_text body h.2).1
    have hlambda : Spelled TermPhrase (Expr.lambda x ty body).text (.lambda x ty body) := by
      refine ⟨_, ?_, .lambda hty hbody⟩
      have hread := (Reads.mark (m := .backslash) rfl).append
        ((Reads.name h.1.1).between .colon (hw.between .fatArrow hv)) fun _ _ => trivial
      simpa [Expr.text, String.toList_append, Mark.text] using hread
    refine ⟨hlambda, fun _ => ?_⟩
    obtain ⟨w, hw, hread⟩ := spelled_paren hlambda fun _ => TermPhrase.opens
    exact ⟨_, hread, .paren hw⟩

theorem spelled_texts : (ts : List Expr) → Expr.areReadable ts →
    List.Forall₂ (Spelled TermPhrase) (Expr.texts ts) ts
  | [], _ => .nil
  | t :: ts, h => by
    rw [Expr.areReadable, Bool.and_eq_true] at h
    exact .cons (spelled_text t h.1).1 (spelled_texts ts h.2)

end

theorem spelled_image {i : String × Expr} (h : isName i.1 && i.2.isReadable) :
    Spelled ImagePhrase (i.1 ++ " := " ++ i.2.text) i := by
  rw [Bool.and_eq_true] at h
  obtain ⟨w, hw, ht⟩ := (spelled_text i.2 h.2).1
  refine ⟨_, ?_, .mk ht⟩
  simpa [String.toList_append, Mark.text] using (Reads.name h.1).between .colonEq hw

/-! ## Commands -/

/-- A keyword with a text behind it. -/
theorem Reads.command {required : List Char → Prop} {cs : List Char} {ws : List Word} (k : Keyword)
    (h : Reads required cs ws) :
    Reads required (k.text.toList ++ ' ' :: cs) (Word.keyword k :: ws) :=
  (Reads.keyword k).append h.blank fun _ _ => delimited_cons (by decide) _

/-- An opening bracket behind a blank is attached to nothing. -/
theorem Reads.openBracket : Reads (fun _ => True) [' ', '['] [Word.mark .openBracket] := by
  intro behind rest _
  rw [List.cons_append, scan_blank, List.singleton_append, scan_bracket, List.singleton_append]

theorem Reads.colonBracket :
    Reads (fun _ => True) [' ', ':', ' ', '['] [Word.mark .colon, Word.mark .openBracket] := by
  intro behind rest _
  have hcolon := Reads.padded .colon behind ('[' :: rest) trivial
  rw [scan_bracket] at hcolon
  exact hcolon

theorem spelled_pair (k : Keyword) {s t : Expr} (h : s.isReadable && t.isReadable) :
    ∃ w v, TermPhrase w s ∧ TermPhrase v t ∧
      Reads Delimited (k.text ++ " " ++ s.text ++ " with " ++ t.text).toList
        (keyword k :: (w ++ keyword .against :: v)) := by
  rw [Bool.and_eq_true] at h
  obtain ⟨w, hw, hs⟩ := (spelled_text s h.1).1
  obtain ⟨v, hv, ht⟩ := (spelled_text t h.2).1
  refine ⟨w, v, hs, ht, ?_⟩
  have hread := hw.append (hv.command .against).blank fun _ _ => delimited_cons (by decide) _
  simpa [String.toList_append, Keyword.text] using hread.command k

/-- The text of a command, and the words that it turns into in front of any other text. -/
theorem reads_commandText {c : Command} (h : c.isReadable) :
    ∃ w, Sentence w c ∧ Reads (fun _ => True) c.text.toList w := by
  suffices hbody : ∃ w text, CommandPhrase w c ∧ c.text = text ++ "." ∧
      Reads Delimited text.toList w by
    obtain ⟨w, text, hc, htext, hw⟩ := hbody
    refine ⟨_, .mk hc, ?_⟩
    rw [htext, String.toList_append]
    exact hw.append (Reads.mark (m := .period) rfl) fun _ _ =>
      delimited_cons (by decide) _
  cases c with
  | const c ty =>
    simp only [Command.isReadable, Bool.and_eq_true] at h
    obtain ⟨w, hw, hty⟩ := spelled_typeText h.2
    refine ⟨_, _, .const hty, rfl, ?_⟩
    simpa [String.toList_append, Mark.text] using (Reads.name h.1).between .colon hw
  | var x ty =>
    simp only [Command.isReadable, Bool.and_eq_true] at h
    obtain ⟨w, hw, hty⟩ := spelled_typeText h.2
    refine ⟨_, _, .var hty, rfl, ?_⟩
    have hread := ((Reads.name h.1).between .colon hw).command .var
    simpa [String.toList_append, Mark.text, Keyword.text] using hread
  | metaVar z inputs output =>
    simp only [Command.isReadable, Bool.and_eq_true, List.all_eq_true] at h
    obtain ⟨w, hw, hin⟩ := spelled_map fun τ hτ => spelled_typeText (h.1.2 τ hτ)
    obtain ⟨v, hv, hout⟩ := spelled_typeText h.2
    refine ⟨_, _, .metaVar hin hout, rfl, ?_⟩
    have houtput := (Reads.mark (m := .closeBracket) rfl).append
      ((Reads.padded .arrow).append hv fun _ _ => trivial) fun _ _ => trivial
    have hinputs := Reads.colonBracket.append
      (hw.append houtput fun _ _ => delimited_cons (by decide) _) fun _ _ => trivial
    have hread := (Reads.name h.1.1).append hinputs fun _ _ => delimited_cons (by decide) _
    simpa [String.toList_append, Keyword.text, Mark.text] using hread.command .metaVar
  | matching s t =>
    obtain ⟨w, v, hs, ht, hread⟩ := spelled_pair .matching h
    exact ⟨_, _, .matching hs ht, rfl, hread⟩
  | unify s t =>
    obtain ⟨w, v, hs, ht, hread⟩ := spelled_pair .unify h
    exact ⟨_, _, .unify hs ht, rfl, hread⟩
  | alpha s t =>
    obtain ⟨w, v, hs, ht, hread⟩ := spelled_pair .alpha h
    exact ⟨_, _, .alpha hs ht, rfl, hread⟩
  | subst t images =>
    simp only [Command.isReadable, Bool.and_eq_true, List.all_eq_true] at h
    obtain ⟨w, hw, ht⟩ := (spelled_text t h.1).1
    obtain ⟨v, hv, himages⟩ := spelled_map fun i hi => spelled_image (by simpa using h.2 i hi)
    refine ⟨_, _, .subst ht himages, rfl, ?_⟩
    have hlist := hv.append (Reads.mark (m := .closeBracket) rfl)
      fun _ _ => delimited_cons (by decide) _
    have hread := hw.append (Reads.openBracket.append hlist fun _ _ => trivial)
      fun _ _ => delimited_cons (by decide) _
    simpa [String.toList_append, Keyword.text, Mark.text] using
      (hread.command .subst).weaken fun _ _ => trivial
  | positions t =>
    obtain ⟨w, hw, ht⟩ := (spelled_text t h).1
    refine ⟨_, _, .positions ht, rfl, ?_⟩
    simpa [String.toList_append, Keyword.text] using hw.command .positions

end TermAlgebra.Language
