import Mathlib
import TermAlgebra.Language.Parser

/-!
# Words

What a parser sees of a text: its tokens without their places, except that a bracket directly
behind an identifier is a word of its own. Printed texts are read back word by word: each piece
turns into its words as long as the text behind it does not prolong its last one. Main statements:
the words of a text are those of its tokens, and names in them are lexical.
-/

namespace TermAlgebra.Language

def Token.isIdent : Token → Bool
  | ident _ => true
  | _ => false

inductive Word where
  | token (t : Token)
  /-- An opening bracket directly behind an identifier. -/
  | attached
deriving DecidableEq

namespace Word

abbrev mark (m : Mark) : Word := token (.mark m)

abbrev keyword (k : Keyword) : Word := token (.keyword k)

abbrev name (x : String) : Word := token (.ident x)

def underlying : Word → Token
  | token t => t
  | attached => .mark .openBracket

end Word

/-- The word for a token; `behind` is the end of the identifier before it. -/
def Lexeme.word (behind : Option Nat) (l : Lexeme) : Word :=
  if l.token = .mark .openBracket ∧ behind = some l.start then .attached else .token l.token

/-- The end of a token that is an identifier. -/
def Lexeme.nameEnd (l : Lexeme) : Option Nat := if l.token.isIdent then some l.stop else none

def words (behind : Option Nat) : List Lexeme → List Word
  | [] => []
  | l :: ls => l.word behind :: words l.nameEnd ls

/-- The words of a text; `behind` says whether an identifier ends directly before it. -/
def scan (behind : Bool) : List Char → List Word
  | [] => []
  | c :: cs =>
    let first := firstToken c cs
    let rest := scan first.1.isIdent (cs.drop first.2)
    if first.1 = .blank then rest
    else (if first.1 = .mark .openBracket ∧ behind then .attached else .token first.1) :: rest
termination_by cs => cs.length
decreasing_by all_goals simp only [List.length_drop, List.length_cons]; omega

@[simp]
theorem scan_nil (behind : Bool) : scan behind [] = [] := by rw [scan]

theorem scan_cons (behind : Bool) (c : Char) (cs : List Char) :
    scan behind (c :: cs) =
      if (firstToken c cs).1 = .blank then
        scan (firstToken c cs).1.isIdent (cs.drop (firstToken c cs).2)
      else
        (if (firstToken c cs).1 = .mark .openBracket ∧ behind then .attached
          else .token (firstToken c cs).1) ::
            scan (firstToken c cs).1.isIdent (cs.drop (firstToken c cs).2) := by
  rw [scan]

@[simp]
theorem underlying_word (behind : Option Nat) (l : Lexeme) :
    (l.word behind).underlying = l.token := by
  unfold Lexeme.word
  split
  · next h => exact h.1.symm
  · rfl

@[simp]
theorem length_words (behind : Option Nat) (ls : List Lexeme) :
    (words behind ls).length = ls.length := by
  induction ls generalizing behind with
  | nil => rfl
  | cons l ls ih => simp [words, ih]

theorem solid_cons (l : Lexeme) (ls : List Lexeme) :
    solid (l :: ls) = if l.token = .blank then solid ls else l :: solid ls := by
  by_cases h : l.token = .blank <;> simp [solid, h]

theorem words_solid_tokensFrom {behind : Option Nat} {start : Nat} (cs : List Char)
    (h : ∀ stop, behind = some stop → stop ≤ start) :
    words behind (solid (tokensFrom start cs)) = scan (behind = some start) cs := by
  induction start, cs using tokensFrom.induct generalizing behind with
  | case1 start => simp [tokensFrom, solid, words]
  | case2 start c cs first =>
    rename_i ih
    have heq : tokensFrom start (c :: cs) = first.1 :: tokensFrom first.1.stop first.2 := by
      rw [tokensFrom]
    have htoken : (firstToken c cs).1 = first.1.token := rfl
    have hrest : cs.drop (firstToken c cs).2 = first.2 := rfl
    have hstart : first.1.start = start := rfl
    have hlt : start < first.1.stop := by
      have := Char.utf8Size_pos c
      simp only [first, firstLexeme, byteLength]
      omega
    rw [heq, solid_cons, scan_cons]
    simp only [htoken, hrest]
    split
    · next hblank =>
      -- A blank covers a byte at least, so nothing behind it is attached to what is before it.
      have hne : behind ≠ some first.1.stop := fun hs => by have := h _ hs; omega
      rw [ih fun stop hs => (h stop hs).trans hlt.le, hblank]
      simp [hne, Token.isIdent]
    · have hname : ∀ stop, first.1.nameEnd = some stop → stop ≤ first.1.stop := by
        intro stop hs
        simp only [Lexeme.nameEnd] at hs
        split at hs <;> simp_all
      rw [words, ih hname]
      simp [Lexeme.word, Lexeme.nameEnd, hstart]

/-- The words of a whole text. -/
theorem words_solidTokens (source : String) :
    words none (solidTokens source) = scan false source.toList := by
  rw [solidTokens, tokens, words_solid_tokensFrom source.toList (by simp)]
  simp

/-! ## Lexical words -/

/-- An identifier of the language: a word that is no keyword. -/
def isName (x : String) : Bool :=
  match x.toList with
  | [] => false
  | c :: cs => isNameStart c && cs.all isNamePart && (Keyword.ofText? x).isNone

/-- The language has no escapes, so a double quote ends every string. -/
def isQuotable (s : String) : Bool := s.toList.all (· ≠ '"')

def Word.isLexical : Word → Bool
  | token (.ident x) => isName x
  | token (.string s) => isQuotable s
  | _ => true

theorem take_run (p : Char → Bool) (cs : List Char) : cs.take (run p cs) = cs.takeWhile p := by
  induction cs with
  | nil => rfl
  | cons c cs ih =>
    by_cases h : p c <;> simp_all [run]

theorem drop_run (p : Char → Bool) (cs : List Char) : cs.drop (run p cs) = cs.dropWhile p := by
  induction cs with
  | nil => rfl
  | cons c cs ih =>
    by_cases h : p c <;> simp_all [run]

theorem isLexical_ofWord {c : Char} {cs : List Char} (hc : isNameStart c)
    (hcs : cs.all isNamePart) :
    (Word.token (.ofWord (String.ofList (c :: cs)))).isLexical := by
  unfold Token.ofWord
  split
  · rfl
  · next h =>
    simp only [Word.isLexical, isName, String.toList_ofList, hc, hcs, h, Option.isNone_none,
      Bool.and_self]

theorem isLexical_ofInt (n : Int) : (Word.token (.ofInt n)).isLexical := by
  unfold Token.ofInt
  split <;> rfl

theorem isLexical_firstToken (c : Char) (cs : List Char) :
    (Word.token (firstToken c cs).1).isLexical := by
  unfold firstToken
  split
  -- Left are comments, strings, negative numbers, and what does not start with punctuation.
  any_goals rfl
  · split <;> rfl
  · next cs =>
    dsimp only
    split
    · simp only [Word.isLexical, isQuotable, String.toList_ofList, take_run]
      exact List.all_takeWhile
    · rfl
  · dsimp only
    split
    · rfl
    · exact isLexical_ofInt _
  · dsimp only
    split
    · rfl
    split
    · exact isLexical_ofInt _
    split
    · next h =>
      rw [take_run]
      exact isLexical_ofWord h List.all_takeWhile
    · rfl

theorem isLexical_scan {behind : Bool} {cs : List Char} {w : Word} (h : w ∈ scan behind cs) :
    w.isLexical := by
  fun_induction scan behind cs with
  | case1 behind => simp at h
  | case2 behind c cs first rest hblank ih => exact ih h
  | case3 behind c cs first rest hblank ih =>
    rcases List.mem_cons.mp h with rfl | h
    · split
      · rfl
      · exact isLexical_firstToken c cs
    · exact ih h

theorem all_isLexical_scan (cs : List Char) : (scan false cs).all Word.isLexical :=
  List.all_eq_true.mpr fun _ => isLexical_scan

theorem isLexical_word (behind : Option Nat) (l : Lexeme) :
    (l.word behind).isLexical = (Word.token l.token).isLexical := by
  unfold Lexeme.word
  split
  · next h => rw [h.1]; rfl
  · rfl

theorem all_isLexical_words (behind : Option Nat) (ls : List Lexeme) :
    (words behind ls).all Word.isLexical = ls.all fun l => (Word.token l.token).isLexical := by
  induction ls generalizing behind with
  | nil => rfl
  | cons l ls ih => rw [words, List.all_cons, List.all_cons, isLexical_word, ih]

/-! ## First tokens -/

theorem takeWhile_append {p : Char → Bool} {cs rest : List Char} (h : cs.all p)
    (hr : ∀ c ∈ rest.head?, ¬ p c) : (cs ++ rest).takeWhile p = cs := by
  rw [List.takeWhile_append_of_pos (by simpa using h)]
  cases rest with
  | nil => simp
  | cons c rest => simp [hr c rfl]

theorem isBlank_of_isNamePart {c : Char} (h : isNamePart c) : isBlank c = false := by
  by_contra hb
  simp only [isBlank, Bool.not_eq_false, Bool.or_eq_true, beq_iff_eq] at hb
  rcases hb with (((rfl | rfl) | rfl) | rfl) | rfl <;> exact absurd h (by decide)

theorem isNamePart_of_isDigit {c : Char} (h : c.isDigit) : isNamePart c := by
  simp [isNamePart, Char.isAlphanum, h]

theorem isNamePart_of_isNameStart {c : Char} (h : isNameStart c) : isNamePart c := by
  simp only [isNameStart, Bool.or_eq_true] at h
  rcases h with h | h <;> simp [isNamePart, Char.isAlphanum, h]

theorem isDigit_of_isNameStart {c : Char} (h : isNameStart c) : c.isDigit = false := by
  by_contra hd
  simp only [Bool.not_eq_false, Char.isDigit_iff_toNat] at hd
  simp only [isNameStart, Char.isAlpha, Char.isUpper, Char.isLower, Bool.or_eq_true,
    Bool.and_eq_true, decide_eq_true_eq, ge_iff_le, UInt32.le_iff_toNat_le, beq_iff_eq] at h
  rcases h with (h | h) | rfl
  · simp at *; omega
  · simp at *; omega
  · simp at hd

theorem firstToken_openBracket (cs : List Char) :
    firstToken '[' cs = (.mark .openBracket, 0) := rfl

/-- A character that starts no mark, string or negative number. -/
theorem firstToken_of_class {c : Char} (h : isBlank c ∨ c.isDigit ∨ isNameStart c)
    (cs : List Char) :
    firstToken c cs =
      if isBlank c then (.blank, run isBlank cs)
      else if c.isDigit then
        (.ofInt (digitsValue (c :: cs.takeWhile Char.isDigit)), run Char.isDigit cs)
      else if isNameStart c then
        (.ofWord (String.ofList (c :: cs.takeWhile isNamePart)), run isNamePart cs)
      else (.unknown, 0) := by
  unfold firstToken
  split
  all_goals try exact absurd h (by decide)
  simp only [take_run]

theorem firstToken_of_isBlank {c : Char} (h : isBlank c) (cs : List Char) :
    firstToken c cs = (.blank, run isBlank cs) := by
  rw [firstToken_of_class (Or.inl h), if_pos h]

theorem firstToken_of_isDigit {c : Char} (h : c.isDigit) (cs : List Char) :
    firstToken c cs =
      (.ofInt (digitsValue (c :: cs.takeWhile Char.isDigit)), run Char.isDigit cs) := by
  have hblank := isBlank_of_isNamePart (isNamePart_of_isDigit h)
  rw [firstToken_of_class (Or.inr (Or.inl h)), if_neg (by simp [hblank]), if_pos h]

theorem firstToken_minus {c : Char} (h : c.isDigit) (cs : List Char) :
    firstToken '-' (c :: cs) =
      (.ofInt (-(digitsValue ((c :: cs).takeWhile Char.isDigit) : Int)),
        run Char.isDigit (c :: cs)) := by
  -- The arrow would be the longer token.
  have hc : c ≠ '>' := by
    rintro rfl
    exact absurd h (by decide)
  have hrun : run Char.isDigit (c :: cs) ≠ 0 := by simp [run, h]
  rw [← take_run]
  unfold firstToken
  grind

theorem firstToken_of_isNameStart {c : Char} (h : isNameStart c) (cs : List Char) :
    firstToken c cs =
      (.ofWord (String.ofList (c :: cs.takeWhile isNamePart)), run isNamePart cs) := by
  have hblank := isBlank_of_isNamePart (isNamePart_of_isNameStart h)
  have hdigit := isDigit_of_isNameStart h
  rw [firstToken_of_class (Or.inr (Or.inr h)), if_neg (by simp [hblank]), if_neg (by simp [hdigit]),
    if_pos h]

theorem eq_bracket_of_firstToken {c : Char} {cs : List Char}
    (h : (firstToken c cs).1 = .mark .openBracket) : c = '[' := by
  unfold firstToken at h
  grind [Token.ofInt, Token.ofWord]

theorem ofWord_eq (s : String) :
    (∃ k, Token.ofWord s = .keyword k) ∨ Token.ofWord s = .ident s := by
  unfold Token.ofWord
  split
  · next k _ => exact .inl ⟨k, rfl⟩
  · exact .inr rfl

theorem ofInt_toInt (n : Int64) : Token.ofInt n.toInt = .int n := by
  rw [Token.ofInt, if_pos ⟨n.minValue_le_toInt, n.toInt_le⟩, Int64.ofInt_toInt]

theorem digitsValue_toDigits (n : Nat) : digitsValue (Nat.toDigits 10 n) = n := by
  rw [digitsValue, ← Nat.ofDigitChars_eq_foldl, Nat.ofDigitChars_ten_toDigits]

theorem exists_digits (n : Nat) :
    ∃ c cs, Nat.toDigits 10 n = c :: cs ∧ c.isDigit ∧ cs.all Char.isDigit ∧
      digitsValue (c :: cs) = n := by
  have hdigits : (Nat.toDigits 10 n).all Char.isDigit :=
    List.all_eq_true.mpr fun _ hc => Nat.isDigit_of_mem_toDigits (by decide) (by decide) hc
  have hvalue := digitsValue_toDigits n
  cases h : Nat.toDigits 10 n with
  | nil => exact absurd h Nat.toDigits_ne_nil
  | cons c cs =>
    rw [h, List.all_cons, Bool.and_eq_true] at hdigits
    exact ⟨c, cs, rfl, hdigits.1, hdigits.2, h ▸ hvalue⟩

/-! ## First words -/

/-- The mark is read the same way whatever stands around it. -/
def Mark.standsAlone : Mark → Bool
  | openBracket => false
  | openParen => false
  | colon => false
  | _ => true

theorem scan_mark {m : Mark} (h : m.standsAlone) (behind : Bool) (rest : List Char) :
    scan behind (m.text.toList ++ rest) = .mark m :: scan false rest := by
  cases m <;> simp_all [Mark.standsAlone, Mark.text, scan_cons, firstToken, Token.isIdent]

theorem scan_bracket (cs : List Char) :
    scan false ('[' :: cs) = .mark .openBracket :: scan false cs := by
  rw [scan_cons, firstToken_openBracket]
  simp [Token.isIdent]

theorem scan_attached (cs : List Char) : scan true ('[' :: cs) = .attached :: scan false cs := by
  rw [scan_cons, firstToken_openBracket]
  simp [Token.isIdent]

theorem scan_openParen {rest : List Char} (h : rest.head? ≠ some ';') (behind : Bool) :
    scan behind ('(' :: rest) = .mark .openParen :: scan false rest := by
  rw [scan_cons]
  have : firstToken '(' rest = (.mark .openParen, 0) := by
    cases rest with
    | nil => rfl
    | cons c rest =>
      unfold firstToken
      split <;> simp_all
  simp [this, Token.isIdent]

/-- No word starts with a semicolon. -/
theorem head?_ne_semicolon {behind : Bool} {cs : List Char}
    (h : ∀ w ∈ (scan behind cs).head?, w.underlying ≠ .unknown) : cs.head? ≠ some ';' := by
  cases cs with
  | nil => exact nofun
  | cons c cs =>
    rintro ⟨⟩
    have : firstToken ';' cs = (.unknown, 0) := by
      simp [firstToken, isBlank, isNameStart]
    rw [scan_cons, this] at h
    exact h _ rfl rfl

theorem scan_dropWhile_isBlank (cs : List Char) :
    scan false (cs.dropWhile isBlank) = scan false cs := by
  cases cs with
  | nil => rfl
  | cons c cs =>
    rw [List.dropWhile_cons]
    split
    · next h =>
      rw [scan_cons, firstToken_of_isBlank h]
      simp [drop_run, Token.isIdent]
    · rfl

theorem scan_blank (behind : Bool) (cs : List Char) :
    scan behind (' ' :: cs) = scan false cs := by
  rw [scan_cons, firstToken_of_isBlank rfl]
  simp [drop_run, Token.isIdent, scan_dropWhile_isBlank]

theorem scan_blanks {sep : List Char} (h : sep.all isBlank) (rest : List Char) :
    scan false (sep ++ rest) = scan false rest := by
  rw [← scan_dropWhile_isBlank, ← scan_dropWhile_isBlank rest,
    List.dropWhile_append_of_pos (by simpa using h)]

theorem scan_of_firstToken {c : Char} {cs rest : List Char} {t : Token}
    (h : firstToken c (cs ++ rest) = (t, cs.length)) (behind : Bool)
    (hb : t ≠ .blank) (ho : t = .mark .openBracket → behind = false) :
    scan behind (c :: cs ++ rest) = .token t :: scan t.isIdent rest := by
  rw [List.cons_append, scan_cons, h]
  by_cases ht : t = .mark .openBracket
  · simp [ht, ho ht]
  · simp [ht, hb]

theorem scan_word {c : Char} {cs rest : List Char} (hc : isNameStart c)
    (hcs : cs.all isNamePart) (hr : ∀ c ∈ rest.head?, ¬ isNamePart c) (behind : Bool) :
    scan behind (c :: cs ++ rest) =
      .token (.ofWord (String.ofList (c :: cs))) ::
        scan (Token.ofWord (String.ofList (c :: cs))).isIdent rest := by
  have hfirst : firstToken c (cs ++ rest) = (.ofWord (String.ofList (c :: cs)), cs.length) := by
    rw [firstToken_of_isNameStart hc, run, takeWhile_append hcs hr]
  rcases ofWord_eq (String.ofList (c :: cs)) with ⟨k, hk⟩ | hname
  · rw [hk] at hfirst ⊢
    exact scan_of_firstToken hfirst behind nofun nofun
  · rw [hname] at hfirst ⊢
    exact scan_of_firstToken hfirst behind nofun nofun

theorem scan_name {x : String} (h : isName x) {rest : List Char}
    (hr : ∀ c ∈ rest.head?, ¬ isNamePart c) (behind : Bool) :
    scan behind (x.toList ++ rest) = .name x :: scan true rest := by
  unfold isName at h
  split at h
  · cases h
  · next c cs hx =>
    simp only [Bool.and_eq_true, Option.isNone_iff_eq_none] at h
    have hword := scan_word h.1.1 h.1.2 hr behind
    rw [← hx, String.ofList_toList, Token.ofWord, h.2] at hword
    exact hword

/-! ## Pieces of text -/

/-- The text does not prolong a word that ends before it, and attaches no bracket to it. -/
def Delimited (rest : List Char) : Prop := ∀ c ∈ rest.head?, ¬ isNamePart c ∧ c ≠ '['

theorem delimited_cons {c : Char} (h : isNamePart c = false ∧ c ≠ '[') (rest : List Char) :
    Delimited (c :: rest) := by
  rintro _ ⟨⟩
  simp [h]

theorem scan_of_delimited {rest : List Char} (h : Delimited rest) (behind : Bool) :
    scan behind rest = scan false rest := by
  cases rest with
  | nil => simp
  | cons c cs =>
    have hc : (firstToken c cs).1 ≠ .mark .openBracket :=
      fun ho => (h c rfl).2 (eq_bracket_of_firstToken ho)
    rw [scan_cons, scan_cons]
    simp [hc]

/-- A text turns into the words whatever stands before it and if the text behind it is as
required. -/
def Reads (required : List Char → Prop) (cs : List Char) (ws : List Word) : Prop :=
  ∀ behind rest, required rest → scan behind (cs ++ rest) = ws ++ scan false rest

namespace Reads

variable {required required' : List Char → Prop} {cs ds : List Char} {ws vs : List Word}

theorem append (hc : Reads required cs ws) (hd : Reads required' ds vs)
    (h : ∀ rest, required' rest → required (ds ++ rest)) :
    Reads required' (cs ++ ds) (ws ++ vs) := by
  intro behind rest hr
  rw [List.append_assoc, hc behind _ (h rest hr), hd false rest hr, List.append_assoc]

theorem weaken (hc : Reads required cs ws) (h : ∀ rest, required' rest → required rest) :
    Reads required' cs ws :=
  fun behind rest hr => hc behind rest (h rest hr)

theorem blank (hc : Reads required cs ws) : Reads required (' ' :: cs) ws := by
  intro behind rest hr
  rw [List.cons_append, scan_blank, hc false rest hr]

theorem mark {m : Mark} (h : m.standsAlone) : Reads (fun _ => True) m.text.toList [.mark m] :=
  fun behind rest _ => scan_mark h behind rest

/-- A text in parentheses, where the first word of the text keeps a comment from starting. -/
theorem paren (hc : Reads Delimited cs ws)
    (hfirst : ∀ w ∈ (ws ++ [Word.mark .closeParen]).head?, w.underlying ≠ .unknown) :
    Reads (fun _ => True) ('(' :: (cs ++ [')']))
      (.mark .openParen :: (ws ++ [.mark .closeParen])) := by
  intro behind rest _
  have hclose : scan false (')' :: rest) = .mark .closeParen :: scan false rest :=
    scan_mark (m := .closeParen) rfl false rest
  have hinner := hc false (')' :: rest) (delimited_cons (by decide) rest)
  rw [hclose] at hinner
  have hhead : (cs ++ ')' :: rest).head? ≠ some ';' := by
    apply head?_ne_semicolon
    rw [hinner]
    cases ws <;> exact hfirst
  rw [List.cons_append, List.append_assoc, List.singleton_append, scan_openParen hhead, hinner]
  simp

/-- Blanks around a mark keep it apart from its neighbours. -/
theorem padded (m : Mark) :
    Reads (fun _ => True) (' ' :: m.text.toList ++ [' ']) [.mark m] := by
  intro behind rest _
  rw [List.append_assoc, List.cons_append, scan_blank]
  cases m <;> simp [Mark.text, scan, firstToken, scan_blank, Token.isIdent]

/-- Two texts with a mark between blanks. -/
theorem between (hc : Reads Delimited cs ws) (m : Mark) (hd : Reads required ds vs) :
    Reads required (cs ++ (' ' :: m.text.toList ++ [' '] ++ ds)) (ws ++ Word.mark m :: vs) :=
  hc.append ((padded m).append hd fun _ _ => trivial) fun _ _ => delimited_cons (by decide) _

theorem name {x : String} (h : isName x) : Reads Delimited x.toList [.name x] := by
  intro behind rest hr
  rw [scan_name h fun c hc => (hr c hc).1, scan_of_delimited hr, List.singleton_append]

theorem keyword (k : Keyword) : Reads Delimited k.text.toList [.keyword k] := by
  intro behind rest hr
  have hrest := fun c hc => (hr c hc).1
  rw [List.singleton_append]
  cases k <;> exact scan_word rfl rfl hrest behind

/-- A bracket directly behind a name. -/
theorem brackets {x : String} (h : isName x) (hc : Reads Delimited cs ws) :
    Reads (fun _ => True) (x.toList ++ ('[' :: (cs ++ [']'])))
      (.name x :: .attached :: (ws ++ [Word.mark .closeBracket])) := by
  intro behind rest _
  have hclose : scan false (']' :: rest) = .mark .closeBracket :: scan false rest :=
    scan_mark (m := .closeBracket) rfl false rest
  have hinner := hc false (']' :: rest) (delimited_cons (by decide) rest)
  have hrest : ∀ c ∈ ('[' :: (cs ++ ']' :: rest)).head?, ¬ isNamePart c := by
    rintro _ ⟨⟩
    decide
  simp only [List.append_assoc, List.cons_append, List.nil_append]
  rw [scan_name h hrest, scan_attached, hinner, hclose]

/-- Digits end where a word would. -/
theorem takeWhile_isDigit {ds : List Char} (hds : ds.all Char.isDigit) {rest : List Char}
    (hr : Delimited rest) : (ds ++ rest).takeWhile Char.isDigit = ds :=
  takeWhile_append hds fun d hd hdigit => (hr d hd).1 (isNamePart_of_isDigit hdigit)

theorem int (n : Int64) : Reads Delimited (toString n.toInt).toList [.token (.int n)] := by
  intro behind rest hr
  rw [Int.toString_eq_repr, List.singleton_append, ← scan_of_delimited hr (Token.int n).isIdent]
  cases hn : n.toInt with
  | ofNat m =>
    obtain ⟨c, cs, hdigits, hc, hcs, hvalue⟩ := exists_digits m
    have hfirst : firstToken c (cs ++ rest) = (.int n, cs.length) := by
      rw [firstToken_of_isDigit hc, run, takeWhile_isDigit hcs hr, hvalue, ← ofInt_toInt n, hn]
      rfl
    rw [Int.repr, Nat.toList_repr, hdigits]
    exact scan_of_firstToken hfirst behind nofun nofun
  | negSucc m =>
    obtain ⟨c, cs, hdigits, hc, hcs, hvalue⟩ := exists_digits (m + 1)
    have hall : (c :: cs).all Char.isDigit := by rw [List.all_cons, hc, hcs, Bool.and_self]
    have hfirst : firstToken '-' (c :: cs ++ rest) = (.int n, (c :: cs).length) := by
      rw [List.cons_append, firstToken_minus hc, ← List.cons_append, run,
        takeWhile_isDigit hall hr, hvalue, ← ofInt_toInt n, hn]
      rfl
    rw [Int.repr, String.toList_append, Nat.toList_repr, hdigits]
    exact scan_of_firstToken hfirst behind nofun nofun

theorem string {s : String} (h : isQuotable s) :
    Reads Delimited ('"' :: s.toList ++ ['"']) [.token (.string s)] := by
  intro behind rest hr
  have hrun : run (· ≠ '"') (s.toList ++ '"' :: rest) = s.toList.length := by
    rw [run, takeWhile_append h (by simp)]
  have hfirst : firstToken '"' (s.toList ++ ['"'] ++ rest) =
      (.string s, (s.toList ++ ['"']).length) := by
    rw [List.append_assoc, List.singleton_append]
    simp only [firstToken, hrun, List.length_append, List.length_cons]
    simp
  change scan behind ('"' :: (s.toList ++ ['"']) ++ rest) = _
  rw [scan_of_firstToken hfirst behind (by simp) (by simp)]
  exact congrArg _ (scan_of_delimited hr _)

end Reads

end TermAlgebra.Language
