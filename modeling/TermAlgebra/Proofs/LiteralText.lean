import Mathlib
import TermAlgebra.Literal

/-!
# Text of literals

The text of a literal tells the literal: numbers, truth values and quoted strings start with
different characters, and a string is read back from its escapes one character after the other.
Main statement: `Literal.text_injective`.
-/

namespace TermAlgebra

namespace Text

/-! ## Where a word ends -/

/-- What comes next starts with one of the characters, if anything comes. -/
def Follows (ends rest : List Char) : Prop := ∀ ch ∈ rest.head?, ch ∈ ends

theorem follows_nil (ends : List Char) : Follows ends [] := by simp [Follows]

theorem follows_cons {ends : List Char} {ch : Char} (h : ch ∈ ends) (rest : List Char) :
    Follows ends (ch :: rest) := by simpa [Follows] using h

theorem Follows.mono {ends ends' rest : List Char} (h : Follows ends rest) (hsub : ends ⊆ ends') :
    Follows ends' rest := fun ch hch => hsub (h ch hch)

theorem Follows.head?_ne {ends rest : List Char} {ch : Char} (h : Follows ends rest)
    (hch : ch ∉ ends) : rest.head? ≠ some ch :=
  fun e => hch (h ch e)

/-- A word ends at the first character that is none of a word. -/
theorem append_inj_of_follows {ends w w' rest rest' : List Char} (hw : ∀ ch ∈ w, ch ∉ ends)
    (hw' : ∀ ch ∈ w', ch ∉ ends) (hr : Follows ends rest) (hr' : Follows ends rest')
    (h : w ++ rest = w' ++ rest') : w = w' ∧ rest = rest' := by
  induction w generalizing w' with
  | nil =>
    cases w' with
    | nil => exact ⟨rfl, h⟩
    | cons ch w' => exact absurd (congrArg List.head? h) (hr.head?_ne (hw' ch (by simp)))
  | cons ch w ih =>
    cases w' with
    | nil => exact absurd (congrArg List.head? h).symm (hr'.head?_ne (hw ch (by simp)))
    | cons ch' w' =>
      obtain ⟨rfl, htail⟩ := List.cons.inj h
      obtain ⟨rfl, rfl⟩ := ih (fun c hc => hw c (List.mem_cons_of_mem ch hc))
        (fun c hc => hw' c (List.mem_cons_of_mem ch hc)) htail
      exact ⟨rfl, rfl⟩

/-! ## Hexadecimal digits -/

theorem digitChar_inj : ∀ i j : Fin 16, Nat.digitChar i = Nat.digitChar j → i = j := by decide

theorem digitChar_ne_brace : ∀ i : Fin 16, Nat.digitChar i ≠ '\x7d' := by decide

theorem toDigits_inj {m n : Nat} (h : Nat.toDigits 16 m = Nat.toDigits 16 n) : m = n := by
  induction m using Nat.strongRecOn generalizing n with
  | ind m ih =>
    have hdigit : ∀ {i j : Nat}, i < 16 → j < 16 → Nat.digitChar i = Nat.digitChar j → i = j :=
      fun hi hj e => congrArg Fin.val (digitChar_inj ⟨_, hi⟩ ⟨_, hj⟩ e)
    have hlen := congrArg List.length h
    have hm := Nat.toDigits_eq_if (n := m) (by decide : 1 < 16)
    have hn := Nat.toDigits_eq_if (n := n) (by decide : 1 < 16)
    have hmpos := Nat.length_toDigits_pos (b := 16) (n := m / 16)
    have hnpos := Nat.length_toDigits_pos (b := 16) (n := n / 16)
    by_cases hlt : m < 16 <;> by_cases hlt' : n < 16
    · rw [hm, hn, if_pos hlt, if_pos hlt'] at h
      exact hdigit hlt hlt' (List.cons.inj h).1
    · rw [hm, hn, if_pos hlt, if_neg hlt', List.length_append] at hlen
      simp only [List.length_singleton] at hlen
      omega
    · rw [hm, hn, if_neg hlt, if_pos hlt', List.length_append] at hlen
      simp only [List.length_singleton] at hlen
      omega
    · rw [hm, hn, if_neg hlt, if_neg hlt'] at h
      obtain ⟨hdiv, hmod⟩ := List.append_inj' h rfl
      have hquot := ih (m / 16) (by omega) hdiv
      have hrem := hdigit (Nat.mod_lt m (by decide)) (Nat.mod_lt n (by decide))
        (List.cons.inj hmod).1
      omega

theorem brace_notMem_toDigits (n : Nat) : '\x7d' ∉ Nat.toDigits 16 n := by
  induction n using Nat.strongRecOn with
  | ind n ih =>
    rw [Nat.toDigits_eq_if (by decide : 1 < 16)]
    split
    · next hn => exact fun h => digitChar_ne_brace ⟨n, hn⟩ (List.mem_singleton.mp h).symm
    · rw [List.mem_append, List.mem_singleton]
      rintro (h | h)
      · exact ih (n / 16) (by omega) h
      · exact digitChar_ne_brace ⟨n % 16, Nat.mod_lt n (by decide)⟩ h.symm

/-! ## Escapes -/

theorem codePoint_inj {c d : Char} {rest rest' : List Char}
    (h : codePoint c ++ rest = codePoint d ++ rest') : c = d ∧ rest = rest' := by
  have hdigits : Nat.toDigits 16 c.toNat ++ '\x7d' :: rest =
      Nat.toDigits 16 d.toNat ++ '\x7d' :: rest' := by
    simpa [codePoint] using h
  have hplain : ∀ n, ∀ ch ∈ Nat.toDigits 16 n, ch ∉ ['\x7d'] := by
    intro n ch hch hbrace
    rw [List.mem_singleton.mp hbrace] at hch
    exact brace_notMem_toDigits n hch
  obtain ⟨hnat, hrest⟩ := append_inj_of_follows (hplain c.toNat) (hplain d.toNat)
    (follows_cons (by simp) rest) (follows_cons (by simp) rest') hdigits
  exact ⟨Char.toNat_inj.mp (toDigits_inj hnat), (List.cons.inj hrest).2⟩

/-- What the character behind a backslash stands for. -/
def unescape (ch : Char) : Char :=
  match ch with
  | '0' => '\x00'
  | 't' => '\t'
  | 'r' => '\r'
  | 'n' => '\n'
  | ch => ch

theorem escape_cases (c : Char) :
    (∃ ch, escape c = ['\\', ch] ∧ ch ≠ 'u' ∧ unescape ch = c) ∨ escape c = codePoint c ∨
      escape c = [c] ∧ c ≠ '\\' := by
  unfold escape
  split
  · exact .inl ⟨'0', rfl, by decide, rfl⟩
  · exact .inl ⟨'t', rfl, by decide, rfl⟩
  · exact .inl ⟨'r', rfl, by decide, rfl⟩
  · exact .inl ⟨'n', rfl, by decide, rfl⟩
  · exact .inl ⟨'"', rfl, by decide, rfl⟩
  · exact .inl ⟨'\\', rfl, by decide, rfl⟩
  · next hne =>
    split
    · exact .inr (.inl rfl)
    · exact .inr (.inr ⟨rfl, hne⟩)

theorem codePoint_eq (c : Char) : ∃ chs, codePoint c = '\\' :: 'u' :: chs := ⟨_, rfl⟩

/-- One escape is read off the front of a text. -/
theorem escape_inj {c d : Char} {rest rest' : List Char}
    (h : escape c ++ rest = escape d ++ rest') : c = d ∧ rest = rest' := by
  obtain ⟨chs, hchs⟩ := codePoint_eq c
  obtain ⟨chs', hchs'⟩ := codePoint_eq d
  rcases escape_cases c with ⟨ch, e, hu, rfl⟩ | e | ⟨e, hc⟩ <;>
    rcases escape_cases d with ⟨ch', e', hu', rfl⟩ | e' | ⟨e', hd⟩ <;> rw [e, e'] at h
  · obtain ⟨rfl, hrest⟩ := List.cons.inj (List.cons.inj h).2
    exact ⟨rfl, hrest⟩
  · rw [hchs'] at h
    exact absurd (List.cons.inj (List.cons.inj h).2).1 hu
  · exact absurd (List.cons.inj h).1.symm hd
  · rw [hchs] at h
    exact absurd (List.cons.inj (List.cons.inj h).2).1.symm hu'
  · exact codePoint_inj h
  · rw [hchs] at h
    exact absurd (List.cons.inj h).1.symm hd
  · exact absurd (List.cons.inj h).1 hc
  · rw [hchs'] at h
    exact absurd (List.cons.inj h).1 hc
  · exact List.cons.inj h

theorem escape_ne_nil (c : Char) : escape c ≠ [] := by
  obtain ⟨chs, hchs⟩ := codePoint_eq c
  rcases escape_cases c with ⟨ch, e, -, -⟩ | e | ⟨e, -⟩ <;> simp [e, hchs]

theorem flatMap_escape_inj {s t : List Char} (h : s.flatMap escape = t.flatMap escape) :
    s = t := by
  induction s generalizing t with
  | nil =>
    cases t with
    | nil => rfl
    | cons d t => simp [escape_ne_nil] at h
  | cons c s ih =>
    cases t with
    | nil => simp [escape_ne_nil] at h
    | cons d t =>
      rw [List.flatMap_cons, List.flatMap_cons] at h
      obtain ⟨rfl, hrest⟩ := escape_inj h
      rw [ih hrest]

theorem quoted_inj {s t : String} (h : quoted s = quoted t) : s = t := by
  have hchars := String.ofList_injective h
  have hinner := List.append_cancel_right (List.cons.inj hchars).2
  exact String.toList_inj.mp (flatMap_escape_inj hinner)

end Text

namespace Literal

/-- The sort that the first character of a text tells. -/
def leadingSort (ch : Char) : SimpleType :=
  if ch = '"' then Theory.stringSort
  else if ch = 't' ∨ ch = 'f' then Theory.boolSort
  else Theory.intSort

theorem leadingSort_of_isDigit {ch : Char} (h : ch.isDigit) : leadingSort ch = Theory.intSort := by
  have hne : ∀ c : Char, c.isDigit = false → ch ≠ c := by
    rintro c hc rfl
    rw [hc] at h
    cases h
  rw [leadingSort, if_neg (hne '"' rfl), if_neg (not_or.mpr ⟨hne 't' rfl, hne 'f' rfl⟩)]

theorem exists_leadingSort (v : Literal) : ∃ ch ∈ v.text.toList.head?, leadingSort ch = v.sort := by
  cases v with
  | int n =>
    change ∃ ch ∈ n.toInt.repr.toList.head?, _
    cases n.toInt with
    | ofNat m =>
      rw [Int.repr, Nat.toList_repr]
      obtain ⟨ch, hch⟩ := Option.isSome_iff_exists.mp
        (List.isSome_head?.mpr (Nat.toDigits_ne_nil (n := m) (b := 10)))
      have hdigit := Nat.isDigit_of_mem_toDigits (by decide) (by decide) (List.mem_of_mem_head? hch)
      exact ⟨ch, hch, leadingSort_of_isDigit hdigit⟩
    | negSucc m =>
      rw [Int.repr, String.toList_append]
      exact ⟨'-', rfl, rfl⟩
  | bool b => cases b <;> exact ⟨_, rfl, rfl⟩
  | string s =>
    change ∃ ch ∈ (Text.quoted s).toList.head?, _
    rw [Text.quoted, String.toList_ofList]
    exact ⟨'"', rfl, rfl⟩

theorem text_injective : Function.Injective text := by
  intro v w h
  have hsort : v.sort = w.sort := by
    obtain ⟨ch, hch, hv⟩ := v.exists_leadingSort
    obtain ⟨ch', hch', hw⟩ := w.exists_leadingSort
    rw [h] at hch
    rw [← hv, ← hw, Option.mem_unique hch hch']
  cases v <;> cases w <;>
    try simp [sort, Theory.intSort, Theory.boolSort, Theory.stringSort] at hsort
  case int.int m n => exact congrArg int (Int64.toInt_inj.mp (Int.repr_injective h))
  case bool.bool b c =>
    revert h
    cases b <;> cases c <;> decide
  case string.string s t => exact congrArg string (Text.quoted_inj h)

end Literal

end TermAlgebra
