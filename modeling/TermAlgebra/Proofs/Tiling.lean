import TermAlgebra.Proofs.LazyReading

/-!
# Tiling

No character of a text is lost or read twice: its tokens, with blanks, comments and unknown tokens
among them, lie end to end. A comment ends where its delimiters, told apart from left to right,
first close it. Main statement: `tokens_tile`.
-/

namespace TermAlgebra.Language

/-! ## Spans -/

/-- The tokens lie end to end between the offsets, and none is empty. -/
def Tiles : Nat → List Lexeme → Nat → Prop
  | start, [], stop => start = stop
  | start, l :: ls, stop => l.start = start ∧ start < l.stop ∧ Tiles l.stop ls stop

theorem tiles_tokensFrom (start : Nat) (cs : List Char) :
    Tiles start (tokensFrom start cs) (start + byteLength cs) := by
  induction start, cs using tokensFrom.induct with
  | case1 start => rw [tokensFrom]; rfl
  | case2 start c cs first ih =>
    obtain ⟨us, hne, -, hstop⟩ := exists_split_firstLexeme start c cs
    rw [tokensFrom, ← stop_firstLexeme]
    refine ⟨rfl, ?_, ih⟩
    rw [hstop]
    exact Nat.lt_add_of_pos_right (byteLength_pos hne)

/-- A token is the first of the text from its start on. -/
theorem exists_split_of_mem {start : Nat} {cs : List Char} {l : Lexeme}
    (h : l ∈ tokensFrom start cs) :
    ∃ us c vs, cs = us ++ c :: vs ∧ l = (firstLexeme (start + byteLength us) c vs).1 := by
  induction start, cs using tokensFrom.induct with
  | case1 start => simp [tokensFrom] at h
  | case2 start c cs first ih =>
    rw [tokensFrom, List.mem_cons] at h
    rcases h with rfl | h
    · exact ⟨[], c, cs, rfl, rfl⟩
    · obtain ⟨ws, -, hws, hstop⟩ : ∃ ws, ws ≠ [] ∧ c :: cs = ws ++ first.2 ∧
          first.1.stop = start + byteLength ws := exists_split_firstLexeme start c cs
      obtain ⟨us, c', vs, hsplit, rfl⟩ := ih h
      refine ⟨ws ++ us, c', vs, by rw [hws, hsplit, List.append_assoc], ?_⟩
      rw [hstop, byteLength_append, Nat.add_assoc]

/-- Pieces in front of a text are the same if they have the same number of bytes. -/
theorem eq_of_byteLength_eq {us us' vs vs' : List Char} (h : us ++ vs = us' ++ vs')
    (hbytes : byteLength us = byteLength us') : us = us' ∧ vs = vs' := by
  have hvs : vs = vs' := by
    have hdrop := dropBytes_append us vs
    rw [h, hbytes, dropBytes_append] at hdrop
    exact (Option.some.inj hdrop).symm
  exact ⟨List.append_cancel_right (hvs ▸ h), hvs⟩

/-! ## Comments -/

/-- A text cut from left to right into delimiters of comments and other characters. -/
def pieces : List Char → List (List Char)
  | '(' :: ';' :: cs => ['(', ';'] :: pieces cs
  | ';' :: ')' :: cs => [';', ')'] :: pieces cs
  | c :: cs => [c] :: pieces cs
  | [] => []

theorem flatten_pieces (cs : List Char) : (pieces cs).flatten = cs := by
  fun_induction pieces cs <;> simp_all

/-- How many more comments are opened than closed. -/
def depth (ps : List (List Char)) : Int := ps.count ['(', ';'] - ps.count [';', ')']

@[simp]
theorem depth_opening : depth [['(', ';']] = 1 := rfl

@[simp]
theorem depth_closing : depth [[';', ')']] = -1 := rfl

@[simp]
theorem depth_character (c : Char) : depth [[c]] = 0 := by simp [depth]

theorem depth_take_cons (d : Int) (p : List Char) (ps : List (List Char)) (n : Nat) :
    d + depth ((p :: ps).take (n + 1)) = d + depth [p] + depth (ps.take n) := by
  simp only [List.take_succ_cons, depth, List.count_cons, List.count_nil]
  omega

/-- With `d` comments open in front of the pieces, `n` is the least number of pieces, one at least,
behind which none is open. -/
def ClosesAt (d : Int) (ps : List (List Char)) (n : Nat) : Prop :=
  IsLeast {n | 0 < n ∧ d + depth (ps.take n) = 0} n

def NeverCloses (d : Int) (ps : List (List Char)) : Prop := ∀ n > 0, d + depth (ps.take n) ≠ 0

section Pieces

variable {d : Int} {p : List Char} {ps : List (List Char)}

theorem closesAt_one (h : d + depth [p] = 0) : ClosesAt d (p :: ps) 1 :=
  ⟨⟨Nat.one_pos, h⟩, fun _ hm => hm.1⟩

theorem closesAt_cons {n : Nat} (hd : d + depth [p] ≠ 0) (h : ClosesAt (d + depth [p]) ps n) :
    ClosesAt d (p :: ps) (n + 1) := by
  obtain ⟨⟨hn, hzero⟩, hfirst⟩ := h
  refine ⟨⟨Nat.succ_pos n, (depth_take_cons d p ps n).trans hzero⟩, fun m hm => ?_⟩
  obtain ⟨hpos, hzero⟩ := hm
  cases m with
  | zero => exact absurd hpos (Nat.lt_irrefl 0)
  | succ m =>
    rw [depth_take_cons] at hzero
    refine Nat.succ_le_succ (hfirst ⟨Nat.pos_of_ne_zero ?_, hzero⟩)
    rintro rfl
    exact hd (by simpa [depth] using hzero)

theorem neverCloses_cons (hd : d + depth [p] ≠ 0) (h : NeverCloses (d + depth [p]) ps) :
    NeverCloses d (p :: ps) := by
  intro n hn
  cases n with
  | zero => exact absurd hn (Nat.lt_irrefl 0)
  | succ n =>
    rw [depth_take_cons]
    cases n with
    | zero => simpa [depth] using hd
    | succ n => exact h _ (Nat.succ_pos n)

end Pieces

/-- The end of a comment is found where the pieces behind `length` characters first close it, which
is behind a closing delimiter, and it is missed only if they never do. -/
def CommentEnd.Finds (d : Int) (length : Nat) (ps : List (List Char)) : CommentEnd → Prop
  | .closed m => ∃ n, ClosesAt d ps n ∧ m = length + (ps.take n).flatten.length ∧
      (ps.take n).getLast? = some [';', ')']
  | .unclosed _ => NeverCloses d ps

theorem CommentEnd.Finds.cons {e : CommentEnd} {d : Int} {length : Nat} {p : List Char}
    {ps : List (List Char)} (hd : d + depth [p] ≠ 0)
    (h : e.Finds (d + depth [p]) (length + p.length) ps) : e.Finds d length (p :: ps) := by
  cases e with
  | closed m =>
    obtain ⟨n, hn, rfl, hlast⟩ := h
    refine ⟨n + 1, closesAt_cons hd hn, ?_, ?_⟩
    · rw [List.take_succ_cons, List.flatten_cons, List.length_append, Nat.add_assoc]
    · rw [List.take_succ_cons, List.getLast?_cons, hlast]
      rfl
  | unclosed m => exact neverCloses_cons hd h

theorem finds_commentEnd (d length last : Nat) (cs : List Char) :
    (commentEnd d length last cs).Finds (d + 1) length (pieces cs) := by
  fun_induction commentEnd d length last cs with
  | case1 d length last cs ih =>
    exact .cons (by simp; omega) (by simpa using ih)
  | case2 length last cs =>
    exact ⟨1, closesAt_one rfl, rfl, rfl⟩
  | case3 length last cs d ih =>
    exact .cons (by simp; omega) (by simpa using ih)
  | case4 d length last c cs hopen hclose ih =>
    rw [pieces.eq_3 c cs hopen hclose]
    exact .cons (by simp; omega) (by simpa using ih)
  | case5 d length last =>
    intro n _
    simp [pieces, depth]
    omega

theorem take_length_take_pieces (cs : List Char) (n : Nat) :
    cs.take ((pieces cs).take n).flatten.length = ((pieces cs).take n).flatten := by
  have hprefix : ((pieces cs).take n).flatten <+: cs := by
    have hflatten := (List.take_prefix n (pieces cs)).flatten
    rwa [flatten_pieces] at hflatten
  exact (List.prefix_iff_eq_take.mp hprefix).symm

/-- The first token of a text that starts with an opening delimiter. -/
theorem firstLexeme_comment (start : Nat) (cs : List Char) :
    (firstLexeme start '(' (';' :: cs)).1 = match commentEnd 0 0 0 cs with
      | .closed m => ⟨.blank, start, start + byteLength ('(' :: ';' :: cs.take m)⟩
      | .unclosed m => ⟨.unknown, start, start + byteLength ('(' :: ';' :: cs.take m)⟩ := by
  simp only [firstLexeme, firstToken]
  cases commentEnd 0 0 0 cs <;> rfl

theorem comment_of_firstLexeme (start : Nat) (cs : List Char) :
    let l := (firstLexeme start '(' (';' :: cs)).1
    let ps := pieces ('(' :: ';' :: cs)
    (l.token = .unknown ↔ NeverCloses 0 ps) ∧
      ∀ n, ClosesAt 0 ps n → l.token = .blank ∧ l.stop = start + byteLength (ps.take n).flatten ∧
        (ps.take n).getLast? = some [';', ')'] := by
  intro l ps
  have hl : l = _ := firstLexeme_comment start cs
  have hps : ps = ['(', ';'] :: pieces cs := pieces.eq_1 cs
  have hfinds := finds_commentEnd 0 0 0 cs
  cases hend : commentEnd 0 0 0 cs with
  | closed m =>
    rw [hend] at hfinds hl
    obtain ⟨n, hn, hm, hlast⟩ := hfinds
    rw [Nat.zero_add] at hm
    have hcloses : ClosesAt 0 ps (n + 1) := hps ▸ closesAt_cons (by decide) hn
    rw [hl]
    refine ⟨iff_of_false nofun fun h => h _ hcloses.1.1 hcloses.1.2, fun n' hn' => ?_⟩
    obtain rfl := hn'.unique hcloses
    rw [hps, List.take_succ_cons, List.flatten_cons, ← take_length_take_pieces, ← hm,
      List.getLast?_cons, hlast]
    exact ⟨rfl, rfl, rfl⟩
  | unclosed m =>
    rw [hend] at hfinds hl
    have hnever : NeverCloses 0 ps := hps ▸ neverCloses_cons (by decide) hfinds
    rw [hl]
    exact ⟨iff_of_true rfl hnever, fun n hn => absurd hn.1.2 (hnever n hn.1.1)⟩

/-- The tokens of a text, the blank and the unknown ones included, lie end to end from its start to
its end, each between characters. Where a token starts with an opening delimiter, it is a comment up
to the delimiter that first closes it, and it is unknown exactly if there is none. -/
theorem tokens_tile (source : String) :
    Tiles 0 (tokens source) source.utf8ByteSize ∧
    (∀ l ∈ tokens source,
      String.Pos.Raw.IsValid source ⟨l.start⟩ ∧ String.Pos.Raw.IsValid source ⟨l.stop⟩) ∧
    ∀ l ∈ tokens source, ∀ us cs, source.toList = us ++ '(' :: ';' :: cs →
      l.start = byteLength us →
      let ps := pieces ('(' :: ';' :: cs)
      (l.token = .unknown ↔ NeverCloses 0 ps) ∧
        ∀ n, ClosesAt 0 ps n →
          l.token = .blank ∧ l.stop = l.start + byteLength (ps.take n).flatten ∧
            (ps.take n).getLast? = some [';', ')'] := by
  refine ⟨?_, fun l hl => ?_, fun l hl us cs hsplit hstart => ?_⟩
  · rw [utf8ByteSize_eq, ← Nat.zero_add (byteLength _)]
    exact tiles_tokensFrom 0 source.toList
  · obtain ⟨us, c, vs, hsplit, rfl⟩ := exists_split_of_mem hl
    rw [Nat.zero_add]
    refine ⟨isValid_byteLength hsplit, ?_⟩
    obtain ⟨ws, -, hws, hstop⟩ := exists_split_firstLexeme (byteLength us) c vs
    rw [hws, ← List.append_assoc] at hsplit
    rw [hstop, ← byteLength_append]
    exact isValid_byteLength hsplit
  · obtain ⟨us', c, vs, hsplit', rfl⟩ := exists_split_of_mem hl
    rw [Nat.zero_add] at hstart ⊢
    obtain ⟨rfl, hcs⟩ := eq_of_byteLength_eq (hsplit'.symm.trans hsplit) hstart
    cases hcs
    exact comment_of_firstLexeme _ cs

/-- The characters `(;)` within a comment open another one, and a comment that is never closed is
read up to its last delimiter. -/
theorem comments_closed_and_unclosed :
    let source := "(;(;)é;);)a(;."
    let nested := pieces ('(' :: ';' :: "(;)é;);)a(;.".toList)
    tokens source = [⟨.blank, 0, 11⟩, ⟨.ident "a", 11, 12⟩, ⟨.unknown, 12, 14⟩,
      ⟨.mark .period, 14, 15⟩] ∧
    ClosesAt 0 nested 6 ∧ byteLength (nested.take 6).flatten = 11 ∧
    NeverCloses 0 (pieces ['(', ';', '.']) := by
  intro source nested
  have htokens : tokens source = [⟨.blank, 0, 11⟩, ⟨.ident "a", 11, 12⟩, ⟨.unknown, 12, 14⟩,
      ⟨.mark .period, 14, 15⟩] := by cbv
  obtain ⟨-, -, hcomments⟩ := tokens_tile source
  have hcloses : ClosesAt 0 nested 6 := by
    have hopen : ∀ m < 6, 0 < m → (0 : Int) + depth (nested.take m) ≠ 0 := by decide
    exact ⟨⟨by decide, by decide⟩, fun m hm => Nat.le_of_not_lt fun hlt => hopen m hlt hm.1 hm.2⟩
  have hfirst := hcomments ⟨.blank, 0, 11⟩ (by simp [htokens]) [] "(;)é;);)a(;.".toList
    (by decide) rfl
  have hthird := hcomments ⟨.unknown, 12, 14⟩ (by simp [htokens]) "(;(;)é;);)a".toList ['.']
    (by decide) (by decide)
  refine ⟨htokens, hcloses, ?_, hthird.1.mp rfl⟩
  obtain ⟨-, hstop, -⟩ := hfirst.2 6 hcloses
  rw [Nat.zero_add] at hstop
  exact hstop.symm

end TermAlgebra.Language
