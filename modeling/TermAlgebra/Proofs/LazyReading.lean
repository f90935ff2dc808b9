import TermAlgebra.Proofs.Lookahead
import TermAlgebra.Proofs.RoundTrip

/-!
# Lazy reading

A reader that keeps nothing but the text and the offset of the next command, and cuts the text from
there on into tokens again for each command, finds the items of the eager reader with the same
offsets. Main statement: `lazy_reader_agrees`, call by call, also behind the last item.
-/

namespace TermAlgebra.Language

section Calls

variable {σ α : Type}

/-- The state of a reader after a number of calls. -/
def afterCalls (next : σ → Option α × σ) : Nat → σ → σ
  | 0, s => s
  | k + 1, s => afterCalls next k (next s).2

theorem afterCalls_succ (next : σ → Option α × σ) (k : Nat) (s : σ) :
    afterCalls next (k + 1) s = (next (afterCalls next k s)).2 := by
  induction k generalizing s with
  | zero => rfl
  | succ k ih => exact ih (next s).2

end Calls

/-! ## Places in a text -/

theorem byteLength_append (us vs : List Char) :
    byteLength (us ++ vs) = byteLength us + byteLength vs := by
  induction us with
  | nil => simp [byteLength]
  | cons c us ih => simp [byteLength, ih, Nat.add_assoc]

theorem utf8ByteSize_ofList_eq (cs : List Char) :
    (String.ofList cs).utf8ByteSize = byteLength cs := by
  induction cs with
  | nil => rfl
  | cons c cs ih =>
    rw [String.ofList_cons, String.utf8ByteSize_append, String.utf8ByteSize_singleton, ih,
      byteLength]

theorem utf8ByteSize_eq (source : String) : source.utf8ByteSize = byteLength source.toList := by
  rw [← utf8ByteSize_ofList_eq, String.ofList_toList]

theorem byteLength_pos {us : List Char} (h : us ≠ []) : 0 < byteLength us := by
  cases us with
  | nil => exact absurd rfl h
  | cons c us =>
    have := c.utf8Size_pos
    rw [byteLength]
    omega

theorem dropBytes_append (us vs : List Char) : dropBytes (byteLength us) (us ++ vs) = some vs := by
  induction us with
  | nil => simp [byteLength, dropBytes]
  | cons c us ih =>
    have hpos := byteLength_pos (List.cons_ne_nil c us)
    obtain ⟨n, hn⟩ : ∃ n, byteLength (c :: us) = n + 1 := ⟨_, (Nat.succ_pred_eq_of_pos hpos).symm⟩
    rw [hn, List.cons_append, dropBytes, ← hn, byteLength, if_pos (Nat.le_add_right _ _),
      Nat.add_sub_cancel_left, ih]

/-- The number of bytes in front of a piece of a text is the place of a character or the end. -/
theorem isValid_byteLength {source : String} {us vs : List Char} (h : source.toList = us ++ vs) :
    String.Pos.Raw.IsValid source ⟨byteLength us⟩ := by
  refine String.Pos.Raw.isValid_iff_exists_append.mpr ⟨String.ofList us, String.ofList vs, ?_, ?_⟩
  · rw [← String.ofList_append, ← h, String.ofList_toList]
  · rw [← utf8ByteSize_ofList_eq]
    rfl

/-! ## Tokens from a place on -/

/-- The first token covers some characters, and the text is these and the rest. -/
theorem exists_split_firstLexeme (start : Nat) (c : Char) (cs : List Char) :
    ∃ us, us ≠ [] ∧ c :: cs = us ++ (firstLexeme start c cs).2 ∧
      (firstLexeme start c cs).1.stop = start + byteLength us :=
  ⟨c :: cs.take (firstToken c cs).2, List.cons_ne_nil _ _, by simp [firstLexeme], rfl⟩

theorem stop_firstLexeme (start : Nat) (c : Char) (cs : List Char) :
    (firstLexeme start c cs).1.stop + byteLength (firstLexeme start c cs).2 =
      start + byteLength (c :: cs) := by
  obtain ⟨us, -, hsplit, hstop⟩ := exists_split_firstLexeme start c cs
  rw [hstop, Nat.add_assoc, ← byteLength_append, ← hsplit]

namespace Input

/-- The same input `k` bytes behind. -/
def shift (k : Nat) (i : Input) : Input := ⟨i.tokens.map (Lexeme.shift k), i.stop + k⟩

/-- The input of a text that starts at the given offset. -/
def ofTextAt (start : Nat) (cs : List Char) : Input :=
  ⟨solid (tokensFrom start cs), start + byteLength cs⟩

theorem ofTextAt_zero (source : String) : ofTextAt 0 source.toList = ofString source := by
  rw [ofTextAt, ofString, solidTokens, Language.tokens, utf8ByteSize_eq, Nat.zero_add]

end Input

theorem firstLexeme_shift (k start : Nat) (c : Char) (cs : List Char) :
    firstLexeme (start + k) c cs =
      ((firstLexeme start c cs).1.shift k, (firstLexeme start c cs).2) := by
  simp only [firstLexeme, Lexeme.shift, Nat.add_right_comm]

theorem tokensFrom_shift (k start : Nat) (cs : List Char) :
    tokensFrom (start + k) cs = (tokensFrom start cs).map (Lexeme.shift k) := by
  induction start, cs using tokensFrom.induct with
  | case1 start => simp [tokensFrom]
  | case2 start c cs first ih =>
    rw [tokensFrom, firstLexeme_shift, tokensFrom, List.map_cons, ← ih]
    rfl

theorem Input.ofTextAt_shift (k start : Nat) (cs : List Char) :
    ofTextAt (start + k) cs = (ofTextAt start cs).shift k := by
  have hmap : solid ((tokensFrom start cs).map (Lexeme.shift k)) =
      (solid (tokensFrom start cs)).map (Lexeme.shift k) := List.filter_map
  rw [ofTextAt, tokensFrom_shift, hmap, ofTextAt, shift, Nat.add_right_comm]

/-- What is left of the tokens of a text are the tokens of the text from the next one on. -/
theorem exists_split_of_suffix {start : Nat} {cs : List Char} {ls : List Lexeme}
    (h : ls <:+ solid (tokensFrom start cs)) :
    ∃ us vs, cs = us ++ vs ∧ ls = solid (tokensFrom (start + byteLength us) vs) ∧
      (Input.mk ls (start + byteLength cs)).offset = start + byteLength us := by
  induction start, cs using tokensFrom.induct with
  | case1 start =>
    obtain rfl : ls = [] := by simpa [tokensFrom, solid] using h
    exact ⟨[], [], rfl, by simp [tokensFrom, solid], rfl⟩
  | case2 start c cs first ih =>
    have heq : tokensFrom start (c :: cs) = first.1 :: tokensFrom first.1.stop first.2 := by
      rw [tokensFrom]
    obtain ⟨ws, -, hws, hstop⟩ : ∃ ws, ws ≠ [] ∧ c :: cs = ws ++ first.2 ∧
        first.1.stop = start + byteLength ws := exists_split_firstLexeme start c cs
    have hlater : ls <:+ solid (tokensFrom first.1.stop first.2) →
        ∃ us vs, c :: cs = us ++ vs ∧ ls = solid (tokensFrom (start + byteLength us) vs) ∧
          (Input.mk ls (start + byteLength (c :: cs))).offset = start + byteLength us := by
      intro hls
      obtain ⟨us, vs, hvs, htokens, hoffset⟩ := ih hls
      refine ⟨ws ++ us, vs, ?_, ?_, ?_⟩
      · rw [hws, hvs, List.append_assoc]
      · rw [htokens, hstop, byteLength_append, Nat.add_assoc]
      · rw [hws, byteLength_append, byteLength_append, ← Nat.add_assoc, ← Nat.add_assoc, ← hstop]
        exact hoffset
    rw [heq, solid_cons] at h
    split at h
    · exact hlater h
    · next hsolid =>
      rcases List.suffix_cons_iff.mp h with hls | hls
      · refine ⟨[], c :: cs, rfl, ?_, ?_⟩
        · rw [byteLength, Nat.add_zero, heq, solid_cons, if_neg hsolid, hls]
        · rw [hls]
          rfl
      · exact hlater hls

/-! ## The eager reader -/

namespace Input

variable {i : Input}

/-- Tokens are aligned with the same tokens farther on, if the texts end so as well or there is a
period. -/
theorem exists_alignedTokens {k stop stop' : Nat} {ls : List Lexeme}
    (h : stop' = stop + k ∨ ∃ l ∈ ls, l.token = .mark .period) :
    ∃ n, AlignedTokens k stop stop' n ls (ls.map (Lexeme.shift k)) := by
  induction ls with
  | nil => exact ⟨0, .nil (h.resolve_right (by simp))⟩
  | cons l ls ih =>
    by_cases hl : l.token = .mark .period
    · exact ⟨0, .period hl⟩
    · obtain ⟨n, hn⟩ := ih (h.imp_right (by simp [hl]))
      exact ⟨n + 1, .cons hl hn⟩

theorem exists_aligned_shift (k : Nat) (i : Input) : ∃ n, Aligned k n i (i.shift k) :=
  exists_alignedTokens (.inl rfl)

theorem skipCommand_shift (k : Nat) (i : Input) :
    (i.shift k).skipCommand = i.skipCommand.shift k := by
  rcases i with ⟨ls, stop⟩
  have hdrop : (ls.map (Lexeme.shift k)).dropWhile (fun l => l.token ≠ .mark .period) =
      (ls.dropWhile fun l => l.token ≠ .mark .period).map (Lexeme.shift k) := List.dropWhile_map
  simp only [skipCommand, shift, hdrop, List.map_tail]

/-- An item ends with the first period, whether it is a command or an error. -/
theorem nextItem_of_ne_nil (h : i.tokens ≠ []) :
    ∃ item : Item, i.nextItem = (some item, i.skipCommand) := by
  obtain ⟨n, hi⟩ := exists_aligned_shift 0 i
  obtain ⟨item, hitem, -⟩ := hi.nextItem h
  exact ⟨item, hitem⟩

theorem length_skipCommand_lt (h : i.tokens ≠ []) :
    i.skipCommand.tokens.length < i.tokens.length := by
  have hle := (List.dropWhile_suffix (fun l : Lexeme => l.token ≠ .mark .period)
    (l := i.tokens)).length_le
  have hpos := List.length_pos_iff.mpr h
  rw [skipCommand, List.length_tail]
  omega

theorem itemsWithin_of_nil (bound : Nat) (h : i.tokens = []) : i.itemsWithin bound = [] := by
  cases bound with
  | zero => rfl
  | succ bound => rw [itemsWithin, nextItem_of_nil h]

/-- Call by call the eager reader gives its items, and nothing behind the last. -/
theorem nextItem_afterCalls {bound : Nat} (h : i.tokens.length ≤ bound) (k : Nat) :
    (afterCalls nextItem k i).nextItem.1 = (i.itemsWithin bound)[k]? := by
  induction k generalizing i bound with
  | zero =>
    rw [afterCalls]
    by_cases hi : i.tokens = []
    · simp [itemsWithin_of_nil bound hi, nextItem_of_nil hi]
    obtain ⟨item, hitem⟩ := nextItem_of_ne_nil hi
    cases bound with
    | zero => exact absurd (List.length_eq_zero_iff.mp (Nat.le_zero.mp h)) hi
    | succ bound => simp [itemsWithin, hitem]
  | succ k ih =>
    rw [afterCalls]
    by_cases hi : i.tokens = []
    · rw [nextItem_of_nil hi, ih h, itemsWithin_of_nil bound hi]
      simp
    obtain ⟨item, hitem⟩ := nextItem_of_ne_nil hi
    have hlt := length_skipCommand_lt hi
    cases bound with
    | zero => exact absurd (List.length_eq_zero_iff.mp (Nat.le_zero.mp h)) hi
    | succ bound =>
      have hleft : i.skipCommand.tokens.length ≤ bound := by omega
      simp only [itemsWithin, hitem, List.getElem?_cons_succ]
      exact ih hleft

end Input

/-! ## The reader that keeps an offset -/

namespace Reader

variable {source : String} {i : Input} {r : Reader}

/-- The reader stands at the offset of a character or at the end, and the input is what the text
has from there on. -/
structure StandsAt (source : String) (i : Input) (r : Reader) : Prop where
  same : r.source = source
  split : ∃ us vs, source.toList = us ++ vs ∧ byteLength us = r.offset ∧
    i = .ofTextAt r.offset vs

theorem standsAt_ofString (source : String) :
    StandsAt source (.ofString source) (ofString source) :=
  ⟨rfl, [], source.toList, rfl, rfl, (Input.ofTextAt_zero source).symm⟩

theorem StandsAt.isValid (h : StandsAt source i r) :
    String.Pos.Raw.IsValid source ⟨r.offset⟩ := by
  obtain ⟨us, vs, hsplit, hoffset, -⟩ := h.split
  rw [← hoffset]
  exact isValid_byteLength hsplit

theorem next_eq {us vs : List Char} (hsplit : r.source.toList = us ++ vs)
    (hoffset : byteLength us = r.offset) :
    r.next =
      ((Input.ofTextAt 0 vs).nextItem.1.map (Except.mapError (ParseError.shift r.offset)),
        { r with offset := r.offset + (Input.ofTextAt 0 vs).nextItem.2.offset }) := by
  have hinput := Input.ofTextAt_zero (String.ofList vs)
  rw [String.toList_ofList] at hinput
  unfold next
  rw [hsplit, ← hoffset, dropBytes_append, hinput]

/-- A call finds what the eager reader finds; at an item the offset grows. -/
theorem StandsAt.next (h : StandsAt source i r) :
    r.next.1 = i.nextItem.1 ∧ StandsAt source i.nextItem.2 r.next.2 ∧
      (i.nextItem.1 ≠ none → r.offset < r.next.2.offset) := by
  obtain ⟨rfl, us, vs, hsplit, hoffset, rfl⟩ := h
  have hshift := Input.ofTextAt_shift r.offset 0 vs
  rw [Nat.zero_add] at hshift
  rw [next_eq hsplit hoffset, hshift]
  generalize hj : Input.ofTextAt 0 vs = j at hshift
  have htokens : j.tokens = solid (tokensFrom 0 vs) := by rw [← hj]; rfl
  have hstop : j.stop = byteLength vs := by rw [← hj]; exact Nat.zero_add _
  by_cases hnil : j.tokens = []
  · have hnil' : (j.shift r.offset).tokens = [] := by rw [Input.shift, hnil, List.map_nil]
    rw [Input.nextItem_of_nil hnil, Input.nextItem_of_nil hnil']
    -- Nothing is left, so the reader goes to the end of the text.
    refine ⟨rfl, ⟨rfl, us ++ vs, [], by simpa using hsplit, ?_, ?_⟩, by simp⟩
    · rw [byteLength_append, hoffset, Input.offset, hnil]
      simp [hstop]
    · rw [Input.shift, Input.ofTextAt, hnil, Input.offset, hnil]
      simp [tokensFrom, solid, byteLength, Nat.add_comm]
  · obtain ⟨n, haligned⟩ := Input.exists_aligned_shift r.offset j
    obtain ⟨item, hitem, hitem'⟩ := haligned.nextItem hnil
    have hsuffix : j.skipCommand.tokens <:+ solid (tokensFrom 0 vs) :=
      htokens ▸ j.skipCommand_suffix
    obtain ⟨us', vs', hsplit', hleft, hplace⟩ := exists_split_of_suffix hsuffix
    rw [Nat.zero_add, Nat.zero_add] at hplace
    rw [Nat.zero_add] at hleft
    have hmk : j.skipCommand = ⟨j.skipCommand.tokens, byteLength vs⟩ := by rw [← hstop]; rfl
    have hskip : j.skipCommand = .ofTextAt (byteLength us') vs' := by
      rw [hmk, hleft, hsplit', byteLength_append]
      rfl
    rw [← hmk] at hplace
    rw [hitem, hitem', Input.skipCommand_shift, hplace]
    refine ⟨rfl, ⟨rfl, us ++ us', vs', ?_, ?_, ?_⟩, fun _ => ?_⟩
    · rw [hsplit, hsplit', List.append_assoc]
    · rw [byteLength_append, hoffset]
    · rw [hskip, ← Input.ofTextAt_shift, Nat.add_comm]
    · have hlt := Input.length_skipCommand_lt hnil
      have hne : us' ≠ [] := by
        rintro rfl
        rw [hskip, htokens, hsplit'] at hlt
        simp [byteLength, Input.ofTextAt] at hlt
      exact Nat.lt_add_of_pos_right (byteLength_pos hne)

theorem StandsAt.afterCalls (h : StandsAt source i r) (k : Nat) :
    StandsAt source (afterCalls Input.nextItem k i) (afterCalls Reader.next k r) := by
  induction k generalizing i r with
  | zero => exact h
  | succ k ih => exact ih h.next.2.1

end Reader

/-! ## The reader that cuts one command at a time -/

namespace Cursor

/-- The input of the text from the cursor on. -/
def input (c : Cursor) : Input := .ofTextAt c.offset c.text

theorem input_ofString (source : String) : (ofString source).input = .ofString source :=
  Input.ofTextAt_zero source

theorem stop_cut (offset : Nat) (cs : List Char) :
    (cut offset cs).2.offset + byteLength (cut offset cs).2.text = offset + byteLength cs := by
  fun_induction cut offset cs with
  | case1 offset => rfl
  | case2 offset c cs first h => exact stop_firstLexeme offset c cs
  | case3 offset c cs first h behind ih => rw [ih, stop_firstLexeme]

/-- Behind the tokens that are cut the text goes on behind its first period. -/
theorem skipCommand_input (c : Cursor) : c.input.skipCommand = (cut c.offset c.text).2.input := by
  have hdrop : ∀ offset cs,
      ((solid (tokensFrom offset cs)).dropWhile fun l => l.token ≠ .mark .period).tail =
        solid (tokensFrom (cut offset cs).2.offset (cut offset cs).2.text) := by
    intro offset cs
    fun_induction cut offset cs with
    | case1 offset => simp [tokensFrom, solid]
    | case2 offset c cs first h =>
      rw [tokensFrom, solid_cons, if_neg (by rw [h]; decide)]
      simp [first, h]
    | case3 offset c cs first h behind ih =>
      rw [tokensFrom, solid_cons]
      split
      · exact ih
      · rw [← ih, List.dropWhile_cons_of_pos (by simpa using h)]
  rw [Input.skipCommand, input, Input.ofTextAt, hdrop, input, Input.ofTextAt, stop_cut]

/-- The tokens that are cut agree with those of the text up to the first period. -/
theorem aligned_cut (c : Cursor) :
    ∃ n, Input.Aligned 0 n ⟨solid (cut c.offset c.text).1, (cut c.offset c.text).2.offset⟩
      c.input := by
  obtain ⟨offset, cs⟩ := c
  suffices h : ∃ n, Input.AlignedTokens 0 (cut offset cs).2.offset (offset + byteLength cs) n
      (solid (cut offset cs).1) (solid (tokensFrom offset cs)) from h
  fun_induction cut offset cs with
  | case1 offset =>
    rw [tokensFrom]
    exact ⟨0, .nil rfl⟩
  | case2 offset c cs first h =>
    have hsolid : ¬ first.1.token = .blank := by rw [h]; decide
    rw [tokensFrom, solid_cons, solid_cons, if_neg hsolid, if_neg hsolid]
    exact ⟨0, .period h⟩
  | case3 offset c cs first h behind ih =>
    rw [stop_firstLexeme] at ih
    obtain ⟨n, hn⟩ := ih
    rw [tokensFrom, solid_cons, solid_cons]
    split
    · exact ⟨n, hn⟩
    · exact ⟨n + 1, .cons h hn⟩

/-- The next item is that of the eager reader, and so is the text behind it. -/
theorem next_eq (c : Cursor) :
    c.next.1 = c.input.nextItem.1 ∧
      (c.next.1 ≠ none → c.next.2.input = c.input.nextItem.2) := by
  have hsame : ∀ item : Item, item.mapError (ParseError.shift 0) = item := by
    rintro (e | command) <;> rfl
  obtain ⟨n, haligned⟩ := aligned_cut c
  by_cases hnil : solid (cut c.offset c.text).1 = []
  · have hnil' : c.input.tokens = [] := by simpa [hnil] using haligned.head?
    have hnone : c.next.1 = none := congrArg Prod.fst (Input.nextItem_of_nil hnil)
    rw [hnone, Input.nextItem_of_nil hnil']
    exact ⟨rfl, fun h => absurd rfl h⟩
  · obtain ⟨item, hitem, hitem'⟩ := haligned.nextItem hnil
    rw [next, hitem, hitem', hsame, skipCommand_input]
    exact ⟨rfl, fun _ => rfl⟩

theorem itemsWithin_input (bound : Nat) (c : Cursor) :
    c.itemsWithin bound = c.input.itemsWithin bound := by
  induction bound generalizing c with
  | zero => rfl
  | succ bound ih =>
    obtain ⟨hitem, hleft⟩ := next_eq c
    rw [itemsWithin, Input.itemsWithin]
    rcases hnext : c.next with ⟨item | item, c'⟩ <;> rcases hinput : c.input.nextItem with ⟨_, i⟩ <;>
      rw [hnext, hinput] at hitem hleft <;> obtain rfl := hitem
    · rfl
    · obtain rfl := hleft (Option.some_ne_none item)
      exact congrArg _ (ih c')

end Cursor

/-! ## Agreement -/

theorem length_tokensFrom_le (start : Nat) (cs : List Char) :
    (tokensFrom start cs).length ≤ cs.length := by
  induction start, cs using tokensFrom.induct with
  | case1 start => simp [tokensFrom]
  | case2 start c cs first ih =>
    have hlt := length_firstLexeme_lt start c cs
    rw [tokensFrom, List.length_cons]
    exact Nat.lt_of_le_of_lt ih hlt

theorem Input.tokens_ofString_le (source : String) :
    (Input.ofString source).tokens.length ≤ source.toList.length :=
  (List.length_filter_le _ _).trans (length_tokensFrom_le 0 source.toList)

theorem items_ofString (source : String) : (Cursor.ofString source).items = items source := by
  rw [Cursor.items, Cursor.itemsWithin_input, Cursor.input_ofString]
  refine List.ext_getElem? fun k => ?_
  change (Input.itemsWithin source.toList.length (.ofString source))[k]? = _
  rw [items, ← Input.nextItem_afterCalls (Input.tokens_ofString_le source),
    ← Input.nextItem_afterCalls le_rfl]

/-- The readers agree on every text, call by call: they give the items of the text one after the
other, errors with the same offsets, and nothing in any later call. The offset that a reader keeps
between two calls grows with every item and is the place of a character or the end of the text. -/
theorem lazy_reader_agrees (source : String) :
    (∀ k, (afterCalls Input.nextItem k (.ofString source)).nextItem.1 = (items source)[k]?) ∧
    (∀ k, (afterCalls Reader.next k (.ofString source)).next.1 = (items source)[k]?) ∧
    (Cursor.ofString source).items = items source ∧
    (∀ k, String.Pos.Raw.IsValid source ⟨(afterCalls Reader.next k (.ofString source)).offset⟩) ∧
    ∀ k < (items source).length,
      (afterCalls Reader.next k (.ofString source)).offset <
        (afterCalls Reader.next (k + 1) (.ofString source)).offset := by
  have heager : ∀ k,
      (afterCalls Input.nextItem k (.ofString source)).nextItem.1 = (items source)[k]? :=
    Input.nextItem_afterCalls le_rfl
  have hstands := (Reader.standsAt_ofString source).afterCalls
  refine ⟨heager, fun k => ?_, items_ofString source, fun k => (hstands k).isValid,
    fun k hk => ?_⟩
  · rw [(hstands k).next.1, heager]
  · have hsome : (afterCalls Input.nextItem k (.ofString source)).nextItem.1 ≠ none := by
      rw [heager, List.getElem?_eq_getElem hk]
      exact nofun
    have hlt := (hstands k).next.2.2 hsome
    rwa [afterCalls_succ]

/-- The second command lacks a colon. -/
def withBrokenDeclaration : String := "a : o. var X o. \n b : o."

theorem reads_withBrokenDeclaration :
    1 < (items withBrokenDeclaration).length ∧
    (afterCalls Reader.next 1 (.ofString withBrokenDeclaration)).offset = 7 ∧
    (afterCalls Reader.next 1 (.ofString withBrokenDeclaration)).next.1 =
      some (.error ⟨.expected .colon, 13⟩) ∧
    (afterCalls Reader.next 1 (.ofString withBrokenDeclaration)).offset <
      (afterCalls Reader.next 2 (.ofString withBrokenDeclaration)).offset := by
  have hitems : items withBrokenDeclaration =
      [.ok (.const "a" (.base "o")), .error ⟨.expected .colon, 13⟩,
        .ok (.const "b" (.base "o"))] := by cbv
  have hlength : 1 < (items withBrokenDeclaration).length := by rw [hitems]; decide
  obtain ⟨-, hcalls, -, -, hoffset⟩ := lazy_reader_agrees withBrokenDeclaration
  refine ⟨hlength, by cbv, ?_, hoffset 1 hlength⟩
  rw [hcalls, hitems]
  rfl

end TermAlgebra.Language
