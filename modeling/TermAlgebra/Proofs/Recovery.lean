import Mathlib.Data.List.SplitBy
import TermAlgebra.Proofs.LazyReading

/-!
# Recovery

A command that fails has taken no period, so reading goes on behind the first period in any case.
Main statement: `items_by_segment`, the items of a text are one for each of the segments that its
periods cut it into, each what the segment gives by itself; hence a segment gives the same item in
every text.
-/

namespace TermAlgebra.Language

/-- The tokens cut behind every period. -/
def segmentsOf (ls : List Lexeme) : List (List Lexeme) :=
  ls.splitBy fun l _ => l.token ≠ .mark .period

/-- The segments of a text without blanks and comments. -/
def segments (source : String) : List (List Lexeme) := segmentsOf (solidTokens source)

/-! ## Cutting at periods -/

theorem isChain_iff_forall_dropLast {α : Type} {P : α → Prop} {as : List α} :
    as.IsChain (fun a _ => P a) ↔ ∀ a ∈ as.dropLast, P a := by
  induction as with
  | nil => simp
  | cons a as ih => cases as <;> simp_all

/-- The first segment: no token but the last is a period, and it is one if more tokens follow. -/
theorem segmentsOf_append {seg ls : List Lexeme} (hne : seg ≠ [])
    (hinner : ∀ l ∈ seg.dropLast, l.token ≠ .mark .period)
    (hlast : ls ≠ [] → ∀ l ∈ seg.getLast?, l.token = .mark .period) :
    segmentsOf (seg ++ ls) = seg :: segmentsOf ls := by
  have hcut : ∀ l ∈ seg.getLast?, ∀ l' ∈ ls.head?, decide (l.token ≠ .mark .period) = false := by
    intro l hl l' hl'
    have hls : ls ≠ [] := by rintro rfl; cases hl'
    simpa using hlast hls l hl
  have hchain : seg.IsChain fun l _ => decide (l.token ≠ .mark .period) = true := by
    simpa using isChain_iff_forall_dropLast.mpr hinner
  rw [segmentsOf, List.splitBy_append hcut, List.splitBy_of_isChain hne hchain]
  rfl

theorem inner_of_mem_segmentsOf {seg ls : List Lexeme} (h : seg ∈ segmentsOf ls) :
    ∀ l ∈ seg.dropLast, l.token ≠ .mark .period := by
  have hchain := List.isChain_of_mem_splitBy h
  simpa using isChain_iff_forall_dropLast.mp hchain

/-- Segments that others follow end with a period. -/
theorem last_of_mem_dropLast_segmentsOf {seg ls : List Lexeme}
    (h : seg ∈ (segmentsOf ls).dropLast) : ∀ l ∈ seg.getLast?, l.token = .mark .period := by
  have hchain : (segmentsOf ls).IsChain
      fun seg _ => ∀ l ∈ seg.getLast?, l.token = .mark .period := by
    refine (List.isChain_getLast_head_splitBy _ ls).imp fun seg seg' ⟨hseg, _, hr⟩ l hl => ?_
    rw [List.getLast?_eq_getLast_of_ne_nil hseg] at hl
    cases hl
    simpa using hr
  exact isChain_iff_forall_dropLast.mp hchain seg h

namespace Input

variable {i : Input}

/-- The next item is about the first segment, and the segment by itself is read in the same way. -/
theorem exists_first_segment (h : i.tokens ≠ []) :
    ∃ seg, segmentsOf i.tokens = seg :: segmentsOf i.skipCommand.tokens ∧
      ∃ n, Aligned 0 n i ⟨seg, i.stop⟩ := by
  obtain ⟨ls, stop⟩ := i
  suffices hseg : ∃ seg, seg ≠ [] ∧ (∀ l ∈ seg.dropLast, l.token ≠ .mark .period) ∧
      ls = seg ++ (skipCommand ⟨ls, stop⟩).tokens ∧
      ((skipCommand ⟨ls, stop⟩).tokens ≠ [] → ∀ l ∈ seg.getLast?, l.token = .mark .period) ∧
      ∃ n, AlignedTokens 0 stop stop n ls seg by
    obtain ⟨seg, hne, hinner, hls, hlast, haligned⟩ := hseg
    refine ⟨seg, ?_, haligned⟩
    rw [← segmentsOf_append hne hinner hlast, ← hls]
  replace h : ls ≠ [] := h
  induction ls with
  | nil => exact absurd rfl h
  | cons l ls ih =>
    by_cases hl : l.token = .mark .period
    · exact ⟨[l], by simp, by simp, by simp [skipCommand, hl], by simp [hl], 0, .period hl⟩
    · have hskip : (skipCommand ⟨l :: ls, stop⟩).tokens = (skipCommand ⟨ls, stop⟩).tokens := by
        simp [skipCommand, hl]
      rw [hskip]
      cases ls with
      | nil =>
        exact ⟨[l], by simp, by simp, by simp [skipCommand], by simp [skipCommand], 1,
          .cons hl (.nil rfl)⟩
      | cons l' ls =>
        obtain ⟨seg, hne, hinner, hls, hlast, n, hn⟩ := ih (by simp)
        refine ⟨l :: seg, by simp, ?_, by rw [List.cons_append, ← hls], ?_, n + 1, .cons hl hn⟩
        · rw [List.dropLast_cons_of_ne_nil hne]
          exact List.forall_mem_cons.mpr ⟨hl, hinner⟩
        · rwa [List.getLast?_cons_of_ne_nil hne]

theorem exec_command_eq_iff {item : Item} :
    (Parser.command.exec i).1 = item.map some ↔ i.nextItem.1 = some item := by
  rw [nextItem_eq]
  rcases Parser.command.exec i with ⟨e | _ | c, i'⟩ <;> cases item <;> simp [Except.map]

/-- Segment by segment the items are what the segments give by themselves. -/
theorem forall₂_itemsWithin {bound : Nat} (h : i.tokens.length ≤ bound) :
    List.Forall₂ (fun seg item => (mk seg i.stop).nextItem.1 = some item)
      (segmentsOf i.tokens) (i.itemsWithin bound) := by
  induction bound generalizing i with
  | zero =>
    rw [List.length_eq_zero_iff.mp (Nat.le_zero.mp h)]
    exact .nil
  | succ bound ih =>
    by_cases hi : i.tokens = []
    · rw [itemsWithin_of_nil _ hi, hi]
      exact .nil
    obtain ⟨seg, hseg, n, hn⟩ := exists_first_segment hi
    obtain ⟨item, hitem, hitem'⟩ := hn.nextItem hi
    have hlt := length_skipCommand_lt hi
    have hleft : i.skipCommand.tokens.length ≤ bound := by omega
    have hshift : item.mapError (ParseError.shift 0) = item := by cases item <;> rfl
    rw [hseg, itemsWithin, hitem]
    exact .cons (by rw [hitem', hshift]) (ih hleft)

end Input

theorem getElem?_items {source : String} {k : Nat} {seg : List Lexeme}
    (h : (segments source)[k]? = some seg) :
    (items source)[k]? = (Input.mk seg source.utf8ByteSize).nextItem.1 := by
  obtain ⟨hlength, hitems⟩ := List.forall₂_iff_get.mp
    (Input.forall₂_itemsWithin (i := .ofString source) le_rfl)
  obtain ⟨hk, rfl⟩ := List.getElem?_eq_some_iff.mp h
  have hk' : k < (items source).length := hlength ▸ hk
  rw [List.getElem?_eq_getElem hk']
  exact (hitems k hk hk').symm

/-- Cut behind every period, the tokens of a text give an item for each segment and no other, call
by call, and each is the result of parsing the segment by itself. A segment that occurs in another
text as well, `d` bytes farther on, gives the same item there, whatever the other segments are. -/
theorem items_by_segment (source : String) :
    (segments source).flatten = solidTokens source ∧
    (∀ seg ∈ segments source, seg ≠ [] ∧ ∀ l ∈ seg.dropLast, l.token ≠ .mark .period) ∧
    (∀ seg ∈ (segments source).dropLast, ∀ l ∈ seg.getLast?, l.token = .mark .period) ∧
    List.Forall₂
      (fun seg item => (Parser.command.exec ⟨seg, source.utf8ByteSize⟩).1 = item.map some)
      (segments source) (items source) ∧
    (∀ k, (afterCalls Input.nextItem k (.ofString source)).nextItem.1 = (items source)[k]?) ∧
    ∀ source' (k k' d : Nat) (seg : List Lexeme), (segments source)[k]? = some seg →
      (segments source')[k']? = some (seg.map (Lexeme.shift d)) →
      (source'.utf8ByteSize = source.utf8ByteSize + d ∨ ∃ l ∈ seg, l.token = .mark .period) →
      (items source')[k']? = (items source)[k]?.map (Except.mapError (ParseError.shift d)) := by
  refine ⟨List.flatten_splitBy _ _, fun seg hseg => ⟨List.ne_nil_of_mem_splitBy hseg,
    inner_of_mem_segmentsOf hseg⟩, fun seg => last_of_mem_dropLast_segmentsOf, ?_,
    Input.nextItem_afterCalls le_rfl, fun source' k k' d seg hseg hseg' hstop => ?_⟩
  · simp only [Input.exec_command_eq_iff]
    exact Input.forall₂_itemsWithin (i := .ofString source) le_rfl
  · obtain ⟨n, hn⟩ := Input.exists_alignedTokens hstop
    have hne : seg ≠ [] := List.ne_nil_of_mem_splitBy (List.mem_of_getElem? hseg)
    have haligned : Input.Aligned d n ⟨seg, source.utf8ByteSize⟩
        ⟨seg.map (Lexeme.shift d), source'.utf8ByteSize⟩ := hn
    obtain ⟨item, hitem, hitem'⟩ := haligned.nextItem hne
    rw [getElem?_items hseg, getElem?_items hseg', hitem, hitem']
    rfl

/-- Behind a broken declaration and behind a right one the same broken command gives the same
error. -/
theorem items_behind_declarations :
    let seg := [⟨.ident "b", 9, 10⟩, ⟨.ident "x", 11, 12⟩, ⟨.mark .period, 12, 13⟩]
    (segments "var X o. b x.")[1]? = some seg ∧
    (segments "a : o -> o. b x. c")[1]? = some (seg.map (Lexeme.shift 3)) ∧
    (items "var X o. b x.")[1]? = some (.error ⟨.expected .colon, 11⟩) ∧
    (items "a : o -> o. b x. c")[1]? = some (.error ⟨.expected .colon, 14⟩) := by
  intro seg
  have hseg : (segments "var X o. b x.")[1]? = some seg := by cbv
  have hseg' : (segments "a : o -> o. b x. c")[1]? = some (seg.map (Lexeme.shift 3)) := by cbv
  have hitem : (items "var X o. b x.")[1]? = some (.error ⟨.expected .colon, 11⟩) := by cbv
  obtain ⟨-, -, -, -, -, hsame⟩ := items_by_segment "var X o. b x."
  refine ⟨hseg, hseg', hitem, ?_⟩
  rw [hsame _ 1 1 3 seg hseg hseg' (.inr ⟨_, .tail _ (.tail _ (.head _)), rfl⟩), hitem]
  rfl

end TermAlgebra.Language
