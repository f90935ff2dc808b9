import TermAlgebra.Proofs.PositionListing
import TermAlgebra.Proofs.Words

/-!
# Texts of positions

A position is read back from its text if its indices are counted from one and are not too large to
be read. That is so for all positions that are read from a text, however they are written there, and
for those of the subterms of a term. Main statement: `positions_survive_printing`.
-/

namespace TermAlgebra

/-! ## Indices -/

/-- The index of the step, if it has one, is counted from one and at most `n`. -/
def Step.Within (n : Nat) : Step → Prop
  | arg i | metaArg i => 0 < i ∧ i ≤ n
  | body => True

def Position.Within (n : Nat) (p : Position) : Prop := ∀ step ∈ p.steps, step.Within n

def HeadPosition.Within (n : Nat) (h : HeadPosition) : Prop := h.position.Within n ∧ h.chop ≤ n

theorem le_maxIndex_of_parseIndex? {cs : List Char} {n : Nat} (h : parseIndex? cs = some n) :
    n ≤ maxIndex := by
  unfold parseIndex? at h
  grind

theorem parseIndex?_toDigits {n : Nat} (h : n ≤ maxIndex) :
    parseIndex? (Nat.toDigits 10 n) = some n := by
  obtain ⟨c, cs, hdigits, hc, hcs, hvalue⟩ := Language.exists_digits n
  have hall : (c :: cs).all Char.isDigit := by rw [List.all_cons, hc, hcs, Bool.and_self]
  rw [hdigits, parseIndex?, if_neg (by simp [hall])]
  · exact (if_pos (hvalue.trans_le h)).trans (congrArg some hvalue)
  · rintro _ ⟨⟩
    cases hc

namespace Step

theorem parsePositive?_eq_some_iff {cs : List Char} {n : Nat} :
    parsePositive? cs = some n ↔ parseIndex? cs = some n ∧ 0 < n := by
  simp [parsePositive?, Option.filter_eq_some_iff]

theorem within_of_parse? {cs : List Char} {step : Step} (h : parse? cs = some step) :
    step.Within maxIndex := by
  unfold parse? at h
  split at h
  · cases h
    trivial
  all_goals
    obtain ⟨n, hn, rfl⟩ := Option.map_eq_some_iff.mp h
    rw [parsePositive?_eq_some_iff] at hn
    exact ⟨hn.2, le_maxIndex_of_parseIndex? hn.1⟩

/-- A step as it is written in front of its period. -/
def piece : Step → List Char
  | arg i => Nat.toDigits 10 i
  | body => ['0']
  | metaArg i => '!' :: Nat.toDigits 10 i

theorem toList_text (step : Step) : step.text.toList = step.piece ++ ['.'] := by
  cases step with
  | arg i => rw [text, String.toList_append, Nat.toString_eq_repr, Nat.toList_repr]; rfl
  | body => rfl
  | metaArg i =>
    rw [text, String.toList_append, String.toList_append, Nat.toString_eq_repr, Nat.toList_repr]
    rfl

theorem isDigit_of_mem_toDigits {c : Char} {n : Nat} (h : c ∈ Nat.toDigits 10 n) : c.isDigit :=
  Nat.isDigit_of_mem_toDigits (by decide) (by decide) h

/-- Neither a period nor the mark in front of a chop count stands in a step. -/
theorem not_mem_piece {c : Char} (step : Step) (hc : c.isDigit = false) (hne : c ≠ '!') :
    c ∉ step.piece := by
  intro h
  have hdigits : ∀ n, c ∉ Nat.toDigits 10 n := fun n hn => by
    rw [isDigit_of_mem_toDigits hn] at hc
    cases hc
  cases step with
  | arg i => exact hdigits i h
  | body =>
    obtain rfl := List.mem_singleton.mp h
    cases hc
  | metaArg i => exact (List.mem_cons.mp h).elim hne (hdigits i)

theorem piece_ne_nil (step : Step) : step.piece ≠ [] := by
  cases step with
  | arg i => exact Nat.toDigits_ne_nil
  | body | metaArg i => exact List.cons_ne_nil _ _

theorem parse?_piece {step : Step} (h : step.Within maxIndex) : parse? step.piece = some step := by
  have hpositive : ∀ {n}, 0 < n → n ≤ maxIndex → parsePositive? (Nat.toDigits 10 n) = some n :=
    fun hpos hn => parsePositive?_eq_some_iff.mpr ⟨parseIndex?_toDigits hn, hpos⟩
  cases step with
  | arg i =>
    obtain ⟨hpos, hi⟩ := h
    obtain ⟨c, cs, hdigits, hc, -, hvalue⟩ := Language.exists_digits i
    have hvalid := hpositive hpos hi
    rw [piece]
    rw [hdigits] at hvalid ⊢
    unfold parse?
    split
    · next heq =>
      -- The text of the step into a body is that of no index.
      rw [heq] at hvalue
      exact absurd hvalue hpos.ne
    · next heq =>
      cases heq
      cases hc
    · rw [hvalid]
      rfl
  | body => rfl
  | metaArg i =>
    rw [piece, parse?, hpositive h.1 h.2]
    rfl

/-! ## Paths -/

theorem pieces_append {w : List Char} (hw : '.' ∉ w) (cs : List Char) :
    pieces (w ++ '.' :: cs) = w :: pieces cs := by
  induction w with
  | nil => rw [List.nil_append, pieces]
  | cons c w ih =>
    obtain ⟨hc, hw⟩ := List.ne_and_not_mem_of_not_mem_cons hw
    rw [List.cons_append, pieces, ih hw]
    exact fun h => hc h.symm

theorem toList_textAll (steps : List Step) :
    (textAll steps).toList = steps.flatMap fun step => step.piece ++ ['.'] := by
  rw [textAll, String.toList_join, List.flatMap_map]
  simp only [toList_text]

theorem pieces_textAll (steps : List Step) :
    pieces (textAll steps).toList = steps.map piece ++ [[]] := by
  rw [toList_textAll]
  induction steps with
  | nil => rfl
  | cons step steps ih =>
    rw [List.flatMap_cons, List.append_assoc, List.singleton_append,
      pieces_append (step.not_mem_piece rfl (by decide)), ih]
    rfl

theorem parseAll?_textAll {steps : List Step} (h : ∀ step ∈ steps, step.Within maxIndex) :
    parseAll? (textAll steps).toList = some steps := by
  have hfilter : (steps.map piece ++ [[]]).filter (fun w => !w.isEmpty) = steps.map piece := by
    rw [List.filter_append, List.filter_eq_self.mpr]
    · exact List.append_nil _
    · intro w hw
      obtain ⟨step, -, rfl⟩ := List.mem_map.mp hw
      simp [piece_ne_nil]
  rw [parseAll?, pieces_textAll, hfilter]
  clear hfilter
  induction steps with
  | nil => rfl
  | cons step steps ih =>
    obtain ⟨hstep, hsteps⟩ := List.forall_mem_cons.mp h
    rw [List.map_cons, List.mapM_cons, parse?_piece hstep, ih hsteps]
    rfl

theorem within_of_parseAll? {cs : List Char} {steps : List Step} (h : parseAll? cs = some steps) :
    ∀ step ∈ steps, step.Within maxIndex := by
  unfold parseAll? at h
  generalize (pieces cs).filter _ = ws at h
  induction ws generalizing steps with
  | nil =>
    cases h
    simp
  | cons w ws ih =>
    rw [List.mapM_cons] at h
    simp only [Option.bind_eq_bind, Option.bind_eq_some_iff, Option.pure_def,
      Option.some.injEq] at h
    obtain ⟨step, hstep, steps, hsteps, rfl⟩ := h
    exact List.forall_mem_cons.mpr ⟨within_of_parse? hstep, ih hsteps⟩

end Step

/-! ## Positions -/

namespace Position

variable {p q : Position}

theorem parseSteps_textAll (h : p.Within maxIndex) :
    parseSteps (Step.textAll p.steps).toList = .ok p := by
  rw [parseSteps, Step.parseAll?_textAll h]
  rfl

theorem within_of_parseSteps {cs : List Char} (h : parseSteps cs = .ok p) : p.Within maxIndex := by
  unfold parseSteps at h
  split at h
  · next steps hsteps =>
    cases h
    exact Step.within_of_parseAll? hsteps
  · cases h

theorem parseChars_text (h : p.Within maxIndex) : parseChars p.text.toList = .ok p := by
  have htext : p.text.toList = (Step.textAll p.steps).toList ++ ['ε'] := by
    rw [text, String.toList_append]
    rfl
  rw [parseChars, htext, List.getLast?_concat, if_pos rfl, List.dropLast_concat,
    parseSteps_textAll h]

theorem within_of_parseChars {cs : List Char} (h : parseChars cs = .ok p) : p.Within maxIndex := by
  unfold parseChars at h
  split at h
  · exact within_of_parseSteps h
  · cases h

theorem parse_text_iff : parse p.text = .ok p ↔ p.Within maxIndex :=
  ⟨within_of_parseChars, parseChars_text⟩

end Position

namespace HeadPosition

variable {h : HeadPosition}

theorem not_mem_textAll (steps : List Step) : '☆' ∉ (Step.textAll steps).toList := by
  rw [Step.toList_textAll]
  simp only [List.mem_flatMap, List.mem_append, List.mem_singleton]
  rintro ⟨step, -, hpiece | hperiod⟩
  · exact step.not_mem_piece (by decide) (by decide) hpiece
  · exact absurd hperiod (by decide)

theorem forall_ne_mark {w : List Char} (hw : '☆' ∉ w) : ∀ c ∈ w, decide (c ≠ '☆') = true := by
  intro c hc
  have hne : c ≠ '☆' := fun h => hw (h ▸ hc)
  exact decide_eq_true hne

theorem span_append {w : List Char} (hw : '☆' ∉ w) (cs : List Char) :
    (w ++ '☆' :: cs).span (· ≠ '☆') = (w, '☆' :: cs) := by
  rw [List.span_eq_takeWhile_dropWhile, List.takeWhile_append_of_pos (forall_ne_mark hw),
    List.dropWhile_append_of_pos (forall_ne_mark hw)]
  simp

theorem span_eq_self {w : List Char} (hw : '☆' ∉ w) : w.span (· ≠ '☆') = (w, []) := by
  rw [List.span_eq_takeWhile_dropWhile, List.takeWhile_eq_self_iff.mpr (forall_ne_mark hw),
    List.dropWhile_eq_nil_iff.mpr (forall_ne_mark hw)]

theorem bind_mk_eq_ok_iff {e : Except InvalidPosition Position} {k : Nat} :
    (do return ⟨← e, k⟩ : Except InvalidPosition HeadPosition) = .ok h ↔
      e = .ok h.position ∧ k = h.chop := by
  rcases h with ⟨p, k'⟩
  cases e with
  | error e => exact ⟨nofun, nofun⟩
  | ok q =>
    change Except.ok (HeadPosition.mk q k) = _ ↔ _
    simp

theorem within_of_parse {s : String} (e : parse s = .ok h) : h.Within maxIndex := by
  unfold parse at e
  split at e
  · split at e
    · next k hk =>
      obtain ⟨hp, rfl⟩ := bind_mk_eq_ok_iff.mp e
      exact ⟨Position.within_of_parseSteps hp, le_maxIndex_of_parseIndex? hk⟩
    · cases e
  · obtain ⟨hp, hzero⟩ := bind_mk_eq_ok_iff.mp e
    exact ⟨Position.within_of_parseChars hp, hzero ▸ Nat.zero_le _⟩

theorem parse_text (hh : h.Within maxIndex) : parse h.text = .ok h := by
  obtain ⟨hp, hchop⟩ := hh
  by_cases hzero : h.chop = 0
  · have hmark : '☆' ∉ h.position.text.toList := by
      rw [Position.text, String.toList_append, List.mem_append]
      exact fun hmem => hmem.elim (not_mem_textAll _) (by decide)
    rw [text, if_pos hzero, parse, span_eq_self hmark]
    exact bind_mk_eq_ok_iff.mpr ⟨Position.parseChars_text hp, hzero.symm⟩
  · have htext : h.text.toList =
        (Step.textAll h.position.steps).toList ++ '☆' :: Nat.toDigits 10 h.chop := by
      rw [text, if_neg hzero, String.toList_append, String.toList_append, Nat.toString_eq_repr,
        Nat.toList_repr, List.append_assoc]
      rfl
    rw [parse, htext, span_append (not_mem_textAll _)]
    simp only [parseIndex?_toDigits hchop]
    exact bind_mk_eq_ok_iff.mpr ⟨Position.parseSteps_textAll hp, rfl⟩

theorem parse_text_iff : parse h.text = .ok h ↔ h.Within maxIndex := ⟨within_of_parse, parse_text⟩

end HeadPosition

/-! ## Listed positions -/

namespace Term

variable {t s : Term} {n : Nat} {steps : List Step}

/-- No subterm has more than `n` arguments, of an application or of a meta-application. -/
def ArgsWithin (n : Nat) (t : Term) : Prop :=
  ∀ steps s, t.descend? steps = some s → s.args.length ≤ n ∧ s.metaArgs.length ≤ n

theorem argsWithin_iff :
    t.ArgsWithin n ↔ t.args.length ≤ n ∧ t.metaArgs.length ≤ n ∧
      ∀ step u, (step, u) ∈ t.children → u.ArgsWithin n := by
  constructor
  · exact fun h => ⟨(h [] t rfl).1, (h [] t rfl).2, fun step u hu steps s hs =>
      h (step :: steps) s (descend?_eq_some_cons.mpr ⟨u, hu, hs⟩)⟩
  · rintro ⟨hargs, hmetaArgs, hchildren⟩ steps s hs
    cases steps with
    | nil =>
      obtain rfl := Option.some.inj hs
      exact ⟨hargs, hmetaArgs⟩
    | cons step steps =>
      obtain ⟨u, hu, hs⟩ := descend?_eq_some_cons.mp hs
      exact hchildren step u hu steps s hs

theorem exists_argsWithin (t : Term) : ∃ n, t.ArgsWithin n := by
  -- There are finitely many subterms, so the number of all their arguments is a bound.
  let size := fun steps => (t.descend? steps).elim 0 fun s => s.args.length + s.metaArgs.length
  refine ⟨(t.paths.map size).sum, fun steps s hs => ?_⟩
  have hle : size steps ≤ (t.paths.map size).sum :=
    List.le_sum_of_mem (List.mem_map_of_mem (mem_paths.mpr ⟨s, hs⟩))
  have hsize : size steps = s.args.length + s.metaArgs.length := by simp only [size, hs]; rfl
  omega

theorem within_of_nth? {ts : List Term} {i : Nat} (h : nth? ts i = some s) (hts : ts.length ≤ n) :
    0 < i ∧ i ≤ n := by
  cases i with
  | zero => cases h
  | succ i =>
    obtain ⟨hi, -⟩ := List.getElem?_eq_some_iff.mp h
    exact ⟨Nat.succ_pos i, Nat.le_trans hi hts⟩

theorem within_of_descend? (ht : t.ArgsWithin n) (h : t.descend? steps = some s) :
    ∀ step ∈ steps, step.Within n := by
  induction steps generalizing t with
  | nil => simp
  | cons step steps ih =>
    obtain ⟨u, hu, hs⟩ := descend?_eq_some_cons.mp h
    have hstep := mem_children.mp hu
    obtain ⟨hargs, hmetaArgs, hchildren⟩ := argsWithin_iff.mp ht
    refine List.forall_mem_cons.mpr ⟨?_, ih (hchildren step u hu) hs⟩
    cases step with
    | arg i => exact within_of_nth? hstep hargs
    | body => trivial
    | metaArg i => exact within_of_nth? hstep hmetaArgs

theorem within_of_mem_positions {p : Position} (ht : t.ArgsWithin n) (h : p ∈ t.positions) :
    p.Within n := by
  obtain ⟨s, hs⟩ := mem_positions.mp h
  exact within_of_descend? ht (subtermAt_eq_ok hs)

theorem within_of_mem_headPositions {h : HeadPosition} (ht : t.ArgsWithin n)
    (hh : h ∈ t.headPositions) : h.Within n := by
  obtain ⟨u, hu⟩ := mem_headPositions.mp hh
  obtain ⟨s, keep, hsplit, -⟩ := headSubtermAt_eq_ok hu
  obtain ⟨hs, hchop, -⟩ := headSplit_eq_ok hsplit
  exact ⟨within_of_descend? ht hs, hchop.trans (ht _ s hs).1⟩

end Term

/-- Exactly the positions with indices from one to the largest are read back from their texts, so
these texts are different. Every position that a text is read as is of that kind, and gives itself
when it is printed and read again; so are the listed positions of every term without too many
arguments. -/
theorem positions_survive_printing :
    (∀ p : Position, Position.parse p.text = .ok p ↔ p.Within maxIndex) ∧
    (∀ h : HeadPosition, HeadPosition.parse h.text = .ok h ↔ h.Within maxIndex) ∧
    Set.InjOn Position.text {p | p.Within maxIndex} ∧
    Set.InjOn HeadPosition.text {h | h.Within maxIndex} ∧
    (∀ s p, Position.parse s = .ok p → p.Within maxIndex ∧ Position.parse p.text = .ok p) ∧
    (∀ s h, HeadPosition.parse s = .ok h →
      h.Within maxIndex ∧ HeadPosition.parse h.text = .ok h) ∧
    ∀ t : Term, (∃ n, t.ArgsWithin n) ∧ ∀ n, t.ArgsWithin n →
      (∀ p ∈ t.positions, p.Within n) ∧ ∀ h ∈ t.headPositions, h.Within n := by
  refine ⟨fun p => Position.parse_text_iff, fun h => HeadPosition.parse_text_iff,
    fun p hp q hq e => ?_, fun h hh k hk e => ?_, fun s p hp => ?_, fun s h hh => ?_, fun t => ?_⟩
  · have hparse := Position.parse_text_iff.mpr hp
    rw [e, Position.parse_text_iff.mpr hq] at hparse
    exact (Except.ok.inj hparse).symm
  · have hparse := HeadPosition.parse_text_iff.mpr hh
    rw [e, HeadPosition.parse_text_iff.mpr hk] at hparse
    exact (Except.ok.inj hparse).symm
  · exact ⟨Position.within_of_parseChars hp,
      Position.parse_text_iff.mpr (Position.within_of_parseChars hp)⟩
  · exact ⟨HeadPosition.within_of_parse hh,
      HeadPosition.parse_text_iff.mpr (HeadPosition.within_of_parse hh)⟩
  · exact ⟨t.exists_argsWithin, fun n ht =>
      ⟨fun p => Term.within_of_mem_positions ht, fun h => Term.within_of_mem_headPositions ht⟩⟩

/-- Plus signs, zeros in front and periods without a step between them are lost, the position is
not. -/
theorem reread_positions :
    let p : Position := ⟨[.arg 1, .body, .metaArg 7]⟩
    let q : Position := ⟨[.arg 1, .body, .arg 7]⟩
    let h : HeadPosition := ⟨⟨[.arg 2]⟩, 3⟩
    let v : Var := ⟨0, "v", .base "o", false⟩
    let t := Term.app (.var v) [.var v]
    Position.parse "+01..0.!007.ε" = .ok p ∧ p.text = "1.0.!7.ε" ∧
      Position.parse p.text = .ok p ∧ p.text ≠ q.text ∧ HeadPosition.parse "2☆+03" = .ok h ∧
      h.text = "2.☆3" ∧ HeadPosition.parse h.text = .ok h ∧ t.ArgsWithin 1 ∧
      ⟨[.arg 1]⟩ ∈ t.positions ∧ Step.Within 1 (.arg 1) := by
  intro p q h v t
  obtain ⟨-, -, hinjective, -, hback, hback', hlisted⟩ := positions_survive_printing
  have hp : Position.parse "+01..0.!007.ε" = .ok p := by cbv
  have hh : HeadPosition.parse "2☆+03" = .ok h := by cbv
  have hq : q.Within maxIndex := by
    simp only [Position.Within, q, List.forall_mem_cons]
    simp [Step.Within, maxIndex]
  have hv : (Term.var v).ArgsWithin 1 :=
    Term.argsWithin_iff.mpr ⟨Nat.zero_le _, Nat.zero_le _, fun _ _ hu => nomatch hu⟩
  have ht : t.ArgsWithin 1 := by
    refine Term.argsWithin_iff.mpr ⟨le_rfl, Nat.zero_le _, fun step u hu => ?_⟩
    obtain ⟨-, rfl⟩ := Prod.mk.inj (List.mem_singleton.mp hu)
    exact hv
  have hmem : ⟨[.arg 1]⟩ ∈ t.positions := .head _
  refine ⟨hp, by cbv, (hback _ p hp).2, fun e => ?_, hh, by cbv, (hback' _ h hh).2, ht, hmem,
    ((hlisted t).2 1 ht).1 _ hmem _ (.head _)⟩
  exact absurd (hinjective (hback _ p hp).1 hq e) (by decide)

end TermAlgebra
