import TermAlgebra.Language.Stream
import TermAlgebra.Proofs.ParserCompleteness
import TermAlgebra.Proofs.ParserProgress
import TermAlgebra.Proofs.ParserSoundness
import TermAlgebra.Proofs.Printing

/-!
# Printing and parsing

The parser reads the text of every tree that it can produce back to this tree. Main statement: the
trees that the parser produces are the readable ones, their texts give them back, and printed
commands in a row give the same commands.
-/

namespace TermAlgebra.Language

open Word

namespace Parser

variable {α : Type}

/-- A whole text is parsed if the parser leaves nothing of it. -/
theorem parseAll_eq_ok {p : Parser α} {source : String} {a : α} :
    p.parseAll source = .ok a ↔ ∃ i, p.Takes (.ofString source) a i ∧ i.tokens = [] := by
  have hwhole : p.parseAll source = .ok a ↔ ∃ i, Takes (do
      let x ← p
      unless (← get).atEnd do fail .endOfInput
      return x) (.ofString source) a i := by
    unfold Takes
    change (exec _ _).1 = _ ↔ _
    rcases exec _ _ with ⟨r, i⟩
    simp
  rw [hwhole]
  constructor
  · rintro ⟨i', h⟩
    obtain ⟨a', i, hp, h⟩ := takes_bind.mp h
    rw [takes_get_bind] at h
    split at h
    · next hend =>
      obtain ⟨rfl, rfl⟩ := takes_pure.mp h
      exact ⟨_, hp, by simpa [Input.atEnd] using hend⟩
    · rw [fail_bind] at h
      exact absurd h not_takes_fail
  · rintro ⟨i, hp, hi⟩
    refine ⟨i, takes_bind.mpr ⟨a, i, hp, takes_get_bind.mpr ?_⟩⟩
    simp [Input.atEnd, hi, takes_pure]

/-- A parser that is sound and complete for its phrases accepts exactly the texts whose words are a
phrase as a whole. -/
theorem parseAll_eq_ok_iff {p : Parser α} {Spells : List Word → α → Prop} {Ends : List Word → Prop}
    (hsound : Sound p Spells Ends) (hcomplete : ∀ w a, Spells w a → Yields p w a [])
    {source : String} {a : α} :
    p.parseAll source = .ok a ↔ Spells (scan false source.toList) a := by
  rw [parseAll_eq_ok]
  constructor
  · rintro ⟨i, hp, hi⟩
    -- No token is left, so the words that were taken are all words of the text.
    obtain ⟨w, vs, hws, hsees, hw, -⟩ := hsound hp (Input.sees_ofString source)
    have hvs : vs = [] := by
      have := hsees.length
      rw [hi] at this
      exact List.length_eq_zero_iff.mp this.symm
    rw [hws, hvs, List.append_nil]
    exact hw
  · intro h
    obtain ⟨i, hp, hi⟩ := hcomplete _ _ h _ (Input.sees_ofString source)
    exact ⟨i, hp, List.length_eq_zero_iff.mp hi.length⟩

end Parser

theorem parseType_eq_ok_iff {source : String} {τ : SimpleType} :
    parseType source = .ok τ ↔ TypePhrase (scan false source.toList) τ :=
  Parser.parseAll_eq_ok_iff Parser.sound_type fun w τ h => by
    simpa using @Parser.yields_type w [] τ h nofun

theorem parse_eq_ok_iff {source : String} {t : Expr} :
    Expr.parse source = .ok t ↔ TermPhrase (scan false source.toList) t :=
  Parser.parseAll_eq_ok_iff Parser.sound_term fun w t h => by
    simpa using @Parser.yields_term w [] t h nofun

/-! ## Streams -/

/-- The words of commands one after the other. -/
inductive Sentences : List Word → List Command → Prop where
  | nil : Sentences [] []
  | cons {w v c cs} : Sentence w c → Sentences v cs → Sentences (w ++ v) (c :: cs)

theorem Sentences.length_le {ws : List Word} {cs : List Command} (h : Sentences ws cs) :
    cs.length ≤ ws.length := by
  induction h with
  | nil => exact le_rfl
  | cons hc _ ih =>
    obtain ⟨_⟩ := hc
    simp only [List.length_cons, List.length_append, List.length_nil]
    omega

theorem Input.nextItem_of_takes {i i' : Input} {o : Option Command}
    (h : Parser.command.Takes i o i') : i.nextItem = (o.map .ok, i') := by
  change (ExceptT.run Parser.command).run i = (.ok o, i') at h
  unfold Input.nextItem
  rw [h]
  cases o <;> rfl

theorem Input.Sees.itemsWithin {i : Input} {ws : List Word} {cs : List Command}
    (hi : i.Sees ws) (h : Sentences ws cs) {bound : Nat} (hbound : cs.length ≤ bound) :
    i.itemsWithin bound = cs.map .ok := by
  induction h generalizing i bound with
  | nil =>
    cases bound with
    | zero => rfl
    | succ bound =>
      obtain ⟨i', hcommand, -⟩ := Parser.yields_command_nil i hi
      rw [Input.itemsWithin, Input.nextItem_of_takes hcommand]
      rfl
  | @cons w v c cs hc _ ih =>
    cases bound with
    | zero => cases hbound
    | succ bound =>
      obtain ⟨i', hcommand, hi'⟩ := Parser.yields_command hc i hi
      rw [Input.itemsWithin, Input.nextItem_of_takes hcommand]
      exact congrArg _ (ih hi' (Nat.le_of_succ_le_succ hbound))

theorem items_of_sentences {source : String} {cs : List Command}
    (h : Sentences (scan false source.toList) cs) : items source = cs.map .ok := by
  have hi := Input.sees_ofString source
  refine hi.itemsWithin h ?_
  rw [hi.length]
  exact h.length_le

theorem Input.skipCommand_suffix (i : Input) : i.skipCommand.tokens <:+ i.tokens :=
  (List.tail_suffix _).trans (List.dropWhile_suffix _)

/-- Every command of a stream was taken somewhere in the input. -/
theorem Input.takes_of_mem_itemsWithin {i : Input} {c : Command} {bound : Nat}
    (h : .ok c ∈ i.itemsWithin bound) :
    ∃ i₁ i₂, i₁.tokens <:+ i.tokens ∧ Parser.command.Takes i₁ (some c) i₂ := by
  induction bound generalizing i with
  | zero => cases h
  | succ bound ih =>
    have hdrops := Parser.drops_command i
    rw [itemsWithin, nextItem_eq] at h
    rcases hexec : Parser.command.exec i with ⟨e | _ | c', i'⟩
    all_goals rw [hexec] at h hdrops
    · rcases List.mem_cons.mp h with h | h
      · cases h
      · obtain ⟨i₁, i₂, hsuffix, htakes⟩ := ih h
        exact ⟨i₁, i₂, hsuffix.trans (i'.skipCommand_suffix.trans hdrops), htakes⟩
    · cases h
    · rcases List.mem_cons.mp h with h | h
      · cases h
        exact ⟨i, i', List.suffix_rfl, hexec⟩
      · obtain ⟨i₁, i₂, hsuffix, htakes⟩ := ih h
        exact ⟨i₁, i₂, hsuffix.trans hdrops, htakes⟩

theorem isReadable_of_mem_items {source : String} {c : Command} (h : .ok c ∈ items source) :
    c.isReadable := by
  obtain ⟨i₁, i₂, hsuffix, htakes⟩ := Input.takes_of_mem_itemsWithin h
  have hlexical : (words none i₁.tokens).all Word.isLexical := by
    have hall := all_isLexical_scan source.toList
    rw [← words_solidTokens, all_isLexical_words] at hall
    rw [all_isLexical_words, List.all_eq_true]
    exact fun l hl => List.all_eq_true.mp hall l (hsuffix.subset hl)
  rcases Parser.sound_command htakes ⟨none, rfl⟩ with ⟨hnone, -⟩ | ⟨c, w, vs, hc, hws, -, hw⟩
  · cases hnone
  · cases hc
    rw [hws, List.all_append, Bool.and_eq_true] at hlexical
    obtain ⟨hphrase⟩ := hw
    rw [List.all_append, Bool.and_eq_true] at hlexical
    exact hphrase.isReadable hlexical.1.1

/-! ## Texts of commands -/

/-- Commands one after the other, each with the same text behind it. -/
def streamText (sep : String) (cs : List Command) : String :=
  String.join (cs.map fun c => c.text ++ sep)

theorem sentences_streamText {sep : String} (hsep : sep.toList.all isBlank) {cs : List Command}
    (h : ∀ c ∈ cs, c.isReadable) : Sentences (scan false (streamText sep cs).toList) cs := by
  induction cs with
  | nil =>
    have hnil : (streamText sep []).toList = [] := by simp [streamText]
    rw [hnil, scan_nil]
    exact .nil
  | cons c cs ih =>
    obtain ⟨w, hc, hw⟩ := reads_commandText (h c List.mem_cons_self)
    have htext : (streamText sep (c :: cs)).toList =
        c.text.toList ++ (sep.toList ++ (streamText sep cs).toList) := by
      simp [streamText, String.toList_append]
    rw [htext, hw false _ trivial, scan_blanks hsep]
    exact .cons hc (ih fun c hc => h c (List.mem_cons_of_mem _ hc))

theorem items_streamText {sep : String} (hsep : sep.toList.all isBlank) {cs : List Command}
    (h : ∀ c ∈ cs, c.isReadable) : items (streamText sep cs) = cs.map .ok :=
  items_of_sentences (sentences_streamText hsep h)

theorem parseType_typeText {τ : SimpleType} (h : isReadableType τ) :
    parseType (typeText τ) = .ok τ := by
  obtain ⟨w, hw, hτ⟩ := spelled_typeText h
  have hscan := hw false [] nofun
  simp only [List.append_nil, scan_nil] at hscan
  rw [parseType_eq_ok_iff, hscan]
  exact hτ

theorem parse_text {t : Expr} (h : t.isReadable) : Expr.parse t.text = .ok t := by
  obtain ⟨w, hw, ht⟩ := (spelled_text t h).1
  have hscan := hw false [] nofun
  simp only [List.append_nil, scan_nil] at hscan
  rw [parse_eq_ok_iff, hscan]
  exact ht

theorem items_commandText {c : Command} (h : c.isReadable) : items c.text = [.ok c] := by
  have hstream := @items_streamText "" rfl [c] (by simpa using h)
  simpa [streamText] using hstream

/-- The commands of a text without its errors. -/
def commands (source : String) : List Command := (items source).filterMap Except.toOption

theorem isReadable_of_mem_commands {source : String} {c : Command} (h : c ∈ commands source) :
    c.isReadable := by
  obtain ⟨item, hitem, hc⟩ := List.mem_filterMap.mp h
  cases item with
  | error e => cases hc
  | ok c' =>
    cases hc
    exact isReadable_of_mem_items hitem

/-- The trees that come out of the parser are the readable ones, and each of them is read back from
its text. So printing the commands of any text, with any white space behind each, and reading the
print gives the same commands. -/
theorem parser_inverts_printer :
    (∀ τ, (isReadableType τ ↔ ∃ source, parseType source = .ok τ) ∧
      (isReadableType τ → parseType (typeText τ) = .ok τ)) ∧
    (∀ t : Expr, (t.isReadable ↔ ∃ source, Expr.parse source = .ok t) ∧
      (t.isReadable → Expr.parse t.text = .ok t)) ∧
    (∀ c : Command, (c.isReadable ↔ ∃ source, .ok c ∈ items source) ∧
      (c.isReadable → items c.text = [.ok c])) ∧
    ∀ source sep : String, sep.toList.all isBlank →
      items (streamText sep (commands source)) = (commands source).map .ok := by
  refine ⟨fun τ => ⟨⟨fun h => ⟨_, parseType_typeText h⟩, ?_⟩, parseType_typeText⟩,
    fun t => ⟨⟨fun h => ⟨_, parse_text h⟩, ?_⟩, parse_text⟩,
    fun c => ⟨⟨fun h => ⟨c.text, ?_⟩, ?_⟩, items_commandText⟩, fun source sep hsep => ?_⟩
  · rintro ⟨source, h⟩
    exact (parseType_eq_ok_iff.mp h).isReadable (all_isLexical_scan _)
  · rintro ⟨source, h⟩
    exact (parse_eq_ok_iff.mp h).isReadable (all_isLexical_scan _)
  · rw [items_commandText h]
    exact List.mem_singleton_self _
  · rintro ⟨source, h⟩
    exact isReadable_of_mem_items h
  · exact items_streamText hsep fun c => isReadable_of_mem_commands

/-- An abstraction as a head, a meta-application without arguments, the least number, a string with
marks in it, and a name that starts like a keyword. -/
def substitutionOfLambda : Command :=
  .subst
    (.app
      (.lambda "x" (.arrow (.arrow (.base "a") (.base "b")) (.base "c"))
        (.app (.name "f") [.metaApp "Z" [], .literal (.int Int64.minValue)]))
      [.literal (.string "; ].")])
    [("X", .name "match'")]

theorem items_substitutionOfLambda :
    substitutionOfLambda.isReadable ∧
      items substitutionOfLambda.text = [.ok substitutionOfLambda] ∧
      "\n".toList.all isBlank ∧
      items (streamText "\n" (commands "meta V : o. ). positions f()(x).")) =
        (commands "meta V : o. ). positions f()(x).").map .ok := by
  have hreadable : substitutionOfLambda.isReadable := by decide
  have hblank : "\n".toList.all isBlank := by decide
  exact ⟨hreadable, (parser_inverts_printer.2.2.1 _).2 hreadable, hblank,
    parser_inverts_printer.2.2.2 _ _ hblank⟩

end TermAlgebra.Language
