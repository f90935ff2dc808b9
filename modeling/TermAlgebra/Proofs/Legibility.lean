import TermAlgebra.Proofs.LiteralText
import TermAlgebra.Proofs.OperatorChains
import TermAlgebra.Proofs.Reinsertion

/-!
# Legibility

A printed term is read in one way: words end at the characters of the layout, the operands of a
chain are told apart by induction on their size, and a chain belongs to one term. Only operations
of precedence 255 are never printed. Main statement: `textAt_eq_iff`.
-/

namespace TermAlgebra

/-- The characters that the layout uses. -/
def delimiters : List Char := ['(', ')', '[', ']', ',', ' ', 'λ', '.']

def Term.Symbol.isLiteral : Term.Symbol → Bool
  | literal _ => true
  | _ => false

/-- Words hold no character of the layout, and the name of a symbol is the word of no other. -/
structure Names.Legible (names : Names) (symbols : List Term.Symbol) : Prop where
  plain : ∀ a ∈ symbols, ∀ ch ∈ (a.word names).toList, ch ∉ delimiters
  distinct : ∀ a ∈ symbols, ∀ b ∈ symbols, a.isLiteral = false → a.word names = b.word names → a = b

/-- Literals tell themselves apart. -/
theorem Names.Legible.injective {names : Names} {symbols : List Term.Symbol}
    (h : names.Legible symbols) {a b : Term.Symbol} (ha : a ∈ symbols) (hb : b ∈ symbols)
    (hword : a.word names = b.word names) : a = b := by
  cases hlit : a.isLiteral with
  | false => exact h.distinct a ha b hb hlit hword
  | true =>
    cases hlit' : b.isLiteral with
    | false => exact (h.distinct b hb a ha hlit' hword.symm).symm
    | true =>
      cases a <;> cases hlit
      cases b <;> cases hlit'
      exact congrArg Term.Symbol.literal (Literal.text_injective hword)

namespace Term

open Text

/-- What the layout relies on besides the words: parentheses around an open term are no list of
arguments, because some text stands in front of those. -/
def Readable (names : Names) (t : Term) : Prop :=
  ∀ head u, NodeOf (app head [u]) t → u.isOpen → head.textAt names 1 ≠ some ""

variable {names : Names}

theorem Readable.node {t u : Term} (h : t.Readable names) (hu : NodeOf u t) : u.Readable names :=
  fun head v hn => h head v (hn.trans hu)

/-! ## The characters of a chain -/

variable (names) in
def binderChars (xs : List Var) : List Char :=
  xs.flatMap fun x => 'λ' :: ((Symbol.var x).word names).toList ++ ['.']

variable (names) in
/-- An operand stands in parentheses if it is open. -/
def operandChars (t : Term) : List Char := (t.textIn names 256).toList

variable (names) in
def operatorChars (ops : List (Constant × Term)) : List Char :=
  ops.flatMap fun o => ' ' :: ((Symbol.const o.1).word names).toList ++ ' ' :: operandChars names o.2

theorem textIn_operand {c : Nat} {t : Term} (h : t.enclosed c = t.isOpen) :
    t.textIn names c = t.textIn names 256 := by
  rw [textIn_eq names c, textIn_eq names 256, h, enclosed_of_tight (Nat.le_refl 256)]

theorem toList_lambda (x : Var) (body : Term) :
    ((lambda x body).textIn names 0).toList =
      'λ' :: ((Symbol.var x).word names).toList ++ '.' :: (body.textIn names 0).toList := by
  rw [textIn_lambda]
  simp [parenthesized, Symbol.word]

theorem toList_operation {c : Nat} {k : Constant} {p : UInt8} (l r : Term)
    (hk : k.precedence = some p) (hc : c ≤ p.toNat) :
    ((app (const k) [l, r]).textIn names c).toList =
      (l.textIn names p.toNat).toList ++ (' ' :: ((Symbol.const k).word names).toList ++
        ' ' :: (r.textIn names (p.toNat + 1)).toList) := by
  rw [textIn_operation names c hk, decide_eq_false (by omega)]
  simp [parenthesized, Symbol.word]

theorem Chain.toList_textIn {c : Nat} {t u : Term} {xs : List Var} {ops : List (Constant × Term)}
    (h : Chain c t xs u ops) :
    (t.textIn names c).toList =
      binderChars names xs ++ (operandChars names u ++ operatorChars names ops) := by
  induction h with
  | operand h =>
    rw [textIn_operand h]
    simp [binderChars, operandChars, operatorChars]
  | lambda _ ih =>
    rw [toList_lambda, ih]
    simp [binderChars]
  | operation hk hc _ _ ihl ihr =>
    rw [toList_operation _ _ hk hc, ihl, ihr]
    simp [binderChars, operatorChars]

/-! ## Lists of arguments -/

variable (names) in
/-- The arguments after the first. -/
def furtherChars (ts : List Term) : List Char :=
  ts.flatMap fun t => ',' :: ' ' :: (t.textIn names 0).toList

variable (names) in
/-- Arguments between brackets; no brackets without arguments. -/
def listChars (opening closing : Char) : List Term → List Char
  | [] => []
  | t :: ts => opening :: ((t.textIn names 0).toList ++ (furtherChars names ts ++ [closing]))

theorem toList_listed (t : Term) (ts : List Term) :
    (listed (textsIn names (t :: ts))).toList =
      (t.textIn names 0).toList ++ furtherChars names ts := by
  rw [textsIn_eq_map, listed, String.toList_intercalate]
  induction ts generalizing t with
  | nil => simp [furtherChars, List.intercalate]
  | cons s ts ih =>
    have hs := ih s
    simp only [List.map_cons] at hs ⊢
    rw [List.intercalate_cons_cons, hs]
    simp [furtherChars]

/-! ## Printable terms -/

/-- A well-formed term that is printed with legible words. -/
structure Printable (names : Names) (symbols : List Symbol) (t : Term) : Prop where
  wf : t.WellFormed
  printed : ¬t.Overflows
  readable : t.Readable names
  words : t.symbols ⊆ symbols

theorem Printable.node {symbols : List Symbol} {t u : Term} (h : t.Printable names symbols)
    (hu : NodeOf u t) : u.Printable names symbols :=
  ⟨h.wf.node hu, fun ho => h.printed (ho.of_node hu), h.readable.node hu,
    fun _ ha => h.words (hu.symbols_subset ha)⟩

/-! ## Parts of an operand -/

def primary : Symbol → List Term → Term
  | .literal v, _ => literal v
  | .const c, _ => const c
  | .var x, _ => var x
  | .metaVar z, args => metaApp z args

variable (names) in
/-- A closed term that is no application: a word, and the arguments of a meta-variable. -/
theorem operandChars_primary {t : Term} (hclosed : t.isOpen = false) (happ : t.isApp = false) :
    ∃ a args, t = primary a args ∧ a ∈ t.symbols ∧ (∀ s ∈ args, NodeOf s t ∧ s.size < t.size) ∧
      operandChars names t = (a.word names).toList ++ listChars names '[' ']' args := by
  have htext : operandChars names t = (t.textIn names 0).toList := by
    rw [operandChars, textIn_eq, enclosed_of_closed hclosed]
    rfl
  cases t with
  | literal v =>
    refine ⟨.literal v, [], rfl, List.mem_singleton_self _, by simp, ?_⟩
    rw [htext, textIn_literal, listChars, List.append_nil]
    rfl
  | const c =>
    refine ⟨.const c, [], rfl, List.mem_singleton_self _, by simp, ?_⟩
    rw [htext, textIn_const, listChars, List.append_nil]
    rfl
  | var x =>
    refine ⟨.var x, [], rfl, List.mem_singleton_self _, by simp, ?_⟩
    rw [htext, textIn_var, listChars, List.append_nil]
    rfl
  | lambda x body => cases hclosed
  | app head args => cases happ
  | metaApp z args =>
    refine ⟨.metaVar z, args, rfl, by simp [symbols], fun s hs => ⟨.metaArg hs .here, ?_⟩, ?_⟩
    · have hle := size_le_sizeAll hs
      rw [size_metaApp]
      omega
    · rw [htext, textIn_metaApp]
      cases args with
      | nil => simp [Symbol.word, listChars]
      | cons s args => simp [Symbol.word, listChars, toList_listed]

/-- The part of an operand in front of its arguments, and the arguments. -/
def spine (t : Term) : Term × List Term := if t.isOperation then (t, []) else (t.head, t.args)

theorem textIn_head {head : Term} (h : head.isApp = false) :
    head.textIn names 1 = head.textIn names 256 := by
  refine textIn_operand ?_
  cases head with
  | app => cases h
  | _ => rfl

theorem operandChars_spine {t : Term} (ht : t.WellFormed) :
    operandChars names t =
      operandChars names t.spine.1 ++ listChars names '(' ')' t.spine.2 := by
  cases hop : t.isOperation with
  | true => simp [spine, hop, listChars]
  | false =>
    cases t with
    | app head args =>
      cases ht with
      | app flat nonempty =>
        have htext : (app head args).textIn names 256 =
            head.textIn names 256 ++ "(" ++ listed (textsIn names args) ++ ")" := by
          rw [textIn_applied names 256 hop, textIn_head flat]
        obtain ⟨s, ss, rfl⟩ := List.exists_cons_of_ne_nil nonempty
        rw [operandChars, htext]
        simp [spine, hop, Term.head, Term.args, listChars, toList_listed, operandChars]
    | _ => simp [spine, hop, Term.head, Term.args, listChars]

theorem eq_of_spine {s t : Term} (hs : s.WellFormed) (ht : t.WellFormed) (h : s.spine = t.spine) :
    s = t := by
  have hflat : ∀ {u v : Term}, u.WellFormed → v.isOperation → u.head ≠ v := by
    rintro u v hu hv rfl
    obtain ⟨k, p, l, r, e, -⟩ := exists_of_isOperation hv
    have happ := hu.head_isApp
    rw [e] at happ
    cases happ
  unfold spine at h
  cases hs' : s.isOperation with
  | true =>
    cases ht' : t.isOperation with
    | true => simpa [hs', ht'] using h
    | false =>
      rw [hs', ht'] at h
      exact absurd (Prod.mk.inj h).1.symm (hflat ht hs')
  | false =>
    cases ht' : t.isOperation with
    | true =>
      rw [hs', ht'] at h
      exact absurd (Prod.mk.inj h).1 (hflat hs ht')
    | false =>
      rw [hs', ht'] at h
      obtain ⟨hhead, hargs⟩ := Prod.mk.inj h
      have hself := mkApp_head_args hs
      rw [hhead, hargs, mkApp_head_args ht] at hself
      exact (congrArg (fun m : Fresh Term => (m.run 0).1) hself).symm

/-! ## Injectivity -/

/-- What may come after an operand, and after a whole text. -/
def operandEnds : List Char := [' ', ')', ',', ']']

def textEnds : List Char := [')', ',', ']']

variable (names) (symbols : List Symbol) in
/-- The text in a context tells the term, and where it ends. -/
def Determined (c : Nat) (ends : List Char) (s : Term) : Prop :=
  ∀ t : Term, t.Printable names symbols → ∀ rest rest', Follows ends rest → Follows ends rest' →
    (s.textIn names c).toList ++ rest = (t.textIn names c).toList ++ rest' →
      s = t ∧ rest = rest'

section Injectivity

variable {symbols : List Symbol} {s t : Term} {rest rest' : List Char}

/-! ### Lists -/

theorem follows_furtherChars {closing : Char} (hclosing : closing = ')' ∨ closing = ']')
    (ts : List Term) (rest : List Char) :
    Follows textEnds (furtherChars names ts ++ closing :: rest) := by
  cases ts with
  | nil => rcases hclosing with rfl | rfl <;> exact follows_cons (by decide) _
  | cons t ts => exact follows_cons (by decide) _

theorem items_inj {closing : Char} (hclosing : closing = ')' ∨ closing = ']') {ss ts : List Term}
    (hs : ∀ u ∈ s :: ss, Determined names symbols 0 textEnds u)
    (ht : ∀ u ∈ t :: ts, u.Printable names symbols)
    (h : (s.textIn names 0).toList ++ (furtherChars names ss ++ closing :: rest) =
      (t.textIn names 0).toList ++ (furtherChars names ts ++ closing :: rest')) :
    s :: ss = t :: ts ∧ rest = rest' := by
  have hcomma : closing ≠ ',' := by rcases hclosing with rfl | rfl <;> decide
  induction ss generalizing s t ts with
  | nil =>
    obtain ⟨rfl, htail⟩ := hs s (by simp) t (ht t (by simp)) _ _
      (follows_furtherChars hclosing _ _) (follows_furtherChars hclosing _ _) h
    cases ts with
    | nil => exact ⟨rfl, (List.cons.inj htail).2⟩
    | cons => exact absurd (List.cons.inj htail).1 hcomma
  | cons s' ss ih =>
    obtain ⟨rfl, htail⟩ := hs s (by simp) t (ht t (by simp)) _ _
      (follows_furtherChars hclosing _ _) (follows_furtherChars hclosing _ _) h
    cases ts with
    | nil => exact absurd (List.cons.inj htail).1.symm hcomma
    | cons t' ts =>
      have hitems : (s'.textIn names 0).toList ++ (furtherChars names ss ++ closing :: rest) =
          (t'.textIn names 0).toList ++ (furtherChars names ts ++ closing :: rest') := by
        simpa [furtherChars] using htail
      obtain ⟨e, hrest⟩ := ih (fun u hu => hs u (List.mem_cons_of_mem s hu))
        (fun u hu => ht u (List.mem_cons_of_mem s hu)) hitems
      exact ⟨congrArg (s :: ·) e, hrest⟩

theorem head?_listChars {opening closing ch : Char} (hch : ch ≠ opening) (ts : List Term) :
    (listChars names opening closing ts).head? ≠ some ch := by
  cases ts with
  | nil => simp [listChars]
  | cons t ts => simpa [listChars] using hch.symm

theorem listChars_inj {opening closing : Char} (hclosing : closing = ')' ∨ closing = ']')
    {ss ts : List Term} (hs : ∀ s ∈ ss, Determined names symbols 0 textEnds s)
    (ht : ∀ t ∈ ts, t.Printable names symbols) (hr : rest.head? ≠ some opening)
    (hr' : rest'.head? ≠ some opening)
    (h : listChars names opening closing ss ++ rest = listChars names opening closing ts ++ rest') :
    ss = ts ∧ rest = rest' := by
  cases ss with
  | nil =>
    cases ts with
    | nil => exact ⟨rfl, h⟩
    | cons t ts => exact absurd (congrArg List.head? h) hr
  | cons s ss =>
    cases ts with
    | nil => exact absurd (congrArg List.head? h).symm hr'
    | cons t ts => exact items_inj hclosing hs ht (by simpa [listChars] using h)

/-! ### Words -/

theorem word_inj (hnames : names.Legible symbols) {a b : Symbol} (ha : a ∈ symbols)
    (hb : b ∈ symbols) (hr : Follows delimiters rest) (hr' : Follows delimiters rest')
    (h : (a.word names).toList ++ rest = (b.word names).toList ++ rest') : a = b ∧ rest = rest' := by
  obtain ⟨hword, hrest⟩ := append_inj_of_follows (hnames.plain a ha) (hnames.plain b hb) hr hr' h
  exact ⟨hnames.injective ha hb (String.toList_inj.mp hword), hrest⟩

theorem head?_append_ne {l : List Char} {ch : Char} (hl : l.head? ≠ some ch)
    (hr : rest.head? ≠ some ch) : (l ++ rest).head? ≠ some ch := by
  cases l with
  | nil => exact hr
  | cons c l => exact hl

theorem head?_word (hnames : names.Legible symbols) {a : Symbol} (ha : a ∈ symbols) {ch : Char}
    (hch : ch ∈ delimiters) : (a.word names).toList.head? ≠ some ch :=
  fun h => hnames.plain a ha ch (List.mem_of_mem_head? h) hch

/-! ### Operands -/

theorem operandChars_open (h : t.isOpen) :
    operandChars names t = '(' :: ((t.textIn names 0).toList ++ [')']) := by
  rw [operandChars, textIn_eq, enclosed_of_tight (Nat.le_refl 256), h]
  simp [parenthesized]

theorem spine_cases (ht : t.WellFormed) :
    t.spine.1.isOpen ∨ t.spine.1.isOpen = false ∧ t.spine.1.isApp = false := by
  unfold spine
  split
  · next hop => exact .inl (by simp [isOpen, hop])
  · have happ := ht.head_isApp
    cases t.head.isOpen with
    | true => exact .inl rfl
    | false => exact .inr ⟨rfl, happ⟩

theorem node_spine (t : Term) : NodeOf t.spine.1 t := by
  unfold spine
  split
  · exact .here
  · cases t with
    | app head args => exact .head .here
    | _ => exact .here

theorem node_spine_args {t s : Term} (hs : s ∈ t.spine.2) : NodeOf s t ∧ s.size < t.size := by
  unfold spine at hs
  split at hs
  · cases hs
  · cases t with
    | app head args =>
      have hs : s ∈ args := hs
      have hle := size_le_sizeAll hs
      refine ⟨.arg hs .here, ?_⟩
      rw [size_app]
      omega
    | _ => cases hs

/-- Something is written in front of an open term that is the only argument. -/
theorem spine_args_ne {t u : Term} (ht : t.Printable names symbols) (hu : u.isOpen)
    (h : operandChars names t.spine.1 = []) : t.spine.2 ≠ [u] := by
  unfold spine at h ⊢
  split at h
  · next hop => simp [hop]
  · next hop =>
    rw [if_neg hop]
    cases t with
    | app head args =>
      have hflat : head.isApp = false := ht.wf.head_isApp
      rintro rfl
      have hhead := ht.readable head u .here hu
      rw [textAt_of_not_overflows fun ho => ht.printed (ho.of_node (.head .here))] at hhead
      refine hhead (congrArg some ?_)
      exact (textIn_head hflat).trans (String.toList_eq_nil_iff.mp h)
    | _ => simp [Term.args]

theorem head?_operandChars (hnames : names.Legible symbols) (ht : t.Printable names symbols)
    (hr : rest.head? ≠ some 'λ') : (operandChars names t ++ rest).head? ≠ some 'λ' := by
  rw [operandChars_spine ht.wf, List.append_assoc]
  have hargs : (listChars names '(' ')' t.spine.2 ++ rest).head? ≠ some 'λ' :=
    head?_append_ne (head?_listChars (by decide) t.spine.2) hr
  rcases spine_cases ht.wf with hopen | ⟨hclosed, happ⟩
  · rw [operandChars_open hopen]
    simp
  · obtain ⟨a, args, -, ha, -, htext⟩ := operandChars_primary names hclosed happ
    have ha' := (ht.node (node_spine t)).words ha
    rw [htext, List.append_assoc]
    exact head?_append_ne (head?_word hnames ha' (by decide))
      (head?_append_ne (head?_listChars (by decide) args) hargs)

/-- An open term and a closed one start with different characters, if the closed one is written
at all. -/
theorem open_ne_closed (hnames : names.Legible symbols) (hs : s.isOpen)
    (ht : t.Printable names symbols) (hclosed : t.isOpen = false) (happ : t.isApp = false)
    (hne : operandChars names t = [] → operandChars names s ++ rest ≠ rest') :
    operandChars names s ++ rest ≠ operandChars names t ++ rest' := by
  intro h
  obtain ⟨a, args, -, ha, -, htext⟩ := operandChars_primary names hclosed happ
  have hfront : (operandChars names t).head? ≠ some '(' := by
    rw [htext]
    exact head?_append_ne (head?_word hnames (ht.words ha) (by decide))
      (head?_listChars (by decide) args)
  cases e : operandChars names t with
  | nil => exact hne e (by rw [h, e, List.nil_append])
  | cons ch chs =>
    rw [e] at h hfront
    rw [operandChars_open hs] at h
    exact hfront (congrArg List.head? h).symm

/-- Parentheses around an open term are no list of other arguments. -/
theorem open_ne_listChars (hs : s.isOpen) {ts : List Term} (hts : ts ≠ [s])
    (hagree : ∀ t ∈ ts, ∀ rest rest', Follows textEnds rest → Follows textEnds rest' →
      (s.textIn names 0).toList ++ rest = (t.textIn names 0).toList ++ rest' →
        s = t ∧ rest = rest') (hr' : Follows operandEnds rest') :
    operandChars names s ++ rest ≠ listChars names '(' ')' ts ++ rest' := by
  intro h
  rw [operandChars_open hs] at h
  cases ts with
  | nil => exact hr'.head?_ne (by decide) (congrArg List.head? h).symm
  | cons t ts =>
    have hinner : (s.textIn names 0).toList ++ ')' :: rest =
        (t.textIn names 0).toList ++ (furtherChars names ts ++ ')' :: rest') := by
      simpa [listChars] using h
    obtain ⟨rfl, hclose⟩ := hagree t (by simp) _ _ (follows_cons (by decide) _)
      (follows_furtherChars (.inl rfl) _ _) hinner
    cases ts with
    | nil => exact hts rfl
    | cons t' ts => exact absurd (List.cons.inj hclose).1 (by decide)

theorem follows_listChars {opening closing : Char} {ends : List Char} (ho : opening ∈ ends)
    (ts : List Term) (hr : Follows ends rest) :
    Follows ends (listChars names opening closing ts ++ rest) := by
  cases ts with
  | nil => exact hr
  | cons t ts => exact follows_cons ho _

/-- What stands in front of arguments tells itself and where it ends. -/
theorem front_inj (hnames : names.Legible symbols) (hs : s.Printable names symbols)
    (ht : t.Printable names symbols) (hs' : s.isOpen ∨ s.isOpen = false ∧ s.isApp = false)
    (ht' : t.isOpen ∨ t.isOpen = false ∧ t.isApp = false)
    (htext : ∀ v, NodeOf v s → v.size < s.size ∨ v.isOpen → Determined names symbols 0 textEnds v)
    (hr : Follows ('(' :: operandEnds) rest) (hr' : Follows ('(' :: operandEnds) rest')
    (hne : t.isOpen → operandChars names s = [] → operandChars names t ++ rest' ≠ rest)
    (hne' : s.isOpen → operandChars names t = [] → operandChars names s ++ rest ≠ rest')
    (h : operandChars names s ++ rest = operandChars names t ++ rest') : s = t ∧ rest = rest' := by
  rcases hs' with hopen | ⟨hclosed, happ⟩
  · rcases ht' with hopen' | ⟨hclosed', happ'⟩
    · rw [operandChars_open hopen, operandChars_open hopen'] at h
      have hinner : (s.textIn names 0).toList ++ ')' :: rest =
          (t.textIn names 0).toList ++ ')' :: rest' := by
        simpa using h
      obtain ⟨rfl, hrest⟩ := htext s .here (.inr hopen) t ht _ _ (follows_cons (by decide) _)
        (follows_cons (by decide) _) hinner
      exact ⟨rfl, (List.cons.inj hrest).2⟩
    · exact absurd h (open_ne_closed hnames hopen ht hclosed' happ' (hne' hopen))
  · rcases ht' with hopen' | ⟨hclosed', happ'⟩
    · exact absurd h.symm (open_ne_closed hnames hopen' hs hclosed happ (hne hopen'))
    · obtain ⟨a, as, e, ha, has, hchars⟩ := operandChars_primary names hclosed happ
      obtain ⟨b, bs, e', hb, hbs, hchars'⟩ := operandChars_primary names hclosed' happ'
      rw [hchars, hchars', List.append_assoc, List.append_assoc] at h
      have hsub : '(' :: operandEnds ⊆ delimiters := by decide
      obtain ⟨rfl, hlist⟩ := word_inj hnames (hs.words ha) (ht.words hb)
        (follows_listChars (by decide) as (hr.mono hsub))
        (follows_listChars (by decide) bs (hr'.mono hsub)) h
      obtain ⟨rfl, hrest⟩ := listChars_inj (.inr rfl)
        (fun v hv => htext v (has v hv).1 (.inl (has v hv).2))
        (fun v hv => ht.node (hbs v hv).1) (hr.head?_ne (by decide)) (hr'.head?_ne (by decide)) hlist
      exact ⟨e.trans e'.symm, hrest⟩

/-! ### Chains -/

theorem binderChars_inj (hnames : names.Legible symbols) {xs ys : List Var}
    (hxs : ∀ x ∈ xs, .var x ∈ symbols) (hys : ∀ y ∈ ys, .var y ∈ symbols)
    (hr : rest.head? ≠ some 'λ') (hr' : rest'.head? ≠ some 'λ')
    (h : binderChars names xs ++ rest = binderChars names ys ++ rest') :
    xs = ys ∧ rest = rest' := by
  induction xs generalizing ys with
  | nil =>
    cases ys with
    | nil => exact ⟨rfl, h⟩
    | cons y ys => exact absurd (congrArg List.head? h) hr
  | cons x xs ih =>
    cases ys with
    | nil => exact absurd (congrArg List.head? h).symm hr'
    | cons y ys =>
      have hword : ((Symbol.var x).word names).toList ++ '.' :: (binderChars names xs ++ rest) =
          ((Symbol.var y).word names).toList ++ '.' :: (binderChars names ys ++ rest') := by
        simpa [binderChars] using h
      obtain ⟨e, htail⟩ := word_inj hnames (hxs x (by simp)) (hys y (by simp))
        (follows_cons (by decide) _) (follows_cons (by decide) _) hword
      obtain rfl := Symbol.var.inj e
      obtain ⟨rfl, hrest⟩ := ih (fun z hz => hxs z (List.mem_cons_of_mem x hz))
        (fun z hz => hys z (List.mem_cons_of_mem x hz)) (List.cons.inj htail).2
      exact ⟨rfl, hrest⟩

variable (names) in
theorem follows_operatorChars (ops : List (Constant × Term)) (hr : Follows textEnds rest) :
    Follows operandEnds (operatorChars names ops ++ rest) := by
  cases ops with
  | nil => exact hr.mono (by decide)
  | cons o ops => exact follows_cons (by decide) _

theorem operatorChars_inj (hnames : names.Legible symbols) {ops ops' : List (Constant × Term)}
    (hops : ∀ o ∈ ops, .const o.1 ∈ symbols ∧ Determined names symbols 256 operandEnds o.2)
    (hops' : ∀ o ∈ ops', .const o.1 ∈ symbols ∧ o.2.Printable names symbols)
    (hr : Follows textEnds rest) (hr' : Follows textEnds rest')
    (h : operatorChars names ops ++ rest = operatorChars names ops' ++ rest') :
    ops = ops' ∧ rest = rest' := by
  induction ops generalizing ops' with
  | nil =>
    cases ops' with
    | nil => exact ⟨rfl, h⟩
    | cons o ops' => exact absurd (congrArg List.head? h) (hr.head?_ne (by decide))
  | cons o ops ih =>
    cases ops' with
    | nil => exact absurd (congrArg List.head? h).symm (hr'.head?_ne (by decide))
    | cons o' ops' =>
      obtain ⟨hk, hv⟩ := hops o (by simp)
      obtain ⟨hk', hv'⟩ := hops' o' (by simp)
      have hword : ((Symbol.const o.1).word names).toList ++
          ' ' :: (operandChars names o.2 ++ (operatorChars names ops ++ rest)) =
          ((Symbol.const o'.1).word names).toList ++
          ' ' :: (operandChars names o'.2 ++ (operatorChars names ops' ++ rest')) := by
        simpa [operatorChars] using h
      obtain ⟨e, htail⟩ := word_inj hnames hk hk' (follows_cons (by decide) _)
        (follows_cons (by decide) _) hword
      obtain ⟨e', htail'⟩ := hv o'.2 hv' _ _ (follows_operatorChars names ops hr)
        (follows_operatorChars names ops' hr') (List.cons.inj htail).2
      obtain ⟨rfl, hrest⟩ := ih (fun p hp => hops p (List.mem_cons_of_mem o hp))
        (fun p hp => hops' p (List.mem_cons_of_mem o' hp)) htail'
      exact ⟨congrArg (· :: ops) (Prod.ext (Symbol.const.inj e) e'), hrest⟩

/-- A text is determined as soon as the operands of its chain are. -/
theorem Chain.determined (hnames : names.Legible symbols) {c : Nat} {u : Term} {xs : List Var}
    {ops : List (Constant × Term)} (h : Chain c s xs u ops) (hs : s.Printable names symbols)
    (hoperands : ∀ v ∈ u :: ops.map Prod.snd, Determined names symbols 256 operandEnds v) :
    Determined names symbols c textEnds s := by
  intro t ht rest rest' hr hr' htext
  obtain ⟨ys, v, ops', h', -⟩ := exists_chain t c
  have hv : v.Printable names symbols := ht.node (h'.node v (by simp))
  rw [h.toList_textIn, h'.toList_textIn] at htext
  simp only [List.append_assoc] at htext
  have hends := follows_operatorChars names ops hr
  have hends' := follows_operatorChars names ops' hr'
  obtain ⟨rfl, hfirst⟩ := binderChars_inj hnames (fun x hx => hs.words (h.binders_subset x hx))
    (fun x hx => ht.words (h'.binders_subset x hx))
    (head?_operandChars hnames (hs.node (h.node u (by simp))) (hends.head?_ne (by decide)))
    (head?_operandChars hnames hv (hends'.head?_ne (by decide))) htext
  obtain ⟨rfl, hfurther⟩ := hoperands u (by simp) v hv _ _ hends hends' hfirst
  obtain ⟨rfl, hrest⟩ := operatorChars_inj hnames
    (fun o ho => ⟨hs.words (h.operators_subset o ho),
      hoperands o.2 (List.mem_cons_of_mem u (List.mem_map_of_mem ho))⟩)
    (fun o ho => ⟨ht.words (h'.operators_subset o ho),
      ht.node (h'.node o.2 (List.mem_cons_of_mem u (List.mem_map_of_mem ho)))⟩) hr hr' hfurther
  exact ⟨h.unique h' hs.wf ht.wf, hrest⟩

/-- Induction on the size: the parts of an operand are smaller, and so are the operands of what it
has in parentheses. -/
theorem operand_determined (hnames : names.Legible symbols) (n : Nat)
    (hs : s.Printable names symbols) (hn : s.size < n) :
    Determined names symbols 256 operandEnds s := by
  induction n generalizing s with
  | zero => cases hn
  | succ n ih =>
    have htext : ∀ v, NodeOf v s → v.size < s.size ∨ v.isOpen →
        Determined names symbols 0 textEnds v := by
      intro v hv hsmall
      obtain ⟨xs, u, ops, hchain, -⟩ := exists_chain v 0
      refine hchain.determined hnames (hs.node hv) fun w hw => ?_
      have hnode := hchain.node w hw
      have hle := hv.size_le
      have hle' := hnode.size_le
      refine ih (hs.node (hnode.trans hv)) ?_
      rcases hsmall with hlt | hopen
      · omega
      · have hlt := hchain.size_lt hopen w hw
        omega
    intro t ht rest rest' hr hr' h
    change operandChars names s ++ rest = operandChars names t ++ rest' at h
    rw [operandChars_spine hs.wf, operandChars_spine ht.wf, List.append_assoc,
      List.append_assoc] at h
    have hsub : operandEnds ⊆ '(' :: operandEnds := List.subset_cons_self _ _
    have hnode := node_spine s
    have hfrontText : ∀ v, NodeOf v s.spine.1 → v.size < s.spine.1.size ∨ v.isOpen →
        Determined names symbols 0 textEnds v := fun v hv hsmall =>
      htext v (hv.trans hnode) (hsmall.imp_left fun hlt => Nat.lt_of_lt_of_le hlt hnode.size_le)
    obtain ⟨hfront, htail⟩ := front_inj hnames (hs.node hnode) (ht.node (node_spine t))
      (spine_cases hs.wf) (spine_cases ht.wf) hfrontText
      (follows_listChars (by decide) _ (hr.mono hsub))
      (follows_listChars (by decide) _ (hr'.mono hsub))
      (fun hopen hnil => open_ne_listChars hopen (spine_args_ne hs hopen hnil)
        (fun v hv r r' hr hr' e =>
          (htext v (node_spine_args hv).1 (.inl (node_spine_args hv).2) _ (ht.node (node_spine t))
            r' r hr' hr e.symm).imp Eq.symm Eq.symm) hr)
      (fun hopen hnil => open_ne_listChars hopen (spine_args_ne ht hopen hnil)
        (fun v hv => hfrontText _ .here (.inr hopen) v (ht.node (node_spine_args hv).1)) hr') h
    obtain ⟨hargs, hrest⟩ := listChars_inj (.inl rfl)
      (fun v hv => htext v (node_spine_args hv).1 (.inl (node_spine_args hv).2))
      (fun v hv => ht.node (node_spine_args hv).1) (hr.head?_ne (by decide))
      (hr'.head?_ne (by decide)) htail
    exact ⟨eq_of_spine hs.wf ht.wf (Prod.ext hfront hargs), hrest⟩

theorem text_determined (hnames : names.Legible symbols) (hs : s.Printable names symbols)
    (c : Nat) : Determined names symbols c textEnds s := by
  obtain ⟨xs, u, ops, h, -⟩ := exists_chain s c
  exact h.determined hnames hs fun v hv =>
    operand_determined hnames (v.size + 1) (hs.node (h.node v hv)) (Nat.lt_succ_self _)

end Injectivity

/-! ## Nested operations -/

section Nested

variable (k : Constant)

/-- `(l · m) · r` -/
def leftNested (l m r : Term) : Term := app (const k) [app (const k) [l, m], r]

/-- `l · (m · r)` -/
def rightNested (l m r : Term) : Term := app (const k) [l, app (const k) [m, r]]

variable {k}

theorem wellFormed_operation {τ : SimpleType} {l r : Term} (hk : k.ty = .arrow τ (.arrow τ τ))
    (hl : l.WellFormed) (hr : r.WellFormed) (hlty : l.ty = τ) (hrty : r.ty = τ)
    (hapart : Apart (app (const k) [l, r])) :
    (app (const k) [l, r]).WellFormed ∧ (app (const k) [l, r]).ty = τ := by
  have hty : (const k).ty = .arrows ([l, r].map ty) τ := by
    rw [List.map_cons, List.map_singleton, hlty, hrty, ty, hk]
    rfl
  refine ⟨.app rfl (by simp) (fits_iff.mpr ⟨τ, hty⟩) (.const k) ?_ hapart, ty_app hty⟩
  simp [hl, hr]

/-- With constants of one type as operands. -/
theorem wellFormed_nested {a b c : Constant} {τ : SimpleType} (hk : k.ty = .arrow τ (.arrow τ τ))
    (ha : a.ty = τ) (hb : b.ty = τ) (hc : c.ty = τ) :
    (leftNested k (const a) (const b) (const c)).WellFormed ∧
      (rightNested k (const a) (const b) (const c)).WellFormed := by
  have hconst : ∀ d : Constant, d.ty = τ → (const d).WellFormed ∧ (const d).ty = τ :=
    fun d hd => ⟨.const d, by rw [ty, hd]⟩
  obtain ⟨ha, haty⟩ := hconst a ha
  obtain ⟨hb, hbty⟩ := hconst b hb
  obtain ⟨hc, hcty⟩ := hconst c hc
  obtain ⟨hab, habty⟩ := wellFormed_operation hk ha hb haty hbty (by simp [Apart, freeAll])
  obtain ⟨hbc, hbcty⟩ := wellFormed_operation hk hb hc hbty hcty (by simp [Apart, freeAll])
  exact ⟨(wellFormed_operation hk hab hc habty hcty (by simp [Apart, freeAll])).1,
    (wellFormed_operation hk ha hbc haty hbcty (by simp [Apart, freeAll])).1⟩

/-- Constants with different names are told apart. -/
theorem legible_constants (cs : List Constant) {symbols : List Symbol}
    (hsymbols : symbols ⊆ cs.map Symbol.const) (hnames : (cs.map Constant.name).Nodup)
    (hplain : ∀ c ∈ cs, ∀ ch ∈ c.name.toList, ch ∉ delimiters) : names.Legible symbols := by
  have hconst : ∀ a ∈ symbols, ∃ c ∈ cs, a = .const c := fun a ha =>
    (List.mem_map.mp (hsymbols ha)).imp fun c hc => ⟨hc.1, hc.2.symm⟩
  constructor
  · intro a ha
    obtain ⟨c, hc, rfl⟩ := hconst a ha
    exact hplain c hc
  · intro a ha b hb _ hword
    obtain ⟨c, hc, rfl⟩ := hconst a ha
    obtain ⟨d, hd, rfl⟩ := hconst b hb
    exact congrArg Symbol.const (List.inj_on_of_nodup_map hnames hc hd hword)

theorem readable_const (c : Constant) : (const c).Readable names := nofun

theorem readable_operation {l r : Term} (hl : l.Readable names) (hr : r.Readable names) :
    (app (const k) [l, r]).Readable names := by
  intro head u h hu
  cases h with
  | head h => cases h
  | arg ht h =>
    simp only [List.mem_cons, List.not_mem_nil, or_false] at ht
    rcases ht with rfl | rfl
    · exact hl head u h hu
    · exact hr head u h hu

end Nested

/-! ## Structure -/

/-- Printed terms determine their structure: in every context, under every legible naming and with
any precedences, two readable terms have the same text only if they are the same term. A term is
printed unless it has an operation of precedence 255. -/
theorem textAt_eq_iff {s t : Term} (hs : s.WellFormed) (ht : t.WellFormed)
    (hnames : names.Legible (s.symbols ++ t.symbols)) (hs' : s.Readable names)
    (ht' : t.Readable names) (context : UInt8) :
    (s.textAt names context = none ↔ s.Overflows) ∧
      ∀ text, s.textAt names context = some text →
        (t.textAt names context = some text ↔ s = t) := by
  refine ⟨textAt_eq_none_iff, fun text htext => ⟨fun htext' => ?_, ?_⟩⟩
  · have hover : ¬s.Overflows := fun ho => by
      rw [textAt_of_overflows ho] at htext
      cases htext
    have hover' : ¬t.Overflows := fun ho => by
      rw [textAt_of_overflows ho] at htext'
      cases htext'
    have hprint : s.Printable names (s.symbols ++ t.symbols) :=
      ⟨hs, hover, hs', List.subset_append_left _ _⟩
    have hprint' : t.Printable names (s.symbols ++ t.symbols) :=
      ⟨ht, hover', ht', List.subset_append_right _ _⟩
    rw [textAt_of_not_overflows hover] at htext
    rw [textAt_of_not_overflows hover'] at htext'
    have hsame := Option.some.inj (htext.trans htext'.symm)
    exact (text_determined hnames hprint context.toNat t hprint' [] [] (follows_nil _)
      (follows_nil _) (by rw [hsame])).1
  · rintro rfl
    exact htext

/-- For a legible operator of precedence 254 the nestings `a - b - c` and `a - (b - c)` differ. -/
theorem textAt_eq_iff_nested :
    let o := SimpleType.base "o"
    let minus : Constant := ⟨"-", .arrow o (.arrow o o), false, some 254⟩
    let a : Constant := ⟨"a", o, false, none⟩
    let b : Constant := ⟨"b", o, false, none⟩
    let c : Constant := ⟨"c", o, false, none⟩
    let s := leftNested minus (const a) (const b) (const c)
    let t := rightNested minus (const a) (const b) (const c)
    s.textAt ⟨[]⟩ 0 = some "a - b - c" ∧ t.textAt ⟨[]⟩ 0 = some "a - (b - c)" ∧
      t.textAt ⟨[]⟩ 0 ≠ some "a - b - c" := by
  intro o minus a b c s t
  obtain ⟨hs, ht⟩ := wellFormed_nested (k := minus) (a := a) (b := b) (c := c) rfl rfl rfl rfl
  have hnames : Names.Legible ⟨[]⟩ (s.symbols ++ t.symbols) :=
    legible_constants [minus, a, b, c]
      (by simp [s, t, leftNested, rightNested, symbols, symbolsAll]) (by decide)
      (by simp [delimiters, minus, a, b, c])
  have hconst : ∀ d, (const d).Readable ⟨[]⟩ := readable_const
  have hs' : s.Readable ⟨[]⟩ :=
    readable_operation (readable_operation (hconst a) (hconst b)) (hconst c)
  have ht' : t.Readable ⟨[]⟩ :=
    readable_operation (hconst a) (readable_operation (hconst b) (hconst c))
  have htext : s.textAt ⟨[]⟩ 0 = some "a - b - c" := by decide
  refine ⟨htext, by decide, fun h => ?_⟩
  cases ((textAt_eq_iff hs ht hnames hs' ht' 0).2 _ htext).mp h

/-- An operator of precedence 255 is printed in neither nesting, although its names are legible. -/
theorem textAt_nested_tightest :
    let o := SimpleType.base "o"
    let op : Constant := ⟨"op", .arrow o (.arrow o o), false, some 255⟩
    let a : Constant := ⟨"a", o, false, none⟩
    let b : Constant := ⟨"b", o, false, none⟩
    let c : Constant := ⟨"c", o, false, none⟩
    let s := leftNested op (const a) (const b) (const c)
    let t := rightNested op (const a) (const b) (const c)
    s.WellFormed ∧ t.WellFormed ∧ Names.Legible ⟨[]⟩ (s.symbols ++ t.symbols) ∧
      s.Readable ⟨[]⟩ ∧ t.Readable ⟨[]⟩ ∧ s.textAt ⟨[]⟩ 0 = none ∧ t.textAt ⟨[]⟩ 0 = none := by
  intro o op a b c s t
  obtain ⟨hs, ht⟩ := wellFormed_nested (k := op) (a := a) (b := b) (c := c) rfl rfl rfl rfl
  have hnames : Names.Legible ⟨[]⟩ (s.symbols ++ t.symbols) :=
    legible_constants [op, a, b, c]
      (by simp [s, t, leftNested, rightNested, symbols, symbolsAll]) (by decide)
      (by simp [delimiters, op, a, b, c])
  have hconst : ∀ d, (const d).Readable ⟨[]⟩ := readable_const
  have hs' : s.Readable ⟨[]⟩ :=
    readable_operation (readable_operation (hconst a) (hconst b)) (hconst c)
  have ht' : t.Readable ⟨[]⟩ :=
    readable_operation (hconst a) (readable_operation (hconst b) (hconst c))
  exact ⟨hs, ht, hnames, hs', ht', textAt_of_overflows ⟨op, _, _, .here, rfl⟩ _ _,
    textAt_of_overflows ⟨op, _, _, .here, rfl⟩ _ _⟩

end Term

end TermAlgebra
