import TermAlgebra.Proofs.Occurrence
import TermAlgebra.Term.Text

/-!
# How terms are written

A term is written with the words of its symbols. An application of a constant with a precedence to
two arguments is an operation, written with the constant in between; every other application is
written with its arguments behind the head. A term has no text if it has an operation of the
greatest precedence, since no context is tighter than that. Main statements: `textAt_eq_none_iff`,
and `textAt_congr`, only the words of the symbols of a term matter for its text.
-/

namespace TermAlgebra.Term

/-- What stands for itself in a text. -/
inductive Symbol where
  | literal (v : Literal)
  | const (c : Constant)
  | var (x : Var)
  | metaVar (z : MetaVar)
deriving DecidableEq

def Symbol.word (names : Names) : Symbol → String
  | literal v => v.text
  | const c => c.name
  | var x => names.get x.id x.name
  | metaVar z => names.get z.id z.name

mutual

/-- The symbols of a term from left to right, every binder at its abstraction. -/
def symbols : Term → List Symbol
  | literal v => [.literal v]
  | const c => [.const c]
  | var x => [.var x]
  | lambda x body => .var x :: body.symbols
  | app head args => head.symbols ++ symbolsAll args
  | metaApp z args => .metaVar z :: symbolsAll args

def symbolsAll : List Term → List Symbol
  | [] => []
  | t :: ts => t.symbols ++ symbolsAll ts

end

theorem mem_symbolsAll {ts : List Term} {a : Symbol} :
    a ∈ symbolsAll ts ↔ ∃ t ∈ ts, a ∈ t.symbols := by
  induction ts with
  | nil => simp [symbolsAll]
  | cons t ts ih => simp [symbolsAll, ih]

/-- The term is written with an operator between two arguments. -/
def isOperation : Term → Bool
  | app head [_, _] => head.operatorPrecedence.isSome
  | _ => false

theorem operatorPrecedence_eq_some {head : Term} {p : UInt8}
    (h : head.operatorPrecedence = some p) : ∃ k, head = const k ∧ k.precedence = some p := by
  cases head with
  | const k => exact ⟨k, rfl, h⟩
  | _ => cases h

theorem exists_of_isOperation {t : Term} (h : t.isOperation) :
    ∃ k p l r, t = app (const k) [l, r] ∧ k.precedence = some p := by
  unfold isOperation at h
  split at h
  · obtain ⟨p, hp⟩ := Option.isSome_iff_exists.mp h
    obtain ⟨k, rfl, hk⟩ := operatorPrecedence_eq_some hp
    exact ⟨k, p, _, _, rfl, hk⟩
  · cases h

/-- Induction over the ways in which terms are written. -/
theorem layout_induction {motive : Term → Prop} (literal : ∀ v, motive (.literal v))
    (const : ∀ c, motive (.const c)) (var : ∀ x, motive (.var x))
    (lambda : ∀ x body, motive body → motive (.lambda x body))
    (operation : ∀ k p l r, k.precedence = some p → motive l → motive r →
      motive (.app (.const k) [l, r]))
    (applied : ∀ head args, (Term.app head args).isOperation = false → motive head →
      (∀ t ∈ args, motive t) → motive (.app head args))
    (metaApp : ∀ z args, (∀ t ∈ args, motive t) → motive (.metaApp z args)) (t : Term) :
    motive t := by
  induction t using Term.induction with
  | literal v => exact literal v
  | const c => exact const c
  | var x => exact var x
  | lambda x body ih => exact lambda x body ih
  | app head args ih ihs =>
    cases h : (Term.app head args).isOperation with
    | true =>
      obtain ⟨k, p, l, r, e, hk⟩ := exists_of_isOperation h
      obtain ⟨rfl, rfl⟩ := Term.app.inj e
      exact operation k p l r hk (ihs l (by simp)) (ihs r (by simp))
    | false => exact applied head args h ih ihs
  | metaApp z args ihs => exact metaApp z args ihs

/-! ## Texts -/

mutual

/-- The text in a context, which may be tighter than every precedence. -/
def textIn (names : Names) (c : Nat) : Term → String
  | literal v => v.text
  | const k => k.name
  | var x => names.get x.id x.name
  | lambda x body =>
    parenthesized (0 < c) ("λ" ++ names.get x.id x.name ++ "." ++ body.textIn names 0)
  | app head args =>
    match head.operatorPrecedence, args with
    | some p, [l, r] =>
      parenthesized (p.toNat < c)
        (l.textIn names p.toNat ++ " " ++ head.textIn names 0 ++ " " ++
          r.textIn names (p.toNat + 1))
    | _, args => head.textIn names 1 ++ "(" ++ listed (textsIn names args) ++ ")"
  | metaApp z args =>
    let name := names.get z.id z.name
    if args.isEmpty then name else name ++ "[" ++ listed (textsIn names args) ++ "]"

def textsIn (names : Names) : List Term → List String
  | [] => []
  | t :: ts => t.textIn names 0 :: textsIn names ts

end

section

variable (names : Names) (c : Nat)

theorem textIn_literal (v : Literal) : (literal v).textIn names c = v.text := by rw [textIn]

theorem textIn_const (k : Constant) : (const k).textIn names c = k.name := by rw [textIn]

theorem textIn_var (x : Var) : (var x).textIn names c = names.get x.id x.name := by rw [textIn]

theorem textIn_lambda (x : Var) (body : Term) :
    (lambda x body).textIn names c =
      parenthesized (0 < c) ("λ" ++ names.get x.id x.name ++ "." ++ body.textIn names 0) := by
  rw [textIn]

theorem textIn_operation {k : Constant} {p : UInt8} (hk : k.precedence = some p) (l r : Term) :
    (app (const k) [l, r]).textIn names c =
      parenthesized (p.toNat < c)
        (l.textIn names p.toNat ++ " " ++ k.name ++ " " ++ r.textIn names (p.toNat + 1)) := by
  have hp : (const k).operatorPrecedence = some p := hk
  rw [textIn.eq_def]
  simp only [hp, textIn_const]

theorem textIn_applied {head : Term} {args : List Term} (h : (app head args).isOperation = false) :
    (app head args).textIn names c =
      head.textIn names 1 ++ "(" ++ listed (textsIn names args) ++ ")" := by
  rw [textIn.eq_def]
  dsimp only
  split
  · next p l r hp =>
    simp [isOperation, hp] at h
  · rfl

theorem textIn_metaApp (z : MetaVar) (args : List Term) :
    (metaApp z args).textIn names c =
      if args.isEmpty then names.get z.id z.name
      else names.get z.id z.name ++ "[" ++ listed (textsIn names args) ++ "]" := by
  rw [textIn]

theorem textsIn_eq_map (ts : List Term) : textsIn names ts = ts.map (textIn names 0) := by
  induction ts with
  | nil => rfl
  | cons t ts ih => rw [textsIn, ih, List.map_cons]

end

/-- The text goes by the words of the symbols. -/
theorem textIn_congr {names names' : Names} {t : Term}
    (h : ∀ a ∈ t.symbols, a.word names = a.word names') (c : Nat) :
    t.textIn names c = t.textIn names' c := by
  have hlist : ∀ {ts : List Term}, (∀ t ∈ ts, ∀ c, t.textIn names c = t.textIn names' c) →
      textsIn names ts = textsIn names' ts := by
    intro ts hts
    rw [textsIn_eq_map, textsIn_eq_map]
    exact List.map_congr_left fun t ht => hts t ht 0
  induction t using layout_induction generalizing c with
  | literal v => rw [textIn_literal, textIn_literal]
  | const k => rw [textIn_const, textIn_const]
  | var x =>
    rw [textIn_var, textIn_var]
    exact h (.var x) (by simp [symbols])
  | lambda x body ih =>
    have hx := h (.var x) (by simp [symbols])
    have hbody := ih (fun a ha => h a (by simp [symbols, ha])) 0
    simp only [Symbol.word] at hx
    rw [textIn_lambda, textIn_lambda, hx, hbody]
  | operation k p l r hk ihl ihr =>
    have hl := ihl fun a ha => h a (by simp [symbols, symbolsAll, ha])
    have hr := ihr fun a ha => h a (by simp [symbols, symbolsAll, ha])
    rw [textIn_operation names _ hk, textIn_operation names' _ hk, hl, hr]
  | applied head args happ ih ihs =>
    have hhead := ih (fun a ha => h a (by simp [symbols, ha])) 1
    have hargs := hlist fun t ht => ihs t ht fun a ha =>
      h a (by simp [symbols, mem_symbolsAll.mpr ⟨t, ht, ha⟩])
    rw [textIn_applied names _ happ, textIn_applied names' _ happ, hhead, hargs]
  | metaApp z args ihs =>
    have hz := h (.metaVar z) (by simp [symbols])
    have hargs := hlist fun t ht => ihs t ht fun a ha =>
      h a (by simp [symbols, mem_symbolsAll.mpr ⟨t, ht, ha⟩])
    simp only [Symbol.word] at hz
    rw [textIn_metaApp, textIn_metaApp, hz, hargs]

/-! ## Terms without text -/

/-- An operator of the greatest precedence stands between two arguments. -/
def Overflows (t : Term) : Prop :=
  ∃ k l r, NodeOf (app (const k) [l, r]) t ∧ k.precedence = some 255

theorem Overflows.of_node {t u : Term} (hu : NodeOf u t) (h : u.Overflows) : t.Overflows := by
  obtain ⟨k, l, r, hnode, hk⟩ := h
  exact ⟨k, l, r, hnode.trans hu, hk⟩

theorem overflows_lambda (x : Var) (body : Term) :
    (lambda x body).Overflows ↔ body.Overflows := by
  refine ⟨?_, .of_node (.body .here)⟩
  rintro ⟨k, l, r, hnode, hk⟩
  cases hnode with
  | body h => exact ⟨k, l, r, h, hk⟩

theorem overflows_operation {k : Constant} {p : UInt8} (hk : k.precedence = some p) (l r : Term) :
    (app (const k) [l, r]).Overflows ↔ p = 255 ∨ l.Overflows ∨ r.Overflows := by
  constructor
  · rintro ⟨k', l', r', hnode, hk'⟩
    cases hnode with
    | here => exact .inl (Option.some.inj (hk.symm.trans hk'))
    | head h => cases h
    | arg ht h =>
      simp only [List.mem_cons, List.not_mem_nil, or_false] at ht
      rcases ht with rfl | rfl
      · exact .inr (.inl ⟨k', l', r', h, hk'⟩)
      · exact .inr (.inr ⟨k', l', r', h, hk'⟩)
  · rintro (rfl | h | h)
    · exact ⟨k, l, r, .here, hk⟩
    · exact h.of_node (.arg (by simp) .here)
    · exact h.of_node (.arg (by simp) .here)

theorem overflows_applied {head : Term} {args : List Term}
    (happ : (app head args).isOperation = false) :
    (app head args).Overflows ↔ head.Overflows ∨ ∃ t ∈ args, t.Overflows := by
  constructor
  · rintro ⟨k, l, r, hnode, hk⟩
    cases hnode with
    | here =>
      have hp : (const k).operatorPrecedence = some 255 := hk
      simp [isOperation, hp] at happ
    | head h => exact .inl ⟨k, l, r, h, hk⟩
    | arg ht h => exact .inr ⟨_, ht, k, l, r, h, hk⟩
  · rintro (h | ⟨t, ht, h⟩)
    · exact h.of_node (.head .here)
    · exact h.of_node (.arg ht .here)

theorem overflows_metaApp (z : MetaVar) (args : List Term) :
    (metaApp z args).Overflows ↔ ∃ t ∈ args, t.Overflows := by
  constructor
  · rintro ⟨k, l, r, hnode, hk⟩
    cases hnode with
    | metaArg ht h => exact ⟨_, ht, k, l, r, h, hk⟩
  · rintro ⟨t, ht, h⟩
    exact h.of_node (.metaArg ht .here)

section

variable (names : Names) (context : UInt8)

theorem textAt_lambda (x : Var) (body : Term) :
    (lambda x body).textAt names context = (body.textAt names 0).map fun text =>
      parenthesized (0 < context) ("λ" ++ names.get x.id x.name ++ "." ++ text) := by
  rw [textAt]
  exact Option.map_eq_bind.symm

theorem textAt_operation {k : Constant} {p : UInt8} (hk : k.precedence = some p) (l r : Term) :
    (app (const k) [l, r]).textAt names context =
      (l.textAt names p).bind fun left => (tighter p).bind fun q =>
        (r.textAt names q).map fun right =>
          parenthesized (p < context) (left ++ " " ++ k.name ++ " " ++ right) := by
  have hp : (const k).operatorPrecedence = some p := hk
  rw [textAt.eq_def]
  simp only [hp, textAt]
  cases l.textAt names p with
  | none => rfl
  | some left =>
    cases tighter p with
    | none => rfl
    | some q => exact Option.map_eq_bind.symm

theorem textAt_applied {head : Term} {args : List Term} (h : (app head args).isOperation = false) :
    (app head args).textAt names context =
      (head.textAt names 1).bind fun text => (textsOf names args).map fun texts =>
        text ++ "(" ++ listed texts ++ ")" := by
  rw [textAt.eq_def]
  dsimp only
  split
  · next p l r hp =>
    simp [isOperation, hp] at h
  · cases head.textAt names 1 with
    | none => rfl
    | some text => exact Option.map_eq_bind.symm

theorem textAt_metaApp (z : MetaVar) (args : List Term) :
    (metaApp z args).textAt names context = (textsOf names args).map fun texts =>
      if args.isEmpty then names.get z.id z.name
      else names.get z.id z.name ++ "[" ++ listed texts ++ "]" := by
  rw [textAt]
  exact Option.map_eq_bind.symm

theorem textsOf_cons (t : Term) (ts : List Term) :
    textsOf names (t :: ts) = (t.textAt names 0).bind fun text =>
      (textsOf names ts).map (text :: ·) := by
  rw [textsOf]
  cases t.textAt names 0 with
  | none => rfl
  | some text => exact Option.map_eq_bind.symm

theorem textsOf_eq_some {ts : List Term}
    (h : ∀ t ∈ ts, t.textAt names 0 = some (t.textIn names 0)) :
    textsOf names ts = some (textsIn names ts) := by
  induction ts with
  | nil => rfl
  | cons t ts ih =>
    rw [List.forall_mem_cons] at h
    rw [textsOf_cons, h.1, ih h.2]
    rfl

theorem textsOf_eq_none {t : Term} {ts : List Term} (ht : t ∈ ts) (h : t.textAt names 0 = none) :
    textsOf names ts = none := by
  induction ts with
  | nil => cases ht
  | cons s ts ih =>
    rw [textsOf_cons]
    rcases List.mem_cons.mp ht with rfl | ht
    · rw [h]
      rfl
    · rw [ih ht]
      cases s.textAt names 0 <;> rfl

end

/-- The context of a right operand. -/
theorem tighter_eq {p : UInt8} (hp : p ≠ 255) :
    ∃ q, tighter p = some q ∧ q.toNat = p.toNat + 1 := by
  refine ⟨p + 1, if_neg hp, ?_⟩
  have hlt := p.toNat_lt
  have hne : p.toNat ≠ 255 := fun h => hp (UInt8.toNat.inj h)
  rw [UInt8.toNat_add]
  change (p.toNat + 1) % 256 = _
  omega

theorem textAt_of_overflows {t : Term} (h : t.Overflows) (names : Names) (context : UInt8) :
    t.textAt names context = none := by
  induction t using layout_induction generalizing context with
  | literal v | const k | var x =>
    obtain ⟨_, _, _, hnode, -⟩ := h
    cases hnode
  | lambda x body ih =>
    rw [textAt_lambda, ih ((overflows_lambda x body).mp h)]
    rfl
  | operation k p l r hk ihl ihr =>
    rw [textAt_operation names context hk]
    rcases (overflows_operation hk l r).mp h with rfl | h | h
    · cases l.textAt names 255 <;> rfl
    · rw [ihl h]
      rfl
    · cases l.textAt names p with
      | none => rfl
      | some left =>
        cases tighter p with
        | none => rfl
        | some q =>
          rw [Option.bind_some, Option.bind_some, ihr h]
          rfl
  | applied head args happ ih ihs =>
    rw [textAt_applied names context happ]
    rcases (overflows_applied happ).mp h with h | ⟨t, ht, h⟩
    · rw [ih h]
      rfl
    · rw [textsOf_eq_none names ht (ihs t ht h 0)]
      cases head.textAt names 1 <;> rfl
  | metaApp z args ihs =>
    obtain ⟨t, ht, h⟩ := (overflows_metaApp z args).mp h
    rw [textAt_metaApp, textsOf_eq_none names ht (ihs t ht h 0)]
    rfl

/-- Everything else has a text in every context. -/
theorem textAt_of_not_overflows {t : Term} (h : ¬t.Overflows) (names : Names) (context : UInt8) :
    t.textAt names context = some (t.textIn names context.toNat) := by
  induction t using layout_induction generalizing context with
  | literal v => rw [textAt, textIn_literal]; rfl
  | const k => rw [textAt, textIn_const]; rfl
  | var x => rw [textAt, textIn_var]; rfl
  | lambda x body ih =>
    rw [overflows_lambda] at h
    rw [textAt_lambda, ih h, textIn_lambda]
    rfl
  | operation k p l r hk ihl ihr =>
    rw [overflows_operation hk, not_or, not_or] at h
    obtain ⟨q, hq, hnat⟩ := tighter_eq h.1
    rw [textAt_operation names context hk, ihl h.2.1, hq, Option.bind_some, Option.bind_some,
      ihr h.2.2, hnat, textIn_operation names _ hk]
    rfl
  | applied head args happ ih ihs =>
    rw [overflows_applied happ, not_or] at h
    have hargs := textsOf_eq_some names fun t ht => ihs t ht (fun ho => h.2 ⟨t, ht, ho⟩) 0
    rw [textAt_applied names context happ, ih h.1, hargs, textIn_applied names _ happ]
    rfl
  | metaApp z args ihs =>
    rw [overflows_metaApp] at h
    have hargs := textsOf_eq_some names fun t ht => ihs t ht (fun ho => h ⟨t, ht, ho⟩) 0
    rw [textAt_metaApp, hargs, textIn_metaApp]
    rfl

theorem textAt_eq_none_iff {t : Term} {names : Names} {context : UInt8} :
    t.textAt names context = none ↔ t.Overflows := by
  refine ⟨fun h => Classical.byContradiction fun hnot => ?_, fun h =>
    textAt_of_overflows h names context⟩
  rw [textAt_of_not_overflows hnot] at h
  cases h

theorem textAt_congr {names names' : Names} {t : Term}
    (h : ∀ a ∈ t.symbols, a.word names = a.word names') (context : UInt8) :
    t.textAt names context = t.textAt names' context := by
  by_cases hover : t.Overflows
  · rw [textAt_of_overflows hover, textAt_of_overflows hover]
  · rw [textAt_of_not_overflows hover, textAt_of_not_overflows hover, textIn_congr h]

end TermAlgebra.Term
