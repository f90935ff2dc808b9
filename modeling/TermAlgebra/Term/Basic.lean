import TermAlgebra.Literal
import TermAlgebra.OrderedSet
import TermAlgebra.Variable

/-!
# Terms

Terms of the simply typed lambda calculus with meta-variables. An application keeps all its
arguments in one list, so a well-formed head is no application itself. The type, the free
replaceables, the bound variables and the size of a term are determined by its tree; every node
keeps them, so that they cost nothing where parts of a term are shared.
-/

namespace TermAlgebra

inductive Term where
  | literal (v : Literal)
  | const (c : Constant)
  | var (x : Var)
  | lambda (x : Var) (body : Term)
  | app (head : Term) (args : List Term)
  | metaApp (z : MetaVar) (args : List Term)
with
  @[computed_field]
  ty : Term → SimpleType
  | .literal v => v.sort
  | .const c => c.ty
  | .var x => x.ty
  | .lambda x body => .arrow x.ty body.ty
  | .app head args => (head.ty.dropInputs args.length).getD head.ty.output
  | .metaApp z _ => z.output
  /-- Variables and meta-variables with a free occurrence. -/
  @[computed_field]
  free : Term → OrderedSet Replaceable
  | .literal _ => ∅
  | .const _ => ∅
  | .var x => .singleton (.var x)
  | .lambda x body => body.free.erase (.var x)
  | .app head args => head.free ∪ args.foldr (fun (t : Term) s => t.free ∪ s) ∅
  | .metaApp z args => (args.foldr (fun (t : Term) s => t.free ∪ s) ∅).insert (.metaVar z)
  /-- Variables bound by some abstraction inside. -/
  @[computed_field]
  bound : Term → OrderedSet Var
  | .literal _ => ∅
  | .const _ => ∅
  | .var _ => ∅
  | .lambda x body => body.bound.insert x
  | .app head args => head.bound ∪ args.foldr (fun (t : Term) s => t.bound ∪ s) ∅
  | .metaApp _ args => args.foldr (fun (t : Term) s => t.bound ∪ s) ∅
  @[computed_field]
  size : Term → Nat
  | .literal _ => 1
  | .const _ => 1
  | .var _ => 1
  | .lambda _ body => 1 + body.size
  | .app head args => 1 + head.size + args.foldr (fun (t : Term) n => t.size + n) 0
  | .metaApp _ args => 1 + args.foldr (fun (t : Term) n => t.size + n) 0

namespace Term

instance : Inhabited Term := ⟨.literal (.bool false)⟩

/-- Induction over a term and the terms in its lists. -/
theorem induction {motive : Term → Prop} (literal : ∀ v, motive (.literal v))
    (const : ∀ c, motive (.const c)) (var : ∀ x, motive (.var x))
    (lambda : ∀ x body, motive body → motive (.lambda x body))
    (app : ∀ head args, motive head → (∀ t ∈ args, motive t) → motive (.app head args))
    (metaApp : ∀ z args, (∀ t ∈ args, motive t) → motive (.metaApp z args)) (t : Term) :
    motive t :=
  @Term.rec motive (fun ts => ∀ t ∈ ts, motive t)
    literal const var lambda app metaApp (fun _ h => nomatch h)
    (fun _ _ ht hts s hs => by
      rcases List.mem_cons.1 hs with rfl | hs
      · exact ht
      · exact hts s hs) t

/-- Variables and meta-variables with a free occurrence in some term of a list. -/
def freeAll : List Term → OrderedSet Replaceable
  | [] => ∅
  | t :: ts => t.free ∪ freeAll ts

/-- Variables bound by some abstraction inside some term of a list. -/
def boundAll : List Term → OrderedSet Var
  | [] => ∅
  | t :: ts => t.bound ∪ boundAll ts

def sizeAll : List Term → Nat
  | [] => 0
  | t :: ts => t.size + sizeAll ts

theorem freeAll_eq (ts : List Term) : ts.foldr (fun t s => t.free ∪ s) ∅ = freeAll ts := by
  induction ts with
  | nil => rfl
  | cons t ts ih => rw [List.foldr_cons, ih, freeAll]

theorem boundAll_eq (ts : List Term) : ts.foldr (fun t s => t.bound ∪ s) ∅ = boundAll ts := by
  induction ts with
  | nil => rfl
  | cons t ts ih => rw [List.foldr_cons, ih, boundAll]

theorem sizeAll_eq (ts : List Term) : ts.foldr (fun t n => t.size + n) 0 = sizeAll ts := by
  induction ts with
  | nil => rfl
  | cons t ts ih => rw [List.foldr_cons, ih, sizeAll]

/-! ## What the nodes keep -/

@[simp]
theorem free_literal (v : Literal) : (literal v).free = ∅ := by rw [free]

@[simp]
theorem free_const (c : Constant) : (const c).free = ∅ := by rw [free]

@[simp]
theorem free_var (x : Var) : (var x).free = .singleton (.var x) := by rw [free]

@[simp]
theorem free_lambda (x : Var) (body : Term) :
    (lambda x body).free = body.free.erase (.var x) := by
  rw [free]

@[simp]
theorem free_app (head : Term) (args : List Term) :
    (app head args).free = head.free ∪ freeAll args := by
  rw [free, freeAll_eq]

@[simp]
theorem free_metaApp (z : MetaVar) (args : List Term) :
    (metaApp z args).free = (freeAll args).insert (.metaVar z) := by
  rw [free, freeAll_eq]

@[simp]
theorem bound_literal (v : Literal) : (literal v).bound = ∅ := by rw [bound]

@[simp]
theorem bound_const (c : Constant) : (const c).bound = ∅ := by rw [bound]

@[simp]
theorem bound_var (x : Var) : (var x).bound = ∅ := by rw [bound]

@[simp]
theorem bound_lambda (x : Var) (body : Term) :
    (lambda x body).bound = body.bound.insert x := by
  rw [bound]

@[simp]
theorem bound_app (head : Term) (args : List Term) :
    (app head args).bound = head.bound ∪ boundAll args := by
  rw [bound, boundAll_eq]

@[simp]
theorem bound_metaApp (z : MetaVar) (args : List Term) :
    (metaApp z args).bound = boundAll args := by
  rw [bound, boundAll_eq]

@[simp]
theorem size_literal (v : Literal) : (literal v).size = 1 := by rw [size]

@[simp]
theorem size_const (c : Constant) : (const c).size = 1 := by rw [size]

@[simp]
theorem size_var (x : Var) : (var x).size = 1 := by rw [size]

@[simp]
theorem size_lambda (x : Var) (body : Term) : (lambda x body).size = 1 + body.size := by
  rw [size]

@[simp]
theorem size_app (head : Term) (args : List Term) :
    (app head args).size = 1 + head.size + sizeAll args := by
  rw [size, sizeAll_eq]

@[simp]
theorem size_metaApp (z : MetaVar) (args : List Term) :
    (metaApp z args).size = 1 + sizeAll args := by
  rw [size, sizeAll_eq]

/-- The free variables in the order of the free replaceables. -/
def freeVars (t : Term) : List Var := t.free.toList.filterMap Replaceable.var?

/-- The head `h` of `h(t₁, …, tₙ)`, and any other term itself. -/
def head : Term → Term
  | app h _ => h
  | t => t

/-- The arguments of an application. -/
def args : Term → List Term
  | app _ args => args
  | _ => []

def constant? : Term → Option Constant
  | const c => some c
  | _ => none

def var? : Term → Option Var
  | var x => some x
  | _ => none

def lambda? : Term → Option (Var × Term)
  | lambda x body => some (x, body)
  | _ => none

def metaApp? : Term → Option (MetaVar × List Term)
  | metaApp z args => some (z, args)
  | _ => none

/-- The constant that heads the term. -/
def root? (t : Term) : Option Constant := t.head.constant?

/-- The variable that heads the term. -/
def headVar? (t : Term) : Option Var := t.head.var?

/-- The meta-variable that heads the term. -/
def headMeta? (t : Term) : Option MetaVar := t.head.metaApp?.map Prod.fst

/-- The arguments of the meta-application that heads the term. -/
def metaArgs (t : Term) : List Term := (t.head.metaApp?.map Prod.snd).getD []

/-- The variable if the term is a binder variable alone. -/
def binder? : Term → Option Var
  | var x => if x.binder then some x else none
  | _ => none

/-- The term `h(t₁, …, tᵢ)` for `h(t₁, …, tₙ)`. -/
def headPart (t : Term) (i : Nat) : Term :=
  if t.args.length ≤ i then t
  else if i = 0 then t.head
  else .app t.head (t.args.take i)

theorem mem_freeAll {ts : List Term} {r : Replaceable} :
    r ∈ freeAll ts ↔ ∃ t ∈ ts, r ∈ t.free := by
  induction ts with
  | nil => simp [freeAll]
  | cons t ts ih =>
    rw [freeAll, OrderedSet.mem_union, ih]
    simp

theorem mem_boundAll {ts : List Term} {x : Var} :
    x ∈ boundAll ts ↔ ∃ t ∈ ts, x ∈ t.bound := by
  induction ts with
  | nil => simp [boundAll]
  | cons t ts ih =>
    rw [boundAll, OrderedSet.mem_union, ih]
    simp

theorem mem_freeVars {t : Term} {y : Var} : y ∈ t.freeVars ↔ .var y ∈ t.free := by
  unfold freeVars
  rw [List.mem_filterMap]
  constructor
  · rintro ⟨r, hr, e⟩
    cases r with
    | var x =>
      obtain rfl := Option.some.inj e
      exact hr
    | metaVar z => cases e
  · exact fun hy => ⟨.var y, hy, rfl⟩

theorem size_pos (t : Term) : 0 < t.size := by
  cases t <;> rw [size] <;> omega

theorem size_le_sizeAll {t : Term} {ts : List Term} (h : t ∈ ts) : t.size ≤ sizeAll ts := by
  induction ts with
  | nil => simp at h
  | cons s ts ih =>
    rcases List.mem_cons.1 h with rfl | h
    · simp [sizeAll]
    · have := ih h
      simp [sizeAll]
      omega

theorem sizeAll_append (ss ts : List Term) : sizeAll (ss ++ ts) = sizeAll ss + sizeAll ts := by
  induction ss with
  | nil => simp [sizeAll]
  | cons s ss ih => rw [List.cons_append, sizeAll, sizeAll, ih, Nat.add_assoc]

end Term

end TermAlgebra
