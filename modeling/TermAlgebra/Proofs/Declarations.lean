import TermAlgebra.Proofs.NameResolution

/-!
# Declarations

Commands are resolved one after the other over one table. A run that declares nothing only reads
the table, and all that it reads there is what the names stand for. A declaration makes its entry in
any case, and the table takes it if the name is new. So after any commands, whether they fail or
not, the table holds the first declaration of each name.
-/

namespace TermAlgebra.Query

open TermAlgebra.Language (Expr Command)

/-! ## What commands declare -/

/-- The name that a command declares. -/
def declaredName : Command → Option String
  | .const c _ => some c
  | .var x _ => some x
  | .metaVar z _ _ => some z
  | _ => none

/-- What a declaration offers to the table when `n` is the next identifier. -/
def entry (n : Nat) : Command → Option (String × Symbol)
  | .const c ty => some (c, .const { name := c, ty })
  | .var x ty => some (x, .var ⟨n, x, ty, false⟩)
  | .metaVar z inputs output => some (z, .metaVar ⟨n, z, inputs, output⟩)
  | _ => none

theorem map_fst_entry (n : Nat) (c : Command) : (entry n c).map Prod.fst = declaredName c := by
  cases c <;> rfl

theorem entry_eq_none_iff {n : Nat} {c : Command} : entry n c = none ↔ declaredName c = none := by
  simp only [← map_fst_entry n c, Option.map_eq_none_iff]

/-- The names of two tables stand for the same. -/
def Symbols.Agrees (s s' : Symbols) : Prop := ∀ name, s'.get? name = s.get? name

/-! ## Runs that declare nothing -/

section Reading

variable [Supply] {s s' : Symbols}

theorem Resolve.terms_congr {scope : Stack Var} {ts : List Expr}
    (h : ∀ t ∈ ts, Resolve.term s' scope t = Resolve.term s scope t) :
    Resolve.terms s' scope ts = Resolve.terms s scope ts := by
  induction ts with
  | nil => simp only [Resolve.terms]
  | cons t ts ih =>
    have ht := h t List.mem_cons_self
    have hts := ih fun t' ht' => h t' (List.mem_cons_of_mem t ht')
    simp only [Resolve.terms, ht, hts]

theorem Resolve.term_congr (h : s.Agrees s') (scope : Stack Var) (t : Expr) :
    Resolve.term s' scope t = Resolve.term s scope t := by
  induction t using Expr.induction generalizing scope with
  | name x => simp only [Resolve.term, Resolve.name, h x]
  | literal v => simp only [Resolve.term]
  | app head args ih ihs =>
    have hargs := Resolve.terms_congr fun t ht => ihs t ht scope
    simp only [Resolve.term, ih, hargs]
  | metaApp z args ihs =>
    have hargs := Resolve.terms_congr fun t ht => ihs t ht scope
    simp only [Resolve.term, Resolve.metaVar, h z, hargs]
  | lambda x ty body ih => simp only [Resolve.term, ih]

end Reading

namespace Scoping

variable {α β : Type}

/-- A run leaves the table, and over a table that agrees it has the same outcome. -/
def Reads (m : Scoping α) : Prop :=
  ∀ s s' n, s.Agrees s' → m.exec s' n = (((m.exec s n).1.1, s'), (m.exec s n).2)

theorem Reads.table {m : Scoping α} (hm : Reads m) (s : Symbols) (n : Nat) :
    (m.exec s n).1.2 = s := by
  rw [hm s s n fun _ => rfl]

theorem reads_pure (a : α) : Reads (pure a) := fun _ _ _ _ => rfl

theorem reads_throw (e : ResolveError) : Reads (throw e : Scoping α) := fun _ _ _ _ => rfl

theorem Reads.bind {m : Scoping α} {f : α → Scoping β} (hm : Reads m) (hf : ∀ a, Reads (f a)) :
    Reads (m >>= f) := by
  intro s s' n hagrees
  have htable := hm.table s n
  rw [exec_bind, exec_bind, hm s s' n hagrees]
  rcases hrun : m.exec s n with ⟨⟨e | a, s₁⟩, n₁⟩
  · rfl
  · rw [hrun] at htable
    obtain rfl : s₁ = s := htable
    exact hf a s₁ s' n₁ hagrees

theorem reads_get_bind {f : Symbols → Scoping α} (hf : ∀ s, Reads (f s))
    (hcongr : ∀ s s', s.Agrees s' → f s' = f s) : Reads ((get : Scoping Symbols) >>= f) := by
  intro s s' n hagrees
  rw [exec_get_bind, exec_get_bind, hcongr s s' hagrees]
  exact hf s s s' n hagrees

theorem reads_resolve (m : Resolve α) : Reads (resolve m) := fun _ _ _ _ => rfl

theorem reads_key (name : String) : Reads (key name) := by
  refine reads_get_bind (fun s => ?_) fun s s' hagrees => ?_
  · cases s.get? name with
    | none => exact reads_throw _
    | some sym =>
      cases sym with
      | const c => exact reads_throw _
      | var x => exact reads_pure _
      | metaVar z => exact reads_pure _
  · simp only [hagrees name]

variable [Supply]

theorem reads_term (t : Expr) : Reads (term t) := by
  refine reads_get_bind (fun s => reads_resolve _) fun s s' hagrees => ?_
  simp only [Symbols.term, Resolve.term_congr hagrees]

theorem reads_images (σ : Subst) (entries : List (String × Expr)) : Reads (images σ entries) := by
  induction entries generalizing σ with
  | nil => exact reads_pure σ
  | cons pair entries ih =>
    obtain ⟨name, t⟩ := pair
    refine (reads_key name).bind fun r => (reads_term t).bind fun u => ?_
    cases σ.insert r u with
    | ok σ' => exact ih σ'
    | error e => exact reads_throw _

end Scoping

open Scoping

/-! ## One command -/

section Commands

variable [Supply] {n : Nat} {c : Command}

theorem reads_ofCommand (h : declaredName c = none) : Reads (ofCommand c) := by
  cases c with
  | const | var | metaVar => cases h
  | matching s t | unify s t | alpha s t =>
    exact (reads_term s).bind fun _ => (reads_term t).bind fun _ => reads_pure _
  | subst t entries =>
    exact (reads_term t).bind fun _ => (reads_images ∅ entries).bind fun _ => reads_pure _
  | positions t => exact (reads_term t).bind fun _ => reads_pure _

/-- The table takes the entry of a declaration if the name is new. -/
theorem exec_declaration {name : String} {sym : Symbol} (h : entry n c = some (name, sym))
    (s : Symbols) :
    ((ofCommand c).exec s n).1 =
      match s.get? name with
      | some _ => (.error (.scope (.redeclared name)), s)
      | none => (.ok none, ⟨(name, sym) :: s.entries⟩) := by
  have hdeclare : ∀ n', ((do declare name sym; return none : Scoping (Option Query)).exec s n').1 =
      match s.get? name with
      | some _ => (.error (.scope (.redeclared name)), s)
      | none => (.ok none, ⟨(name, sym) :: s.entries⟩) := by
    intro n'
    rw [exec_bind, exec_declare, Symbols.declare]
    cases s.get? name <;> rfl
  cases c with
  | const c ty =>
    cases h
    exact hdeclare n
  | var x ty =>
    cases h
    exact hdeclare (Supply.next n)
  | metaVar z inputs output =>
    cases h
    exact hdeclare (Supply.next n)
  | matching | unify | alpha | subst | positions => cases h

/-- What a name stands for after a command. -/
theorem get?_exec (s : Symbols) (n : Nat) (c : Command) (name : String) :
    ((ofCommand c).exec s n).1.2.get? name =
      (s.get? name).or ((entry n c).toList.lookup name) := by
  cases hentry : entry n c with
  | none =>
    rw [(reads_ofCommand (entry_eq_none_iff.mp hentry)).table]
    simp
  | some pair =>
    obtain ⟨y, sym⟩ := pair
    rw [exec_declaration hentry]
    by_cases hname : name = y
    · subst hname
      cases hget : s.get? name <;> simp [hget, Symbols.get?_cons]
    · have hne : (name == y) = false := beq_eq_false_iff_ne.mpr hname
      cases s.get? y <;> simp [Symbols.get?_cons, List.lookup, hne]

/-- A command that fails leaves the table, also a declaration. -/
theorem table_of_error {s : Symbols} {e : ResolveError}
    (h : ((ofCommand c).exec s n).1.1 = .error e) : ((ofCommand c).exec s n).1.2 = s := by
  cases hentry : entry n c with
  | none => exact (reads_ofCommand (entry_eq_none_iff.mp hentry)).table s n
  | some pair =>
    obtain ⟨name, sym⟩ := pair
    rw [exec_declaration hentry] at h ⊢
    cases hget : s.get? name with
    | some other => rfl
    | none =>
      rw [hget] at h
      cases h

end Commands

/-! ## Whole runs -/

section Sequences

variable [Supply]

/-- The table after commands, and the next identifier. No failure keeps later commands from being
resolved. -/
def Symbols.after (s : Symbols) (n : Nat) : List Command → Symbols × Nat
  | [] => (s, n)
  | c :: cs => after ((ofCommand c).exec s n).1.2 ((ofCommand c).exec s n).2 cs

/-- All that the declarations among commands offer to the table, in their order. -/
def declarations (s : Symbols) (n : Nat) : List Command → List (String × Symbol)
  | [] => []
  | c :: cs =>
    (entry n c).toList ++ declarations ((ofCommand c).exec s n).1.2 ((ofCommand c).exec s n).2 cs

theorem Symbols.after_append (s : Symbols) (n : Nat) (cs ds : List Command) :
    s.after n (cs ++ ds) = (s.after n cs).1.after (s.after n cs).2 ds := by
  induction cs generalizing s n with
  | nil => rfl
  | cons c cs ih => exact ih _ _

/-- What a name stood for stays; otherwise its first declaration counts. -/
theorem Symbols.get?_after (s : Symbols) (n : Nat) (cs : List Command) (name : String) :
    (s.after n cs).1.get? name = (s.get? name).or ((declarations s n cs).lookup name) := by
  induction cs generalizing s n with
  | nil => simp [after, declarations]
  | cons c cs ih =>
    simp only [after, declarations, ih, get?_exec, List.lookup_append, Option.or_assoc]

theorem map_fst_declarations (s : Symbols) (n : Nat) (cs : List Command) :
    (declarations s n cs).map Prod.fst = cs.filterMap declaredName := by
  induction cs generalizing s n with
  | nil => rfl
  | cons c cs ih =>
    simp only [declarations, List.map_append, ih, List.filterMap_cons, ← map_fst_entry n c]
    cases entry n c <;> rfl

theorem isSome_lookup_declarations {s : Symbols} {n : Nat} {cs : List Command} {name : String} :
    ((declarations s n cs).lookup name).isSome ↔ ∃ c ∈ cs, declaredName c = some name := by
  simp only [← List.mem_filterMap, ← map_fst_declarations s n cs]
  induction declarations s n cs with
  | nil => simp
  | cons pair pairs ih =>
    obtain ⟨y, sym⟩ := pair
    by_cases hname : name = y
    · simp [List.lookup, hname]
    · simp [List.lookup, hname, beq_eq_false_iff_ne.mpr hname, ih]

/-- After any commands a name stands for what its first declaration made, and names that were never
declared stand for nothing; what it stands for, it stands for after all later commands. A command
that fails leaves the table. A declaration fails exactly if its name was declared, and with no other
error. Every other command leaves the table, and it is resolved as it would be over the table of the
declarations before it. -/
theorem declarations_append_only {n m : Nat} {cs : List Command} {s : Symbols}
    (h : Symbols.after ∅ n cs = (s, m)) :
    (∀ name, s.get? name = (declarations ∅ n cs).lookup name) ∧
    (∀ name, (s.get? name).isSome ↔ ∃ c ∈ cs, declaredName c = some name) ∧
    (∀ ds name sym, s.get? name = some sym →
      (Symbols.after ∅ n (cs ++ ds)).1.get? name = some sym) ∧
    ∀ c,
      (∀ e, ((ofCommand c).exec s m).1.1 = .error e → ((ofCommand c).exec s m).1.2 = s) ∧
      (∀ name, declaredName c = some name →
        ((∃ e, ((ofCommand c).exec s m).1.1 = .error e) ↔
          ∃ c' ∈ cs, declaredName c' = some name) ∧
        ∀ e, ((ofCommand c).exec s m).1.1 = .error e → e = .scope (.redeclared name)) ∧
      (declaredName c = none →
        (ofCommand c).exec s m =
          ((((ofCommand c).exec ⟨declarations ∅ n cs⟩ m).1.1, s),
            ((ofCommand c).exec ⟨declarations ∅ n cs⟩ m).2)) := by
  have hget : ∀ name, s.get? name = (declarations ∅ n cs).lookup name := by
    intro name
    have hafter := Symbols.get?_after ∅ n cs name
    rw [h] at hafter
    exact hafter
  have hnames : ∀ name, (s.get? name).isSome ↔ ∃ c ∈ cs, declaredName c = some name := by
    intro name
    rw [hget]
    exact isSome_lookup_declarations
  refine ⟨hget, hnames, ?_, fun c => ⟨fun e => table_of_error, ?_, ?_⟩⟩
  · intro ds name sym hsym
    rw [Symbols.after_append, h, Symbols.get?_after, hsym, Option.some_or]
  · intro name hname
    rw [← map_fst_entry m c, Option.map_eq_some_iff] at hname
    obtain ⟨⟨_, sym⟩, hentry, rfl⟩ := hname
    rw [exec_declaration hentry, ← hnames]
    cases s.get? _ with
    | none => simp
    | some other => simp
  · intro hname
    exact reads_ofCommand hname ⟨declarations ∅ n cs⟩ s m hget

end Sequences

/-- `f` is declared twice, a query fails below a binder at the name `g`, and `x` is declared. -/
theorem declarations_with_failures :
    let o := SimpleType.base "o"
    let cs : List Command :=
      [.const "f" (.arrow o o), .const "f" o, .alpha (.lambda "y" o (.name "g")) (.name "f"),
        .var "x" o]
    ∃ s, Symbols.after ∅ 0 cs = (s, 2) ∧
      s.get? "f" = some (.const { name := "f", ty := .arrow o o }) ∧
      s.get? "x" = some (.var ⟨1, "x", o, false⟩) ∧ s.get? "g" = none ∧
      (∃ e, ((ofCommand (.metaVar "f" [] o)).exec s 2).1.1 = .error e) ∧
      ¬ (∃ e, ((ofCommand (.const "g" o)).exec s 2).1.1 = .error e) ∧
      ((ofCommand (.positions (.app (.name "f") [.name "x"]))).exec s 2).1.2 = s := by
  intro o cs
  have hafter : Symbols.after ∅ 0 cs =
      (⟨[("x", .var ⟨1, "x", o, false⟩), ("f", .const { name := "f", ty := .arrow o o })]⟩, 2) := by
    cbv
  obtain ⟨hget, -, -, hcommand⟩ := declarations_append_only hafter
  have hdeclared : declarations ∅ 0 cs =
      [("f", .const { name := "f", ty := .arrow o o }), ("f", .const { name := "f", ty := o }),
        ("x", .var ⟨1, "x", o, false⟩)] := by
    cbv
  refine ⟨_, hafter, ?_, ?_, ?_, ?_, ?_, ?_⟩
  · rw [hget, hdeclared]
    rfl
  · rw [hget, hdeclared]
    rfl
  · rw [hget, hdeclared]
    rfl
  · exact ((hcommand _).2.1 "f" rfl).1.mpr ⟨_, List.mem_cons_self, rfl⟩
  · intro hfails
    have hdeclares := ((hcommand (.const "g" o)).2.1 "g" rfl).1.mp hfails
    simp [cs, declaredName] at hdeclares
  · exact congrArg (fun r => r.1.2) ((hcommand (.positions _)).2.2 rfl)

end TermAlgebra.Query
