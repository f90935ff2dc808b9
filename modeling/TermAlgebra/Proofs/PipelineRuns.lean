import Mathlib.Order.WellFounded
import TermAlgebra.Program.Pipeline

/-!
# Runs of a pipeline

The channel keeps the order of the items and loses none, so the items that a consumer has taken are
the first ones, at any capacity. What holds of a consumer whatever it is given therefore holds in
every run, and a run ends as soon as the consumer does.
-/

namespace TermAlgebra.Program.Consumer

variable {c : Consumer} {capacity : Amount} {items : List Item}

/-- A property of the items that were taken so far and the state of the consumer. -/
structure Keeps (c : Consumer) (P : List Item → c.State → Prop) : Prop where
  start : P [] c.start
  takes : ∀ taken s item s', P taken s → c.takes s item s' → P (taken ++ [item]) s'
  works : ∀ taken s s', P taken s → c.works s s' → P taken s'

variable {P : List Item → c.State → Prop}

/-- What holds of a pipeline: the property, for a consumer that has taken the items in front of
those in the channel and those unread, or an outcome that such a consumer has given. -/
def Holds (P : List Item → c.State → Prop) (items : List Item) : c.Pipeline → Prop
  | ⟨unread, channel, .running s⟩ => ∃ taken, items = taken ++ channel ++ unread ∧ P taken s
  | ⟨_, _, .done outcome⟩ => ∃ taken rest s, items = taken ++ rest ∧ P taken s ∧
      (c.aborts s outcome ∨ rest = [] ∧ c.finishes s outcome)

theorem Keeps.step (h : c.Keeps P) {p p' : c.Pipeline} (hp : Holds P items p)
    (hstep : Step capacity p p') : Holds P items p' := by
  cases hstep with
  | @send item unread channel status room =>
    cases status with
    | done outcome => exact hp
    | running s =>
      obtain ⟨taken, rfl, hs⟩ := hp
      exact ⟨taken, by simp, hs⟩
  | @receive item unread channel s s' htakes =>
    obtain ⟨taken, rfl, hs⟩ := hp
    exact ⟨taken ++ [item], by simp, h.takes taken s item s' hs htakes⟩
  | @handOver item unread s s' htakes =>
    obtain ⟨taken, rfl, hs⟩ := hp
    exact ⟨taken ++ [item], by simp, h.takes taken s item s' hs htakes⟩
  | @work unread channel s s' hworks =>
    obtain ⟨taken, hitems, hs⟩ := hp
    exact ⟨taken, hitems, h.works taken s s' hs hworks⟩
  | @abort unread channel s outcome haborts =>
    obtain ⟨taken, rfl, hs⟩ := hp
    exact ⟨taken, channel ++ unread, s, List.append_assoc _ _ _, hs, .inl haborts⟩
  | @finish s outcome hfinishes =>
    obtain ⟨taken, rfl, hs⟩ := hp
    exact ⟨taken, [], s, by simp, hs, .inr ⟨rfl, hfinishes⟩⟩

theorem Keeps.reaches (h : c.Keeps P) {p : c.Pipeline} (hp : Reaches c capacity items p) :
    Holds P items p := by
  induction hp with
  | start => exact ⟨[], rfl, h.start⟩
  | step _ hstep ih => exact h.step ih hstep

/-- An outcome comes from a consumer that has taken the first items, and all of them unless it
aborts. -/
theorem Keeps.yields (h : c.Keeps P) {outcome : Outcome}
    (hyields : c.Yields capacity items outcome) :
    ∃ taken rest s, items = taken ++ rest ∧ P taken s ∧
      (c.aborts s outcome ∨ rest = [] ∧ c.finishes s outcome) := by
  obtain ⟨unread, channel, hreaches⟩ := hyields
  exact h.reaches hreaches

/-! ## Progress -/

/-- A consumer that can always go on: by itself, or with any item and with none. -/
def Live (c : Consumer) (s : c.State) : Prop :=
  (∃ s', c.works s s') ∨ (∃ outcome, c.aborts s outcome) ∨
    (∀ item, ∃ s', c.takes s item s') ∧ ∃ outcome, c.finishes s outcome

theorem Keeps.progress (h : c.Keeps P) (hlive : ∀ taken s, P taken s → c.Live s)
    (unread channel : List Item) (s : c.State)
    (hp : Reaches c capacity items ⟨unread, channel, .running s⟩) :
    ∃ p', Step capacity ⟨unread, channel, .running s⟩ p' := by
  obtain ⟨taken, -, hs⟩ := h.reaches hp
  rcases hlive taken s hs with ⟨s', hworks⟩ | ⟨outcome, haborts⟩ | ⟨htakes, outcome, hfinishes⟩
  · exact ⟨_, .work hworks⟩
  · exact ⟨_, .abort haborts⟩
  · rcases channel with _ | ⟨item, channel⟩
    · rcases unread with _ | ⟨item, unread⟩
      · exact ⟨_, .finish hfinishes⟩
      · obtain ⟨s', hs'⟩ := htakes item
        exact ⟨_, .handOver hs'⟩
    · obtain ⟨s', hs'⟩ := htakes item
      exact ⟨_, .receive hs'⟩

/-! ## Ends -/

/-- The work that a consumer has left; an item adds two parts at most. -/
structure Load (c : Consumer) (load : c.State → Nat) : Prop where
  takes : ∀ s item s', c.takes s item s' → load s' ≤ load s + 2
  works : ∀ s s', c.works s s' → load s' < load s

/-- An item counts four as long as it is unread and three in the channel. -/
def Pipeline.load (load : c.State → Nat) : c.Pipeline → Nat
  | ⟨unread, channel, .running s⟩ => 4 * unread.length + 3 * channel.length + load s + 1
  | ⟨unread, channel, .done _⟩ => 4 * unread.length + 3 * channel.length

theorem Load.step {load : c.State → Nat} (h : c.Load load) {p p' : c.Pipeline}
    (hstep : Step capacity p p') : p'.load load < p.load load := by
  cases hstep with
  | @send item unread channel status room =>
    cases status <;> simp only [Pipeline.load, List.length_cons, List.length_append,
      List.length_nil] <;> omega
  | @receive item unread channel s s' htakes =>
    have hs := h.takes s item s' htakes
    simp only [Pipeline.load, List.length_cons]
    omega
  | @handOver item unread s s' htakes =>
    have hs := h.takes s item s' htakes
    simp only [Pipeline.load, List.length_cons]
    omega
  | @work unread channel s s' hworks =>
    have hs := h.works s s' hworks
    simp only [Pipeline.load]
    omega
  | abort | finish =>
    simp only [Pipeline.load]
    omega

theorem Keeps.settles (h : c.Keeps P) (hlive : ∀ taken s, P taken s → c.Live s)
    {load : c.State → Nat} (hload : c.Load load) (capacity : Amount) (items : List Item) :
    c.Settles capacity items where
  ends := Subrelation.wf (fun hstep => hload.step hstep) (measure (Pipeline.load load)).wf
  progress := h.progress hlive

/-- A run that settles gives some outcome. -/
theorem Settles.exists_outcome (h : c.Settles capacity items) :
    ∃ outcome, c.Yields capacity items outcome := by
  have hreaches : ∀ p : c.Pipeline, Reaches c capacity items p →
      ∃ outcome, c.Yields capacity items outcome := by
    intro p
    induction p using h.ends.induction with
    | _ p ih =>
      intro hp
      obtain ⟨unread, channel, s | outcome⟩ := p
      · obtain ⟨p', hstep⟩ := h.progress unread channel s hp
        exact ih p' hstep (hp.step hstep)
      · exact ⟨outcome, unread, channel, hp⟩
  exact hreaches _ .start

end TermAlgebra.Program.Consumer
