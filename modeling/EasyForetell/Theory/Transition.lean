import Mathlib.Algebra.Order.Ring.Int
import Mathlib.Logic.Relation
import Mathlib.Tactic.Common

/-!
# Transition systems and call sequences

Two ways of running a component. A transition system is a relation with labels;
its reachable states carry every property that holds initially and survives each
step. A call interface is a function from a state and a call to the next state
and an answer; two interfaces that agree call by call agree on every sequence.

## Main results

* `Reachable.invariant`: the induction rule for reachable states
* `Reachable.of_foldlM`: a computed run ends in a reachable state
* `Run.potential`: what a measure of the states pays for along a run
* `Run.balance`: two accounts in balance
* `Run.exists_terminal`: a run whose steps lower a measure comes to an end
* `LeadsTo.stays`: what no step leaves is never left
* `Simulation.reachable`: a simulated system reaches only images of abstract states
* `callAll_simulates`: related states give equal answers to every call sequence
-/

namespace EasyForetell.Theory

/-! ### Transition systems -/

/-- A system with initial states and labelled steps. -/
structure TransitionSystem (State Label : Type*) where
  init : State → Prop
  step : State → Label → State → Prop

namespace TransitionSystem

variable {State Label : Type*} {system : TransitionSystem State Label}

/-- The states a run of the system can be in. -/
inductive Reachable (system : TransitionSystem State Label) : State → Prop
  | start {s : State} : system.init s → Reachable system s
  | next {s t : State} {label : Label} :
      Reachable system s → system.step s label t → Reachable system t

/-- What holds initially and is preserved by every step holds in every reachable
state. The step may use that it leaves a reachable state. -/
theorem Reachable.invariant {inv : State → Prop} (hinit : ∀ s, system.init s → inv s)
    (hstep : ∀ s label t, system.Reachable s → inv s → system.step s label t → inv t)
    {s : State} (hreach : system.Reachable s) : inv s := by
  induction hreach with
  | start hstart => exact hinit _ hstart
  | next hprior htaken ih => exact hstep _ _ _ hprior ih htaken

/-- A run of steps that a partial function computes ends in a reachable state. -/
theorem Reachable.of_foldlM {next : State → Label → Option State} {allowed : Label → Prop}
    (hstep : ∀ s label t, allowed label → next s label = some t → system.step s label t)
    {s t : State} (hreach : system.Reachable s) (labels : List Label)
    (hallowed : ∀ label ∈ labels, allowed label) (hrun : labels.foldlM next s = some t) :
    system.Reachable t := by
  induction labels generalizing s with
  | nil =>
    obtain rfl : s = t := by simpa using hrun
    exact hreach
  | cons label labels ih =>
    rw [List.foldlM_cons] at hrun
    obtain ⟨u, hfirst, hrest⟩ := Option.bind_eq_some_iff.mp hrun
    exact ih (.next hreach (hstep s label u (hallowed label (by simp)) hfirst))
      (fun later hlater => hallowed later (by simp [hlater])) hrest

/-- The system can go from one state to another. -/
def LeadsTo (system : TransitionSystem State Label) : State → State → Prop :=
  Relation.ReflTransGen fun s t => ∃ label, system.step s label t

/-- A set of states that no step leaves is never left. -/
theorem LeadsTo.stays (closed : State → Prop)
    (hstep : ∀ s label t, closed s → system.step s label t → closed t) {s t : State}
    (hrun : system.LeadsTo s t) (hs : closed s) : closed t := by
  induction hrun with
  | refl => exact hs
  | tail _ htaken ih =>
    obtain ⟨label, hlast⟩ := htaken
    exact hstep _ _ _ ih hlast

/-- A run from one state to another, with the labels of its steps. -/
inductive Run (system : TransitionSystem State Label) : State → List Label → State → Prop
  | nil (s : State) : Run system s [] s
  | cons {s t u : State} {label : Label} {labels : List Label} :
      system.step s label t → Run system t labels u → Run system s (label :: labels) u

/-- One run after another. -/
theorem Run.append {s t u : State} {labels more : List Label} (hrun : system.Run s labels t)
    (hmore : system.Run t more u) : system.Run s (labels ++ more) u := by
  induction hrun with
  | nil => exact hmore
  | cons htaken _ ih => exact .cons htaken (ih hmore)

/-- A run that a partial function computes. -/
theorem Run.of_foldlM {next : State → Label → Option State} {allowed : Label → Prop}
    (hstep : ∀ s label t, allowed label → next s label = some t → system.step s label t)
    {s t : State} (labels : List Label) (hallowed : ∀ label ∈ labels, allowed label)
    (hrun : labels.foldlM next s = some t) : system.Run s labels t := by
  induction labels generalizing s with
  | nil =>
    obtain rfl : s = t := by simpa using hrun
    exact .nil s
  | cons label labels ih =>
    rw [List.foldlM_cons] at hrun
    obtain ⟨u, hfirst, hrest⟩ := Option.bind_eq_some_iff.mp hrun
    obtain ⟨hhead, htail⟩ := List.forall_mem_cons.mp hallowed
    exact .cons (hstep s label u hhead hfirst) (ih htail hrest)

/-- What the steps of some labels preserve a run with these labels preserves. -/
theorem Run.invariant_of_labels (inv : State → Prop) (allowed : Label → Prop)
    (hstep : ∀ s label t, inv s → allowed label → system.step s label t → inv t)
    {s t : State} {labels : List Label} (hrun : system.Run s labels t)
    (hlabels : ∀ label ∈ labels, allowed label) (hs : inv s) : inv t := by
  induction hrun with
  | nil => exact hs
  | cons htaken _ ih =>
    obtain ⟨hfirst, hrest⟩ := List.forall_mem_cons.mp hlabels
    exact ih hrest (hstep _ _ _ hs hfirst htaken)

/-- What every step preserves a run preserves. -/
theorem Run.invariant (inv : State → Prop)
    (hstep : ∀ s label t, inv s → system.step s label t → inv t) {s t : State} {labels : List Label}
    (hrun : system.Run s labels t) (hs : inv s) : inv t :=
  hrun.invariant_of_labels inv (fun _ => True) (fun s label t h _ => hstep s label t h)
    (fun _ _ => trivial) hs

theorem Run.reachable {s t : State} {labels : List Label} (hrun : system.Run s labels t)
    (hs : system.Reachable s) : system.Reachable t :=
  hrun.invariant _ (fun _ _ _ => Reachable.next) hs

/-- The potential method: a measure of the states that pays for what every step costs,
and is lowered by it, pays for what a run costs. A negative cost is what a step brings
in. -/
theorem Run.potential {inv : State → Prop} (measure : State → ℤ) (cost : Label → ℤ)
    (hinv : ∀ s label t, inv s → system.step s label t → inv t)
    (hstep : ∀ s label t, inv s → system.step s label t → measure t + cost label ≤ measure s)
    {s t : State} {labels : List Label} (hrun : system.Run s labels t) (hs : inv s) :
    measure t + (labels.map cost).sum ≤ measure s := by
  induction hrun with
  | nil => simp
  | cons htaken _ ih =>
    have hfirst := hstep _ _ _ hs htaken
    have hrest := ih (hinv _ _ _ hs htaken)
    rw [List.map_cons, List.sum_cons]
    omega

/-- Steps of one kind that a measure or the input pays for are no more than it and the input
of the run. -/
theorem Run.paid {inv : State → Prop} {measure : State → ℕ} {kind : Label → Bool}
    {input : Label → ℕ} (hinv : ∀ s label t, inv s → system.step s label t → inv t)
    (hstep : ∀ s label t, inv s → system.step s label t →
      measure t + (if kind label then 1 else 0) ≤ measure s + input label)
    {s t : State} {labels : List Label} (hrun : system.Run s labels t) (hs : inv s) :
    measure t + labels.countP kind ≤ measure s + (labels.map input).sum := by
  induction hrun with
  | nil => simp
  | cons htaken _ ih =>
    have hfirst := hstep _ _ _ hs htaken
    have hrest := ih (hinv _ _ _ hs htaken)
    rw [List.countP_cons, List.map_cons, List.sum_cons]
    omega

/-- Where every step a state allows lowers a measure, some run of such steps ends in a
state that allows none. -/
theorem Run.exists_terminal {inv : State → Prop} (measure : State → ℕ) {allowed : Label → Prop}
    (hstep : ∀ s label t, inv s → allowed label → system.step s label t →
      inv t ∧ measure t < measure s) {s : State} (hs : inv s) :
    ∃ labels t, system.Run s labels t ∧ (∀ label ∈ labels, allowed label) ∧ inv t ∧
      ∀ label u, allowed label → ¬ system.step t label u := by
  induction hmeasure : measure s using Nat.strongRecOn generalizing s with
  | ind n ih =>
    by_cases hstuck : ∃ label u, allowed label ∧ system.step s label u
    · obtain ⟨label, u, hallowed, htaken⟩ := hstuck
      obtain ⟨hu, hless⟩ := hstep s label u hs hallowed htaken
      obtain ⟨labels, t, hrun, hlabels, ht, hend⟩ := ih _ (hmeasure ▸ hless) hu rfl
      refine ⟨label :: labels, t, .cons htaken hrun, ?_, ht, hend⟩
      exact List.forall_mem_cons.mpr ⟨hallowed, hlabels⟩
    · refine ⟨[], s, .nil s, by simp, hs, fun label u hallowed htaken => ?_⟩
      exact hstuck ⟨label, u, hallowed, htaken⟩

/-- The same system with only the steps a condition allows. -/
def restrict (system : TransitionSystem State Label) (allowed : State → Label → Prop) :
    TransitionSystem State Label where
  init := system.init
  step s label t := system.step s label t ∧ allowed s label

theorem Reachable.of_restrict {allowed : State → Label → Prop} {s : State}
    (hreach : (system.restrict allowed).Reachable s) : system.Reachable s := by
  induction hreach with
  | start hstart => exact .start hstart
  | next _ htaken ih => exact .next ih htaken.1

/-- A forward simulation: each step from a reachable state is matched by an
abstract step or leaves the abstract state as it is. -/
structure Simulation {State' Label' : Type*} (concrete : TransitionSystem State Label)
    (abstract : TransitionSystem State' Label') (view : State → State') : Prop where
  init : ∀ s, concrete.init s → abstract.init (view s)
  step : ∀ s label t, concrete.Reachable s → concrete.step s label t →
    view t = view s ∨ ∃ label', abstract.step (view s) label' (view t)

theorem Simulation.reachable {State' Label' : Type*} {abstract : TransitionSystem State' Label'}
    {view : State → State'} (simulation : Simulation system abstract view) {s : State}
    (hreach : system.Reachable s) : abstract.Reachable (view s) := by
  induction hreach with
  | start hstart => exact .start (simulation.init _ hstart)
  | next hprior htaken ih =>
    rcases simulation.step _ _ _ hprior htaken with hsame | ⟨label, habstract⟩
    · rwa [hsame]
    · exact .next ih habstract

end TransitionSystem

/-! ### Call sequences -/

section Calls

variable {State State' Call Answer : Type*}

/-- Make the calls in order; the answers come in the same order. -/
def callAll (call : State → Call → State × Answer) : State → List Call → State × List Answer
  | s, [] => (s, [])
  | s, c :: calls =>
    let now := call s c
    let later := callAll call now.1 calls
    (later.1, now.2 :: later.2)

/-- Two interfaces whose calls preserve a relation and give equal answers agree
on every sequence of allowed calls. -/
theorem callAll_simulates {call : State → Call → State × Answer}
    {call' : State' → Call → State' × Answer} {rel : State → State' → Prop} {allowed : Call → Prop}
    (hstep : ∀ s t c, rel s t → allowed c →
      rel (call s c).1 (call' t c).1 ∧ (call s c).2 = (call' t c).2)
    {s : State} {t : State'} (hrel : rel s t) (calls : List Call)
    (hcalls : ∀ c ∈ calls, allowed c) :
    rel (callAll call s calls).1 (callAll call' t calls).1 ∧
      (callAll call s calls).2 = (callAll call' t calls).2 := by
  induction calls generalizing s t with
  | nil => exact ⟨hrel, rfl⟩
  | cons c calls ih =>
    obtain ⟨hnext, hanswer⟩ := hstep s t c hrel (hcalls c (by simp))
    obtain ⟨hlast, hanswers⟩ := ih hnext fun d hd => hcalls d (by simp [hd])
    exact ⟨hlast, by simp only [callAll, hanswer, hanswers]⟩

end Calls

end EasyForetell.Theory
