import Mathlib.Logic.Relation

/-!
# Programs of atomic actions

A program is a tree of actions on a shared state: it ends with a value, or takes an action and goes
on with its answer. What an action does is a relation; an action that gives no answer is taken
again. While a program waits for its next action, the rest of the world may change the state. An
assertion that the rest of the world keeps can therefore stand between two actions, and the rules
below compose such assertions along a program. A contract says what holds whenever the program may
be cut off, and what each answered action achieves.
-/

namespace Tarsnap.Lib

open Relation

/-- A program over actions, each with the type of its answer. -/
inductive Program (A : Type → Type) (α : Type) : Type 1 where
  /-- The program ends. -/
  | done (value : α)
  /-- The program takes an action and goes on with its answer. -/
  | act {β : Type} (action : A β) (next : β → Program A α)

namespace Program

variable {A : Type → Type} {α β : Type}

/-- Two programs one after the other. -/
def bind (program : Program A α) (rest : α → Program A β) : Program A β :=
  match program with
  | done value => rest value
  | act action next => act action fun answer => (next answer).bind rest

instance : Monad (Program A) where
  pure := done
  bind := bind

/-- The program of one action. -/
def call (action : A α) : Program A α := act action done

/-- A program that goes on only if its first part succeeds. -/
def ensure (first rest : Program A Bool) : Program A Bool :=
  first >>= fun ok => if ok then rest else done false

end Program

/-- What actions do to a state, and what the rest of the world may do to it. -/
structure Machine (A : Type → Type) (σ : Type) where
  /-- An action changes the state, with an answer or without one. -/
  step : ∀ {β : Type}, A β → σ → Option β → σ → Prop
  /-- The rest of the world changes the state. -/
  rely : σ → σ → Prop

/-- What programs promise. -/
structure Contract (A : Type → Type) (σ : Type) where
  /-- What holds whenever a program may be cut off. -/
  always : σ → Prop
  /-- What an action that is answered achieves. -/
  each : ∀ {β : Type}, A β → σ → β → σ → Prop

namespace Machine

variable {A : Type → Type} {σ α β : Type} (M : Machine A σ)

/-- A step of a program. -/
inductive Step : Program A α → σ → Program A α → σ → Prop where
  /-- The action is answered. -/
  | answer {β : Type} {action : A β} {next : β → Program A α} {before after : σ} {value : β}
    (step : M.step action before (some value) after) :
    Step (.act action next) before (next value) after
  /-- The action is to be taken again. -/
  | again {β : Type} {action : A β} {next : β → Program A α} {before after : σ}
    (step : M.step action before none after) :
    Step (.act action next) before (.act action next) after

/-- The runs of a program when the rest of the world does nothing. -/
abbrev Runs : Program A α × σ → Program A α × σ → Prop :=
  ReflTransGen fun left right => M.Step left.1 left.2 right.1 right.2

/-- The state changes while the program waits for the answer of an action. -/
def Waits (action : A β) (before after : σ) : Prop :=
  M.rely before after ∨ M.step action before none after

/-- The program keeps its contract, and the values with which it may end are as described. -/
def Safe (contract : Contract A σ) (ends : α → σ → Prop) : Program A α → σ → Prop
  | .done value, state => ∀ later, ReflTransGen M.rely state later →
      contract.always later ∧ ends value later
  | .act action next, state => ∀ later, ReflTransGen (M.Waits action) state later →
      contract.always later ∧ ∀ value after, M.step action later (some value) after →
        contract.each action later value after ∧ Safe contract ends (next value) after

variable {M} {contract : Contract A σ} {ends : α → σ → Prop} {program : Program A α}
  {before after : σ}

/-- The contract holds while a program runs. -/
theorem Safe.holds (safe : M.Safe contract ends program before) : contract.always before := by
  cases program with
  | done value => exact (safe before .refl).1
  | act action next => exact (safe before .refl).1

/-- A program that ended ended as described. -/
theorem Safe.result {value : α} (safe : M.Safe contract ends (.done value) before) :
    ends value before :=
  (safe before .refl).2

/-- A safe program stays safe with each of its steps. -/
theorem Safe.step {program' : Program A α} (safe : M.Safe contract ends program before)
    (step : M.Step program before program' after) : M.Safe contract ends program' after := by
  cases step with
  | answer step => exact ((safe before .refl).2 _ _ step).2
  | again step => exact fun later moves => safe later (.head (.inr step) moves)

/-- A safe program stays safe in all its runs. -/
theorem Safe.runs {reached : Program A α × σ} (safe : M.Safe contract ends program before)
    (runs : M.Runs (program, before) reached) : M.Safe contract ends reached.1 reached.2 := by
  induction runs with
  | refl => exact safe
  | tail _ last ih => exact ih.step last

variable (M) in
/-- An assertion that can stand between two actions: it implies the contract, and the rest of the
world keeps it. -/
structure Stands (contract : Contract A σ) (assertion : σ → Prop) : Prop where
  /-- The program may be cut off here. -/
  always : ∀ state, assertion state → contract.always state
  /-- The rest of the world keeps the assertion. -/
  stable : ∀ before after, assertion before → M.rely before after → assertion after

variable (M) in
/-- From each state with the first assertion the program is safe and ends with the second. -/
def Triple (contract : Contract A σ) (pre : σ → Prop) (program : Program A α)
    (ends : α → σ → Prop) : Prop :=
  ∀ state, pre state → M.Safe contract ends program state

/-- What is kept by every change is kept by all of them. -/
theorem kept_of_steps {move : σ → σ → Prop} {assertion : σ → Prop}
    (keeps : ∀ before after, assertion before → move before after → assertion after)
    (holds : assertion before) (moves : ReflTransGen move before after) : assertion after := by
  induction moves with
  | refl => exact holds
  | tail _ last ih => exact keeps _ _ ih last

/-- An ended program. -/
theorem Triple.done {value : α} {pre : σ → Prop} (stands : M.Stands contract pre)
    (implies : ∀ state, pre state → ends value state) :
    M.Triple contract pre (.done value) ends := by
  intro state holds later moves
  have there := kept_of_steps stands.stable holds moves
  exact ⟨stands.always later there, implies later there⟩

/-- One action, which establishes the assertion in front of the rest of the program. -/
theorem Triple.act {action : A β} {next : β → Program A α} {pre : σ → Prop}
    {mid : β → σ → Prop} (stands : M.Stands contract pre)
    (again : ∀ before after, pre before → M.step action before none after → pre after)
    (answer : ∀ before value after, pre before → M.step action before (some value) after →
      contract.each action before value after ∧ mid value after)
    (rest : ∀ value, M.Triple contract (mid value) (next value) ends) :
    M.Triple contract pre (.act action next) ends := by
  intro state holds later moves
  have there : pre later := by
    refine kept_of_steps ?_ holds moves
    rintro before after held (moved | step)
    · exact stands.stable before after held moved
    · exact again before after held step
  refine ⟨stands.always later there, fun value after step => ?_⟩
  have achieved := answer later value after there step
  exact ⟨achieved.1, rest value after achieved.2⟩

/-- A safe program followed by others that are safe wherever it may have ended. -/
theorem Safe.bind {first : Program A β} {rest : β → Program A α} {mid : β → σ → Prop}
    {state : σ} (safe : M.Safe contract mid first state)
    (ended : ∀ value state, M.Safe contract mid (.done value) state →
      M.Safe contract ends (rest value) state) :
    M.Safe contract ends (first >>= rest) state := by
  induction first generalizing state with
  | done value => exact ended value state safe
  | act action next ih =>
    intro later moves
    have there := safe later moves
    refine ⟨there.1, fun value after step => ?_⟩
    have stepped := there.2 value after step
    exact ⟨stepped.1, ih value stepped.2⟩

/-- Two programs one after the other. -/
theorem Triple.bind {first : Program A β} {rest : β → Program A α} {pre : σ → Prop}
    {mid : β → σ → Prop} (one : M.Triple contract pre first mid)
    (two : ∀ value, M.Triple contract (mid value) (rest value) ends) :
    M.Triple contract pre (first >>= rest) ends :=
  fun state holds => (one state holds).bind fun value state ended =>
    two value state (Safe.result ended)

/-- A program whose first part may fail: the rest is run only if it succeeded. -/
theorem Triple.ensure {first rest : Program A Bool} {pre mid good : σ → Prop}
    (one : M.Triple contract pre first fun ok state => ok = true → mid state)
    (two : M.Triple contract mid rest fun ok state => ok = true → good state) :
    M.Triple contract pre (first.ensure rest) fun ok state => ok = true → good state := by
  intro state holds
  refine (one state holds).bind fun ok state ended => ?_
  cases ok with
  | false => exact fun later moves => ⟨(ended later moves).1, nofun⟩
  | true => exact two state (Safe.result ended rfl)

/-- A stronger assertion in front. -/
theorem Triple.strengthen {strong weak : σ → Prop} (triple : M.Triple contract weak program ends)
    (implies : ∀ state, strong state → weak state) : M.Triple contract strong program ends :=
  fun state holds => triple state (implies state holds)

end Machine

end Tarsnap.Lib
