import Tarsnap.Events.TimerqueueSpec

/-!
# The timers that are pending

Each timer that is pending has three objects in memory: its event, its timer record, and a pair in
the timer queue with the time when it expires. A ledger lists the timers and says what else is in
memory; what the functions of the timers do to memory is said by what they do to the ledger.
-/

open Tarsnap.Lib Tarsnap.Datastruct

namespace Tarsnap.Events

/-- A timer that is pending. -/
structure Entry (φ : Type) where
  /-- The address of the timer record, which identifies the timer. -/
  t : Nat
  /-- The address of the pair in the queue. -/
  q : Nat
  /-- The address of the event. -/
  r : Nat
  /-- The function to be run. -/
  func : φ
  /-- When the timer was registered or reset. -/
  since : Timeval
  /-- The time after which the function is to be run. -/
  orig : Timeval

variable {φ : Type}

/-- When a timer expires. -/
def Entry.deadline (e : Entry φ) : Timeval := e.since.after e.orig

/-- Where the objects of a timer are. -/
def Entry.addresses (e : Entry φ) : List Nat := [e.t, e.q, e.r]

/-- The timers that are pending, and the other objects in memory. -/
structure Ledger (φ : Type) where
  /-- The timers. -/
  timers : List (Entry φ)
  /-- The other objects. -/
  others : Nat → Option (Object φ)

/-- Where the objects of the timers are. -/
def Ledger.addresses (L : Ledger φ) : List Nat := L.timers.flatMap Entry.addresses

/-- The objects of a timer, apart from the place of the pair in the queue. -/
structure Recorded (objects : Nat → Option (Object φ)) (e : Entry φ) : Prop where
  /-- The timer record. -/
  timer : objects e.t = some (.timer e.r (some e.q) e.orig)
  /-- The pair in the queue. -/
  pair : objects e.q = some (.queued e.deadline none e.t)
  /-- The event. -/
  event : objects e.r = some (.event e.func)

/-- What is in memory, apart from places, is what the ledger says. -/
structure Holds (objects : Nat → Option (Object φ)) (L : Ledger φ) : Prop where
  /-- No two objects are at one address. -/
  distinct : L.addresses.Nodup
  /-- The objects of the timers are there. -/
  recorded : ∀ e ∈ L.timers, Recorded objects e
  /-- The other objects are there, and nothing else. -/
  elsewhere : ∀ id ∉ L.addresses, objects id = L.others id
  /-- The others are not where the timers are. -/
  apart : ∀ id ∈ L.addresses, L.others id = none

variable {objects objects' : Nat → Option (Object φ)} {others others' : Nat → Option (Object φ)}
  {L : Ledger φ} {e : Entry φ} {timers rest : List (Entry φ)}

/-- The addresses of one timer and of more. -/
theorem mem_addresses_cons {id : Nat} : id ∈ (⟨e :: rest, others⟩ : Ledger φ).addresses ↔
    id ∈ e.addresses ∨ id ∈ (⟨rest, others⟩ : Ledger φ).addresses := by
  unfold Ledger.addresses
  rw [List.flatMap_cons, List.mem_append]

/-- The addresses of a timer in the ledger. -/
theorem mem_addresses (member : e ∈ L.timers) {id : Nat} (own : id ∈ e.addresses) :
    id ∈ L.addresses :=
  List.mem_flatMap.mpr ⟨e, member, own⟩

/-- The addresses of the pairs are some of those of the timers. -/
theorem pairs_sublist (timers : List (Entry φ)) :
    (timers.map Entry.q).Sublist (timers.flatMap Entry.addresses) := by
  induction timers with
  | nil => exact List.Sublist.slnil
  | cons e rest ih =>
    rw [List.map_cons, List.flatMap_cons]
    exact .cons _ (.cons_cons _ (.cons _ ih))

/-- A timer record, a pair and an event are at the addresses of a timer. -/
theorem mem_own (e : Entry φ) : e.t ∈ e.addresses ∧ e.q ∈ e.addresses ∧ e.r ∈ e.addresses := by
  simp [Entry.addresses]

/-- The objects of a timer are not changed elsewhere. -/
theorem Recorded.keep (recorded : Recorded objects e)
    (same : ∀ id ∈ e.addresses, objects' id = objects id) : Recorded objects' e where
  timer := (same _ (mem_own e).1).trans recorded.timer
  pair := (same _ (mem_own e).2.1).trans recorded.pair
  event := (same _ (mem_own e).2.2).trans recorded.event

/-- There is something at every address of the timers. -/
theorem Holds.filled (holds : Holds objects L) {id : Nat} (member : id ∈ L.addresses) :
    objects id ≠ none := by
  obtain ⟨e, listed, own⟩ := List.mem_flatMap.mp member
  obtain ⟨timer, pair, event⟩ := holds.recorded e listed
  simp only [Entry.addresses, List.mem_cons, List.not_mem_nil, or_false] at own
  rcases own with rfl | rfl | rfl
  · rw [timer]
    exact Option.some_ne_none _
  · rw [pair]
    exact Option.some_ne_none _
  · rw [event]
    exact Option.some_ne_none _

/-- Nothing of the timers is where nothing is. -/
theorem Holds.absent (holds : Holds objects L) {id : Nat} (nothing : objects id = none) :
    id ∉ L.addresses :=
  fun member => holds.filled member nothing

/-- The order of the timers does not matter. -/
theorem Holds.perm (holds : Holds objects ⟨timers, others⟩) (perm : timers.Perm rest) :
    Holds objects ⟨rest, others⟩ where
  distinct := (perm.flatMap_right Entry.addresses).nodup_iff.mp holds.distinct
  recorded e member := holds.recorded e (perm.mem_iff.mpr member)
  elsewhere id absent := holds.elsewhere id fun member =>
    absent ((perm.flatMap_right Entry.addresses).mem_iff.mp member)
  apart id member := holds.apart id ((perm.flatMap_right Entry.addresses).mem_iff.mpr member)

/-- A timer is gone: what is at its addresses now are others' objects, or nothing. -/
theorem Holds.leave (holds : Holds objects ⟨e :: rest, others⟩)
    (same : ∀ id ∉ e.addresses, objects' id = objects id ∧ others' id = others id)
    (handed : ∀ id ∈ e.addresses, objects' id = others' id) : Holds objects' ⟨rest, others'⟩ := by
  have whole : (e.addresses ++ rest.flatMap Entry.addresses).Nodup := holds.distinct
  have outside : ∀ id ∈ rest.flatMap Entry.addresses, id ∉ e.addresses := by
    intro id member own
    exact (List.nodup_append.mp whole).2.2 id own id member rfl
  refine ⟨(List.nodup_append.mp whole).2.1, ?_, ?_, ?_⟩
  · intro other member
    apply (holds.recorded other (List.mem_cons_of_mem _ member)).keep
    intro id own
    exact (same id (outside id (List.mem_flatMap.mpr ⟨other, member, own⟩))).1
  · intro id absent
    by_cases own : id ∈ e.addresses
    · exact handed id own
    · have before : objects id = others id :=
        holds.elsewhere id fun member => (mem_addresses_cons.mp member).elim own absent
      exact (same id own).1.trans (before.trans (same id own).2.symm)
  · intro id member
    exact (same id (outside id member)).2.trans
      (holds.apart id (mem_addresses_cons.mpr (.inr member)))

/-- A timer is new, at addresses where nothing was. -/
theorem Holds.enter (holds : Holds objects ⟨rest, others⟩) (own : e.addresses.Nodup)
    (new : ∀ id ∈ e.addresses, objects id = none)
    (same : ∀ id ∉ e.addresses, objects' id = objects id) (recorded : Recorded objects' e) :
    Holds objects' ⟨e :: rest, others⟩ := by
  have outside : ∀ id ∈ rest.flatMap Entry.addresses, id ∉ e.addresses := fun id member here =>
    holds.absent (new id here) member
  refine ⟨?_, ?_, ?_, ?_⟩
  · exact List.nodup_append.mpr ⟨own, holds.distinct, fun id here other member equal =>
      outside other member (equal ▸ here)⟩
  · intro other member
    rcases List.mem_cons.mp member with rfl | old
    · exact recorded
    · apply (holds.recorded other old).keep
      intro id there
      exact same id (outside id (List.mem_flatMap.mpr ⟨other, old, there⟩))
  · intro id absent
    have parts := not_or.mp fun member => absent (mem_addresses_cons.mpr member)
    rw [same id parts.1]
    exact holds.elsewhere id parts.2
  · intro id member
    rcases mem_addresses_cons.mp member with here | old
    · rw [← new id here]
      exact (holds.elsewhere id (holds.absent (new id here))).symm
    · exact holds.apart id old

end Tarsnap.Events
