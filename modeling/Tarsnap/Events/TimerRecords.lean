import Tarsnap.Events.Timer

/-!
# The records of a timer queue

The pairs of a timer queue are records of a pointer heap, ordered by their times. What is in memory
apart from the places that were told to the pairs is not changed by the heap, so that what the
functions of the queue do is said of the memory without places.
-/

open Tarsnap.Lib Tarsnap.Datastruct

namespace Tarsnap.Events

variable {φ : Type}

/-- An object without the place that it was told. -/
def Object.placeless : Object φ → Object φ
  | .queued tv _ ptr => .queued tv none ptr
  | object => object

/-- The memory without places. -/
def placeless (m : Memory φ) (id : Nat) : Option (Object φ) := (m.objects id).map Object.placeless

/-- The time of a pair. -/
def timeOf : Option (Object φ) → Int ×ₗ Int
  | some (.queued tv _ _) => tv.key
  | _ => toLex (0, 0)

/-- The place that a pair was told last; before it was told any, one that no pair has. -/
def placeOf (m : Memory φ) (r : Nat) : Nat :=
  match m.objects r with
  | some (.queued _ (some rc) _) => rc
  | _ => m.next

/-- A pair of a time and a pointer is at an address. -/
def IsQueued (objects : Nat → Option (Object φ)) (r : Nat) : Prop :=
  ∃ tv ptr, objects r = some (.queued tv none ptr)

/-- An object is a pair if it is one without its place. -/
theorem placeless_queued {m : Memory φ} {r ptr : Nat} {tv : Timeval} :
    placeless m r = some (.queued tv none ptr) ↔ ∃ rc, m.objects r = some (.queued tv rc ptr) := by
  unfold placeless
  cases m.objects r with
  | none => simp
  | some object => cases object <;> simp [Object.placeless]

/-- Other objects have no place. -/
theorem placeless_other {m : Memory φ} {id : Nat} {object : Object φ}
    (other : ∀ tv rc ptr, object ≠ .queued tv rc ptr) :
    placeless m id = some object ↔ m.objects id = some object := by
  unfold placeless
  cases m.objects id with
  | none => simp
  | some there =>
    cases there with
    | queued tv rc ptr =>
      have first := other tv none ptr
      have second := other tv rc ptr
      simp only [Option.map_some, Object.placeless, Option.some.injEq]
      exact ⟨fun same => absurd same.symm first, fun same => absurd same.symm second⟩
    | event => rfl
    | timer => rfl

/-- A timer has no place. -/
theorem placeless_timer {m : Memory φ} {id r : Nat} {cookie : Option Nat} {tvOrig : Timeval} :
    placeless m id = some (.timer r cookie tvOrig) ↔
      m.objects id = some (.timer r cookie tvOrig) :=
  placeless_other fun _ _ _ absurdity => by cases absurdity

/-- An event has no place. -/
theorem placeless_event {m : Memory φ} {id : Nat} {func : φ} :
    placeless m id = some (.event func) ↔ m.objects id = some (.event func) :=
  placeless_other fun _ _ _ absurdity => by cases absurdity

/-- Nothing is there without places if nothing is there. -/
theorem placeless_none {m : Memory φ} {id : Nat} : placeless m id = none ↔ m.objects id = none :=
  Option.map_eq_none_iff

/-- A pair is read. -/
theorem readQueued_ok {m : Memory φ} {r ptr : Nat} {tv : Timeval} {rc : Option Nat}
    (there : m.objects r = some (.queued tv rc ptr)) : readQueued m r = .ok (tv, rc, ptr) := by
  unfold readQueued
  rw [Heap.read_ok there]

/-- A timer is read. -/
theorem readTimer_ok {m : Memory φ} {t r : Nat} {cookie : Option Nat} {tvOrig : Timeval}
    (there : m.objects t = some (.timer r cookie tvOrig)) :
    readTimer m t = .ok (r, cookie, tvOrig) := by
  unfold readTimer
  rw [Heap.read_ok there]

/-- An object is changed in the memory without places. -/
theorem placeless_update {m m' : Memory φ} {id : Nat} {value : Option (Object φ)}
    (objects : m'.objects = Function.update m.objects id value) :
    placeless m' = Function.update (placeless m) id (value.map Object.placeless) := by
  funext other
  unfold placeless
  rw [objects]
  by_cases same : other = id
  · rw [same, Function.update_self, Function.update_self]
  · rw [Function.update_of_ne same, Function.update_of_ne same]

/-- What the heap of a queue does not change: the memory without places, the next address and what
fails. -/
abbrev Unplaced (φ : Type) := (Nat → Option (Object φ)) × Nat × List Bool

/-- The pairs are records of a pointer heap. -/
def timerRecords (φ : Type) : PtrheapRecords (timerCallbacks φ) (Unplaced φ) (Int ×ₗ Int) where
  rest m := (placeless m, m.next, m.fates)
  live t r := IsQueued t.1 r
  key t r := timeOf (t.1 r)
  cookie := placeOf
  compares {m x y} := by
    rintro ⟨tvx, ptrx, herex⟩ ⟨tvy, ptry, herey⟩
    obtain ⟨rcx, therex⟩ := placeless_queued.mp herex
    obtain ⟨rcy, therey⟩ := placeless_queued.mp herey
    refine ⟨tvcmp tvx tvy, ?_, ?_⟩
    · show compar m x y = _
      rw [compar, readQueued_ok therex, readQueued_ok therey]
      rfl
    · have keyx : timeOf (placeless m x) = tvx.key := by
        rw [show placeless m x = _ from herex, timeOf]
      have keyy : timeOf (placeless m y) = tvy.key := by
        rw [show placeless m y = _ from herey, timeOf]
      dsimp only
      rw [keyx, keyy]
      exact tvcmp_spec tvx tvy
  notifies {setreccookie} told {m x} := by
    rintro ⟨tv, ptr, here⟩ rc
    cases told
    obtain ⟨rc0, there⟩ := placeless_queued.mp here
    obtain ⟨m', written, objects, next, fates⟩ := Heap.write_ok there (.queued tv (some rc) ptr)
    refine ⟨m', ?_, ?_, ?_⟩
    · show Events.setreccookie m x rc = _
      rw [Events.setreccookie, readQueued_ok there]
      exact written
    · show (placeless m', m'.next, m'.fates) = (placeless m, m.next, m.fates)
      rw [placeless_update objects, next, fates]
      congr 1
      exact Function.update_eq_self_iff.mpr here.symm
    · funext other
      unfold placeOf
      rw [objects, next]
      by_cases same : other = x
      · rw [same, Function.update_self, Function.update_self]
      · rw [Function.update_of_ne same, Function.update_of_ne same]

/-- The pairs that are in the heap of a queue. -/
abbrev QueueValid (m : Memory φ) (Q : Timerqueue φ) : Prop := (timerRecords φ).Valid m Q

variable {m m' : Memory φ} {Q Q' : Timerqueue φ}

/-- The memory is the same except for places. -/
theorem unplaced_iff :
    (timerRecords φ).rest m' = (timerRecords φ).rest m ↔
      placeless m' = placeless m ∧ m'.next = m.next ∧ m'.fates = m.fates := by
  show (placeless m', m'.next, m'.fates) = (placeless m, m.next, m.fates) ↔ _
  rw [Prod.mk.injEq, Prod.mk.injEq]

/-- There are fewer pairs than addresses. -/
theorem QueueValid.length_le (valid : QueueValid m Q) (distinct : Q.elems.Nodup) :
    Q.elems.length ≤ m.next := by
  have below : Q.elems ⊆ List.range m.next := by
    intro r member
    obtain ⟨tv, ptr, here⟩ := valid.live r member
    obtain ⟨rc, there⟩ := placeless_queued.mp here
    exact List.mem_range.mpr (Heap.lt_next there)
  have fewer := (List.subperm_of_subset distinct below).length_le
  rwa [List.length_range] at fewer

/-- A pair in the queue was told its place. -/
theorem QueueValid.told (valid : QueueValid m Q) (distinct : Q.elems.Nodup) {r : Nat}
    (member : r ∈ Q.elems) : ∃ tv rc ptr, m.objects r = some (.queued tv (some rc) ptr) ∧
      placeless m r = some (.queued tv none ptr) ∧ Q.elems[rc]? = some r := by
  obtain ⟨tv, ptr, here⟩ := valid.live r member
  obtain ⟨place, there⟩ := placeless_queued.mp here
  have found : Q.elems[placeOf m r]? = some r := valid.found rfl member
  cases place with
  | some rc =>
    have told : placeOf m r = rc := by
      unfold placeOf
      rw [there]
    exact ⟨tv, rc, ptr, there, here, told ▸ found⟩
  | none =>
    have untold : placeOf m r = m.next := by
      unfold placeOf
      rw [there]
    have inside : m.next < Q.elems.length := by
      rw [untold] at found
      exact (List.getElem?_eq_some_iff.mp found).1
    have fewer := valid.length_le distinct
    omega

/-- What is in the queue is not changed by anything else. -/
theorem QueueValid.keep (valid : QueueValid m Q) (distinct : Q.elems.Nodup)
    (same : ∀ r ∈ Q.elems, m'.objects r = m.objects r) : QueueValid m' Q := by
  have unchanged : ∀ r ∈ Q.elems, placeless m' r = placeless m r := by
    intro r member
    unfold placeless
    rw [same r member]
  refine ⟨valid.callbacks, ?_, ?_, ?_⟩
  · intro r member
    show IsQueued (placeless m') r
    unfold IsQueued
    rw [unchanged r member]
    exact valid.live r member
  · intro told i within r there
    have member := List.mem_of_getElem? there
    obtain ⟨tv, rc, ptr, here, _, _⟩ := valid.told distinct member
    have place : placeOf m r = i := valid.placed told i within r there
    show placeOf m' r = i
    rw [← place]
    unfold placeOf
    rw [same r member, here]
  · have values : (timerRecords φ).values ((timerRecords φ).rest m') Q.elems =
        (timerRecords φ).values ((timerRecords φ).rest m) Q.elems := by
      funext i
      unfold PtrheapRecords.values
      apply Option.map_congr
      intro r there
      show timeOf (placeless m' r) = timeOf (placeless m r)
      rw [unchanged r (List.mem_of_getElem? there)]
    rw [values]
    exact valid.ordered

/-- No step that may fail does. -/
def Reliable (m : Memory φ) : Prop := ∀ fate ∈ m.fates, fate = false

/-- A step that may fail doesn't. -/
theorem Reliable.attempt (reliable : Reliable m) :
    m.attempt.1 = false ∧ Reliable m.attempt.2 := by
  unfold Heap.attempt Reliable
  cases fates : m.fates with
  | nil => exact ⟨rfl, fun fate member => absurd member (List.not_mem_nil)⟩
  | cons fate rest =>
    refine ⟨reliable fate (fates ▸ List.mem_cons_self), fun other member => ?_⟩
    exact reliable other (fates ▸ List.mem_cons_of_mem fate member)

/-- What an allocation does: it fails, or there is an object at an address that was not used. -/
theorem alloc_cases (m : Memory φ) (object : Object φ) :
    ∃ pointer m', m.alloc object = (pointer, m') ∧ (Reliable m → pointer ≠ none ∧ Reliable m') ∧
      (pointer = none ∧ m'.objects = m.objects ∨ ∃ id, pointer = some id ∧ m.objects id = none ∧
        m'.objects = Function.update m.objects id (some object)) := by
  have sound : Reliable m → m.attempt.1 = false ∧ Reliable m.attempt.2 := Reliable.attempt
  unfold Heap.alloc
  cases fate : m.attempt.1 with
  | true =>
    refine ⟨none, _, if_pos rfl, fun reliable => ?_, .inl ⟨rfl, rfl⟩⟩
    have absurdity := (sound reliable).1
    rw [fate] at absurdity
    cases absurdity
  | false =>
    refine ⟨some m.next, _, if_neg Bool.false_ne_true, fun reliable => ?_, .inr ?_⟩
    · exact ⟨Option.some_ne_none _, (sound reliable).2⟩
    · exact ⟨m.next, rfl, m.unused _ (Nat.le_refl _), rfl⟩

end Tarsnap.Events
