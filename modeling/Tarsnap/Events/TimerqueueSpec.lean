import Tarsnap.Events.TimerRecords

/-!
# What the functions of the timer queue do

Each function succeeds unless memory for a pair fails, changes nothing in memory but the pair that
is added, deleted or whose time increases, and leaves a queue of the pairs that remain.
-/

open Tarsnap.Lib Tarsnap.Datastruct

namespace Tarsnap.Events

variable {φ : Type} {m : Memory φ} {Q : Timerqueue φ}

/-- The parts of a memory fault in a function of the queue that succeeds. -/
@[simp] theorem inQueue_ok {α : Type} (a : α) : inQueue (.ok a) = .ok a := rfl

/-- A queue is created, unless there is no memory. -/
theorem timerqueueInit_spec (m : Memory φ) : ∃ Q m', timerqueueInit m = .ok (Q, m') ∧
    placeless m' = placeless m ∧ (Reliable m → Q ≠ none ∧ Reliable m') ∧
    ∀ queue, Q = some queue → QueueValid m' queue ∧ queue.elems = [] := by
  unfold timerqueueInit
  have sound : ∀ m : Memory φ, Reliable m → m.attempt.1 = false ∧ Reliable m.attempt.2 :=
    fun _ => Reliable.attempt
  have failed : ∀ {m1 : Memory φ} {fate : Bool}, fate = true → (Reliable m → fate = false) →
      placeless m1 = placeless m → ∃ Q m', (Except.ok (none, m1) :
        Except PtrheapFault (Option (Timerqueue φ) × Memory φ)) = .ok (Q, m') ∧
      placeless m' = placeless m ∧ (Reliable m → Q ≠ none ∧ Reliable m') ∧
      ∀ queue, Q = some queue → QueueValid m' queue ∧ queue.elems = [] := by
    intro m1 fate fails succeeds same
    refine ⟨none, m1, rfl, same, fun reliable => ?_, fun queue absurdity => by cases absurdity⟩
    rw [succeeds reliable] at fails
    cases fails
  split_ifs with first second third
  · exact failed first (fun reliable => (sound m reliable).1) rfl
  · exact failed second (fun reliable => (sound _ (sound m reliable).2).1) rfl
  · exact failed third (fun reliable => (sound _ (sound _ (sound m reliable).2).2).1) rfl
  · obtain ⟨m', H, created, rest, perm, valid⟩ := PtrheapRecords.ptrheapCreate_spec
      (R := timerRecords φ) (m := m.attempt.2.attempt.2.attempt.2)
      (fun _ member => absurd member List.not_mem_nil) List.nodup_nil
    obtain ⟨same, _, fates⟩ := unplaced_iff.mp rest
    refine ⟨some H, m', ?_, same, fun reliable => ⟨Option.some_ne_none _, ?_⟩, ?_⟩
    · rw [ptrheapInit, created]
      rfl
    · unfold Reliable
      rw [fates]
      exact (sound _ (sound _ (sound m reliable).2).2).2
    · intro queue same
      cases same
      exact ⟨valid, List.perm_nil.mp perm⟩

/-- The queue with a pair that was added. -/
structure Added (m : Memory φ) (Q : Timerqueue φ) (tv : Timeval) (ptr r : Nat) (m' : Memory φ)
    (Q' : Timerqueue φ) : Prop where
  /-- The address was not used. -/
  new : m.objects r = none
  /-- The pair is in memory, and nothing else changed. -/
  memory : placeless m' = Function.update (placeless m) r (some (.queued tv none ptr))
  /-- The pair is in the queue. -/
  perm : Q'.elems.Perm (r :: Q.elems)

/-- A pair is added, unless there is no memory. -/
theorem timerqueueAdd_spec (valid : QueueValid m Q) (distinct : Q.elems.Nodup) (tv : Timeval)
    (ptr : Nat) : ∃ r m' Q', timerqueueAdd m Q tv ptr = .ok (r, m', Q') ∧ QueueValid m' Q' ∧
      (Reliable m → r ≠ none) ∧
      (r = none ∧ placeless m' = placeless m ∧ Q'.elems = Q.elems ∨
        ∃ pair, r = some pair ∧ Added m Q tv ptr pair m' Q') := by
  obtain ⟨pointer, m1, allocated, sound, failed | ⟨r, here, new, objects⟩⟩ :=
    alloc_cases m (.queued tv none ptr)
  · obtain ⟨null, objects⟩ := failed
    refine ⟨none, m1, Q, ?_, valid.keep distinct (fun r _ => by rw [objects]), ?_, .inl ?_⟩
    · rw [timerqueueAdd, allocated, null]
    · exact fun reliable => absurd null (sound reliable).1
    · refine ⟨rfl, ?_, rfl⟩
      funext id
      unfold placeless
      rw [objects]
  · have absent : r ∉ Q.elems := by
      intro member
      obtain ⟨_, _, _, there, _, _⟩ := valid.told distinct member
      rw [new] at there
      cases there
    have apart : ∀ other ∈ Q.elems, other ≠ r := by
      rintro other member rfl
      exact absent member
    have kept : ∀ other ∈ Q.elems, m1.attempt.2.objects other = m.objects other := by
      intro other member
      show m1.objects other = m.objects other
      rw [objects, Function.update_of_ne (apart other member)]
    have valid1 : QueueValid m1.attempt.2 Q := valid.keep distinct kept
    have there : m1.attempt.2.objects r = some (.queued tv none ptr) := by
      show m1.objects r = _
      rw [objects, Function.update_self]
    have memory1 : placeless m1.attempt.2 =
        Function.update (placeless m) r (some (.queued tv none ptr)) :=
      placeless_update objects
    cases fate : m1.attempt.1 with
    | true =>
      obtain ⟨m', freed, objects', _, _⟩ := Heap.free_ok there
      refine ⟨none, m', Q, ?_, ?_, ?_, .inl ⟨rfl, ?_, rfl⟩⟩
      · rw [timerqueueAdd, allocated, here]
        simp only [fate, ptrheapAdd, Bool.not_true, Bool.false_eq_true, if_false, ok_bind, freed,
          inQueue_ok]
        rfl
      · apply valid1.keep distinct
        intro other member
        rw [objects', Function.update_of_ne (apart other member)]
      · intro reliable
        have absurdity := (sound reliable).2.attempt.1
        rw [fate] at absurdity
        cases absurdity
      · rw [placeless_update objects', memory1, Function.update_idem]
        exact Function.update_eq_self_iff.mpr (placeless_none.mpr new).symm
    | false =>
      have live : (timerRecords φ).live ((timerRecords φ).rest m1.attempt.2) r := by
        refine ⟨tv, ptr, ?_⟩
        show placeless m1.attempt.2 r = _
        rw [memory1, Function.update_self]
      obtain ⟨m', Q', added, rest, perm, valid'⟩ :=
        PtrheapRecords.ptrheapAdd_spec valid1 live absent
      obtain ⟨same, _, _⟩ := unplaced_iff.mp rest
      refine ⟨some r, m', Q', ?_, valid', fun _ => Option.some_ne_none r, .inr ⟨r, rfl, ?_⟩⟩
      · rw [timerqueueAdd, allocated, here]
        simp only [fate, Bool.not_false, added, ok_bind]
        rfl
      · exact ⟨new, same.trans memory1, perm⟩

/-- The queue without a pair that was deleted. -/
structure Deleted (m : Memory φ) (Q : Timerqueue φ) (r : Nat) (m' : Memory φ)
    (Q' : Timerqueue φ) : Prop where
  /-- The pair is not in memory, and nothing else changed. -/
  memory : placeless m' = Function.update (placeless m) r none
  /-- The pair is not in the queue. -/
  perm : (r :: Q'.elems).Perm Q.elems

/-- A pair that was taken out of the heap is freed. -/
theorem freePair_spec {m1 : Memory φ} {Q' : Timerqueue φ} (distinct : Q.elems.Nodup) {r : Nat}
    {ptr : Nat} {tv : Timeval} (here : placeless m r = some (.queued tv none ptr))
    (rest : (timerRecords φ).rest m1 = (timerRecords φ).rest m) (valid1 : QueueValid m1 Q')
    (perm : (r :: Q'.elems).Perm Q.elems) : ∃ rc m', m1.objects r = some (.queued tv rc ptr) ∧
      m1.free (some r) = .ok m' ∧ QueueValid m' Q' ∧ Deleted m Q r m' Q' := by
  obtain ⟨same, _, _⟩ := unplaced_iff.mp rest
  obtain ⟨rc, there⟩ := placeless_queued.mp (same ▸ here)
  obtain ⟨m', freed, objects, _, _⟩ := Heap.free_ok there
  have distinct' : (r :: Q'.elems).Nodup := perm.nodup_iff.mpr distinct
  refine ⟨rc, m', there, freed, ?_, ?_, perm⟩
  · apply valid1.keep distinct'.of_cons
    intro other member
    have apart : other ≠ r := fun same => (List.nodup_cons.mp distinct').1 (same ▸ member)
    rw [objects, Function.update_of_ne apart]
  · rw [placeless_update objects, same]
    rfl

/-- A pair is deleted. -/
theorem timerqueueDelete_spec (valid : QueueValid m Q) (distinct : Q.elems.Nodup) {r : Nat}
    (member : r ∈ Q.elems) : ∃ m' Q', timerqueueDelete m Q r = .ok (m', Q') ∧ QueueValid m' Q' ∧
      Deleted m Q r m' Q' := by
  obtain ⟨tv, rc, ptr, there, here, place⟩ := valid.told distinct member
  obtain ⟨m1, Q', deleted, rest, perm, valid1⟩ := PtrheapRecords.ptrheapDelete_spec valid place
  obtain ⟨_, m', _, freed, valid', effect⟩ := freePair_spec distinct here rest valid1 perm
  refine ⟨m', Q', ?_, valid', effect⟩
  rw [timerqueueDelete, readPlace, readQueued_ok there]
  simp only [inQueue_ok, ok_bind, deleted, freed]
  rfl

/-- The time of a pair increases. -/
theorem timerqueueIncrease_spec (valid : QueueValid m Q) (distinct : Q.elems.Nodup) {r ptr : Nat}
    (member : r ∈ Q.elems) {old tv : Timeval} (here : placeless m r = some (.queued old none ptr))
    (later : old.key ≤ tv.key) : ∃ m' Q', timerqueueIncrease m Q r tv = .ok (m', Q') ∧
      QueueValid m' Q' ∧ Q'.elems.Perm Q.elems ∧
      placeless m' = Function.update (placeless m) r (some (.queued tv none ptr)) := by
  obtain ⟨tv', rc, ptr', there, here', place⟩ := valid.told distinct member
  rw [here] at here'
  cases here'
  obtain ⟨m1, written, objects, next, fates⟩ :=
    Heap.write_ok there (.queued tv (some rc) ptr)
  have memory1 : placeless m1 = Function.update (placeless m) r (some (.queued tv none ptr)) :=
    placeless_update objects
  have there1 : m1.objects r = some (.queued tv (some rc) ptr) := by
    rw [objects, Function.update_self]
  have adjusted : PtrheapRecords.Adjusted (timerRecords φ) m m1 Q rc := by
    refine ⟨?_, ?_, ?_⟩
    · intro other queued
      show IsQueued (placeless m1) other
      unfold IsQueued
      rw [memory1]
      by_cases same : other = r
      · rw [same, Function.update_self]
        exact ⟨tv, ptr, rfl⟩
      · rw [Function.update_of_ne same]
        exact valid.live other queued
    · intro i apart
      unfold PtrheapRecords.values
      apply Option.map_congr
      intro other at_i
      have different : other ≠ r := by
        rintro rfl
        exact apart ((List.getElem?_inj (List.getElem?_eq_some_iff.mp at_i).1 distinct).mp
          (at_i.trans place.symm))
      show timeOf (placeless m1 other) = timeOf (placeless m other)
      rw [memory1, Function.update_of_ne different]
    · intro other queued
      show placeOf m1 other = placeOf m other
      unfold placeOf
      by_cases same : other = r
      · rw [same, there1, there]
      · rw [objects, Function.update_of_ne same, next]
  have greater : (timerRecords φ).key ((timerRecords φ).rest m) r ≤
      (timerRecords φ).key ((timerRecords φ).rest m1) r := by
    show timeOf (placeless m r) ≤ timeOf (placeless m1 r)
    rw [here, memory1, Function.update_self]
    exact later
  obtain ⟨m', Q', increased, rest, perm, valid'⟩ :=
    PtrheapRecords.ptrheapIncrease_spec valid place adjusted greater
  refine ⟨m', Q', ?_, valid', perm, (unplaced_iff.mp rest).1.trans memory1⟩
  rw [timerqueueIncrease, readQueued_ok there, inQueue_ok, ok_bind]
  simp only [written, inQueue_ok, ok_bind, readPlace, readQueued_ok there1]
  exact increased

/-- A time is the least one in the queue, of some pair. -/
structure LeastPair (m : Memory φ) (Q : Timerqueue φ) (r ptr : Nat) (tv : Timeval) : Prop where
  /-- The pair is in the queue. -/
  member : r ∈ Q.elems
  /-- What the pair is. -/
  here : placeless m r = some (.queued tv none ptr)
  /-- No time is less. -/
  least : ∀ other ∈ Q.elems, tv.key ≤ timeOf (placeless m other)

/-- The pair at the top of the heap has the least time. -/
theorem top_spec (valid : QueueValid m Q) (distinct : Q.elems.Nodup) :
    ptrheapGetmin Q = none ∧ Q.elems = [] ∨ ∃ r ptr tv rc, ptrheapGetmin Q = some r ∧
      LeastPair m Q r ptr tv ∧ m.objects r = some (.queued tv rc ptr) := by
  have least := PtrheapRecords.ptrheapGetmin_spec valid
  cases top : ptrheapGetmin Q with
  | none =>
    rw [top] at least
    exact .inl ⟨rfl, least⟩
  | some r =>
    rw [top] at least
    obtain ⟨tv, rc, ptr, there, here, _⟩ := valid.told distinct least.1
    refine .inr ⟨r, ptr, tv, some rc, rfl, ⟨least.1, here, ?_⟩, there⟩
    intro other member
    have below : timeOf (placeless m r) ≤ timeOf (placeless m other) := least.2 other member
    rw [here] at below
    exact below

/-- The least time is found. -/
theorem timerqueueGetmin_spec (valid : QueueValid m Q) (distinct : Q.elems.Nodup) :
    timerqueueGetmin m Q = .ok none ∧ Q.elems = [] ∨
      ∃ r ptr tv, timerqueueGetmin m Q = .ok (some tv) ∧ LeastPair m Q r ptr tv := by
  unfold timerqueueGetmin
  rcases top_spec valid distinct with ⟨top, empty⟩ | ⟨r, ptr, tv, rc, top, least, there⟩
  · rw [top]
    exact .inl ⟨rfl, empty⟩
  · refine .inr ⟨r, ptr, tv, ?_, least⟩
    rw [top]
    simp only [readQueued_ok there, inQueue_ok, ok_bind]
    rfl

/-- A pair with the least time is removed, unless all times are later. -/
theorem timerqueueGetptr_spec (valid : QueueValid m Q) (distinct : Q.elems.Nodup)
    (tv : Timeval) : timerqueueGetptr m Q tv = .ok (none, m, Q) ∧
        (∀ r ∈ Q.elems, tv.key < timeOf (placeless m r)) ∨
      ∃ r ptr least m' Q', timerqueueGetptr m Q tv = .ok (some ptr, m', Q') ∧ QueueValid m' Q' ∧
        LeastPair m Q r ptr least ∧ least.key ≤ tv.key ∧ Deleted m Q r m' Q' := by
  unfold timerqueueGetptr
  rcases top_spec valid distinct with ⟨top, empty⟩ | ⟨r, ptr, time, rc, top, least, there⟩
  · rw [top, empty]
    exact .inl ⟨rfl, fun r member => absurd member List.not_mem_nil⟩
  · rw [top]
    simp only [readQueued_ok there, inQueue_ok, ok_bind]
    by_cases late : tvcmp time tv > 0
    · rw [if_pos late]
      refine .inl ⟨rfl, fun other member => ?_⟩
      exact lt_of_lt_of_le ((tvcmp_spec time tv).2.mp late) (least.least other member)
    · rw [if_neg late]
      obtain ⟨m1, Q', deleted, rest, perm, valid1⟩ := PtrheapRecords.ptrheapDelete_spec valid top
      obtain ⟨_, m', there1, freed, valid', effect⟩ :=
        freePair_spec distinct least.here rest valid1 perm
      refine .inr ⟨r, ptr, time, m', Q', ?_, valid', least, ?_, effect⟩
      · rw [ptrheapDeletemin, deleted, ok_bind]
        simp only [readQueued_ok there1, inQueue_ok, ok_bind, freed]
        rfl
      · exact not_lt.mp fun less => late ((tvcmp_spec time tv).2.mpr less)

end Tarsnap.Events
