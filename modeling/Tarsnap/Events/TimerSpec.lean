import Tarsnap.Events.TimerLedger

/-!
# What the functions of the timers do

Between two calls, the queue has the pairs of the timers that are pending, and each of these was
started before now. A function that fails leaves the ledger as it was, and so leaves no object
behind. A timer is never reset to an earlier time, as the clock does not go back.
-/

open Tarsnap.Lib Tarsnap.Datastruct

namespace Tarsnap.Events

variable {φ : Type}

/-- What the memory and the queue of the timers are between two calls. -/
structure TimersInv (T : Timers φ) (L : Ledger φ) (now : Timeval) : Prop where
  /-- What is in memory, apart from places. -/
  holds : Holds (placeless T.m) L
  /-- The queue has the pairs of the timers. -/
  queue : ∀ Q, T.Q = some Q → QueueValid T.m Q ∧ Q.elems.Perm (L.timers.map Entry.q)
  /-- There are no timers before there is a queue. -/
  without : T.Q = none → L.timers = []
  /-- The timers were started before now. -/
  started : ∀ e ∈ L.timers, e.since.Normal ∧ e.orig.Normal ∧ e.since.key ≤ now.key

section Clock

/-- The clock shows a time that is not before an earlier one, if it shows any. -/
def Ticks (now : Timeval) (clock : Option Timeval) : Prop :=
  ∀ tv, clock = some tv → tv.Normal ∧ now.key ≤ tv.key

/-- The time after the clock was read. -/
def lastSeen (now : Timeval) (clock : Option Timeval) : Timeval := clock.getD now

/-- Time passes. -/
theorem Ticks.le {now : Timeval} {clock : Option Timeval} (ticks : Ticks now clock) :
    now.key ≤ (lastSeen now clock).key := by
  cases clock with
  | none => exact le_refl _
  | some tv => exact (ticks tv rfl).2

/-- The sum of two times. -/
theorem Timeval.after_spec {tv tdelta : Timeval} (normal : tv.Normal) (normal' : tdelta.Normal) :
    (tv.after tdelta).Normal ∧ (tv.after tdelta).micros = tv.micros + tdelta.micros := by
  obtain ⟨low, high⟩ := normal
  obtain ⟨low', high'⟩ := normal'
  unfold Timeval.after Timeval.Normal Timeval.micros
  split_ifs
  · constructor
    · dsimp only
      omega
    · dsimp only
      omega
  · constructor
    · dsimp only
      omega
    · dsimp only
      omega

/-- A timer that is started later expires later. -/
theorem Timeval.after_mono {tv tv' tdelta : Timeval} (normal : tv.Normal) (normal' : tv'.Normal)
    (delta : tdelta.Normal) (later : tv.key ≤ tv'.key) :
    (tv.after tdelta).key ≤ (tv'.after tdelta).key := by
  obtain ⟨sum, micros⟩ := Timeval.after_spec normal delta
  obtain ⟨sum', micros'⟩ := Timeval.after_spec normal' delta
  rw [Timeval.key_le_iff sum sum', micros, micros']
  have order := (Timeval.key_le_iff normal normal').mp later
  omega

/-- The time that remains until a deadline. -/
theorem remaining_spec {tv tnow : Timeval} (normal : tv.Normal) (normal' : tnow.Normal) :
    (remaining tv tnow).Normal ∧
      (remaining tv tnow).micros = max 0 (tv.micros - tnow.micros) := by
  obtain ⟨low, high⟩ := normal
  obtain ⟨low', high'⟩ := normal'
  unfold remaining Timeval.Normal Timeval.micros
  split_ifs
  · constructor
    · decide
    · dsimp only
      omega
  · constructor
    · dsimp only
      omega
    · dsimp only
      omega
  · constructor
    · dsimp only
      omega
    · dsimp only
      omega

end Clock

section Invariant

variable {T : Timers φ} {L : Ledger φ} {now : Timeval}

/-- The deadlines of the timers are normal times. -/
theorem TimersInv.normal (inv : TimersInv T L now) {e : Entry φ} (member : e ∈ L.timers) :
    e.deadline.Normal := by
  obtain ⟨since, orig, _⟩ := inv.started e member
  exact (Timeval.after_spec since orig).1

/-- No pair is twice in the queue. -/
theorem TimersInv.distinct (inv : TimersInv T L now) {Q : Timerqueue φ} (queue : T.Q = some Q) :
    Q.elems.Nodup :=
  (inv.queue Q queue).2.nodup_iff.mpr ((pairs_sublist L.timers).nodup inv.holds.distinct)

/-- There is a queue if there are timers. -/
theorem TimersInv.created (inv : TimersInv T L now) {e : Entry φ} (member : e ∈ L.timers) :
    ∃ Q, T.Q = some Q := by
  cases queue : T.Q with
  | none =>
    rw [inv.without queue] at member
    cases member
  | some Q => exact ⟨Q, rfl⟩

/-- A pair in the queue is that of a timer. -/
theorem TimersInv.pair (inv : TimersInv T L now) {Q : Timerqueue φ} (queue : T.Q = some Q)
    {r : Nat} (member : r ∈ Q.elems) : ∃ e ∈ L.timers, e.q = r ∧ Recorded (placeless T.m) e := by
  obtain ⟨e, listed, same⟩ := List.mem_map.mp ((inv.queue Q queue).2.mem_iff.mp member)
  exact ⟨e, listed, same, inv.holds.recorded e listed⟩

/-- The pair of a timer is in the queue. -/
theorem TimersInv.queued (inv : TimersInv T L now) {Q : Timerqueue φ} (queue : T.Q = some Q)
    {e : Entry φ} (member : e ∈ L.timers) : e.q ∈ Q.elems :=
  (inv.queue Q queue).2.mem_iff.mpr (List.mem_map_of_mem member)

/-- The deadline of a timer is in its pair. -/
theorem Recorded.time {objects : Nat → Option (Object φ)} {e : Entry φ}
    (recorded : Recorded objects e) : timeOf (objects e.q) = e.deadline.key := by
  rw [recorded.pair, timeOf]

/-- The ledger goes on to be right when memory is the same apart from places. -/
theorem TimersInv.same (inv : TimersInv T L now) {m' : Memory φ} {Q' : Timerqueue φ}
    (memory : placeless m' = placeless T.m) (valid : QueueValid m' Q')
    (perm : Q'.elems.Perm (L.timers.map Entry.q)) : TimersInv ⟨m', some Q'⟩ L now where
  holds := memory ▸ inv.holds
  queue Q queue := by
    cases queue
    exact ⟨valid, perm⟩
  without absurdity := by cases absurdity
  started := inv.started

/-- The ledger goes on to be right when steps failed that change no object. -/
theorem TimersInv.unchanged (inv : TimersInv T L now) {m' : Memory φ}
    (objects : m'.objects = T.m.objects) : TimersInv { T with m := m' } L now where
  holds := by
    have memory : placeless m' = placeless T.m := by
      funext id
      unfold placeless
      rw [objects]
    exact memory ▸ inv.holds
  queue Q queue := by
    have distinct := inv.distinct queue
    obtain ⟨valid, perm⟩ := inv.queue Q queue
    exact ⟨valid.keep distinct (fun r _ => by rw [objects]), perm⟩
  without := inv.without
  started := inv.started

/-- The ledger goes on to be right as time passes. -/
theorem TimersInv.pass (inv : TimersInv T L now) {later : Timeval} (order : now.key ≤ later.key) :
    TimersInv T L later where
  holds := inv.holds
  queue := inv.queue
  without := inv.without
  started e member := by
    obtain ⟨since, orig, before⟩ := inv.started e member
    exact ⟨since, orig, before.trans order⟩

end Invariant

section Operations

variable {T : Timers φ} {L : Ledger φ} {now : Timeval}

/-- The queue is created when it is first needed. -/
theorem createQueue_spec (inv : TimersInv T L now) : ∃ created T',
    createQueue T = .ok (created, T') ∧ TimersInv T' L now ∧
      (Reliable T.m → created = true ∧ Reliable T'.m) ∧
    (created = true → ∃ Q, T'.Q = some Q) := by
  unfold createQueue
  cases queue : T.Q with
  | some Q => exact ⟨true, T, rfl, inv, fun reliable => ⟨rfl, reliable⟩, fun _ => ⟨Q, queue⟩⟩
  | none =>
    obtain ⟨Q, m', created, memory, sound, valid⟩ := timerqueueInit_spec T.m
    have empty : L.timers = [] := inv.without queue
    cases Q with
    | none =>
      refine ⟨false, ⟨m', none⟩, ?_, ⟨memory ▸ inv.holds, ?_, fun _ => empty, inv.started⟩,
        ?_, fun absurdity => by cases absurdity⟩
      · simp only [created, ok_bind]
        rfl
      · intro Q absurdity
        cases absurdity
      · exact fun reliable => absurd rfl (sound reliable).1
    | some Q =>
      obtain ⟨valid, none⟩ := valid Q rfl
      have perm : Q.elems.Perm (L.timers.map Entry.q) := by
        rw [none, empty]
        exact .refl _
      refine ⟨!m'.attempt.1, ⟨m'.attempt.2, some Q⟩, ?_,
        (inv.same memory valid perm).unchanged rfl, ?_, fun _ => ⟨Q, rfl⟩⟩
      · simp only [created, ok_bind]
        rfl
      · intro reliable
        obtain ⟨succeeds, reliable'⟩ := (sound reliable).2.attempt
        rw [succeeds]
        exact ⟨rfl, reliable'⟩

/-- A timer record and an event that were not put to use are freed. -/
theorem freeRecords_spec {m : Memory φ} {r t : Nat} {record event : Object φ} (apart : r ≠ t)
    (atT : m.objects t = some record) (atR : m.objects r = some event) :
    ∃ m1 m2, m.free (some t) = .ok m1 ∧ eventsFreerec m1 r = .ok m2 ∧
      m2.objects = Function.update (Function.update m.objects t none) r none := by
  obtain ⟨m1, freed, objects, _, _⟩ := Heap.free_ok atT
  have still : m1.objects r = some event := by
    rw [objects, Function.update_of_ne apart]
    exact atR
  obtain ⟨m2, freed', objects', _, _⟩ := Heap.free_ok still
  exact ⟨m1, m2, freed, freed', objects' ▸ objects ▸ rfl⟩

/-- The memory with a new event and a new timer record that is not yet in the queue. -/
structure Packaged (T : Timers φ) (m : Memory φ) (r t : Nat) (func : φ) (timeo : Timeval) :
    Prop where
  /-- The objects are two. -/
  apart : t ≠ r
  /-- The address of the event was not used. -/
  newR : T.m.objects r = none
  /-- The address of the timer record was not used. -/
  newT : T.m.objects t = none
  /-- What is in memory. -/
  objects : m.objects = Function.update (Function.update T.m.objects r (some (.event func))) t
    (some (.timer r none timeo))

section Packaged

variable {m : Memory φ} {r t : Nat} {func : φ} {timeo : Timeval}

/-- The timer record is there. -/
theorem Packaged.atT (packaged : Packaged T m r t func timeo) :
    m.objects t = some (.timer r none timeo) := by
  rw [packaged.objects, Function.update_self]

/-- The event is there. -/
theorem Packaged.atR (packaged : Packaged T m r t func timeo) :
    m.objects r = some (.event func) := by
  rw [packaged.objects, Function.update_of_ne packaged.apart.symm, Function.update_self]

/-- The other objects are as before. -/
theorem Packaged.others (packaged : Packaged T m r t func timeo) {id : Nat} (notT : id ≠ t)
    (notR : id ≠ r) : m.objects id = T.m.objects id := by
  rw [packaged.objects, Function.update_of_ne notT, Function.update_of_ne notR]

/-- The other objects are as before, apart from places. -/
theorem Packaged.placeless (packaged : Packaged T m r t func timeo) {id : Nat} (notT : id ≠ t)
    (notR : id ≠ r) : placeless m id = placeless T.m id := by
  unfold Events.placeless
  rw [packaged.others notT notR]

/-- The new objects are not in the queue. -/
theorem Packaged.outside (packaged : Packaged T m r t func timeo) (inv : TimersInv T L now)
    {Q : Timerqueue φ} (queue : T.Q = some Q) {other : Nat} (member : other ∈ Q.elems) :
    other ≠ t ∧ other ≠ r := by
  obtain ⟨_, _, _, there, _, _⟩ := (inv.queue Q queue).1.told (inv.distinct queue) member
  constructor
  · rintro rfl
    rw [packaged.newT] at there
    cases there
  · rintro rfl
    rw [packaged.newR] at there
    cases there

/-- The queue is not changed by the new objects. -/
theorem Packaged.valid (packaged : Packaged T m r t func timeo) (inv : TimersInv T L now)
    {Q : Timerqueue φ} (queue : T.Q = some Q) : QueueValid m Q :=
  (inv.queue Q queue).1.keep (inv.distinct queue) fun _ member =>
    packaged.others (packaged.outside inv queue member).1 (packaged.outside inv queue member).2

/-- The new objects are freed, after nothing else changed but places. -/
theorem Packaged.freed (packaged : Packaged T m r t func timeo) (inv : TimersInv T L now)
    {Q Q' : Timerqueue φ} (queue : T.Q = some Q) {m1 : Memory φ}
    (memory : Events.placeless m1 = Events.placeless m) (valid : QueueValid m1 Q')
    (elems : Q'.elems = Q.elems) : ∃ m2 m3, m1.free (some t) = .ok m2 ∧
      eventsFreerec m2 r = .ok m3 ∧ TimersInv ⟨m3, some Q'⟩ L now := by
  have atT : m1.objects t = some (.timer r none timeo) := by
    rw [← placeless_timer, memory, placeless_timer]
    exact packaged.atT
  have atR : m1.objects r = some (.event func) := by
    rw [← placeless_event, memory, placeless_event]
    exact packaged.atR
  obtain ⟨m2, m3, freed, freed', objects⟩ := freeRecords_spec packaged.apart.symm atT atR
  have kept : ∀ id, id ≠ t → id ≠ r → m3.objects id = m1.objects id := by
    intro id notT notR
    rw [objects, Function.update_of_ne notR, Function.update_of_ne notT]
  have back : Events.placeless m3 = Events.placeless T.m := by
    funext id
    by_cases sameR : id = r
    · rw [sameR, placeless_none.mpr packaged.newR, placeless_none, objects, Function.update_self]
    · by_cases sameT : id = t
      · rw [sameT, placeless_none.mpr packaged.newT, placeless_none, objects,
          Function.update_of_ne packaged.apart, Function.update_self]
      · rw [← packaged.placeless sameT sameR, ← memory]
        unfold Events.placeless
        rw [kept id sameT sameR]
  have valid3 : QueueValid m3 Q' := by
    apply valid.keep (elems ▸ inv.distinct queue)
    intro other member
    rw [elems] at member
    have outside := packaged.outside inv queue member
    exact kept other outside.1 outside.2
  exact ⟨m2, m3, freed, freed', inv.same back valid3 (elems ▸ (inv.queue Q queue).2)⟩

/-- The new timer is in the queue. -/
theorem Packaged.enters (packaged : Packaged T m r t func timeo) (inv : TimersInv T L now)
    (normal : timeo.Normal) {Q Q' : Timerqueue φ} (queue : T.Q = some Q) {tv : Timeval}
    (tvNormal : tv.Normal) (order : now.key ≤ tv.key) {m1 : Memory φ} {q : Nat}
    (effect : Added m Q (tv.after timeo) t q m1 Q') (valid : QueueValid m1 Q') :
    ∃ m2, m1.write t (.timer r (some q) timeo) = .ok m2 ∧
      TimersInv ⟨m2, some Q'⟩ ⟨⟨t, q, r, func, tv, timeo⟩ :: L.timers, L.others⟩ tv := by
  have notT : q ≠ t := by
    rintro rfl
    have there := packaged.atT
    rw [effect.new] at there
    cases there
  have notR : q ≠ r := by
    rintro rfl
    have there := packaged.atR
    rw [effect.new] at there
    cases there
  have atT : m1.objects t = some (.timer r none timeo) := by
    rw [← placeless_timer, effect.memory, Function.update_of_ne notT.symm, placeless_timer]
    exact packaged.atT
  obtain ⟨m2, written, objects, _, _⟩ := Heap.write_ok atT (.timer r (some q) timeo)
  have memory : Events.placeless m2 = Function.update (Function.update (Events.placeless m) q
      (some (.queued (tv.after timeo) none t))) t (some (.timer r (some q) timeo)) := by
    rw [placeless_update objects, effect.memory]
    rfl
  have recorded : Recorded (Events.placeless m2) ⟨t, q, r, func, tv, timeo⟩ := by
    refine ⟨?_, ?_, ?_⟩
    · rw [memory, Function.update_self]
    · rw [memory, Function.update_of_ne notT, Function.update_self]
      rfl
    · rw [memory, Function.update_of_ne packaged.apart.symm, Function.update_of_ne notR.symm,
        placeless_event]
      exact packaged.atR
  have own : (⟨t, q, r, func, tv, timeo⟩ : Entry φ).addresses.Nodup := by
    simp [Entry.addresses, packaged.apart, notT.symm, notR]
  have new : ∀ id ∈ (⟨t, q, r, func, tv, timeo⟩ : Entry φ).addresses,
      Events.placeless T.m id = none := by
    intro id member
    rw [placeless_none]
    simp only [Entry.addresses, List.mem_cons, List.not_mem_nil, or_false] at member
    rcases member with rfl | rfl | rfl
    · exact packaged.newT
    · rw [← packaged.others notT notR]
      exact effect.new
    · exact packaged.newR
  have same : ∀ id ∉ (⟨t, q, r, func, tv, timeo⟩ : Entry φ).addresses,
      Events.placeless m2 id = Events.placeless T.m id := by
    intro id absent
    simp only [Entry.addresses, List.mem_cons, List.not_mem_nil, or_false, not_or] at absent
    rw [memory, Function.update_of_ne absent.1, Function.update_of_ne absent.2.1]
    exact packaged.placeless absent.1 absent.2.2
  have distinct : Q.elems.Nodup := inv.distinct queue
  have distinct' : Q'.elems.Nodup := by
    refine effect.perm.nodup_iff.mpr (List.nodup_cons.mpr ⟨?_, distinct⟩)
    intro member
    obtain ⟨_, _, _, there, _, _⟩ := (packaged.valid inv queue).told distinct member
    rw [effect.new] at there
    cases there
  refine ⟨m2, written, inv.holds.enter own new same recorded, ?_, ?_, ?_⟩
  · intro Q0 known
    cases known
    refine ⟨valid.keep distinct' fun other member => ?_, ?_⟩
    · have notT' : other ≠ t := by
        rcases List.mem_cons.mp (effect.perm.mem_iff.mp member) with rfl | old
        · exact notT
        · exact (packaged.outside inv queue old).1
      rw [objects, Function.update_of_ne notT']
    · exact effect.perm.trans ((inv.queue Q queue).2.cons q)
  · intro absurdity
    cases absurdity
  · intro e member
    rcases List.mem_cons.mp member with rfl | old
    · exact ⟨tvNormal, normal, le_refl _⟩
    · exact (inv.pass order).started e old

/-- A timer record is added to the queue, or it is freed with its event. -/
theorem enqueueTimer_spec (inv : TimersInv T L now) {Q : Timerqueue φ} (queue : T.Q = some Q)
    (packaged : Packaged T m r t func timeo) (normal : timeo.Normal) {clock : Option Timeval}
    (ticks : Ticks now clock) :
    ∃ cookie T', enqueueTimer { T with m } r t timeo clock = .ok (cookie, T') ∧
      (cookie = none ∧ TimersInv T' L (lastSeen now clock) ∧ (Reliable m → clock = none) ∨
        ∃ q tv, clock = some tv ∧ cookie = some t ∧
          TimersInv T' ⟨⟨t, q, r, func, tv, timeo⟩ :: L.timers, L.others⟩ tv) := by
  have valid : QueueValid m Q := packaged.valid inv queue
  unfold enqueueTimer queueOf
  rw [queue]
  dsimp only
  rw [ok_bind]
  cases clock with
  | none =>
    obtain ⟨m1, m2, freed, freed', inv'⟩ := packaged.freed inv queue rfl valid rfl
    refine ⟨none, _, ?_, .inl ⟨rfl, inv', fun _ => rfl⟩⟩
    simp only [gettimeout, Option.map_none, freed, freed', inQueue_ok, ok_bind]
    rfl
  | some tv =>
    obtain ⟨tvNormal, order⟩ := ticks tv rfl
    obtain ⟨cookie, m1, Q', added, valid1, sound, failed | ⟨q, rfl, effect⟩⟩ :=
      timerqueueAdd_spec valid (inv.distinct queue) (tv.after timeo) t
    · obtain ⟨rfl, memory, elems⟩ := failed
      obtain ⟨m2, m3, freed, freed', inv'⟩ := packaged.freed inv queue memory valid1 elems
      refine ⟨none, _, ?_, .inl ⟨rfl, inv'.pass order, fun reliable => absurd rfl (sound reliable)⟩⟩
      simp only [gettimeout, Option.map_some, added, freed, freed', inQueue_ok, ok_bind]
      rfl
    · obtain ⟨m2, written, inv'⟩ := packaged.enters inv normal queue tvNormal order effect valid1
      refine ⟨some t, _, ?_, .inr ⟨q, tv, rfl, rfl, inv'⟩⟩
      simp only [gettimeout, Option.map_some, added, written, inQueue_ok, ok_bind]
      rfl

end Packaged

/-- A timer is registered, or memory or the clock fails. -/
theorem eventsTimerRegister_spec (inv : TimersInv T L now) (func : φ) {timeo : Timeval}
    (normal : timeo.Normal) {clock : Option Timeval} (ticks : Ticks now clock) :
    ∃ cookie T', eventsTimerRegister T func timeo clock = .ok (cookie, T') ∧
      (cookie = none ∧ TimersInv T' L (lastSeen now clock) ∧ (Reliable T.m → clock = none) ∨
        ∃ t q r tv, clock = some tv ∧ cookie = some t ∧
          TimersInv T' ⟨⟨t, q, r, func, tv, timeo⟩ :: L.timers, L.others⟩ tv) := by
  unfold eventsTimerRegister
  obtain ⟨created, T1, made, inv1, sound1, queued⟩ := createQueue_spec inv
  rw [made, ok_bind]
  dsimp only
  cases created with
  | false =>
    refine ⟨none, T1, rfl, .inl ⟨rfl, inv1.pass ticks.le, fun reliable => ?_⟩⟩
    cases (sound1 reliable).1
  | true =>
    rw [if_neg (by decide)]
    obtain ⟨Q, there⟩ := queued rfl
    obtain ⟨event, m2, packaged, sound2, cases2⟩ := alloc_cases T1.m (.event func)
    rw [eventsMkrec, packaged]
    rcases cases2 with ⟨rfl, objects2⟩ | ⟨r, rfl, newR, objects2⟩
    · refine ⟨none, _, rfl, .inl ⟨rfl, (inv1.unchanged objects2).pass ticks.le, fun reliable => ?_⟩⟩
      exact absurd rfl (sound2 (sound1 reliable).2).1
    · have atR2 : m2.objects r = some (.event func) := by
        rw [objects2, Function.update_self]
      obtain ⟨record, m3, recorded, sound3, cases3⟩ := alloc_cases m2 (.timer r none timeo)
      dsimp only
      rw [recorded]
      rcases cases3 with ⟨rfl, objects3⟩ | ⟨t, rfl, newT, objects3⟩
      · obtain ⟨m4, freed, objects4, _, _⟩ := Heap.free_ok (h := m3) (objects3 ▸ atR2)
        have back : m4.objects = T1.m.objects := by
          rw [objects4, objects3, objects2, Function.update_idem]
          exact Function.update_eq_self_iff.mpr newR.symm
        refine ⟨none, { T1 with m := m4 }, ?_, .inl ⟨rfl, (inv1.unchanged back).pass ticks.le,
          fun reliable => ?_⟩⟩
        · dsimp only
          rw [eventsFreerec, freed]
          rfl
        · exact absurd rfl (sound3 (sound2 (sound1 reliable).2).2).1
      · have apart : t ≠ r := by
          rintro rfl
          rw [atR2] at newT
          cases newT
        have newT1 : T1.m.objects t = none := by
          rw [← newT, objects2, Function.update_of_ne apart]
        obtain ⟨cookie, T', enqueued, failed | ⟨q, tv, shown, known, inv'⟩⟩ :=
          enqueueTimer_spec inv1 there ⟨apart, newR, newT1, objects2 ▸ objects3⟩ normal ticks
        · obtain ⟨null, inv', sound'⟩ := failed
          refine ⟨cookie, T', enqueued, .inl ⟨null, inv', fun reliable => ?_⟩⟩
          exact sound' (sound3 (sound2 (sound1 reliable).2).2).2
        · exact ⟨cookie, T', enqueued, .inr ⟨t, q, r, tv, shown, known, inv'⟩⟩

/-- A timer of the ledger, and the others. -/
theorem Ledger.pick {e : Entry φ} (member : e ∈ L.timers) : ∃ rest, L.timers.Perm (e :: rest) := by
  obtain ⟨before, after, parts⟩ := List.append_of_mem member
  exact ⟨before ++ after, parts ▸ List.perm_middle⟩

/-- A timer is not pending any more; what is left of its objects is handed to others. -/
theorem TimersInv.leave (inv : TimersInv T L now) {Q Q' : Timerqueue φ} (queue : T.Q = some Q)
    {e : Entry φ} {rest : List (Entry φ)} (perm : L.timers.Perm (e :: rest)) {m' : Memory φ}
    {others : Nat → Option (Object φ)} (valid : QueueValid m' Q')
    (pairs : (e.q :: Q'.elems).Perm Q.elems)
    (same : ∀ id ∉ e.addresses, placeless m' id = placeless T.m id ∧ others id = L.others id)
    (handed : ∀ id ∈ e.addresses, placeless m' id = others id) :
    TimersInv ⟨m', some Q'⟩ ⟨rest, others⟩ now where
  holds := (inv.holds.perm perm).leave same handed
  queue Q0 known := by
    cases known
    have all := pairs.trans ((inv.queue Q queue).2.trans (perm.map Entry.q))
    rw [List.map_cons] at all
    exact ⟨valid, all.cons_inv⟩
  without absurdity := by cases absurdity
  started other member := inv.started other (perm.mem_iff.mpr (List.mem_cons_of_mem e member))

/-- The objects of a timer that is pending. -/
theorem TimersInv.objects (inv : TimersInv T L now) {e : Entry φ} (member : e ∈ L.timers) :
    T.m.objects e.t = some (.timer e.r (some e.q) e.orig) ∧
      T.m.objects e.r = some (.event e.func) ∧ e.t ≠ e.q ∧ e.t ≠ e.r ∧ e.q ≠ e.r := by
  obtain ⟨timer, pair, event⟩ := inv.holds.recorded e member
  refine ⟨placeless_timer.mp timer, placeless_event.mp event, ?_, ?_, ?_⟩
  · intro same
    rw [same, pair] at timer
    cases timer
  · intro same
    rw [same, event] at timer
    cases timer
  · intro same
    rw [same, event] at pair
    cases pair

/-- The timer record and the event of a timer are there after its pair was deleted. -/
theorem TimersInv.remains (inv : TimersInv T L now) {e : Entry φ} (member : e ∈ L.timers)
    {Q Q' : Timerqueue φ} {m' : Memory φ} (deleted : Deleted T.m Q e.q m' Q') :
    m'.objects e.t = some (.timer e.r (some e.q) e.orig) ∧
      m'.objects e.r = some (.event e.func) := by
  obtain ⟨timer, event, first, _, second⟩ := inv.objects member
  constructor
  · rw [← placeless_timer, deleted.memory, Function.update_of_ne first, placeless_timer]
    exact timer
  · rw [← placeless_event, deleted.memory, Function.update_of_ne second.symm, placeless_event]
    exact event

/-- What is not a pair is not in the queue. -/
theorem QueueValid.outside {m : Memory φ} {Q : Timerqueue φ} (valid : QueueValid m Q)
    (distinct : Q.elems.Nodup) {id : Nat} {object : Object φ} (there : m.objects id = some object)
    (other : ∀ tv rc ptr, object ≠ .queued tv rc ptr) : id ∉ Q.elems := by
  intro member
  obtain ⟨tv, rc, ptr, here, _, _⟩ := valid.told distinct member
  rw [there] at here
  cases here
  exact other _ _ _ rfl

/-- A timer is cancelled. -/
theorem eventsTimerCancel_spec (inv : TimersInv T L now) {e : Entry φ} (member : e ∈ L.timers) :
    ∃ T' rest, eventsTimerCancel T e.t = .ok T' ∧ L.timers.Perm (e :: rest) ∧
      TimersInv T' ⟨rest, L.others⟩ now := by
  obtain ⟨Q, queue⟩ := inv.created member
  obtain ⟨rest, perm⟩ := Ledger.pick member
  have distinct : Q.elems.Nodup := inv.distinct queue
  obtain ⟨timer, _, _, apart, _⟩ := inv.objects member
  obtain ⟨m1, Q', deleted, valid1, effect⟩ :=
    timerqueueDelete_spec (inv.queue Q queue).1 distinct (inv.queued queue member)
  obtain ⟨timer1, event1⟩ := inv.remains member effect
  obtain ⟨m2, freed, objects2, _, _⟩ := Heap.free_ok event1
  have timer2 : m2.objects e.t = some (.timer e.r (some e.q) e.orig) := by
    rw [objects2, Function.update_of_ne apart]
    exact timer1
  obtain ⟨m3, freed', objects3, _, _⟩ := Heap.free_ok timer2
  have distinct' : Q'.elems.Nodup := (effect.perm.nodup_iff.mpr distinct).of_cons
  have valid3 : QueueValid m3 Q' := by
    apply valid1.keep distinct'
    intro other queued
    have notT : other ≠ e.t := by
      rintro rfl
      exact valid1.outside distinct' timer1 (by intros; intro same; cases same) queued
    have notR : other ≠ e.r := by
      rintro rfl
      exact valid1.outside distinct' event1 (by intros; intro same; cases same) queued
    rw [objects3, Function.update_of_ne notT, objects2, Function.update_of_ne notR]
  have memory : placeless m3 = Function.update (Function.update (Function.update
      (placeless T.m) e.q none) e.r none) e.t none := by
    rw [placeless_update objects3, placeless_update objects2, effect.memory]
    rfl
  refine ⟨⟨m3, some Q'⟩, rest, ?_, perm, inv.leave queue perm valid3 effect.perm ?_ ?_⟩
  · unfold eventsTimerCancel queueOf readCookie
    rw [queue]
    simp only [readTimer_ok timer, inQueue_ok, ok_bind, deleted, readTimer_ok timer1,
      eventsFreerec, freed, freed']
    rfl
  · intro id absent
    simp only [Entry.addresses, List.mem_cons, List.not_mem_nil, or_false, not_or] at absent
    rw [memory, Function.update_of_ne absent.1, Function.update_of_ne absent.2.2,
      Function.update_of_ne absent.2.1]
    exact ⟨rfl, rfl⟩
  · intro id own
    rw [inv.holds.apart id (mem_addresses member own), memory]
    simp only [Entry.addresses, List.mem_cons, List.not_mem_nil, or_false] at own
    simp only [Function.update_apply]
    split_ifs with first second third
    · rfl
    · rfl
    · rfl
    · rcases own with same | same | same
      · exact absurd same first
      · exact absurd same third
      · exact absurd same second

/-- A timer is started again. -/
theorem Holds.restart {objects : Nat → Option (Object φ)} {others : Nat → Option (Object φ)}
    {e : Entry φ} {rest : List (Entry φ)} (holds : Holds objects ⟨e :: rest, others⟩)
    (tv : Timeval) : Holds (Function.update objects e.q
      (some (.queued (tv.after e.orig) none e.t))) ⟨{ e with since := tv } :: rest, others⟩ := by
  have recorded := holds.recorded e List.mem_cons_self
  have addresses : ({ e with since := tv } : Entry φ).addresses = e.addresses := rfl
  have own : e.addresses.Nodup := (List.nodup_append.mp holds.distinct).1
  have gone : Holds (fun id => if id ∈ e.addresses then none else objects id) ⟨rest, others⟩ := by
    apply holds.leave
    · intro id absent
      exact ⟨if_neg absent, rfl⟩
    · intro id here
      rw [if_pos here]
      exact (holds.apart id (mem_addresses List.mem_cons_self here)).symm
  apply gone.enter (e := { e with since := tv }) own
  · intro id here
    exact if_pos here
  · intro id absent
    have other : id ≠ e.q := by
      rintro rfl
      exact absent (mem_own e).2.1
    rw [Function.update_of_ne other]
    exact (if_neg absent).symm
  · have notT : e.t ≠ e.q := by
      intro same
      have pair := recorded.pair
      rw [← same, recorded.timer] at pair
      cases pair
    have notR : e.r ≠ e.q := by
      intro same
      have pair := recorded.pair
      rw [← same, recorded.event] at pair
      cases pair
    refine ⟨?_, Function.update_self _ _ _, ?_⟩
    · exact (Function.update_of_ne notT _ _).trans recorded.timer
    · exact (Function.update_of_ne notR _ _).trans recorded.event

/-- A timer is reset, or the clock fails. -/
theorem eventsTimerReset_spec (inv : TimersInv T L now) {e : Entry φ} (member : e ∈ L.timers)
    {clock : Option Timeval} (ticks : Ticks now clock) :
    clock = none ∧ eventsTimerReset T e.t clock = .ok (-1, T) ∨ ∃ tv T' rest, clock = some tv ∧
      eventsTimerReset T e.t clock = .ok (0, T') ∧ L.timers.Perm (e :: rest) ∧
      TimersInv T' ⟨{ e with since := tv } :: rest, L.others⟩ tv := by
  obtain ⟨Q, queue⟩ := inv.created member
  obtain ⟨timer, _, _, _, _⟩ := inv.objects member
  unfold eventsTimerReset
  simp only [readTimer_ok timer, inQueue_ok, ok_bind]
  cases clock with
  | none => exact .inl ⟨rfl, rfl⟩
  | some tv =>
    obtain ⟨tvNormal, order⟩ := ticks tv rfl
    obtain ⟨rest, perm⟩ := Ledger.pick member
    have recorded := inv.holds.recorded e member
    obtain ⟨since, orig, before⟩ := inv.started e member
    have later : e.deadline.key ≤ (tv.after e.orig).key :=
      Timeval.after_mono since tvNormal orig (before.trans order)
    obtain ⟨m', Q', increased, valid', same, memory⟩ := timerqueueIncrease_spec
      (inv.queue Q queue).1 (inv.distinct queue) (inv.queued queue member) recorded.pair later
    refine .inr ⟨tv, ⟨m', some Q'⟩, rest, rfl, ?_, perm, ?_, ?_, ?_, ?_⟩
    · unfold gettimeout queueOf readCookie
      rw [queue]
      simp only [Option.map_some, ok_bind, readTimer_ok timer, inQueue_ok, increased]
      rfl
    · rw [memory]
      exact (inv.holds.perm perm).restart tv
    · intro Q0 known
      cases known
      exact ⟨valid', same.trans ((inv.queue Q queue).2.trans (perm.map Entry.q))⟩
    · intro absurdity
      cases absurdity
    · intro other listed
      rcases List.mem_cons.mp listed with rfl | old
      · exact ⟨tvNormal, orig, le_refl _⟩
      · exact (inv.pass order).started other
          (perm.mem_iff.mpr (List.mem_cons_of_mem e old))

/-- A timer expires before all others, or at the same time. -/
def Earliest (L : Ledger φ) (e : Entry φ) : Prop :=
  e ∈ L.timers ∧ ∀ other ∈ L.timers, e.deadline.key ≤ other.deadline.key

/-- The least pair in the queue is that of the earliest timer. -/
theorem TimersInv.earliest (inv : TimersInv T L now) {Q : Timerqueue φ} (queue : T.Q = some Q)
    {r ptr : Nat} {tv : Timeval} (least : LeastPair T.m Q r ptr tv) :
    ∃ e, Earliest L e ∧ r = e.q ∧ ptr = e.t ∧ tv = e.deadline := by
  obtain ⟨e, member, rfl, recorded⟩ := inv.pair queue least.member
  have here := least.here
  rw [recorded.pair] at here
  cases here
  refine ⟨e, ⟨member, fun other listed => ?_⟩, rfl, rfl, rfl⟩
  have below := least.least other.q (inv.queued queue listed)
  rwa [(inv.holds.recorded other listed).time] at below

/-- The time to wait is found, or memory or the clock fails. -/
theorem eventsTimerMin_spec (inv : TimersInv T L now) {clock : Option Timeval}
    (ticks : Ticks now clock) : ∃ timeo T', eventsTimerMin T clock = .ok (timeo, T') ∧
      TimersInv T' L now ∧ (timeo = none ∧ (Reliable T.m → clock = none) ∨
        timeo = some none ∧ L.timers = [] ∨ ∃ e tv wait, clock = some tv ∧
          timeo = some (some wait) ∧ Earliest L e ∧ wait.Normal ∧
          wait.micros = max 0 (e.deadline.micros - tv.micros)) := by
  unfold eventsTimerMin
  cases queue : T.Q with
  | none => exact ⟨_, T, rfl, inv, .inr (.inl ⟨rfl, inv.without queue⟩)⟩
  | some Q =>
    dsimp only
    rcases timerqueueGetmin_spec (inv.queue Q queue).1 (inv.distinct queue) with
      ⟨found, empty⟩ | ⟨r, ptr, tv, found, least⟩
    · have none : L.timers = [] := by
        have perm := (inv.queue Q queue).2
        rw [empty] at perm
        exact List.map_eq_nil_iff.mp (List.nil_perm.mp perm)
      rw [found]
      exact ⟨_, T, rfl, inv, .inr (.inl ⟨rfl, none⟩)⟩
    · obtain ⟨e, earliest, _, _, rfl⟩ := inv.earliest queue least
      rw [found, ok_bind]
      dsimp only
      have inv' : TimersInv ⟨T.m.attempt.2, some Q⟩ L now := queue ▸ inv.unchanged rfl
      cases fate : T.m.attempt.1 with
      | true =>
        refine ⟨_, _, rfl, inv', .inl ⟨rfl, fun reliable => ?_⟩⟩
        have absurdity := reliable.attempt.1
        rw [fate] at absurdity
        cases absurdity
      | false =>
        cases clock with
        | none => exact ⟨_, _, rfl, inv', .inl ⟨rfl, fun _ => rfl⟩⟩
        | some tv =>
          obtain ⟨normal, micros⟩ := remaining_spec (inv.normal earliest.1) (ticks tv rfl).1
          exact ⟨_, _, rfl, inv', .inr (.inr ⟨e, tv, _, rfl, rfl, earliest, normal, micros⟩)⟩

/-- The event of a timer that expired is handed over, if there is one, unless the clock fails. -/
theorem eventsTimerGet_spec (inv : TimersInv T L now) (clock : Option Timeval) :
    ∃ event T', eventsTimerGet T clock = .ok (event, T') ∧
      (event = none ∧ clock = none ∧ T' = T ∨
        event = some none ∧ TimersInv T' L now ∧ (L.timers = [] ∨ ∃ tv, clock = some tv ∧
          ∀ e ∈ L.timers, tv.key < e.deadline.key) ∨
        ∃ e tv rest, clock = some tv ∧ event = some (some e.r) ∧ Earliest L e ∧
          e.deadline.key ≤ tv.key ∧ L.timers.Perm (e :: rest) ∧ TimersInv T'
            ⟨rest, Function.update L.others e.r (some (.event e.func))⟩ now) := by
  unfold eventsTimerGet
  cases queue : T.Q with
  | none => exact ⟨_, T, rfl, .inr (.inl ⟨rfl, inv, .inl (inv.without queue)⟩)⟩
  | some Q =>
    cases clock with
    | none => exact ⟨_, T, rfl, .inl ⟨rfl, rfl, rfl⟩⟩
    | some tv =>
      dsimp only
      have distinct : Q.elems.Nodup := inv.distinct queue
      rcases timerqueueGetptr_spec (inv.queue Q queue).1 distinct tv with
        ⟨taken, late⟩ | ⟨r, ptr, time, m1, Q', taken, valid1, least, expired, effect⟩
      · rw [taken]
        refine ⟨_, _, rfl, .inr (.inl ⟨rfl, inv.same rfl (inv.queue Q queue).1
          (inv.queue Q queue).2, .inr ⟨tv, rfl, fun e member => ?_⟩⟩)⟩
        have after := late e.q (inv.queued queue member)
        rwa [(inv.holds.recorded e member).time] at after
      · obtain ⟨e, earliest, rfl, rfl, rfl⟩ := inv.earliest queue least
        obtain ⟨rest, perm⟩ := Ledger.pick earliest.1
        obtain ⟨timer1, event1⟩ := inv.remains earliest.1 effect
        obtain ⟨_, event, notQ, apart, notQ'⟩ := inv.objects earliest.1
        obtain ⟨m2, freed, objects2, _, _⟩ := Heap.free_ok timer1
        have distinct' : Q'.elems.Nodup := (effect.perm.nodup_iff.mpr distinct).of_cons
        have valid2 : QueueValid m2 Q' := by
          apply valid1.keep distinct'
          intro other queued
          have notT : other ≠ e.t := by
            rintro rfl
            exact valid1.outside distinct' timer1 (by intros; intro same; cases same) queued
          rw [objects2, Function.update_of_ne notT]
        have memory : placeless m2 =
            Function.update (Function.update (placeless T.m) e.q none) e.t none := by
          rw [placeless_update objects2, effect.memory]
          rfl
        rw [taken, ok_bind]
        dsimp only
        refine ⟨some (some e.r), ⟨m2, some Q'⟩, ?_, .inr (.inr ⟨e, tv, rest, rfl, rfl, earliest,
          expired, perm, inv.leave queue perm valid2 effect.perm ?_ ?_⟩)⟩
        · simp only [readTimer_ok timer1, inQueue_ok, ok_bind, freed]
          rfl
        · intro id absent
          simp only [Entry.addresses, List.mem_cons, List.not_mem_nil, or_false, not_or] at absent
          rw [memory, Function.update_of_ne absent.1, Function.update_of_ne absent.2.1,
            Function.update_of_ne absent.2.2]
          exact ⟨rfl, rfl⟩
        · intro id own
          rw [memory]
          have nothing := inv.holds.apart id (mem_addresses earliest.1 own)
          simp only [Entry.addresses, List.mem_cons, List.not_mem_nil, or_false] at own
          rcases own with rfl | rfl | rfl
          · rw [Function.update_self, Function.update_of_ne apart, nothing]
          · rw [Function.update_of_ne notQ.symm, Function.update_self,
              Function.update_of_ne notQ', nothing]
          · rw [Function.update_of_ne apart.symm, Function.update_of_ne notQ'.symm,
              Function.update_self, placeless_event]
            exact event

end Operations

end Tarsnap.Events
