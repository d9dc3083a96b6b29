import Tarsnap.Events.TimerSpec

/-!
# Timers are served over every run

Whatever timers are registered, cancelled and reset, and whatever else is done to memory in
between, the functions of the timers do not fail on memory, each timer that is pending keeps its
three objects, and nothing else is left behind. The event that is handed over is that of a timer
with the least deadline, which has passed, and the timer is not pending any more; the time to wait
is that until the least deadline.
-/

open Tarsnap.Lib Tarsnap.Datastruct

namespace Tarsnap.Events

variable {φ : Type}

/-- What is done with timers, and what the clock shows then. -/
inductive TimerOp (φ : Type) where
  /-- Register a function. -/
  | register (func : φ) (timeo : Timeval) (clock : Option Timeval)
  /-- Cancel a timer. -/
  | cancel (t : Nat)
  /-- Reset a timer. -/
  | reset (t : Nat) (clock : Option Timeval)
  /-- Ask how long to wait. -/
  | min (clock : Option Timeval)
  /-- Take the event of a timer that expired. -/
  | get (clock : Option Timeval)
  /-- Another part of the program works on its own objects. -/
  | other (m : Memory φ)

/-- What an operation returns. -/
inductive TimerAnswer where
  /-- A cookie, or null on error. -/
  | registered (t : Option Nat)
  /-- Zero, or minus one on error. -/
  | status (rc : Int)
  /-- The time to wait, or null; or nothing on error. -/
  | timeo (timeo : Option (Option Timeval))
  /-- The event, or null; or nothing on error. -/
  | event (r : Option (Option Nat))
  /-- Nothing. -/
  | nothing

/-- Perform an operation. -/
def performTimer (T : Timers φ) : TimerOp φ → Except PtrheapFault (TimerAnswer × Timers φ)
  | .register func timeo clock => do
    let (t, T) ← eventsTimerRegister T func timeo clock
    return (.registered t, T)
  | .cancel t => do
    let T ← eventsTimerCancel T t
    return (.nothing, T)
  | .reset t clock => do
    let (rc, T) ← eventsTimerReset T t clock
    return (.status rc, T)
  | .min clock => do
    let (timeo, T) ← eventsTimerMin T clock
    return (.timeo timeo, T)
  | .get clock => do
    let (r, T) ← eventsTimerGet T clock
    return (.event r, T)
  | .other m => .ok (.nothing, { T with m })

/-- The time after an operation. -/
def timeAfter (now : Timeval) : TimerOp φ → Timeval
  | .register _ _ clock => lastSeen now clock
  | .cancel _ => now
  | .reset _ clock => lastSeen now clock
  | .min clock => lastSeen now clock
  | .get clock => lastSeen now clock
  | .other _ => now

/-- What is at an address is not a pair of a timer queue. -/
def NotPair (there : Option (Object φ)) : Prop := ∀ tv rc ptr, there ≠ some (.queued tv rc ptr)

/-- What is promised before an operation: only timers that are pending are cancelled or reset, the
clock does not go back, and the other parts of the program leave the objects of the timers alone. -/
def AllowedTimer (T : Timers φ) (L : Ledger φ) (now : Timeval) : TimerOp φ → Prop
  | .register _ timeo clock => timeo.Normal ∧ Ticks now clock
  | .cancel t => ∃ e ∈ L.timers, e.t = t
  | .reset t clock => (∃ e ∈ L.timers, e.t = t) ∧ Ticks now clock
  | .min clock => Ticks now clock
  | .get clock => Ticks now clock
  | .other m => (∀ id ∈ L.addresses, m.objects id = T.m.objects id) ∧
    ∀ id ∉ L.addresses, NotPair (m.objects id)

/-- What is in memory: the objects of the timers and those of the others, and nothing else. -/
structure Remembers (m : Memory φ) (L : Ledger φ) : Prop where
  /-- No two objects are at one address. -/
  distinct : L.addresses.Nodup
  /-- Each timer has its record, its event, and a pair in the queue with its deadline. -/
  timers : ∀ e ∈ L.timers, m.objects e.t = some (.timer e.r (some e.q) e.orig) ∧
    m.objects e.r = some (.event e.func) ∧
    ∃ rc, m.objects e.q = some (.queued e.deadline (some rc) e.t)
  /-- The other objects are as others left them. -/
  others : ∀ id ∉ L.addresses, m.objects id = L.others id

/-- What an operation returns, and what it does to the timers that are pending. -/
def TimerEffect (T : Timers φ) (L : Ledger φ) (answer : TimerAnswer) (L' : Ledger φ) :
    TimerOp φ → Prop
  | .register func timeo clock =>
    answer = .registered none ∧ L' = L ∧ (Reliable T.m → clock = none) ∨
    ∃ t q r tv, clock = some tv ∧ answer = .registered (some t) ∧
      L' = ⟨⟨t, q, r, func, tv, timeo⟩ :: L.timers, L.others⟩
  | .cancel t => answer = .nothing ∧ L'.others = L.others ∧
    ∃ e, e.t = t ∧ L.timers.Perm (e :: L'.timers)
  | .reset t clock => answer = .status (-1) ∧ L' = L ∧ clock = none ∨
    ∃ e rest tv, clock = some tv ∧ answer = .status 0 ∧ e.t = t ∧ L.timers.Perm (e :: rest) ∧
      L' = ⟨{ e with since := tv } :: rest, L.others⟩
  | .min clock => L' = L ∧ (answer = .timeo none ∧ (Reliable T.m → clock = none) ∨
    answer = .timeo (some none) ∧ L.timers = [] ∨
    ∃ e tv wait, clock = some tv ∧ answer = .timeo (some (some wait)) ∧ Earliest L e ∧
      wait.Normal ∧ wait.micros = max 0 (e.deadline.micros - tv.micros))
  | .get clock => answer = .event none ∧ L' = L ∧ clock = none ∨
    answer = .event (some none) ∧ L' = L ∧ (L.timers = [] ∨ ∃ tv, clock = some tv ∧
      ∀ e ∈ L.timers, tv.key < e.deadline.key) ∨
    ∃ e tv, clock = some tv ∧ answer = .event (some (some e.r)) ∧ Earliest L e ∧
      e.deadline.key ≤ tv.key ∧ L.timers.Perm (e :: L'.timers) ∧
      L'.others = Function.update L.others e.r (some (.event e.func))
  | .other m => answer = .nothing ∧ L'.timers = L.timers ∧
    ∀ id ∉ L.addresses, L'.others id = m.objects id

/-- Operations succeed one after the other, as long as each of them is allowed, with the effects
that they should have. -/
def ServesTimers : List (TimerOp φ) → Timers φ → Ledger φ → Timeval → Prop
  | [], _, _, _ => True
  | op :: ops, T, L, now => AllowedTimer T L now op → ∃ answer T' L',
    performTimer T op = .ok (answer, T') ∧ TimerEffect T L answer L' op ∧ Remembers T'.m L' ∧
    ServesTimers ops T' L' (timeAfter now op)

variable {T : Timers φ} {L : Ledger φ} {now : Timeval}

/-- What is not a pair has no place. -/
theorem NotPair.placeless {m : Memory φ} {id : Nat} {there : Option (Object φ)}
    (free : NotPair there) : placeless m id = there ↔ m.objects id = there := by
  cases there with
  | none => exact placeless_none
  | some object => exact placeless_other fun tv rc ptr pair => free tv rc ptr (congrArg some pair)

/-- What is in memory. -/
theorem TimersInv.remembers (inv : TimersInv T L now) (free : ∀ id, NotPair (L.others id)) :
    Remembers T.m L where
  distinct := inv.holds.distinct
  timers e member := by
    obtain ⟨timer, event, _⟩ := inv.objects member
    obtain ⟨Q, queue⟩ := inv.created member
    obtain ⟨tv, rc, ptr, there, here, _⟩ :=
      (inv.queue Q queue).1.told (inv.distinct queue) (inv.queued queue member)
    rw [(inv.holds.recorded e member).pair] at here
    cases here
    exact ⟨timer, event, rc, there⟩
  others id absent := (free id).placeless.mp (inv.holds.elsewhere id absent)

/-- The ledger after other parts of the program changed their objects. -/
def Ledger.changed (L : Ledger φ) (m : Memory φ) : Ledger φ :=
  ⟨L.timers, fun id => if id ∈ L.addresses then none else m.objects id⟩

/-- Other parts of the program change their own objects. -/
theorem TimersInv.other (inv : TimersInv T L now) {m : Memory φ}
    (kept : ∀ id ∈ L.addresses, m.objects id = T.m.objects id)
    (free : ∀ id ∉ L.addresses, NotPair (m.objects id)) :
    TimersInv { T with m } (L.changed m) now := by
  refine ⟨⟨inv.holds.distinct, ?_, ?_, fun id own => if_pos own⟩, ?_, inv.without, inv.started⟩
  · intro e member
    apply (inv.holds.recorded e member).keep
    intro id own
    unfold placeless
    rw [kept id (mem_addresses member own)]
  · intro id absent
    rw [show (L.changed m).others id = m.objects id from if_neg absent]
    exact (free id absent).placeless.mpr rfl
  · intro Q queue
    obtain ⟨valid, perm⟩ := inv.queue Q queue
    refine ⟨valid.keep (inv.distinct queue) fun r member => ?_, perm⟩
    obtain ⟨e, listed, rfl, _⟩ := inv.pair queue member
    exact kept e.q (mem_addresses listed (mem_own e).2.1)

/-- An operation that is allowed succeeds and has the effect that it should have. -/
theorem performTimer_spec (inv : TimersInv T L now) (free : ∀ id, NotPair (L.others id))
    (op : TimerOp φ) (allowed : AllowedTimer T L now op) :
    ∃ answer T' L', performTimer T op = .ok (answer, T') ∧
      TimerEffect T L answer L' op ∧ TimersInv T' L' (timeAfter now op) ∧
      ∀ id, NotPair (L'.others id) := by
  cases op with
  | register func timeo clock =>
    obtain ⟨normal, ticks⟩ := allowed
    obtain ⟨cookie, T', registered, failed | ⟨t, q, r, tv, rfl, rfl, inv'⟩⟩ :=
      eventsTimerRegister_spec inv func normal ticks
    · obtain ⟨rfl, inv', sound⟩ := failed
      refine ⟨.registered none, T', L, ?_, .inl ⟨rfl, rfl, sound⟩, inv', free⟩
      rw [performTimer, registered]
      rfl
    · refine ⟨.registered (some t), T', _, ?_, .inr ⟨t, q, r, tv, rfl, rfl, rfl⟩, inv', free⟩
      rw [performTimer, registered]
      rfl
  | cancel t =>
    obtain ⟨e, member, rfl⟩ := allowed
    obtain ⟨T', rest, cancelled, perm, inv'⟩ := eventsTimerCancel_spec inv member
    refine ⟨.nothing, T', ⟨rest, L.others⟩, ?_, ⟨rfl, rfl, e, rfl, perm⟩, inv', free⟩
    rw [performTimer, cancelled]
    rfl
  | reset t clock =>
    obtain ⟨⟨e, member, rfl⟩, ticks⟩ := allowed
    rcases eventsTimerReset_spec inv member ticks with
      ⟨rfl, failed⟩ | ⟨tv, T', rest, rfl, reset, perm, inv'⟩
    · refine ⟨.status (-1), T, L, ?_, .inl ⟨rfl, rfl, rfl⟩, inv, free⟩
      rw [performTimer, failed]
      rfl
    · refine ⟨.status 0, T', _, ?_, .inr ⟨e, rest, tv, rfl, rfl, rfl, perm, rfl⟩, inv', free⟩
      rw [performTimer, reset]
      rfl
  | min clock =>
    obtain ⟨timeo, T', found, inv', effect⟩ := eventsTimerMin_spec inv allowed
    refine ⟨.timeo timeo, T', L, ?_, ⟨rfl, ?_⟩, inv'.pass allowed.le, free⟩
    · rw [performTimer, found]
      rfl
    · rcases effect with ⟨rfl, sound⟩ | ⟨rfl, none⟩ | ⟨e, tv, wait, shown, rfl, waits⟩
      · exact .inl ⟨rfl, sound⟩
      · exact .inr (.inl ⟨rfl, none⟩)
      · exact .inr (.inr ⟨e, tv, wait, shown, rfl, waits⟩)
  | get clock =>
    obtain ⟨event, T', taken, effect⟩ := eventsTimerGet_spec inv clock
    have performed : performTimer T (.get clock) = .ok (.event event, T') := by
      rw [performTimer, taken]
      rfl
    rcases effect with ⟨rfl, rfl, rfl⟩ | ⟨rfl, inv', late⟩ |
      ⟨e, tv, rest, rfl, rfl, earliest, expired, perm, inv'⟩
    · exact ⟨_, _, L, performed, .inl ⟨rfl, rfl, rfl⟩, inv, free⟩
    · exact ⟨_, _, L, performed, .inr (.inl ⟨rfl, rfl, late⟩), inv'.pass allowed.le, free⟩
    · refine ⟨_, _, _, performed, .inr (.inr ⟨e, tv, rfl, rfl, earliest, expired, perm, rfl⟩),
        inv'.pass allowed.le, ?_⟩
      intro id time rc ptr
      show Function.update L.others e.r (some (.event e.func)) id ≠ _
      by_cases same : id = e.r
      · rw [same, Function.update_self]
        intro absurdity
        cases absurdity
      · rw [Function.update_of_ne same]
        exact free id time rc ptr
  | other m =>
    obtain ⟨kept, free'⟩ := allowed
    refine ⟨.nothing, _, L.changed m, rfl, ⟨rfl, rfl, fun id absent => if_neg absent⟩,
      inv.other kept free', ?_⟩
    intro id
    show NotPair (if id ∈ L.addresses then none else m.objects id)
    split_ifs with own
    · exact fun _ _ _ => (Option.some_ne_none _).symm
    · exact free' id own

/-- Whatever is done with timers succeeds and has the effect that it should have. -/
theorem servesTimers (inv : TimersInv T L now) (free : ∀ id, NotPair (L.others id))
    (ops : List (TimerOp φ)) : ServesTimers ops T L now := by
  induction ops generalizing T L now with
  | nil => trivial
  | cons op ops ih =>
    intro allowed
    obtain ⟨answer, T', L', performed, effect, inv', free'⟩ := performTimer_spec inv free op allowed
    exact ⟨answer, T', L', performed, effect, inv'.remembers free', ih inv' free'⟩

/-- Beginning with no timers, every sequence of operations is served. -/
theorem events_timer_serves {m : Memory φ} (free : ∀ id, NotPair (m.objects id)) (now : Timeval)
    (ops : List (TimerOp φ)) : ServesTimers ops ⟨m, none⟩ ⟨[], m.objects⟩ now := by
  have empty : (⟨[], m.objects⟩ : Ledger φ).addresses = [] := rfl
  have holds : Holds (placeless m) ⟨[], m.objects⟩ := by
    refine ⟨empty ▸ List.nodup_nil, ?_, fun id _ => (free id).placeless.mpr rfl, ?_⟩
    · exact fun e member => absurd member List.not_mem_nil
    · exact fun id member => absurd member List.not_mem_nil
  refine servesTimers ⟨holds, ?_, fun _ => rfl, ?_⟩ free ops
  · intro Q absurdity
    cases absurdity
  · exact fun e member => absurd member List.not_mem_nil

section Example

/-- Nothing is in the memory, and the second of the steps that may fail does so. -/
def freshMemory : Memory Nat := Heap.empty [false, true]

/-- What is done: a function is registered to be run after a second, which fails at first, and
again; half a second later the time to wait is asked for, and the event is taken after another
second. -/
def onceOps : List (TimerOp Nat) :=
  [.register 7 ⟨1, 0⟩ (some ⟨5, 0⟩), .register 7 ⟨1, 0⟩ (some ⟨5, 0⟩), .min (some ⟨5, 500000⟩),
    .get (some ⟨6, 500000⟩)]

/-- All of this is allowed and served, with these answers. -/
theorem events_timer_serves_once :
    ServesTimers onceOps ⟨freshMemory, none⟩ ⟨[], freshMemory.objects⟩ ⟨0, 0⟩ ∧
    ∀ T L, AllowedTimer T L ⟨0, 0⟩ onceOps[0] ∧ AllowedTimer T L ⟨5, 0⟩ onceOps[1] ∧
      AllowedTimer T L ⟨5, 0⟩ onceOps[2] ∧ AllowedTimer T L ⟨5, 500000⟩ onceOps[3] ∧
    ∃ T1 t T2 T3 r T4,
      performTimer ⟨freshMemory, none⟩ onceOps[0] = .ok (.registered none, T1) ∧
      performTimer T1 onceOps[1] = .ok (.registered (some t), T2) ∧
      performTimer T2 onceOps[2] = .ok (.timeo (some (some ⟨0, 500000⟩)), T3) ∧
      performTimer T3 onceOps[3] = .ok (.event (some (some r)), T4) := by
  refine ⟨events_timer_serves (fun _ _ _ _ absurdity => by cases absurdity) _ _, fun T L => ?_⟩
  have ticks {now tv : Timeval} (normal : tv.Normal) (later : now.key ≤ tv.key) :
      Ticks now (some tv) := by
    intro other same
    cases same
    exact ⟨normal, later⟩
  exact ⟨⟨by decide, ticks (by decide) (by decide)⟩, ⟨by decide, ticks (by decide) (by decide)⟩,
    ticks (by decide) (by decide), ticks (by decide) (by decide), _, _, _, _, _, _, rfl, rfl, rfl,
    rfl⟩

end Example

end Tarsnap.Events
