import Tarsnap.Events.Timerqueue

/-!
# Timer events

A timer is registered to run a function after some time; it can be cancelled, or be reset to run
after the same time from now. The event loop asks how long to wait for the next timer, and takes
the events of the timers that expired, the earliest one first. The time is read from a clock, which
may fail.
-/

open Tarsnap.Lib Tarsnap.Datastruct

namespace Tarsnap.Events

variable {φ : Type}

/-- The memory and the queue of the timers, once it was created. -/
structure Timers (φ : Type) where
  /-- The memory. -/
  m : Memory φ
  /-- The queue. -/
  Q : Option (Timerqueue φ)

/-- A time after some other time. -/
def Timeval.after (tv tdelta : Timeval) : Timeval :=
  if tv.usec + tdelta.usec ≥ 1000000 then
    ⟨tv.sec + tdelta.sec + 1, tv.usec + tdelta.usec - 1000000⟩
  else ⟨tv.sec + tdelta.sec, tv.usec + tdelta.usec⟩

/-- The time when a timeout ends, by what the clock says. -/
def gettimeout (clock : Option Timeval) (tdelta : Timeval) : Option Timeval :=
  clock.map fun tv => tv.after tdelta

/-- Read the record of a timer: its event, its cookie and its timeout. -/
def readTimer (m : Memory φ) (t : Nat) : Except HeapFault (Nat × Option Nat × Timeval) :=
  match m.read t with
  | .ok (.timer r cookie tvOrig) => .ok (r, cookie, tvOrig)
  | .ok _ => .error .mistaken
  | .error fault => .error fault

/-- Read the cookie of a timer in the queue. -/
def readCookie (m : Memory φ) (t : Nat) : Except HeapFault Nat :=
  match readTimer m t with
  | .ok (_, some cookie, _) => .ok cookie
  | .ok (_, none, _) => .error .mistaken
  | .error fault => .error fault

/-- The queue, with which a function of the queue is called. -/
def queueOf (T : Timers φ) : Except PtrheapFault (Timerqueue φ) :=
  match T.Q with
  | some Q => .ok Q
  | none => .error .outOfBounds

/-- Create the queue if it doesn't exist yet, and have it cleaned up at exit. -/
def createQueue (T : Timers φ) : Except PtrheapFault (Bool × Timers φ) :=
  match T.Q with
  | some _ => .ok (true, T)
  | none => do
    let (Q, m) ← timerqueueInit T.m
    match Q with
    | none => return (false, { T with m })
    | some Q => return (!m.attempt.1, ⟨m.attempt.2, some Q⟩)

/-- Add a timer record to the queue, or free it and its event. -/
def enqueueTimer (T : Timers φ) (r t : Nat) (timeo : Timeval) (clock : Option Timeval) :
    Except PtrheapFault (Option Nat × Timers φ) := do
  let Q ← queueOf T
  match gettimeout clock timeo with
  | none => do
    let m ← inQueue (T.m.free (some t))
    let m ← inQueue (eventsFreerec m r)
    return (none, { T with m })
  | some tv => do
    let (cookie, m, Q) ← timerqueueAdd T.m Q tv t
    match cookie with
    | none => do
      let m ← inQueue (m.free (some t))
      let m ← inQueue (eventsFreerec m r)
      return (none, ⟨m, some Q⟩)
    | some cookie => do
      let m ← inQueue (m.write t (.timer r (some cookie) timeo))
      return (some t, ⟨m, some Q⟩)

/-- Register a function to be run some time in the future. -/
def eventsTimerRegister (T : Timers φ) (func : φ) (timeo : Timeval) (clock : Option Timeval) :
    Except PtrheapFault (Option Nat × Timers φ) := do
  let (created, T) ← createQueue T
  if !created then return (none, T)
  else
    match eventsMkrec T.m func with
    | (none, m) => return (none, { T with m })
    | (some r, m) =>
      match m.alloc (.timer r none timeo) with
      | (none, m) => do
        let m ← inQueue (eventsFreerec m r)
        return (none, { T with m })
      | (some t, m) => enqueueTimer { T with m } r t timeo clock

/-- Cancel a timer. -/
def eventsTimerCancel (T : Timers φ) (t : Nat) : Except PtrheapFault (Timers φ) := do
  let Q ← queueOf T
  let cookie ← inQueue (readCookie T.m t)
  let (m, Q) ← timerqueueDelete T.m Q cookie
  let (r, _, _) ← inQueue (readTimer m t)
  let m ← inQueue (eventsFreerec m r)
  let m ← inQueue (m.free (some t))
  return ⟨m, some Q⟩

/-- Reset a timer to its initial value. -/
def eventsTimerReset (T : Timers φ) (t : Nat) (clock : Option Timeval) :
    Except PtrheapFault (Int × Timers φ) := do
  let (_, _, tvOrig) ← inQueue (readTimer T.m t)
  match gettimeout clock tvOrig with
  | none => return (-1, T)
  | some tv => do
    let Q ← queueOf T
    let cookie ← inQueue (readCookie T.m t)
    let (m, Q) ← timerqueueIncrease T.m Q cookie tv
    return (0, ⟨m, some Q⟩)

/-- The time from now until a timer expires, or zero if it has expired. -/
def remaining (tv tnow : Timeval) : Timeval :=
  if tnow.sec > tv.sec ∨ tnow.sec = tv.sec ∧ tnow.usec > tv.usec then ⟨0, 0⟩
  else if tv.usec < tnow.usec then ⟨tv.sec - tnow.sec - 1, tv.usec - tnow.usec + 1000000⟩
  else ⟨tv.sec - tnow.sec, tv.usec - tnow.usec⟩

/-- The minimum time which must be waited before a timer expires, or null if there are no timers;
or nothing on error. The returned time is not kept in memory, but taking memory for it may fail. -/
def eventsTimerMin (T : Timers φ) (clock : Option Timeval) :
    Except PtrheapFault (Option (Option Timeval) × Timers φ) :=
  match T.Q with
  | none => .ok (some none, T)
  | some Q => do
    match ← timerqueueGetmin T.m Q with
    | none => return (some none, T)
    | some tv =>
      let (failed, m) := T.m.attempt
      if failed then return (none, { T with m })
      else return (clock.map fun tnow => some (remaining tv tnow), { T with m })

/-- The event of a timer that expired, which is deleted, or null if there is none; or nothing on
error. -/
def eventsTimerGet (T : Timers φ) (clock : Option Timeval) :
    Except PtrheapFault (Option (Option Nat) × Timers φ) :=
  match T.Q with
  | none => .ok (some none, T)
  | some Q =>
    match clock with
    | none => .ok (none, T)
    | some tnow => do
      let (t, m, Q) ← timerqueueGetptr T.m Q tnow
      match t with
      | none => return (some none, ⟨m, some Q⟩)
      | some t => do
        let (r, _, _) ← inQueue (readTimer m t)
        let m ← inQueue (m.free (some t))
        return (some (some r), ⟨m, some Q⟩)

end Tarsnap.Events
