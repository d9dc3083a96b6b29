import Tarsnap.Datastruct.PtrheapRuns
import Tarsnap.Events.Memory

/-!
# The timer queue

A priority queue of times with pointers: a pointer heap of records, in which each record is told
where it is in the heap.
-/

open Tarsnap.Lib Tarsnap.Datastruct

namespace Tarsnap.Events

variable {φ : Type}

/-- Read a pair of a timer queue. -/
def readQueued (m : Memory φ) (r : Nat) : Except HeapFault (Timeval × Option Nat × Nat) :=
  match m.read r with
  | .ok (.queued tv rc ptr) => .ok (tv, rc, ptr)
  | .ok _ => .error .mistaken
  | .error fault => .error fault

/-- Read the place of a pair, which it was told before. -/
def readPlace (m : Memory φ) (r : Nat) : Except HeapFault Nat :=
  match readQueued m r with
  | .ok (_, some rc, _) => .ok rc
  | .ok (_, none, _) => .error .mistaken
  | .error fault => .error fault

/-- Compare the times of two pairs. -/
def compar (m : Memory φ) (x y : Nat) : Except HeapFault Int := do
  let x ← readQueued m x
  let y ← readQueued m y
  return tvcmp x.1 y.1

/-- Record the place of a pair. -/
def setreccookie (m : Memory φ) (ptr rc : Nat) : Except HeapFault (Memory φ) := do
  let rec_ ← readQueued m ptr
  m.write ptr (.queued rec_.1 (some rc) rec_.2.2)

/-- The callbacks of the heap of a timer queue. -/
def timerCallbacks (φ : Type) : PtrheapCallbacks Nat (Memory φ) where
  compar := compar
  setreccookie := some setreccookie

/-- A timer queue. -/
abbrev Timerqueue (φ : Type) := Ptrheap Nat (Memory φ)

/-- A memory fault in a function of the timer queue. -/
def inQueue {α : Type} (result : Except HeapFault α) : Except PtrheapFault α :=
  result.mapError .callback

/-- Create an empty timer queue; this takes memory for the queue, the heap and its array. -/
def timerqueueInit (m : Memory φ) : Except PtrheapFault (Option (Timerqueue φ) × Memory φ) :=
  if m.attempt.1 then .ok (none, m.attempt.2)
  else if m.attempt.2.attempt.1 then .ok (none, m.attempt.2.attempt.2)
  else if m.attempt.2.attempt.2.attempt.1 then .ok (none, m.attempt.2.attempt.2.attempt.2)
  else do
    let (m, H) ← ptrheapInit (timerCallbacks φ) m.attempt.2.attempt.2.attempt.2
    return (some H, m)

/-- Add a pair; return a cookie, or null on error. -/
def timerqueueAdd (m : Memory φ) (Q : Timerqueue φ) (tv : Timeval) (ptr : Nat) :
    Except PtrheapFault (Option Nat × Memory φ × Timerqueue φ) :=
  match m.alloc (.queued tv none ptr) with
  | (none, m) => .ok (none, m, Q)
  | (some r, m) => do
    let (failed, m) := m.attempt
    let (rc, m, Q) ← ptrheapAdd m Q r (!failed)
    if rc ≠ 0 then do
      let m ← inQueue (m.free (some r))
      return (none, m, Q)
    else return (some r, m, Q)

/-- Delete the pair with a cookie. -/
def timerqueueDelete (m : Memory φ) (Q : Timerqueue φ) (r : Nat) :
    Except PtrheapFault (Memory φ × Timerqueue φ) := do
  let rc ← inQueue (readPlace m r)
  let (m, Q) ← ptrheapDelete m Q rc
  let m ← inQueue (m.free (some r))
  return (m, Q)

/-- Increase the time of the pair with a cookie. -/
def timerqueueIncrease (m : Memory φ) (Q : Timerqueue φ) (r : Nat) (tv : Timeval) :
    Except PtrheapFault (Memory φ × Timerqueue φ) := do
  let (_, rc, ptr) ← inQueue (readQueued m r)
  let m ← inQueue (m.write r (.queued tv rc ptr))
  let rc ← inQueue (readPlace m r)
  ptrheapIncrease m Q rc

/-- The least time, if there is one. -/
def timerqueueGetmin (m : Memory φ) (Q : Timerqueue φ) : Except PtrheapFault (Option Timeval) :=
  match ptrheapGetmin Q with
  | none => .ok none
  | some r => do
    let (tv, _, _) ← inQueue (readQueued m r)
    return some tv

/-- Remove a pair with the least time and return its pointer, unless the time is later. -/
def timerqueueGetptr (m : Memory φ) (Q : Timerqueue φ) (tv : Timeval) :
    Except PtrheapFault (Option Nat × Memory φ × Timerqueue φ) :=
  match ptrheapGetmin Q with
  | none => .ok (none, m, Q)
  | some r => do
    let (least, _, _) ← inQueue (readQueued m r)
    if tvcmp least tv > 0 then return (none, m, Q)
    else do
      let (m, Q) ← ptrheapDeletemin m Q
      let (_, _, ptr) ← inQueue (readQueued m r)
      let m ← inQueue (m.free (some r))
      return (some ptr, m, Q)

end Tarsnap.Events
