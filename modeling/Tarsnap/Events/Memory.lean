import Mathlib
import Tarsnap.Lib.Heap

/-!
# The memory of the event loop

Event records, the records of timers and those of the timer queue are objects of one heap. Times
are pairs of seconds and microseconds.
-/

open Tarsnap.Lib

namespace Tarsnap.Events

/-- A time. -/
structure Timeval where
  /-- Seconds; a `time_t` is taken to have room for the sums of times and timeouts. -/
  sec : Int
  /-- Microseconds. -/
  usec : Int
deriving DecidableEq, Repr

/-- Compare two timevals. -/
def tvcmp (x y : Timeval) : Int :=
  if x.sec > y.sec then 1
  else if x.sec < y.sec then -1
  else if x.usec > y.usec then 1
  else if x.usec < y.usec then -1
  else 0

/-- Times are ordered by their seconds, then by their microseconds. -/
def Timeval.key (tv : Timeval) : Int ×ₗ Int := toLex (tv.sec, tv.usec)

/-- The microseconds are less than a second. -/
def Timeval.Normal (tv : Timeval) : Prop := 0 ≤ tv.usec ∧ tv.usec < 1000000

instance (tv : Timeval) : Decidable tv.Normal :=
  inferInstanceAs (Decidable (0 ≤ tv.usec ∧ tv.usec < 1000000))

/-- A time in microseconds. -/
def Timeval.micros (tv : Timeval) : Int := tv.sec * 1000000 + tv.usec

/-- Objects, with functions and their cookies of some type. -/
inductive Object (φ : Type) where
  /-- An event: a function to be called. -/
  | event (func : φ)
  /-- A pair in a timer queue, with its place in the heap once it was told. -/
  | queued (tv : Timeval) (rc : Option Nat) (ptr : Nat)
  /-- A timer: its event, its place in the timer queue once it has one, and its timeout. -/
  | timer (r : Nat) (cookie : Option Nat) (tvOrig : Timeval)

/-- The memory. -/
abbrev Memory (φ : Type) := Heap (Object φ)

variable {φ : Type}

/-- Package a function into an event record. -/
def eventsMkrec (m : Memory φ) (func : φ) : Option Nat × Memory φ := m.alloc (.event func)

/-- Free an event record. -/
def eventsFreerec (m : Memory φ) (r : Nat) : Except HeapFault (Memory φ) := m.free (some r)

/-- The order of the comparison. -/
theorem tvcmp_spec (x y : Timeval) :
    (tvcmp x y < 0 ↔ x.key < y.key) ∧ (0 < tvcmp x y ↔ y.key < x.key) := by
  unfold tvcmp Timeval.key
  rw [Prod.Lex.toLex_lt_toLex, Prod.Lex.toLex_lt_toLex]
  dsimp only
  split_ifs <;> constructor <;> constructor <;> intro <;> omega

/-- Normal times are ordered by their microseconds. -/
theorem Timeval.key_le_iff {x y : Timeval} (normal : x.Normal) (normal' : y.Normal) :
    x.key ≤ y.key ↔ x.micros ≤ y.micros := by
  unfold Timeval.key Timeval.micros
  obtain ⟨low, high⟩ := normal
  obtain ⟨low', high'⟩ := normal'
  rw [Prod.Lex.toLex_le_toLex]
  dsimp only
  constructor <;> intro <;> omega

end Tarsnap.Events
