import Mathlib.Data.List.Basic
import Mathlib.Logic.Function.Basic

/-!
# Registration of socket callbacks

A callback is registered for a descriptor and a direction, with a timeout. The record of a
descriptor and direction is kept and used again by later registrations; its fields are stale while
no callback is registered. Below are the events that the event loop delivers, timers and sockets,
each with the record that it is for. Invoking a callback is the last thing that a function does, so
that whatever the callback calls comes after it.
-/

namespace Tarsnap.Network

/-- Operations on a descriptor: `NETWORK_OP_READ` and `NETWORK_OP_WRITE`. -/
inductive NetworkOp where
  /-- Reading. -/
  | read
  /-- Writing. -/
  | write
deriving DecidableEq, Repr

/-- Statuses that are passed to callbacks. -/
inductive NetworkStatus where
  /-- Error connecting to server. -/
  | connerr
  /-- Error from recv/send. -/
  | err
  /-- Success. -/
  | ok
  /-- Timeout. -/
  | timeout
  /-- Timeout with empty buffer. -/
  | nodata
  /-- Timeout connecting to server. -/
  | ctimeout
  /-- Connection was closed. -/
  | closed
  /-- Operation cancelled. -/
  | cancel
  /-- Zero-byte write via writeq. -/
  | zerobyte
deriving DecidableEq, Repr

/-- A time or a length of time. -/
structure Timeval where
  /-- Seconds. -/
  tv_sec : Int
  /-- Microseconds. -/
  tv_usec : Int
deriving DecidableEq, Repr

/-- Where a record is: its direction and its descriptor. Records are never freed. -/
abbrev Slot := NetworkOp × Nat

/-- A timer that is pending. -/
structure Timer where
  /-- The cookie by which it is cancelled. -/
  id : Nat
  /-- The record that it is for. -/
  cookie : Slot
  /-- After which time it expires. -/
  timeo : Timeval
deriving DecidableEq

/-- The events that are pending. -/
structure Events where
  /-- The records that wait for a socket to be ready. -/
  network : NetworkOp → Nat → Option Slot
  /-- The timers. -/
  timers : List Timer

namespace Events

/-- Wait for a socket to be ready; this fails if something waits for it already, or by itself. -/
def networkRegister (E : Events) (cookie : Slot) (s : Nat) (op : NetworkOp) (fails : Bool) :
    Option Events :=
  if fails ∨ (E.network op s).isSome then none
  else some { E with
    network := Function.update E.network op (Function.update (E.network op) s (some cookie)) }

/-- Wait no longer for a socket; this fails if nothing waits for it. -/
def networkCancel (E : Events) (s : Nat) (op : NetworkOp) : Option Events :=
  if (E.network op s).isSome then
    some { E with network := Function.update E.network op (Function.update (E.network op) s none) }
  else none

/-- Start a timer, with the cookie that it gets, unless this fails. -/
def timerRegister (E : Events) (cookie : Slot) (timeo : Timeval) (id : Option Nat) :
    Option (Nat × Events) :=
  id.map fun id => (id, { E with timers := ⟨id, cookie, timeo⟩ :: E.timers })

/-- Stop a timer. -/
def timerCancel (E : Events) (id : Nat) : Events :=
  { E with timers := E.timers.filter (·.id ≠ id) }

end Events

/-- A record. The callback stands for the function and its cookie. -/
structure Callback (κ : Type) where
  /-- The callback, if one is registered. -/
  callback : Option κ
  /-- The descriptor. -/
  s : Nat
  /-- The direction of events. -/
  eop : NetworkOp
  /-- The socket event is pending. -/
  eventNetworkPending : Bool
  /-- The cookie of the timer. -/
  eventTimer : Option Nat

/-- The registered callbacks. -/
structure Registry (κ : Type) where
  /-- The sizes of the two arrays of records, if they exist. -/
  getsize : NetworkOp → Option Nat
  /-- The records in them. -/
  callbacks : NetworkOp → Nat → Option (Callback κ)
  /-- A direction is suspended. -/
  suspended : NetworkOp → Bool
  /-- The events that are pending. -/
  events : Events

/-- How a function ends. -/
inductive Ends (κ : Type) where
  /-- It returns a value. -/
  | returns (rc : Int)
  /-- It invokes the callback of a record and returns its value; without a callback this is a
  crash. -/
  | calls (slot : Slot) (cb : Option κ) (status : NetworkStatus)
deriving DecidableEq

/-- What may fail in a registration. -/
structure RegisterFaults where
  /-- There is no memory for the array. -/
  init : Bool
  /-- There is no memory for a larger array. -/
  resize : Bool
  /-- There is no memory for a record. -/
  malloc : Bool
  /-- The cookie of the timer, unless starting it fails. -/
  timer : Option Nat
  /-- Registering the socket event fails. -/
  network : Bool

/-- The number of descriptors. -/
def FD_SETSIZE : Nat := 1024

section Functions

variable {κ : Type}

/-- No callback was ever registered. -/
def Registry.empty : Registry κ where
  getsize _ := none
  callbacks _ _ := none
  suspended _ := false
  events := ⟨fun _ _ => none, []⟩

/-- The record of a slot. -/
def Registry.get (R : Registry κ) (slot : Slot) : Option (Callback κ) :=
  R.callbacks slot.1 slot.2

/-- Set the record of a slot. -/
def Registry.set (R : Registry κ) (slot : Slot) (c : Callback κ) : Registry κ :=
  { R with callbacks :=
      Function.update R.callbacks slot.1 (Function.update (R.callbacks slot.1) slot.2 (some c)) }

/-- Invoke the callback: the record is emptied before. -/
def docallback (R : Registry κ) (slot : Slot) (c : Callback κ) (status : NetworkStatus) :
    Ends κ × Registry κ :=
  let events := if c.eventNetworkPending then
    (R.events.networkCancel c.s c.eop).getD R.events else R.events
  let events := (c.eventTimer.map events.timerCancel).getD events
  (.calls slot c.callback status, { R with events }.set slot { c with callback := none })

/-- The timer of a record expired. -/
def callbackTimer (R : Registry κ) (slot : Slot) : Ends κ × Registry κ :=
  match R.get slot with
  | none => (.calls slot none .timeout, R)
  | some c => docallback R slot { c with eventTimer := none } .timeout

/-- The socket of a record is ready. -/
def callbackNetwork (R : Registry κ) (slot : Slot) : Ends κ × Registry κ :=
  match R.get slot with
  | none => (.calls slot none .ok, R)
  | some c => docallback R slot { c with eventNetworkPending := false } .ok

/-- The registry with an array that has a place for a descriptor, unless this fails. -/
def Registry.enlarge (R : Registry κ) (fd : Nat) (op : NetworkOp) (faults : RegisterFaults) :
    Option (Registry κ) :=
  match R.getsize op with
  | none =>
    if faults.init then none
    else if faults.resize then none
    else some { R with getsize := Function.update R.getsize op (some (fd + 1)) }
  | some osize =>
    if osize ≤ fd then
      if faults.resize then none
      else some { R with getsize := Function.update R.getsize op (some (fd + 1)) }
    else some R

/-- The second half of a registration: start the events of a record that has been filled. -/
def networkRegisterEvents (R : Registry κ) (slot : Slot) (c : Callback κ) (timeo : Timeval)
    (faults : RegisterFaults) : Int × Registry κ :=
  match R.events.timerRegister slot timeo faults.timer with
  | none => (-1, R.set slot { c with eventTimer := none })
  | some (timer, events) =>
    if R.suspended slot.1 = false then
      match events.networkRegister slot c.s c.eop faults.network with
      | none =>
        (-1, { R with events := events.timerCancel timer }.set slot { c with eventTimer := none })
      | some events => (0, { R with events }.set slot
          { c with eventTimer := some timer, eventNetworkPending := true })
    else (0, { R with events }.set slot
      { c with eventTimer := some timer, eventNetworkPending := false })

/-- Register a callback for a descriptor and an operation, with a timeout. -/
def networkRegister (R : Registry κ) (fd : Int) (op : NetworkOp) (timeo : Timeval) (cb : κ)
    (faults : RegisterFaults) : Int × Registry κ :=
  if fd < 0 ∨ (FD_SETSIZE : Int) ≤ fd then (-1, R)
  else
    let fd := fd.toNat
    match R.enlarge fd op faults with
    | none =>
      -- the array may have been created before it could not be enlarged
      (-1, if (R.getsize op).isNone ∧ faults.init = false then
        { R with getsize := Function.update R.getsize op (some 0) } else R)
    | some R =>
      match R.get (op, fd) with
      | none =>
        if faults.malloc then (-1, R)
        else networkRegisterEvents R (op, fd) ⟨some cb, fd, op, false, none⟩ timeo faults
      | some c =>
        -- "Replacing callback"
        if c.callback.isSome then (-1, R)
        else networkRegisterEvents R (op, fd) { c with callback := some cb, s := fd, eop := op }
          timeo faults

/-- Deregister the callback, if any; it is called with a status of `NETWORK_STATUS_CANCEL`. -/
def networkDeregister (R : Registry κ) (fd : Int) (op : NetworkOp) : Ends κ × Registry κ :=
  match R.getsize op with
  | none => (.returns 0, R)
  | some size =>
    if (size : Int) ≤ fd then (.returns 0, R)
    else if fd < 0 then (.returns (-1), R)
    else
      match R.get (op, fd.toNat) with
      | none => (.returns 0, R)
      | some c => if c.callback.isSome then docallback R (op, fd.toNat) c .cancel
          else (.returns 0, R)

/-- Cancel the socket event of one record. -/
def suspendOne (op : NetworkOp) (R : Registry κ) (i : Nat) : Int × Registry κ :=
  match R.get (op, i) with
  | none => (0, R)
  | some c =>
    if c.callback.isSome ∧ c.eventNetworkPending then
      let R := R.set (op, i) { c with eventNetworkPending := false }
      match R.events.networkCancel c.s c.eop with
      | none => (-1, R)
      | some events => (0, { R with events })
    else (0, R)

/-- Start the socket event of one record. -/
def resumeOne (op : NetworkOp) (fails : Nat → Bool) (R : Registry κ) (i : Nat) :
    Int × Registry κ :=
  match R.get (op, i) with
  | none => (0, R)
  | some c =>
    if c.callback.isSome ∧ c.eventNetworkPending = false then
      let R := R.set (op, i) { c with eventNetworkPending := true }
      match R.events.networkRegister (op, i) c.s c.eop (fails i) with
      | none => (-1, R)
      | some events => (0, { R with events })
    else (0, R)

/-- Scan through the callbacks, as long as there is no error. -/
def scan (visit : Registry κ → Nat → Int × Registry κ) : List Nat → Registry κ → Int × Registry κ
  | [], R => (0, R)
  | i :: rest, R =>
    match visit R i with
    | (0, R) => scan visit rest R
    | (_, R) => (-1, R)

/-- Suspend operations, on all file descriptors. -/
def networkRegisterSuspend (R : Registry κ) (op : NetworkOp) : Int × Registry κ :=
  let R := { R with suspended := Function.update R.suspended op true }
  scan (suspendOne op) (List.range ((R.getsize op).getD 0)) R

/-- Resume pending operations, on all file descriptors. -/
def networkRegisterResume (R : Registry κ) (op : NetworkOp) (fails : Nat → Bool) :
    Int × Registry κ :=
  let R := { R with suspended := Function.update R.suspended op false }
  scan (resumeOne op fails) (List.range ((R.getsize op).getD 0)) R

end Functions

end Tarsnap.Network
