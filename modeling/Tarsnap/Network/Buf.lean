import Tarsnap.Network.Register

/-!
# Buffered reads and writes

A buffer is read or written piece by piece, whenever the socket is ready and as far as the bandwidth
quota goes. The callback of an operation registers itself again until the buffer is complete, the
time is over, or there is an error; then it invokes the callback of the caller. What the system
calls answer is an argument here. A registration that fails registers nothing.
-/

namespace Tarsnap.Network

/-- `tv_lt`. -/
def Timeval.lt (a b : Timeval) : Bool :=
  a.tv_sec < b.tv_sec || (a.tv_sec == b.tv_sec && a.tv_usec < b.tv_usec)

/-- Set `tv += monoclock`, unless the clock fails. -/
def tvmathAddctime (tv : Timeval) (tnow : Option Timeval) : Option Timeval :=
  tnow.map fun tnow =>
    let usec := tv.tv_usec + tnow.tv_usec
    if 1000000 ≤ usec then ⟨tv.tv_sec + tnow.tv_sec + 1, usec - 1000000⟩
    else ⟨tv.tv_sec + tnow.tv_sec, usec⟩

/-- Set `tv -= monoclock`, unless the clock fails. -/
def tvmathSubctime (tv : Timeval) (tnow : Option Timeval) : Option Timeval :=
  tnow.map fun tnow =>
    let usec := tv.tv_usec - tnow.tv_usec
    if usec < 0 then ⟨tv.tv_sec - tnow.tv_sec - 1, usec + 1000000⟩
    else ⟨tv.tv_sec - tnow.tv_sec, usec⟩

/-- The two system calls: `RECV` and `SEND`. -/
inductive Sendrecv where
  /-- `recv`. -/
  | recv
  /-- `send`. -/
  | send
deriving DecidableEq, Repr

/-- The cookie of an operation. -/
structure NetworkBuf (κ : Type) where
  /-- The callback of the caller, with its cookie. -/
  callback : κ
  /-- The descriptor. -/
  fd : Int
  /-- The buffer. -/
  buf : List UInt8
  /-- Up to where the buffer has been transferred. -/
  bufpos : Nat
  /-- When to give up. -/
  timeout : Timeval
  /-- The maximum time that any single send/recv will wait. -/
  timeoutMax : Timeval
  /-- Which system call transfers. -/
  sendrecv : Sendrecv
  /-- For which direction the callback is registered. -/
  netop : NetworkOp

/-- What `send` or `recv` does. -/
inductive Transfer where
  /-- It fails; with `EAGAIN`, `EWOULDBLOCK` or `EINTR` it shall be tried again. -/
  | fails (again : Bool)
  /-- It transfers bytes; none if the remote host has shut down the socket. -/
  | moves (data : List UInt8)
deriving DecidableEq, Repr

/-- What the calls that a callback makes answer. -/
structure Io where
  /-- The bandwidth quota, unless `network_bwlimit_get` fails. -/
  bwlimit : Option Nat
  /-- `SIGPIPE` could be ignored; this is needed without `MSG_NOSIGNAL`. -/
  ignored : Bool
  /-- What the transfer does. -/
  transfer : Transfer
  /-- The handling of `SIGPIPE` could be restored. -/
  restored : Bool
  /-- `network_bwlimit_eat` succeeds; it charges the quota in any case. -/
  eaten : Bool
  /-- The time, unless the clock fails. -/
  now : Option Timeval
deriving DecidableEq, Repr

/-- Where a callback goes after the transfer. -/
inductive Next where
  /-- To `tryagain`: the callback is registered again. -/
  | tryagain (timeo : Timeval)
  /-- To `docallback`: the callback of the caller is invoked. -/
  | docallback (status : NetworkStatus)
deriving DecidableEq, Repr

/-- What a callback does before it registers itself again or invokes the callback of the caller. -/
structure Turn (κ : Type) where
  /-- The cookie afterwards. -/
  cookie : NetworkBuf κ
  /-- The bytes that were transferred. -/
  moved : List UInt8
  /-- The quota that was consumed. -/
  eaten : Nat
  /-- Where it goes. -/
  next : Next

section Functions

variable {κ : Type}

/-- How much is transferred at most. -/
def NetworkBuf.oplen (C : NetworkBuf κ) (bwlimit : Nat) : Nat :=
  min (C.buf.length - C.bufpos) bwlimit

/-- Bytes that are received go into the buffer. -/
def NetworkBuf.store (C : NetworkBuf κ) (data : List UInt8) : NetworkBuf κ :=
  match C.sendrecv with
  | .recv => { C with buf := C.buf.take C.bufpos ++ data ++ C.buf.drop (C.bufpos + data.length) }
  | .send => C

/-- Reset the callback, for the time that is left but no longer than a single wait. -/
def tryagain (C : NetworkBuf κ) (moved : List UInt8) (eaten : Nat) (io : Io) : Turn κ :=
  match tvmathSubctime C.timeout io.now with
  | none => ⟨C, moved, eaten, .docallback .err⟩
  | some timeo =>
    ⟨C, moved, eaten, .tryagain (if C.timeoutMax.lt timeo then C.timeoutMax else timeo)⟩

/-- What becomes of a transfer. -/
def transferred (C : NetworkBuf κ) (io : Io) : Turn κ :=
  match io.transfer with
  | .fails again => if again then tryagain C [] 0 io else ⟨C, [], 0, .docallback .err⟩
  | .moves [] => ⟨C, [], 0, .docallback .closed⟩
  | .moves data =>
    if io.eaten = false then ⟨C.store data, data, data.length, .docallback .err⟩
    else
      let C := { C.store data with bufpos := C.bufpos + data.length }
      if C.bufpos = C.buf.length then ⟨C, data, data.length, .docallback .ok⟩
      else tryagain C data data.length io

/-- The bytes that a transfer moves. -/
def Transfer.data : Transfer → List UInt8
  | .fails _ => []
  | .moves data => data

/-- The callback of an operation, up to where it registers itself again or invokes the callback of
the caller. -/
def callbackBufTurn (msgNosignal : Bool) (C : NetworkBuf κ) (status : NetworkStatus) (io : Io) :
    Turn κ :=
  if status ≠ .ok then
    ⟨C, [], 0, .docallback (if C.bufpos = 0 ∧ status = .timeout then .nodata else status)⟩
  else
    match io.bwlimit with
    | none => ⟨C, [], 0, .docallback .err⟩
    | some bwlimit =>
      if bwlimit = 0 then tryagain C [] 0 io
      else if msgNosignal = false ∧ io.ignored = false then ⟨C, [], 0, .docallback .err⟩
      else if msgNosignal = false ∧ io.restored = false then
        ⟨C.store io.transfer.data, io.transfer.data, 0, .docallback .err⟩
      else transferred C io

/-- What is registered after a callback, or the status for the callback of the caller. -/
def callbackBuf (msgNosignal : Bool) (C : NetworkBuf κ) (status : NetworkStatus) (io : Io)
    (registered : Bool) : Turn κ :=
  let turn := callbackBufTurn msgNosignal C status io
  match turn.next with
  | .tryagain _ => if registered then turn else { turn with next := .docallback .err }
  | .docallback _ => turn

/-- Prepare an operation: the cookie, and for how long it is registered first, unless there is no
memory or the clock fails. -/
def networkBuf (fd : Int) (buf : List UInt8) (to0 to1 : Timeval) (callback : κ)
    (sendrecv : Sendrecv) (netop : NetworkOp) (malloc : Bool) (now : Option Timeval) :
    Option (NetworkBuf κ × Timeval) :=
  if malloc then none
  else
    (tvmathAddctime to1 now).map fun timeout =>
      (⟨callback, fd, buf, 0, timeout, to0, sendrecv, netop⟩, if to0.lt to1 then to0 else to1)

/-- Read into a buffer, which must not be empty. -/
def tsnetworkRead (fd : Int) (buf : List UInt8) (to0 to1 : Timeval) (callback : κ) (malloc : Bool)
    (now : Option Timeval) : Option (NetworkBuf κ × Timeval) :=
  if buf.length = 0 then none else networkBuf fd buf to0 to1 callback .recv .read malloc now

/-- Write a buffer. -/
def tsnetworkWrite (fd : Int) (buf : List UInt8) (to0 to1 : Timeval) (callback : κ) (malloc : Bool)
    (now : Option Timeval) : Option (NetworkBuf κ × Timeval) :=
  networkBuf fd buf to0 to1 callback .send .write malloc now

end Functions

end Tarsnap.Network
