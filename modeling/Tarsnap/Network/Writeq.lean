import Tarsnap.Network.Buf
import Tarsnap.Network.FailedRegister

/-!
# The queue of buffers to be written

A queue of buffers for one socket; the buffer at its head is being written. When that is done, its
callback removes it from the queue, starts to write the next one and invokes the callback of the
buffer. To cancel the queue, the callback of the socket is deregistered again and again: each time,
the buffer at the head is removed and the next one registered.
-/

namespace Tarsnap.Network

/-- A callback that is registered for a socket: that of a buffer that is being written, by the
address of its cookie, or another one. -/
inductive Registrant (γ : Type) where
  /-- A buffer is being written for the queue. -/
  | buf (cookie : Nat)
  /-- Anything else. -/
  | other (cb : γ)

/-- A buffer in the queue. -/
structure WriteqBuf (β : Type) where
  /-- The bytes. -/
  buf : List UInt8
  /-- The timeout. -/
  timeo : Timeval
  /-- The timeout is a point in time. -/
  abstimeo : Bool
  /-- The callback of the buffer, with its cookie. -/
  callback : β

/-- A queue, with the registry and the cookies of the buffers that are being written. -/
structure Writeq (β γ : Type) where
  /-- The socket. -/
  fd : Int
  /-- The buffers in the queue. -/
  head : List (WriteqBuf β)
  /-- The registered callbacks, for all sockets. -/
  registry : Registry (Registrant γ)
  /-- The cookies that are allocated. -/
  cookies : Nat → Option (NetworkBuf Unit)

/-- What the calls answer that are made to start a write. -/
structure WriteAnswers where
  /-- The time, for an absolute timeout. -/
  subctime : Option Timeval
  /-- The address of the cookie, if there is memory for it. -/
  malloc : Option Nat
  /-- The time, for the end of the operation. -/
  addctime : Option Timeval
  /-- What fails in the registration. -/
  register : RegisterFaults

/-- What the calls answer that are made when a callback is invoked. -/
structure Answers where
  /-- About the transfer. -/
  io : Io
  /-- What fails when the callback is registered again. -/
  again : RegisterFaults
  /-- About the write of the next buffer. -/
  write : WriteAnswers
  /-- The socket could be uncorked. -/
  uncorks : Bool

/-- What the owners of the buffers hear. -/
inductive Told (β : Type) where
  /-- Nothing. -/
  | nothing
  /-- The callback of a buffer is invoked. -/
  | calls (callback : β) (status : NetworkStatus)
  /-- The program reads from memory that is not its own. -/
  | crash

section Functions

variable {β γ : Type}

/-- The write of the buffer at the head up to its registration: its cookie, for how long it is
registered first, and the address of the cookie. -/
def dowritePrepare (Q : Writeq β γ) (answers : WriteAnswers) :
    Option (NetworkBuf Unit × Timeval × Nat) :=
  match Q.head with
  | [] => none
  | QB :: _ => do
    let timeo ← (if QB.abstimeo then tvmathSubctime QB.timeo answers.subctime else some QB.timeo)
    let (C, time) ← tsnetworkWrite Q.fd QB.buf timeo timeo () answers.malloc.isNone answers.addctime
    let address ← answers.malloc
    return (C, time, address)

/-- Start to write the buffer at the head. -/
def dowrite (Q : Writeq β γ) (answers : WriteAnswers) : Int × Writeq β γ :=
  match dowritePrepare Q answers with
  | none => (-1, Q)
  | some (C, timeo, address) =>
    match networkRegister Q.registry C.fd C.netop timeo (.buf address) answers.register with
    | (0, registry) =>
      (0, { Q with registry, cookies := Function.update Q.cookies address (some C) })
    -- the cookie is freed
    | (_, registry) => (-1, { Q with registry })

/-- The buffer at the head was written, or not; it is removed and the next one is written. -/
def callbackBufdone (Q : Writeq β γ) (status : NetworkStatus) (answers : Answers) :
    Told β × Writeq β γ :=
  match Q.head with
  | [] => (.crash, Q)
  | headOld :: rest =>
    let status := if status = .closed ∧ headOld.buf.length = 0 then .zerobyte else status
    let Q := { Q with head := rest }
    if rest = [] then
      (.calls headOld.callback (if status = .ok ∧ answers.uncorks = false then .err else status), Q)
    else (.calls headOld.callback status, (dowrite Q answers.write).2)

/-- The callback of the buffer that is being written invokes the one of the queue, and its cookie is
freed. -/
def bufDocallback (Q : Writeq β γ) (cookie : Nat) (status : NetworkStatus) (answers : Answers) :
    Told β × Writeq β γ :=
  let (told, Q) := callbackBufdone Q status answers
  (told, { Q with cookies := Function.update Q.cookies cookie none })

/-- The callback of the buffer that is being written is invoked. -/
def bufCallback (msgNosignal : Bool) (Q : Writeq β γ) (cookie : Nat) (status : NetworkStatus)
    (answers : Answers) : Told β × Writeq β γ :=
  match Q.cookies cookie with
  | none => (.crash, Q)
  | some C =>
    let turn := callbackBufTurn msgNosignal C status answers.io
    match turn.next with
    | .docallback status => bufDocallback Q cookie status answers
    | .tryagain timeo =>
      match networkRegister Q.registry C.fd C.netop timeo (.buf cookie) answers.again with
      | (0, registry) =>
        (.nothing,
          { Q with registry, cookies := Function.update Q.cookies cookie (some turn.cookie) })
      | (_, registry) => bufDocallback { Q with registry } cookie .err answers

/-- The registry is left with a callback to invoke, or not. -/
def dispatch (msgNosignal : Bool) (Q : Writeq β γ) (ends : Ends (Registrant γ))
    (answers : Answers) : Told β × Writeq β γ :=
  match ends with
  | .returns _ => (.nothing, Q)
  | .calls _ none _ => (.crash, Q)
  | .calls _ (some (.other _)) _ => (.nothing, Q)
  | .calls _ (some (.buf cookie)) status => bufCallback msgNosignal Q cookie status answers

/-- A queue without buffers. -/
def networkWriteqInit (fd : Int) (registry : Registry (Registrant γ)) : Writeq β γ :=
  ⟨fd, [], registry, fun _ => none⟩

/-- Add a buffer to the queue; if it is the first one, the socket is corked and the buffer is
written. -/
def networkWriteqAdd (Q : Writeq β γ) (QB : WriteqBuf β) (malloc : Bool)
    (addctime : Option Timeval) (corks : Bool) (answers : WriteAnswers) : Int × Writeq β γ :=
  if malloc then (-1, Q)
  else
    match if QB.abstimeo then tvmathAddctime QB.timeo addctime else some QB.timeo with
    | none => (-1, Q)
    | some timeo =>
      let added := { Q with head := Q.head ++ [{ QB with timeo }] }
      if Q.head = [] then
        if corks = false then (-1, Q)
        else
          match dowrite added answers with
          | (0, Q) => (0, Q)
          | (_, failed) => (-1, { failed with head := Q.head })
      else (0, added)

/-- Deregister callbacks until the queue is empty, at most a number of times. -/
def networkWriteqCancel (msgNosignal : Bool) (answers : Writeq β γ → Answers) :
    Nat → Writeq β γ → Option (List (Told β) × Writeq β γ)
  | 0, Q => if Q.head = [] then some ([], Q) else none
  | times + 1, Q =>
    if Q.head = [] then some ([], Q)
    else
      let (ends, registry) := networkDeregister Q.registry Q.fd .write
      let Q := { Q with registry }
      let (told, Q) := dispatch msgNosignal Q ends (answers Q)
      (networkWriteqCancel msgNosignal answers times Q).map fun (rest, Q) => (told :: rest, Q)

end Functions

end Tarsnap.Network
