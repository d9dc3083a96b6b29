import Tarsnap.Lib.Heap
import Tarsnap.Netproto.Session
import Tarsnap.Network.Register

/-!
# The key exchange

The key exchange with the server is a chain of writes and reads, each of which is started by the
callback of the one before. The callbacks share a record on the heap, which counts how many of them
are still to be invoked; the last one frees it. Once something goes wrong the upstream callback is
told, and it may cancel all that is pending, which invokes the callbacks of the pending writes and
the pending read while the first one is still running.

The writes are invoked in the order in which they were queued. Whether the calls succeed that may
fail is decided in advance, as for allocations.
-/

namespace Tarsnap.Netproto.Keyexchange

open Tarsnap.Lib Tarsnap.Netpacket Tarsnap.Network

/-- Length of a public Diffie-Hellman value. -/
def CRYPTO_DH_PUBLEN : Nat := 256

/-- The callbacks of a key exchange. -/
inductive Callback where
  /-- The protocol version was sent. -/
  | protoSent
  /-- The server's protocol version was received. -/
  | protoReceived
  /-- The length of the user-agent name was sent. -/
  | namelenSent
  /-- The user-agent name was sent. -/
  | nameSent
  /-- The server's Diffie-Hellman value was received. -/
  | dhReceived
  /-- The client's Diffie-Hellman value was sent. -/
  | dhSent
  /-- The client's proof was sent. -/
  | proofSent
  /-- The server's proof was received. -/
  | proofReceived
deriving DecidableEq, Repr

/-- What the upstream callback is told. -/
inductive Status where
  /-- A status of the network layer. -/
  | network (status : NetworkStatus)
  /-- The server violates the protocol. -/
  | proterr
deriving DecidableEq, Repr

/-- What goes wrong in the program. -/
inductive Fault where
  /-- Memory is used in a wrong way. -/
  | memory (fault : HeapFault)
  /-- The upstream callback is invoked within itself, or the queue never becomes empty. -/
  | diverges
deriving DecidableEq, Repr

/-- The cryptographic functions of the key exchange. -/
structure KeyPrimitives where
  /-- Those of the session. -/
  session : Primitives
  /-- Whether a signature of some data by the server is valid. -/
  rsaVerify : List UInt8 → List UInt8 → Bool
  /-- Whether a public Diffie-Hellman value is sane. -/
  dhSane : List UInt8 → Bool
  /-- The key that both sides share, from the server's value, the private key and the nonce. -/
  sharedKey : List UInt8 → List UInt8 → List UInt8 → List UInt8

/-- The record of a key exchange. -/
structure Record where
  /-- The address of the user-agent name. -/
  useragent : Nat
  /-- The length of the user-agent name. -/
  useragentlen : UInt8
  /-- The upstream callback is still to be invoked. -/
  callback : Bool
  /-- How many callbacks are still to be invoked. -/
  refcount : UInt64
  /-- The server's protocol version. -/
  serverproto : UInt8
  /-- The server's Diffie-Hellman value, its signature and a nonce. -/
  serverparams : List UInt8
  /-- The client's Diffie-Hellman value. -/
  pub : List UInt8
  /-- The client's private key. -/
  priv : List UInt8
  /-- The shared key. -/
  mkey : List UInt8
  /-- The client's proof. -/
  clientproof : List UInt8
  /-- The server's proof. -/
  serverproof : List UInt8

/-- What is in memory. -/
inductive Object where
  /-- The record of a key exchange. -/
  | record (KC : Record)
  /-- A string. -/
  | string (bytes : List UInt8)

/-- A key exchange, with the connection that it uses. -/
structure Exchange where
  /-- The memory. -/
  heap : Heap Object
  /-- The address of the record, the cookie of the callbacks. -/
  cookie : Nat
  /-- The callbacks of the writes in the queue, with the bytes that are written. -/
  writes : List (Callback × List UInt8)
  /-- The callback of the read that was started. -/
  read : Option Callback
  /-- The keys of the session. -/
  keys : Option Session
  /-- How many bytes were received. -/
  bytesin : UInt64
  /-- How many bytes were sent. -/
  bytesout : UInt64
  /-- What the upstream callback was told. -/
  told : List Status
  /-- What was received for which callback. -/
  received : List (Callback × List UInt8)
  /-- The pairs of a public and a private key that were generated. -/
  generated : List (List UInt8 × List UInt8)

section Memory

/-- A use of memory. -/
def access {α : Type} (result : Except HeapFault α) : Except Fault α := result.mapError .memory

/-- Read the record. -/
def getRecord (x : Exchange) : Except Fault Record := do
  match ← access (x.heap.read x.cookie) with
  | .record KC => return KC
  | .string _ => .error (.memory .mistaken)

/-- Overwrite the record. -/
def setRecord (x : Exchange) (KC : Record) : Except Fault Exchange := do
  let heap ← access (x.heap.write x.cookie (.record KC))
  return { x with heap }

/-- Read a string. -/
def getString (x : Exchange) (id : Nat) : Except Fault (List UInt8) := do
  match ← access (x.heap.read id) with
  | .record _ => .error (.memory .mistaken)
  | .string bytes => return bytes

/-- Free the user-agent name and the record. -/
def freeRecord (x : Exchange) : Except Fault Exchange := do
  let KC ← getRecord x
  let heap ← access (x.heap.free (some KC.useragent))
  let heap ← access (heap.free (some x.cookie))
  return { x with heap }

/-- A call that may fail, and whether it does. -/
def attempted (x : Exchange) : Bool × Exchange :=
  (x.heap.attempt.1, { x with heap := x.heap.attempt.2 })

/-- Add a buffer to the write queue. Return whether this fails. -/
def networkWriteqAdd (x : Exchange) (buf : List UInt8) (callback : Callback) : Bool × Exchange :=
  let (fails, x) := attempted x
  (fails, if fails then x else { x with writes := x.writes ++ [(callback, buf)] })

/-- Start to read. Return whether this fails; it does if a read was started before. -/
def tsnetworkRead (x : Exchange) (callback : Callback) : Bool × Exchange :=
  let (fails, x) := attempted x
  if fails || x.read.isSome then (true, x) else (false, { x with read := some callback })

end Memory

section Callbacks

variable (K : KeyPrimitives) (upstream : Status → Exchange → Except Fault (Int × Exchange))

/-- Call the upstream callback, unless it was called before. -/
def docallback (status : Status) (x : Exchange) : Except Fault (Int × Exchange) := do
  let KC ← getRecord x
  let x ← setRecord x { KC with callback := false }
  if KC.callback then upstream status { x with told := x.told ++ [status] } else return (0, x)

/-- Something went wrong: let the upstream callback handle it, and free the record if this was the
last reference. -/
def errored (status : Status) (x : Exchange) : Except Fault (Int × Exchange) := do
  let (rc, x) ← docallback upstream status x
  let KC ← getRecord x
  let x ← setRecord x { KC with refcount := KC.refcount - 1 }
  if KC.refcount = 1 then do
    let x ← freeRecord x
    return (rc, x)
  else return (rc, x)

/-- The protocol version was sent. Read the server protocol version. -/
def protoSent (x : Exchange) : Except Fault (Int × Exchange) := do
  let _ ← getRecord x
  let (fails, x) := tsnetworkRead { x with bytesout := x.bytesout + 1 } .protoReceived
  if fails then errored upstream (.network .err) x else return (0, x)

/-- The server protocol version was received. Send our identity. -/
def protoReceived (x : Exchange) : Except Fault (Int × Exchange) := do
  let KC ← getRecord x
  let x := { x with bytesin := x.bytesin + 1 }
  if KC.serverproto ≠ 0 then errored upstream .proterr x
  else do
    let (fails, x) := networkWriteqAdd x [KC.useragentlen] .namelenSent
    if fails then errored upstream (.network .err) x
    else do
      let KC ← getRecord x
      let x ← setRecord x { KC with refcount := KC.refcount + 1 }
      let useragent ← getString x KC.useragent
      let (fails, x) := networkWriteqAdd x useragent .nameSent
      if fails then errored upstream (.network .err) x else return (0, x)

/-- The length of the user-agent name was sent. We're not asking for another callback. -/
def namelenSent (x : Exchange) : Except Fault (Int × Exchange) := do
  let KC ← getRecord x
  let x ← setRecord { x with bytesout := x.bytesout + 1 } { KC with refcount := KC.refcount - 1 }
  return (0, x)

/-- The user-agent name was sent. Read the server crypto parameters. -/
def nameSent (x : Exchange) : Except Fault (Int × Exchange) := do
  let KC ← getRecord x
  let (fails, x) :=
    tsnetworkRead { x with bytesout := x.bytesout + KC.useragentlen.toUInt64 } .dhReceived
  if fails then errored upstream (.network .err) x else return (0, x)

/-- The server's value was received. Check it, generate a pair of keys and send the public one. -/
def dhReceived (pair : List UInt8 × List UInt8) (x : Exchange) :
    Except Fault (Int × Exchange) := do
  let KC ← getRecord x
  let x := { x with bytesin := x.bytesin + 544 }
  let value := KC.serverparams.take CRYPTO_DH_PUBLEN
  let (fails, x) := attempted x
  if fails then errored upstream (.network .err) x
  else if K.rsaVerify value ((KC.serverparams.drop CRYPTO_DH_PUBLEN).take 256) = false then
    errored upstream .proterr x
  else if K.dhSane value = false then errored upstream .proterr x
  else do
    let (fails, x) := attempted x
    if fails then errored upstream (.network .err) x
    else do
      let x ← setRecord { x with generated := x.generated ++ [pair] }
        { KC with pub := pair.1, priv := pair.2 }
      let (fails, x) := networkWriteqAdd x pair.1 .dhSent
      if fails then errored upstream (.network .err) x else return (0, x)

/-- The shared key, from what the server sent and a private key. -/
def exchangedKey (serverparams priv : List UInt8) : List UInt8 :=
  K.sharedKey (serverparams.take CRYPTO_DH_PUBLEN) priv
    ((serverparams.drop (CRYPTO_DH_PUBLEN + 256)).take 32)

/-- The session that is set up with a shared key. -/
def initialSession (mkey : List UInt8) : Session :=
  cryptoSessionInit K.session mkey clientEncr clientAuth serverEncr serverAuth

/-- The client's value was sent. Construct session keys, and send the proof of key possession. -/
def dhSent (x : Exchange) : Except Fault (Int × Exchange) := do
  let KC ← getRecord x
  let x := { x with bytesout := x.bytesout + 256 }
  let (fails, x) := attempted x
  if fails then errored upstream (.network .err) { x with keys := none }
  else do
    let mkey := exchangedKey K KC.serverparams KC.priv
    let (clientproof, keys) := cryptoSessionSign K.session (initialSession K mkey) mkey
    let x ← setRecord { x with keys := some keys } { KC with mkey, clientproof }
    let (fails, x) := networkWriteqAdd x clientproof .proofSent
    if fails then errored upstream (.network .err) x else return (0, x)

/-- The client's proof was sent. Read the server proof. -/
def proofSent (x : Exchange) : Except Fault (Int × Exchange) := do
  let _ ← getRecord x
  let (fails, x) := tsnetworkRead { x with bytesout := x.bytesout + 32 } .proofReceived
  if fails then errored upstream (.network .err) x else return (0, x)

/-- Whether the server proof is valid, if it was received. -/
def checkProof (status : NetworkStatus) (x : Exchange) : Except Fault (Status × Exchange) := do
  if status = .ok then do
    let KC ← getRecord x
    match x.keys with
    | none => .error (.memory .useAfterFree)
    | some keys =>
      let (valid, keys) := cryptoSessionVerify K.session keys KC.mkey KC.serverproof
      return (if valid then .network .ok else .proterr,
        { x with bytesin := x.bytesin + 32, keys := some keys })
  else return (.network status, x)

/-- The server's proof was received, or not. -/
def proofReceived (status : NetworkStatus) (x : Exchange) : Except Fault (Int × Exchange) := do
  let KC ← getRecord x
  if KC.refcount ≠ 1 then return (-1, x)
  else do
    let (status, x) ← checkProof K status x
    let (rc, x) ← docallback upstream status x
    let x ← freeRecord x
    return (rc, x)

/-- Invoke a callback. -/
def invoke (pair : List UInt8 × List UInt8) (callback : Callback) (status : NetworkStatus)
    (x : Exchange) : Except Fault (Int × Exchange) :=
  if callback = .proofReceived then proofReceived K upstream status x
  else if status ≠ .ok then errored upstream (.network status) x
  else
    match callback with
    | .protoSent => protoSent upstream x
    | .protoReceived => protoReceived upstream x
    | .namelenSent => namelenSent x
    | .nameSent => nameSent upstream x
    | .dhReceived => dhReceived K upstream pair x
    | .dhSent => dhSent K upstream x
    | .proofSent => proofSent upstream x
    | .proofReceived => proofReceived K upstream status x

/-- Cancel so many writes, until the queue is empty. -/
def networkWriteqCancel (pair : List UInt8 × List UInt8) :
    Nat → Exchange → Except Fault (Int × Exchange)
  | 0, x => if x.writes = [] then .ok (0, x) else .error .diverges
  | count + 1, x =>
    match x.writes with
    | [] => .ok (0, x)
    | (callback, _) :: writes => do
      let (rc, x) ← invoke K upstream pair callback .cancel { x with writes }
      let (rc2, x) ← networkWriteqCancel pair count x
      return (if rc ≠ 0 then rc else rc2, x)

/-- Cancel all pending writes and any read that was started. -/
def netprotoFlush (pair : List UInt8 × List UInt8) (x : Exchange) :
    Except Fault (Int × Exchange) := do
  let (rc, x) ← networkWriteqCancel K upstream pair x.writes.length x
  match x.read with
  | none => return (rc, x)
  | some callback => do
    let (rc2, x) ← invoke K upstream pair callback .cancel { x with read := none }
    return (if rc = 0 then rc2 else rc, x)

end Callbacks

section Runs

variable (K : KeyPrimitives)

/-- What the upstream callback does when it is told a status. -/
structure Reaction where
  /-- It cancels all that is pending. -/
  flushes : Bool
  /-- It returns this. -/
  rc : Int

/-- What happens to a key exchange. -/
inductive Event where
  /-- The write at the head of the queue is done, or fails. -/
  | written (status : NetworkStatus)
  /-- The read is done, or fails. -/
  | read (status : NetworkStatus) (data : List UInt8)
  /-- All that is pending is cancelled. -/
  | flush

/-- What happens, with the keys that would be generated and what the upstream callback would do. -/
structure Step where
  /-- The event. -/
  event : Event
  /-- A public and a private key. -/
  pair : List UInt8 × List UInt8
  /-- What the upstream callback does. -/
  reaction : Status → Reaction

/-- The upstream callback, with the number of times that it may be invoked within itself. -/
def upstreamOf (s : Step) : Nat → Status → Exchange → Except Fault (Int × Exchange)
  | 0, _, _ => .error .diverges
  | depth + 1, status, x =>
    if (s.reaction status).flushes then do
      let (_, x) ← netprotoFlush K (upstreamOf s depth) s.pair x
      return ((s.reaction status).rc, x)
    else .ok ((s.reaction status).rc, x)

/-- How much is read for a callback. -/
def readLength : Callback → Nat
  | .protoReceived => 1
  | .dhReceived => CRYPTO_DH_PUBLEN + 256 + 32
  | .proofReceived => 32
  | _ => 0

/-- What was received is in the record. -/
def storeReceived (callback : Callback) (data : List UInt8) (KC : Record) : Record :=
  match callback with
  | .protoReceived => { KC with serverproto := data.headD 0 }
  | .dhReceived => { KC with serverparams := data }
  | .proofReceived => { KC with serverproof := data }
  | _ => KC

/-- Something happens; what cannot happen does nothing. -/
def step (x : Exchange) (s : Step) : Except Fault Exchange :=
  let upstream := upstreamOf K s 1
  match s.event with
  | .written status =>
    match x.writes with
    | [] => .ok x
    | (callback, _) :: writes => do
      let (_, x) ← invoke K upstream s.pair callback status { x with writes }
      return x
  | .read status data =>
    match x.read with
    | none => .ok x
    | some callback =>
      if status = .ok then
        if data.length = readLength callback then do
          let KC ← getRecord x
          let x ← setRecord x (storeReceived callback data KC)
          let (_, x) ← invoke K upstream s.pair callback .ok
            { x with read := none, received := x.received ++ [(callback, data)] }
          return x
        else .ok x
      else do
        let (_, x) ← invoke K upstream s.pair callback status { x with read := none }
        return x
  | .flush => do
    let (_, x) ← netprotoFlush K upstream s.pair x
    return x

/-- A record before anything is received. -/
def newRecord (useragent : Nat) (useragentlen : UInt8) : Record :=
  ⟨useragent, useragentlen, true, 1, 0, [], [], [], [], [], []⟩

/-- Start a key exchange: the exchange, if it could be started, and the memory. -/
def netprotoKeyexchange (h : Heap Object) (useragent : List UInt8) :
    Except Fault (Option Exchange × Heap Object) :=
  if useragent.length < 1 ∨ 255 < useragent.length then .ok (none, h)
  else do
    let useragentlen := UInt8.ofNat useragent.length
    let (KC, h) := h.alloc (.record (newRecord 0 useragentlen))
    match KC with
    | none => return (none, h)
    | some cookie => do
      let (copy, h) := h.alloc (.string useragent)
      match copy with
      | none => do
        let h ← access (h.free (some cookie))
        return (none, h)
      | some copy => do
        let h ← access (h.write cookie (.record (newRecord copy useragentlen)))
        let (fails, h) := h.attempt
        if fails then do
          let h ← access (h.free (some copy))
          let h ← access (h.free (some cookie))
          return (none, h)
        else return (some ⟨h, cookie, [(.protoSent, [0])], none, none, 0, 0, [], [], []⟩, h)

/-- A run of a key exchange. -/
def run (x : Exchange) (steps : List Step) : Except Fault Exchange := steps.foldlM (step K) x

end Runs

end Tarsnap.Netproto.Keyexchange
