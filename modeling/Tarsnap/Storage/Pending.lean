import Tarsnap.Netpacket.Operations
import Tarsnap.Storage.Responses

/-!
# Pending requests of a transaction

A write transaction counts the bytes, and a delete transaction the requests, that the server has
not acknowledged. A request is counted before it is queued on a connection, and the handler of its
response takes it off when the response says so. A call waits while too much is pending, and a
flush waits until nothing is.
-/

namespace Tarsnap.Storage

open Tarsnap.Netpacket

/-- Maximum number of bytes of file writes which are allowed to be pending. -/
def MAXPENDING_WRITEBYTES : Int := 5 * 1024 * 1024

/-- Maximum number of delete operations which are allowed to be pending. -/
def MAXPENDING_DELETE : Int := 1024

/-- Number of connections to use for writes with aggressive networking. -/
def AGGRESSIVE_CNUM : Nat := 8

/-- Length of what is put before an encrypted file. -/
def CRYPTO_FILE_HLEN : Nat := 256 + 8

/-- Length of what is put after an encrypted file. -/
def CRYPTO_FILE_TLEN : Nat := 32

deriving instance DecidableEq for FileRequest

/-- A cookie of `storage_write_file` or `storage_delete_file`. The number stands for its address. -/
structure FileCookie where
  /-- The number of requests before it. -/
  number : Nat
  /-- Its parameters. -/
  request : FileRequest
deriving DecidableEq

/-- A response that took a request off: the cookie and the packet. -/
structure Acknowledgement where
  /-- The cookie of the request. -/
  cookie : FileCookie
  /-- The type of the packet. -/
  packettype : UInt8
  /-- Its contents. -/
  packetbuf : List UInt8

/-- What is pending. Besides the counter of the source, there are the requests that were counted
and the responses that took requests off. -/
structure Ledger where
  /-- `nbytespending` or `npending`. An underflow would make it negative. -/
  pending : Int
  /-- The requests that were counted since the transaction started. -/
  counted : List FileCookie
  /-- The responses. -/
  acknowledged : List Acknowledgement

/-- A kind of transaction: what a request counts, and which packet takes it off. -/
structure RequestKind where
  /-- What a request adds to the counter. -/
  cost : FileRequest → Nat
  /-- The response handler accepts the packet, and the status in it is zero. -/
  accepts : FileRequest → UInt8 → List UInt8 → Bool

/-- Writing files counts bytes. -/
def writeKind (K : Keys) : RequestKind where
  cost C := C.flen
  accepts C packettype packetbuf :=
    match callbackWriteFileResponse K true packettype packetbuf C with
    | .ok (.written _) => true
    | _ => false

/-- Deleting files counts requests. -/
def deleteKind (K : Keys) : RequestKind where
  cost _ := 1
  accepts C packettype packetbuf :=
    match callbackDeleteFileResponse K true packettype packetbuf C with
    | .ok .deleted => true
    | _ => false

/-- A request is no longer pending. -/
def Ledger.acknowledge (kind : RequestKind) (L : Ledger) (a : Acknowledgement) : Ledger :=
  { L with
    pending := L.pending - kind.cost a.cookie.request
    acknowledged := L.acknowledged ++ [a] }

/-- Handle a response. Neither handler sends another packet. -/
def callbackFileResponse (kind : RequestKind) : Handler FileCookie Ledger :=
  fun C handled L =>
    match handled with
    | none => (-1, false, L)
    | some (packettype, packetbuf) =>
      if kind.accepts C.request packettype packetbuf then
        (0, false, L.acknowledge kind ⟨C, packettype, packetbuf⟩)
      else (-1, false, L)

/-- A write or delete transaction. -/
structure Transaction where
  /-- The connections. -/
  NPC : List (NetpacketConnection FileCookie)
  /-- Last connection through which a request was sent. -/
  lastcnum : Nat
  /-- The nonce of the transaction. -/
  nonce : Bytes32
  /-- What is pending. -/
  ledger : Ledger

/-- A transaction that has just started: nothing is queued, whatever the state of its first
connection is after the start. -/
def transactionStart (numconns : Nat) (first : Link) (nonce : Bytes32) : Transaction :=
  ⟨⟨first, []⟩ :: List.replicate (numconns - 1) netpacketOpen, 0, nonce, ⟨0, [], []⟩⟩

/-- The number of connections of a write transaction. -/
def numconns (aggressive : Bool) : Nat := if aggressive then AGGRESSIVE_CNUM else 1

/-- A wait for events: the callbacks that run, each with its connection, and whether waiting fails
by itself. -/
structure Select where
  /-- The events in their order. -/
  events : List (Nat × NetpacketEvent × LayerFaults)
  /-- Waiting fails after them. -/
  fails : Bool

section Calls

variable (forever : Bool) (kind : RequestKind)

/-- Run the callback of an event. There is no result if a handler is called that is not there. -/
def runEvent (S : Transaction) (i : Nat) (event : NetpacketEvent) (f : LayerFaults) :
    Option (Int × Transaction) :=
  match S.NPC[i]? with
  | none => none
  | some N =>
    (netpacketEvent forever (callbackFileResponse kind) N event S.ledger f).map fun called =>
      (called.1, { S with NPC := S.NPC.set i called.2.1, ledger := called.2.2 })

/-- Run callbacks until one of them fails. -/
def runEvents : List (Nat × NetpacketEvent × LayerFaults) → Transaction →
    Option Int × Transaction
  | [], S => (some 0, S)
  | event :: rest, S =>
    match runEvent forever kind S event.1 event.2.1 event.2.2 with
    | none => (none, S)
    | some (rc, S) => if rc ≠ 0 then (some rc, S) else runEvents rest S

/-- Wait for events and run their callbacks. -/
def networkSelect (select : Select) (S : Transaction) : Option Int × Transaction :=
  match runEvents forever kind select.events S with
  | (some 0, S) => if select.fails then (some (-1), S) else (some 0, S)
  | (rc, S) => (rc, S)

/-- Wait while too much is pending. There is no status as long as the wait goes on. -/
def waitWhile (busy : Int → Bool) : List Select → Transaction → Option Int × Transaction
  | [], S => if busy S.ledger.pending then (none, S) else (some 0, S)
  | select :: rest, S =>
    if busy S.ledger.pending then
      match networkSelect forever kind select S with
      | (some 0, S) => waitWhile busy rest S
      | (some _, S) => (some (-1), S)
      | (none, S) => (none, S)
    else (some 0, S)

/-- Count a request. -/
def Transaction.count (S : Transaction) (request : FileRequest) : FileCookie × Transaction :=
  let C := ⟨S.ledger.counted.length, request⟩
  (C, { S with ledger := { S.ledger with
    pending := S.ledger.pending + kind.cost request
    counted := S.ledger.counted ++ [C] } })

/-- Queue a request on a connection. -/
def Transaction.queue (S : Transaction) (i : Nat) (C : FileCookie) (f : LayerFaults) :
    Option Int × Transaction :=
  match S.NPC[i]? with
  | none => (none, S)
  | some N =>
    let queued := netpacketOp N C f
    (some (if queued.1 = 0 then 0 else -1), { S with NPC := S.NPC.set i queued.2 })

/-- What a call of the storage layer needs, and whether it is there. -/
structure CallFaults where
  /-- Memory for the cookie. -/
  cookie : Bool
  /-- Memory for the encrypted file, and its encryption. -/
  encrypted : Bool
  /-- The layers below. -/
  layer : LayerFaults

/-- Write a file of `len` bytes. -/
def storageWriteFile (K : Keys) (S : Transaction) (len : Nat) (cls : UInt8) (name : Bytes32)
    (f : CallFaults) (selects : List Select) : Option Int × Transaction :=
  if f.cookie = false then (some (-1), S)
  else if 262144 - CRYPTO_FILE_TLEN - CRYPTO_FILE_HLEN < len then (some (-1), S)
  else if f.encrypted = false then (some (-1), S)
  else
    let counted := S.count (writeKind K) ⟨cls, name, S.nonce, CRYPTO_FILE_HLEN + len +
      CRYPTO_FILE_TLEN⟩
    let waited := waitWhile forever (writeKind K) (fun pending => MAXPENDING_WRITEBYTES < pending)
      selects counted.2
    if waited.1 = some 0 then
      let lastcnum := (waited.2.lastcnum + 1) % waited.2.NPC.length
      { waited.2 with lastcnum }.queue lastcnum counted.1 f.layer
    else waited

/-- Delete a file. -/
def storageDeleteFile (K : Keys) (readonly : Bool) (S : Transaction) (cls : UInt8) (name : Bytes32)
    (f : CallFaults) (selects : List Select) : Option Int × Transaction :=
  if readonly then (some (-1), S)
  else if f.cookie = false then (some (-1), S)
  else
    let counted := S.count (deleteKind K) ⟨cls, name, S.nonce, 0⟩
    let waited :=
      if MAXPENDING_DELETE < counted.2.ledger.pending then
        -- Avoid silly window syndrome.
        waitWhile forever (deleteKind K) (fun pending => MAXPENDING_DELETE / 2 + 1 < pending)
          selects
          counted.2
      else (some 0, counted.2)
    if waited.1 = some 0 then waited.2.queue 0 counted.1 f.layer else waited

/-- Wait until all pending requests have been completed. -/
def storageFlush (S : Transaction) (selects : List Select) : Option Int × Transaction :=
  waitWhile forever kind (fun pending => 0 < pending) selects S

/-- Make sure that all files have been stored. -/
def storageWriteFlush (K : Keys) (S : Transaction) (selects : List Select) :
    Option Int × Transaction := storageFlush forever (writeKind K) S selects

/-- Make sure that all files have been deleted. -/
def storageDeleteFlush (K : Keys) (S : Transaction) (selects : List Select) :
    Option Int × Transaction := storageFlush forever (deleteKind K) S selects

/-- A call on a write transaction, with what happens during its waits. -/
inductive WriteCall where
  /-- Write a file. -/
  | file (len : Nat) (cls : UInt8) (name : Bytes32) (f : CallFaults) (selects : List Select)
  /-- Flush. -/
  | flush (selects : List Select)

/-- The request that a call issues. -/
def WriteCall.request (nonce : Bytes32) : WriteCall → Option FileRequest
  | file len cls name _ _ => some ⟨cls, name, nonce, CRYPTO_FILE_HLEN + len + CRYPTO_FILE_TLEN⟩
  | flush _ => none

/-- Perform a call. -/
def WriteCall.perform (K : Keys) (S : Transaction) : WriteCall → Option Int × Transaction
  | file len cls name f selects => storageWriteFile forever K S len cls name f selects
  | flush selects => storageWriteFlush forever K S selects

/-- A call on a delete transaction, with what happens during its waits. -/
inductive DeleteCall where
  /-- Delete a file. -/
  | file (cls : UInt8) (name : Bytes32) (f : CallFaults) (selects : List Select)
  /-- Flush. -/
  | flush (selects : List Select)

/-- The request that a call issues. -/
def DeleteCall.request (nonce : Bytes32) : DeleteCall → Option FileRequest
  | file cls name _ _ => some ⟨cls, name, nonce, 0⟩
  | flush _ => none

/-- Perform a call. -/
def DeleteCall.perform (K : Keys) (readonly : Bool) (S : Transaction) :
    DeleteCall → Option Int × Transaction
  | file cls name f selects => storageDeleteFile forever K readonly S cls name f selects
  | flush selects => storageDeleteFlush forever K S selects

/-- Perform calls one after the other, as long as they return. -/
def runCalls {κ : Type} (perform : Transaction → κ → Option Int × Transaction) :
    List κ → Transaction → List Int × Transaction
  | [], S => ([], S)
  | call :: calls, S =>
    match perform S call with
    | (none, S) => ([], S)
    | (some rc, S) =>
      let later := runCalls perform calls S
      (rc :: later.1, later.2)

end Calls

end Tarsnap.Storage
