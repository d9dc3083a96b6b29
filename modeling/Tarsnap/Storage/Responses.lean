import Tarsnap.Netpacket.Packet

/-!
# Response handlers of the storage layer

Each request that is under way has a handler for its response. A handler checks the type of the
packet and its HMAC, then that the packet answers the request, and records what the packet says.
A packet that passes these checks may still report a failure, which the handler acts on.
-/

namespace Tarsnap.Storage

open Tarsnap.Lib Tarsnap.Netpacket

/-- Why a packet is not accepted. -/
inductive Reject where
  /-- Reading the packet failed. -/
  | network
  /-- The packet violates the protocol. -/
  | protocol
  /-- Internal error. -/
  | internal
deriving DecidableEq, Repr

/-- What a handler takes from an accepted packet. -/
inductive Response where
  /-- Status of a cancel request, and the nonce of the request. -/
  | cancel (status : UInt8) (seqnum : Bytes32)
  /-- Status of a start request, and the nonce of the transaction. -/
  | start (status : UInt8) (seqnum : Bytes32)
  /-- Status of a checkpoint. -/
  | checkpoint (status : UInt8)
  /-- Status of a commit. -/
  | commit (status : UInt8)
  /-- Whether there is a checkpoint, and the nonce of the transaction. -/
  | ischeckpointed (status : UInt8) (tnonce : List UInt8)
  /-- Whether a file exists. -/
  | fexist (status : UInt8)
  /-- A file of the given length is written. -/
  | written (flen : Nat)
  /-- A file is deleted. -/
  | deleted
  /-- Status of a read, and the contents of the file. -/
  | file (sc : Int) (buf : Option (List UInt8))
  /-- Whether more files follow, the files, and the next possible file name. -/
  | directory (status : UInt8) (flist : List (List UInt8)) (start : List UInt8)
  /-- The server refuses the request; the client gives up with a warning. -/
  | refused (warning : String)
deriving DecidableEq, Repr

/-- Look up the key for an operation type. -/
def keyLookup (type : UInt8) : Option AuthKey :=
  if type = 0 ∨ type = 3 then some .put
  else if type = 1 ∨ type = 2 then some .delete
  else none

/-- The checks at the start of each handler: the packet was read, has the right type, the key
exists, and the hash at the given position matches. -/
def verifyResponse (K : Keys) (expected : UInt8) (nonce : Option Bytes32) (key : Option AuthKey)
    (pos : Nat) (statusOk : Bool) (packettype : UInt8) (packetbuf : List UInt8) :
    Except Reject Unit :=
  if statusOk = false then .error .network
  else if packettype ≠ expected then .error .protocol
  else
    match key with
    | none => .error .internal
    | some key =>
      match netpacketHmacVerify K packettype nonce packetbuf pos key with
      | .good => .ok ()
      | .bad => .error .protocol
      | .error => .error .internal

/-- The byte of a packet at a position. -/
def byte (packetbuf : List UInt8) (pos : Nat) : UInt8 := packetbuf.getD pos 0

/-- A request to start or cancel a transaction. -/
structure TransactionRequest where
  /-- The kind of transaction, which decides the key. -/
  whichkey : UInt8
  /-- Server nonce. -/
  snonce : Bytes32
  /-- Client nonce. -/
  cnonce : Bytes32

/-- The nonce of a started transaction, or of a cancel request. -/
def TransactionRequest.seqnum (K : Keys) (C : TransactionRequest) : Bytes32 :=
  K.sha256 (C.snonce.toList ++ C.cnonce.toList)

/-- A request to create a checkpoint. -/
structure CheckpointRequest where
  /-- Nonce of the transaction. -/
  seqnum : Bytes32
  /-- Nonce of the checkpoint. -/
  ckptnonce : Bytes32
  /-- Which key to use. -/
  whichkey : UInt8

/-- A request to commit a transaction. -/
structure CommitRequest where
  /-- Nonce of the transaction. -/
  seqnum : Bytes32
  /-- Which key to use. -/
  whichkey : UInt8

/-- A question whether the transaction has a checkpoint. -/
structure IscheckpointedRequest where
  /-- Which key to use. -/
  whichkey : UInt8
  /-- Nonce of the question. -/
  nonce : Bytes32

/-- A request about a file in a transaction. -/
structure FileRequest where
  /-- Class of the file. -/
  cls : UInt8
  /-- Name of the file. -/
  name : Bytes32
  /-- Nonce of the transaction. -/
  nonce : Bytes32
  /-- Length of the file, when it is written. -/
  flen : Nat

/-- A request to read a file. -/
structure ReadRequest where
  /-- Class of the file. -/
  cls : UInt8
  /-- Name of the file. -/
  name : Bytes32
  /-- Length of the buffer; without a buffer any length is read. -/
  buflen : Option Nat

/-- A request to list files. -/
structure DirectoryRequest where
  /-- Class of the files. -/
  cls : UInt8
  /-- Zero to use the read key, otherwise the delete key. -/
  key : Nat
  /-- Nonce of the operation. -/
  nonce : Bytes32
  /-- Where to start. -/
  start : Bytes32

/-- What is added to the length of a file by encryption. -/
def STORAGE_FILE_OVERHEAD : Nat := 256 + 8 + 32

/-- The result of decrypting a file. -/
inductive Decrypted where
  /-- The contents. -/
  | contents (buf : List UInt8)
  /-- The file is corrupt. -/
  | corrupt
  /-- Error. -/
  | error
deriving DecidableEq

section Handlers

variable (K : Keys) (statusOk : Bool) (packettype : UInt8) (packetbuf : List UInt8)

/-- Handle the response to a cancel request. -/
def callbackCancelResponse (C : TransactionRequest) : Except Reject Response := do
  verifyResponse K NETPACKET_TRANSACTION_CANCEL_RESPONSE (some (C.seqnum K))
    (keyLookup C.whichkey) 1 statusOk packettype packetbuf
  return .cancel (byte packetbuf 0) (C.seqnum K)

/-- Handle the response to a start request. -/
def callbackStartResponse (C : TransactionRequest) : Except Reject Response := do
  verifyResponse K NETPACKET_TRANSACTION_START_RESPONSE (some (C.seqnum K))
    (keyLookup C.whichkey) 1 statusOk packettype packetbuf
  return .start (byte packetbuf 0) (C.seqnum K)

/-- Handle the response to a checkpoint request. -/
def callbackCheckpointResponse (C : CheckpointRequest) : Except Reject Response := do
  verifyResponse K NETPACKET_TRANSACTION_CHECKPOINT_RESPONSE (some C.seqnum)
    (keyLookup C.whichkey) 33 statusOk packettype packetbuf
  if field packetbuf 1 32 ≠ C.ckptnonce.toList then .error .protocol
  else return .checkpoint (byte packetbuf 0)

/-- Handle the response to a commit request. -/
def callbackCommitResponse (C : CommitRequest) : Except Reject Response := do
  verifyResponse K NETPACKET_TRANSACTION_TRYCOMMIT_RESPONSE (some C.seqnum)
    (keyLookup C.whichkey) 1 statusOk packettype packetbuf
  return .commit (byte packetbuf 0)

/-- Handle the response to the question whether there is a checkpoint. -/
def callbackIscheckpointedResponse (C : IscheckpointedRequest) : Except Reject Response := do
  -- The hash is looked for right behind the status, where the packet has the transaction nonce.
  verifyResponse K NETPACKET_TRANSACTION_ISCHECKPOINTED_RESPONSE (some C.nonce)
    (keyLookup C.whichkey) 1 statusOk packettype packetbuf
  return .ischeckpointed (byte packetbuf 0) (field packetbuf 1 32)

/-- Make sure that a packet corresponds to the right file. -/
def checkFile (cls : UInt8) (name : Bytes32) : Except Reject Unit :=
  if byte packetbuf 1 ≠ cls ∨ field packetbuf 2 32 ≠ name.toList then .error .protocol else .ok ()

/-- Handle the response to the question whether a file exists. -/
def callbackFexistResponse (C : FileRequest) : Except Reject Response := do
  verifyResponse K NETPACKET_WRITE_FEXIST_RESPONSE (some C.nonce) (some .put) 34 statusOk packettype
    packetbuf
  checkFile packetbuf C.cls C.name
  return .fexist (byte packetbuf 0)

/-- Handle the response to writing a file. -/
def callbackWriteFileResponse (C : FileRequest) : Except Reject Response := do
  verifyResponse K NETPACKET_WRITE_FILE_RESPONSE (some C.nonce) (some .put) 34 statusOk packettype
    packetbuf
  checkFile packetbuf C.cls C.name
  if byte packetbuf 0 = 0 then return .written C.flen
  else if byte packetbuf 0 = 1 then return .refused "Cannot store file: File already exists"
  else if byte packetbuf 0 = 2 then return .refused "Transaction interrupted"
  else .error .protocol

/-- Handle the response to deleting a file. -/
def callbackDeleteFileResponse (C : FileRequest) : Except Reject Response := do
  verifyResponse K NETPACKET_DELETE_FILE_RESPONSE (some C.nonce) (some .delete) 34 statusOk
    packettype
    packetbuf
  checkFile packetbuf C.cls C.name
  if byte packetbuf 0 = 0 then return .deleted
  else if byte packetbuf 0 = 1 then return .refused "Cannot delete file: File does not exist"
  else if byte packetbuf 0 = 2 then return .refused "Delete transaction interrupted"
  else .error .protocol

/-- Whether the length of a file is one that was asked for. -/
def filelenAccepted (buflen : Option Nat) (filelen : Nat) : Bool :=
  match buflen with
  | some buflen => filelen = buflen + STORAGE_FILE_OVERHEAD
  | none => STORAGE_FILE_OVERHEAD ≤ filelen ∧ filelen ≤ 262144

/-- The contents of a verified packet with a file, decrypted. -/
def readFileContents (decrypt : List UInt8 → Decrypted) (C : ReadRequest) :
    Except Reject Response := do
  checkFile packetbuf C.cls C.name
  let sc := byte packetbuf 0
  let filelen := beDec (field packetbuf 34 4)
  if sc = 0 then
    if packetbuf.length ≠ (filelen + 70) % 4294967296 ∨ filelenAccepted C.buflen filelen = false
    then .error .protocol
    else
      match decrypt (field packetbuf 38 filelen) with
      | .contents buf => return .file 0 (some buf)
      | .corrupt => return .file 2 none
      | .error => .error .internal
  else if sc = 1 ∨ sc = 3 then
    if packetbuf.length ≠ 70 ∨ filelen ≠ 0 then .error .protocol
    else return .file (if sc = 1 then 1 else -1) none
  else if sc = 2 then
    if packetbuf.length ≠ 70 then .error .protocol else return .file 2 none
  else .error .protocol

/-- Handle the response to reading a file. -/
def callbackReadFileResponse (decrypt : List UInt8 → Decrypted) (C : ReadRequest) :
    Except Reject Response := do
  verifyResponse K NETPACKET_READ_FILE_RESPONSE none (some .get) (packetbuf.length - 32) statusOk
    packettype packetbuf
  readFileContents packetbuf decrypt C

/-- Increment a number, least significant byte first. -/
def incrementLow : List UInt8 → List UInt8
  | [] => []
  | low :: rest => if low + 1 ≠ 0 then (low + 1) :: rest else (low + 1) :: incrementLow rest

/-- The next possible file name. -/
def nextName (name : List UInt8) : List UInt8 := (incrementLow name.reverse).reverse

/-- Make sure that files are ordered, and return the next possible file name. -/
def orderedFiles (start : List UInt8) : List (List UInt8) → Except Reject (List UInt8)
  | [] => .ok start
  | file :: rest =>
    if memcmp start file = .gt then .error .protocol else orderedFiles (nextName file) rest

/-- The files that a verified packet lists. -/
def directoryContents (C : DirectoryRequest) : Except Reject Response := do
  let nfiles := beDec (field packetbuf 34 4)
  if 3 < byte packetbuf 0 ∨ byte packetbuf 1 ≠ C.cls ∨ field packetbuf 2 32 ≠ C.start.toList ∨
      NETPACKET_DIRECTORY_RESPONSE_MAXFILES < nfiles then .error .protocol
  else if packetbuf.length ≠ 70 + nfiles * 32 then .error .protocol
  else do
    let flist := (List.range nfiles).map fun file => field packetbuf (38 + file * 32) 32
    let start ← orderedFiles C.start.toList flist
    if byte packetbuf 0 = 3 then
      return .refused "Cannot read list of archive fragments: Account balance is not positive."
    else return .directory (byte packetbuf 0) flist start

/-- The key that signs lists of files. -/
def directoryKey (key : Nat) : AuthKey := if key = 0 then .get else .delete

/-- Handle the response to listing files. -/
def callbackDirectoryResponse (C : DirectoryRequest) : Except Reject Response := do
  verifyResponse K NETPACKET_DIRECTORY_RESPONSE (some C.nonce) (some (directoryKey C.key))
    (packetbuf.length - 32) statusOk packettype packetbuf
  directoryContents packetbuf C

end Handlers

/-- A request that is under way. -/
inductive Request where
  /-- Cancel a transaction. -/
  | cancel (C : TransactionRequest)
  /-- Start a transaction. -/
  | start (C : TransactionRequest)
  /-- Create a checkpoint. -/
  | checkpoint (C : CheckpointRequest)
  /-- Commit a transaction. -/
  | commit (C : CommitRequest)
  /-- Ask whether there is a checkpoint. -/
  | ischeckpointed (C : IscheckpointedRequest)
  /-- Ask whether a file exists. -/
  | fexist (C : FileRequest)
  /-- Write a file. -/
  | writeFile (C : FileRequest)
  /-- Delete a file. -/
  | deleteFile (C : FileRequest)
  /-- Read a file. -/
  | readFile (C : ReadRequest)
  /-- List files. -/
  | directory (C : DirectoryRequest)

/-- The handler of a request. -/
def handle (K : Keys) (decrypt : List UInt8 → Decrypted) (statusOk : Bool) (packettype : UInt8)
    (packetbuf : List UInt8) : Request → Except Reject Response
  | .cancel C => callbackCancelResponse K statusOk packettype packetbuf C
  | .start C => callbackStartResponse K statusOk packettype packetbuf C
  | .checkpoint C => callbackCheckpointResponse K statusOk packettype packetbuf C
  | .commit C => callbackCommitResponse K statusOk packettype packetbuf C
  | .ischeckpointed C => callbackIscheckpointedResponse K statusOk packettype packetbuf C
  | .fexist C => callbackFexistResponse K statusOk packettype packetbuf C
  | .writeFile C => callbackWriteFileResponse K statusOk packettype packetbuf C
  | .deleteFile C => callbackDeleteFileResponse K statusOk packettype packetbuf C
  | .readFile C => callbackReadFileResponse K statusOk packettype packetbuf decrypt C
  | .directory C => callbackDirectoryResponse K statusOk packettype packetbuf C

end Tarsnap.Storage
