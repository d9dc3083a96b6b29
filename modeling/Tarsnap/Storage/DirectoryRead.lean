import Tarsnap.Lib.ByteOrder
import Tarsnap.Netpacket.Operations
import Tarsnap.Storage.Responses

/-!
# Reading a directory

The client asks the server for a nonce and then for the files from the start of the names on. The
server answers with one or more packets, or asks for another request. The list that the client
keeps grows with each packet, and the start moves behind the last file of the packet. If the
connection is lost, the client asks for a nonce again once there is a new one, and goes on where it
was.
-/

namespace Tarsnap.Storage

open Tarsnap.Lib Tarsnap.Netpacket

/-- The nonce for a transaction. -/
def NETPACKET_TRANSACTION_GETNONCE_RESPONSE : UInt8 := 0x90

/-- What the client waits for. -/
inductive ReadPhase where
  /-- A connection. -/
  | connecting
  /-- The nonce of the server. -/
  | nonce
  /-- A list of files. -/
  | listing
  /-- Nothing, there are no more files. -/
  | done
deriving DecidableEq, Repr

/-- The state of reading a directory. -/
structure DirectoryRead where
  /-- The request that is under way, or the next one. -/
  request : DirectoryRequest
  /-- The files so far. -/
  flist : List (List UInt8)
  /-- What the client waits for. -/
  phase : ReadPhase

/-- Something that happens while a directory is read. -/
inductive DirectoryEvent where
  /-- There is a connection to the server. -/
  | connected
  /-- The connection is lost, or there was none, and another one is tried. -/
  | lost
  /-- A packet is received; the random number is used if it is a nonce. -/
  | received (packettype : UInt8) (packetbuf : List UInt8) (cnonce : Bytes32)
  /-- The data is not a packet, there are too many network failures, or a call fails. -/
  | failed

/-- Copy 32 bytes. -/
def copy32 (bytes : List UInt8) : Bytes32 := Vector.ofFn fun i => byte bytes i

section Reading

variable (K : Keys)

/-- Take the nonce of the server, and send a directory read request. -/
def callbackGetnonceResponse (C : DirectoryRead) (packettype : UInt8) (packetbuf : List UInt8)
    (cnonce : Bytes32) : Option DirectoryRead :=
  if packettype ≠ NETPACKET_TRANSACTION_GETNONCE_RESPONSE then none
  else
    let nonce := K.sha256 (field packetbuf 0 32 ++ cnonce.toList)
    some { C with request := { C.request with nonce }, phase := .listing }

/-- Add the files of a packet to the list. -/
def addFiles (C : DirectoryRead) : Except Reject Response → Option DirectoryRead
  | .ok (.directory status flist start) =>
    some { C with
      request := { C.request with start := copy32 start }
      flist := C.flist ++ flist
      phase := if status = 0 then .done else if status = 1 then .listing else .nonce }
  | _ => none

/-- What an event does. The result is that of the call that reads the directory if there is none. -/
def directoryEvent (C : DirectoryRead) : DirectoryEvent → Option DirectoryRead
  | .connected => if C.phase = .connecting then some { C with phase := .nonce } else none
  | .lost => if C.phase = .done then none else some { C with phase := .connecting }
  | .received packettype packetbuf cnonce =>
    if callbackGetbuf packettype packetbuf.length = false then none
    else if C.phase = .nonce then callbackGetnonceResponse K C packettype packetbuf cnonce
    else if C.phase = .listing then
      addFiles C (callbackDirectoryResponse K true packettype packetbuf C.request)
    else none
  | .failed => none

/-- Before the first request. -/
def directoryStart (cls : UInt8) (key : Nat) : DirectoryRead :=
  ⟨⟨cls, key, Vector.replicate 32 0, Vector.replicate 32 0⟩, [], .connecting⟩

/-- Fetch a sorted list of files in a class, over everything that happens until the end. -/
def storageDirectoryRead (cls : UInt8) (key : Nat) (events : List DirectoryEvent) :
    Option (List (List UInt8)) :=
  (events.foldlM (directoryEvent K) (directoryStart cls key)).bind fun C =>
    if C.phase = .done then some C.flist else none

end Reading

section Packets

/-- The files that a packet lists. -/
def packetFiles (packetbuf : List UInt8) : List (List UInt8) :=
  (List.range (beDec (field packetbuf 34 4))).map fun file => field packetbuf (38 + file * 32) 32

/-- The directory packets among what happens. -/
def directoryPackets (events : List DirectoryEvent) : List (List UInt8) :=
  events.filterMap fun event =>
    match event with
    | .received packettype packetbuf _ =>
      if packettype = NETPACKET_DIRECTORY_RESPONSE then some packetbuf else none
    | _ => none

/-- The files that the server lists. -/
def listedFiles (events : List DirectoryEvent) : List (List UInt8) :=
  (directoryPackets events).flatMap packetFiles

/-- The greatest name. -/
def lastName : List UInt8 := List.replicate 32 255

/-- The server lists nothing after the greatest name. -/
def NothingAfterLast (events : List DirectoryEvent) : Prop :=
  lastName ∉ (listedFiles events).dropLast

/-- The list is in lexicographical order, without duplicates. -/
def StrictlyIncreasing (flist : List (List UInt8)) : Prop :=
  flist.Pairwise fun before after => memcmp before after = .lt

/-- The files of a class on a server, in lexicographical order. -/
structure ServerFiles (files : List (List UInt8)) : Prop where
  /-- Each name has 32 bytes. -/
  names : ∀ name ∈ files, name.length = 32
  /-- The names are ordered. -/
  ordered : StrictlyIncreasing files

/-- The files that are not before a name. -/
def filesFrom (files : List (List UInt8)) (start : List UInt8) : List (List UInt8) :=
  files.filter fun name => memcmp start name ≠ .gt

/-- A packet lists the first files from its start on, and all of them if it is the last one. -/
structure AsSpecified (files : List (List UInt8)) (packetbuf : List UInt8) : Prop where
  /-- The files returned are the first ones from the start on. -/
  first : packetFiles packetbuf =
    (filesFrom files (field packetbuf 2 32)).take (beDec (field packetbuf 34 4))
  /-- There are no more files after this. -/
  last : byte packetbuf 0 = 0 → packetFiles packetbuf = filesFrom files (field packetbuf 2 32)

end Packets

end Tarsnap.Storage
