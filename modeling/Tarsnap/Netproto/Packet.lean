import Tarsnap.Netproto.Session

/-!
# Encrypted packets

A packet has a type and contents. It is sent as an encrypted header with the type, the length and
the hash of the contents, a signature of this ciphertext, and the encrypted contents. The reader
takes a header of fixed length from the connection, verifies and decrypts it, asks for a buffer,
and takes and checks as many bytes of contents as the header says. The bytes arrive in segments
of any lengths.
-/

namespace Tarsnap.Netproto

open Tarsnap.Lib Tarsnap.Netpacket

/-- The status values other than success that a callback is called with. -/
inductive Failure where
  /-- Error connecting to server. -/
  | connerr
  /-- Error from `recv` or `send`. -/
  | err
  /-- Timeout. -/
  | timeout
  /-- Timeout with empty buffer. -/
  | nodata
  /-- Timeout connecting to server. -/
  | ctimeout
  /-- Connection was closed. -/
  | closed
  /-- Operation cancelled. -/
  | cancel
  /-- Zero-byte write via writeq. -/
  | zerobyte
  /-- Protocol error. -/
  | proterr
deriving DecidableEq, Repr

/-- How the bytes of a connection end. -/
inductive Ending where
  /-- Receiving fails. -/
  | err
  /-- Nothing more arrives. -/
  | timeout
  /-- The remote host shuts the connection down. -/
  | closed
deriving DecidableEq, Repr

/-- What arrives on a connection. -/
structure Arrivals where
  /-- What the calls of `recv` can take; an empty segment is a call that has to be repeated. -/
  segments : List (List UInt8)
  /-- What happens after the last segment. -/
  ending : Ending
deriving DecidableEq, Repr

/-- All bytes that arrive. -/
def Arrivals.bytes (A : Arrivals) : List UInt8 := A.segments.flatten

/-- The status that ends a read; a timeout without data is reported as such. -/
def Ending.failure (bufpos : Nat) : Ending → Failure
  | .err => .err
  | .timeout => if bufpos = 0 then .nodata else .timeout
  | .closed => .closed

/-- Fill the buffer with the data that arrives, until it is full. -/
def callbackBuf (buflen : Nat) (ending : Ending) (buf : List UInt8) :
    List (List UInt8) → Except Failure (List UInt8 × Arrivals)
  | [] => .error (ending.failure buf.length)
  | segment :: rest =>
    if segment.length < buflen - buf.length then
      callbackBuf buflen ending (buf ++ segment) rest
    else .ok (buf ++ segment.take (buflen - buf.length),
      ⟨segment.drop (buflen - buf.length) :: rest, ending⟩)

/-- Read data into a buffer; a buffer of length zero cannot be read. -/
def tsnetworkRead (buflen : Nat) (A : Arrivals) : Except Failure (List UInt8 × Arrivals) :=
  if buflen = 0 then .error .err else callbackBuf buflen A.ending [] A.segments

/-- A packet. -/
structure Packet where
  /-- Packet type. -/
  type : UInt8
  /-- Packet data. -/
  data : List UInt8
deriving DecidableEq, Repr

variable (F : Primitives)

/-- The header of a packet before its encryption. -/
def packetHeader (type : UInt8) (buf : List UInt8) : List UInt8 :=
  type :: (beEnc 4 buf.length ++ (F.sha256 buf).toList)

/-- Write a packet: the bytes that are queued, and the session after it. -/
def netprotoWritepacket (keys : Session) (type : UInt8) (buf : List UInt8) :
    Option (List UInt8 × Session) :=
  if 4294967295 < buf.length then none
  else
    let (header, keys) := cryptoSessionEncrypt F keys (packetHeader F type buf)
    let (sig, keys) := cryptoSessionSign F keys header
    let (data, keys) := cryptoSessionEncrypt F keys buf
    some (header ++ (sig ++ data), keys)

/-- Write packets one after the other. -/
def writePackets (keys : Session) : List Packet → Option (List UInt8 × Session)
  | [] => some ([], keys)
  | packet :: rest => do
    let (front, keys) ← netprotoWritepacket F keys packet.type packet.data
    let (back, keys) ← writePackets keys rest
    return (front ++ back, keys)

/-- The data of a packet has been received. -/
def dataReceived (keys : Session) (type : UInt8) (hash : List UInt8) :
    Except Failure (List UInt8 × Arrivals) → Except Failure (Packet × Session × Arrivals)
  | .error status => .error status
  | .ok (buf, A) =>
    let (buf, keys) := cryptoSessionDecrypt F keys buf
    if hash = (F.sha256 buf).toList then .ok (⟨type, buf⟩, keys, A) else .error .proterr

/-- The header of a packet has been received. The callback provides a buffer for a packet of this
type and length, or fails. -/
def headerReceived (keys : Session) (callbackGetbuf : UInt8 → Nat → Option Failure) :
    Except Failure (List UInt8 × Arrivals) → Except Failure (Packet × Session × Arrivals)
  | .error status => .error status
  | .ok (header, A) =>
    match cryptoSessionVerify F keys (header.take 37) (header.drop 37) with
    | (false, _) => .error .proterr
    | (true, keys) =>
      let (plain, keys) := cryptoSessionDecrypt F keys (header.take 37)
      let type := plain.headD 0
      let len := beDec ((plain.drop 1).take 4)
      match callbackGetbuf type len with
      | some status => .error status
      | none =>
        if len = 0 then .ok (⟨type, []⟩, keys, A)
        else dataReceived F keys type (plain.drop 5) (tsnetworkRead len A)

/-- Read a packet from the connection. -/
def netprotoReadpacket (callbackGetbuf : UInt8 → Nat → Option Failure) (keys : Session)
    (A : Arrivals) : Except Failure (Packet × Session × Arrivals) :=
  headerReceived F keys callbackGetbuf (tsnetworkRead 69 A)

/-- Read a number of packets, up to the first failure: the packets that are delivered, and the
status of the failure, if there is one. -/
def readPackets (callbackGetbuf : UInt8 → Nat → Option Failure) :
    Nat → Session → Arrivals → List Packet × Option Failure
  | 0, _, _ => ([], none)
  | count + 1, keys, A =>
    match netprotoReadpacket F callbackGetbuf keys A with
    | .error status => ([], some status)
    | .ok (packet, keys, A) =>
      let (packets, status) := readPackets callbackGetbuf count keys A
      (packet :: packets, status)

section Reading

/-- When enough bytes arrive, the buffer is filled with the first of them, and the others are
left. -/
theorem callbackBuf_ok {buflen : Nat} {ending : Ending} {segments : List (List UInt8)}
    {buf wanted rest : List UInt8} (bytes : segments.flatten = wanted ++ rest)
    (length : buf.length + wanted.length = buflen) (nonempty : wanted ≠ []) :
    ∃ A, callbackBuf buflen ending buf segments = .ok (buf ++ wanted, A) ∧ A.bytes = rest := by
  induction segments generalizing buf wanted with
  | nil =>
    have empty := congrArg List.length bytes
    simp only [List.flatten_nil, List.length_nil, List.length_append] at empty
    exact absurd (List.eq_nil_of_length_eq_zero (by omega)) nonempty
  | cons segment later ih =>
    rw [List.flatten_cons] at bytes
    have room : buflen - buf.length = wanted.length := by omega
    rw [callbackBuf, room]
    by_cases short : segment.length < wanted.length
    · rw [if_pos short]
      have front : segment = wanted.take segment.length := by
        have := congrArg (List.take segment.length) bytes
        rwa [List.take_left, List.take_append_of_le_length (Nat.le_of_lt short)] at this
      have back : later.flatten = wanted.drop segment.length ++ rest := by
        have := congrArg (List.drop segment.length) bytes
        rwa [List.drop_left, List.drop_append_of_le_length (Nat.le_of_lt short)] at this
      have split : segment ++ wanted.drop segment.length = wanted := by
        conv => lhs; lhs; rw [front]
        exact List.take_append_drop _ _
      have more : wanted.drop segment.length ≠ [] := by
        rw [Ne, List.drop_eq_nil_iff]
        omega
      have filled := @ih (buf ++ segment) (wanted.drop segment.length) back
        (by rw [List.length_append, List.length_drop]; omega) more
      rwa [List.append_assoc, split] at filled
    · rw [if_neg short]
      have front : segment.take wanted.length = wanted := by
        have := congrArg (List.take wanted.length) bytes
        rwa [List.take_left, List.take_append_of_le_length (Nat.le_of_not_lt short)] at this
      have back : segment.drop wanted.length ++ later.flatten = rest := by
        have := congrArg (List.drop wanted.length) bytes
        rwa [List.drop_left, List.drop_append_of_le_length (Nat.le_of_not_lt short)] at this
      rw [front]
      exact ⟨_, rfl, back⟩

/-- When the buffer is filled, its bytes and the bytes that are left are those that arrived. -/
theorem callbackBuf_bytes {buflen : Nat} {ending : Ending} {segments : List (List UInt8)}
    {buf out : List UInt8} {A : Arrivals} (space : buf.length ≤ buflen)
    (read : callbackBuf buflen ending buf segments = .ok (out, A)) :
    out.length = buflen ∧ buf ++ segments.flatten = out ++ A.bytes ∧ A.ending = ending := by
  induction segments generalizing buf with
  | nil => cases read
  | cons segment later ih =>
    rw [callbackBuf] at read
    split at read
    · rename_i short
      have filled := ih (by rw [List.length_append]; omega) read
      rwa [List.append_assoc, ← List.flatten_cons] at filled
    · rename_i enough
      cases read
      refine ⟨?_, ?_, rfl⟩
      · rw [List.length_append, List.length_take]
        omega
      · simp only [Arrivals.bytes, List.flatten_cons, List.append_assoc]
        rw [← List.append_assoc (List.take _ _), List.take_append_drop]

/-- A read that fails does so because the connection ended. -/
theorem callbackBuf_failure {buflen : Nat} {ending : Ending} {segments : List (List UInt8)}
    {buf : List UInt8} {status : Failure}
    (read : callbackBuf buflen ending buf segments = .error status) :
    status = .err ∨ status = .timeout ∨ status = .nodata ∨ status = .closed := by
  induction segments generalizing buf with
  | nil =>
    cases read
    cases ending with
    | err => exact .inl rfl
    | timeout =>
      rw [Ending.failure]
      split
      · exact .inr (.inr (.inl rfl))
      · exact .inr (.inl rfl)
    | closed => exact .inr (.inr (.inr rfl))
  | cons segment later ih =>
    rw [callbackBuf] at read
    split at read
    · exact ih read
    · cases read

/-- When enough bytes arrive, they are read, and the others are left. -/
theorem tsnetworkRead_ok {A : Arrivals} {wanted rest : List UInt8}
    (bytes : A.bytes = wanted ++ rest) (nonempty : wanted ≠ []) :
    ∃ A', tsnetworkRead wanted.length A = .ok (wanted, A') ∧ A'.bytes = rest := by
  have positive : wanted.length ≠ 0 := fun zero => nonempty (List.eq_nil_of_length_eq_zero zero)
  rw [tsnetworkRead, if_neg positive]
  exact callbackBuf_ok bytes (by rw [List.length_nil, Nat.zero_add]) nonempty

/-- What is read and what is left are what arrived. -/
theorem tsnetworkRead_bytes {buflen : Nat} {A A' : Arrivals} {buf : List UInt8}
    (read : tsnetworkRead buflen A = .ok (buf, A')) :
    buf.length = buflen ∧ A.bytes = buf ++ A'.bytes := by
  rw [tsnetworkRead] at read
  split at read
  · cases read
  · have filled := callbackBuf_bytes (Nat.zero_le _) read
    exact ⟨filled.1, filled.2.1⟩

/-- A read that fails reports a network error. -/
theorem tsnetworkRead_failure {buflen : Nat} {A : Arrivals} {status : Failure}
    (read : tsnetworkRead buflen A = .error status) :
    status = .err ∨ status = .timeout ∨ status = .nodata ∨ status = .closed := by
  rw [tsnetworkRead] at read
  split at read
  · cases read
    exact .inl rfl
  · exact callbackBuf_failure read

end Reading

end Tarsnap.Netproto
