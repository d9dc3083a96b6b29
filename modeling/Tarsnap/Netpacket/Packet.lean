import Tarsnap.Lib.Word
import Tarsnap.Lib.Except

/-!
# Response packets

A response packet has a type and contents of a length that its type admits. Most packets end
with an HMAC over the type, in most cases a nonce, and the contents before it. The verification
is given the position of the HMAC.
-/

namespace Tarsnap.Netpacket

open Tarsnap.Lib

/-- Nonces, names and hashes have 32 bytes. -/
abbrev Bytes32 := Vector UInt8 32

/-- The access keys that sign packets. -/
inductive AuthKey where
  /-- Write access, `CRYPTO_KEY_AUTH_PUT`. -/
  | put
  /-- Read access, `CRYPTO_KEY_AUTH_GET`. -/
  | get
  /-- Delete access, `CRYPTO_KEY_AUTH_DELETE`. -/
  | delete
deriving DecidableEq, Repr

/-- The keys that are loaded, and the functions that use them. -/
structure Keys where
  /-- The access key, if it is loaded. -/
  auth : AuthKey → Option (List UInt8)
  /-- HMAC-SHA256 under a key. -/
  hmac : List UInt8 → List UInt8 → Bytes32
  /-- SHA256. -/
  sha256 : List UInt8 → Bytes32

/-- Response to the start of a transaction. -/
def NETPACKET_TRANSACTION_START_RESPONSE : UInt8 := 0x91
/-- Response to a checkpoint. -/
def NETPACKET_TRANSACTION_CHECKPOINT_RESPONSE : UInt8 := 0x93
/-- Response to cancelling a transaction. -/
def NETPACKET_TRANSACTION_CANCEL_RESPONSE : UInt8 := 0x94
/-- Response to a commit. -/
def NETPACKET_TRANSACTION_TRYCOMMIT_RESPONSE : UInt8 := 0x95
/-- Whether the transaction has a checkpoint. -/
def NETPACKET_TRANSACTION_ISCHECKPOINTED_RESPONSE : UInt8 := 0x96
/-- Whether a file exists. -/
def NETPACKET_WRITE_FEXIST_RESPONSE : UInt8 := 0xa0
/-- Response to writing a file. -/
def NETPACKET_WRITE_FILE_RESPONSE : UInt8 := 0xa1
/-- Response to deleting a file. -/
def NETPACKET_DELETE_FILE_RESPONSE : UInt8 := 0xb0
/-- The contents of a file. -/
def NETPACKET_READ_FILE_RESPONSE : UInt8 := 0xc0
/-- A list of files. -/
def NETPACKET_DIRECTORY_RESPONSE : UInt8 := 0xd0

/-- Maximum number of files listed in a packet. -/
def NETPACKET_DIRECTORY_RESPONSE_MAXFILES : Nat := 8000

/-- The packet lengths that are accepted for the response types with an HMAC. -/
def lengthAdmitted (type : UInt8) (buflen : Nat) : Bool :=
  if type = NETPACKET_TRANSACTION_START_RESPONSE ∨ type = NETPACKET_TRANSACTION_CANCEL_RESPONSE ∨
      type = NETPACKET_TRANSACTION_TRYCOMMIT_RESPONSE then buflen = 33
  else if type = NETPACKET_TRANSACTION_CHECKPOINT_RESPONSE ∨
      type = NETPACKET_TRANSACTION_ISCHECKPOINTED_RESPONSE then buflen = 65
  else if type = NETPACKET_WRITE_FEXIST_RESPONSE ∨ type = NETPACKET_WRITE_FILE_RESPONSE ∨
      type = NETPACKET_DELETE_FILE_RESPONSE then buflen = 66
  else if type = NETPACKET_READ_FILE_RESPONSE then 70 ≤ buflen ∧ buflen ≤ 70 + 262144
  else if type = NETPACKET_DIRECTORY_RESPONSE then
    70 ≤ buflen ∧ buflen ≤ 70 + 8000 * 32 ∧ buflen % 32 = 70 % 32
  else false

/-- A field of a packet. -/
def field (packetbuf : List UInt8) (pos len : Nat) : List UInt8 := (packetbuf.drop pos).take len

/-- The result of a verification. -/
inductive Verified where
  /-- The hash matches. -/
  | good
  /-- The hash does not match. -/
  | bad
  /-- The key is not available. -/
  | error
deriving DecidableEq, Repr

/-- What is hashed: the type, the nonce if there is one, and the packet up to a position. -/
def hashedData (type : UInt8) (nonce : Option Bytes32) (packetbuf : List UInt8) (pos : Nat) :
    List UInt8 :=
  type :: (nonce.elim [] (·.toList) ++ packetbuf.take pos)

/-- Verify that the hash at a position matches. -/
def netpacketHmacVerify (K : Keys) (type : UInt8) (nonce : Option Bytes32)
    (packetbuf : List UInt8) (pos : Nat) (key : AuthKey) : Verified :=
  match K.auth key with
  | none => .error
  | some k =>
    if field packetbuf pos 32 = (K.hmac k (hashedData type nonce packetbuf pos)).toList then .good
    else .bad

/-- The packet ends with the hash of its type, its nonce and everything before the hash. -/
def Authentic (K : Keys) (key : AuthKey) (nonce : Option Bytes32) (type : UInt8)
    (packetbuf : List UInt8) : Prop :=
  ∃ k, K.auth key = some k ∧ 32 ≤ packetbuf.length ∧
    packetbuf.drop (packetbuf.length - 32) =
      (K.hmac k (hashedData type nonce packetbuf (packetbuf.length - 32))).toList

/-- A hash that is verified at the last 32 bytes authenticates the packet. -/
theorem netpacketHmacVerify_good {K : Keys} {type : UInt8} {nonce : Option Bytes32}
    {packetbuf : List UInt8} {pos : Nat} {key : AuthKey} (last : pos + 32 = packetbuf.length)
    (good : netpacketHmacVerify K type nonce packetbuf pos key = .good) :
    Authentic K key nonce type packetbuf := by
  rw [netpacketHmacVerify] at good
  split at good
  · exact nomatch good
  rename_i k loaded
  split at good
  · rename_i same
    have start : packetbuf.length - 32 = pos := by omega
    refine ⟨k, loaded, by omega, ?_⟩
    rw [start, ← same, field, List.take_of_length_le]
    rw [List.length_drop]
    omega
  · exact nomatch good

end Tarsnap.Netpacket
