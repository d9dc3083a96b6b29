import Mathlib.Data.List.DropRight
import Mathlib.Data.Vector.Basic
import Tarsnap.Lib.Except
import Tarsnap.Lib.Word

/-!
# The key cache

The key cache holds RSA keys and HMAC keys, each in a slot of its own. Keys are exported as a
sequence of records, each with a header for the length and the type of the key, and imported from
such a sequence into the slots that a mask asks for. An export runs twice over the keys, first to
find how much memory it takes, then to write to it. Buffers are what their memory holds, and a read
or a write outside of that memory is told apart from an error that is returned. Memory never runs
out.
-/

namespace Tarsnap.Crypto

open Tarsnap.Lib

/-- How many bytes a number of OpenSSL may have; the number of its bits is at most a quarter of
`INT_MAX`. -/
structure BignumLimit where
  /-- The number of bytes. -/
  bytes : Nat
  /-- It is at most a quarter of `INT_MAX` bits. -/
  small : bytes < 67108864

/-- The limit where a number has at most 8388607 words of 64 bits. -/
abbrev wordLimit : BignumLimit := ⟨67108856, by decide⟩

/-- A number of OpenSSL, by its bytes, least significant byte first. -/
structure Bignum (L : BignumLimit) where
  /-- The bytes. -/
  bytes : List UInt8
  /-- The most significant byte is not zero. -/
  normal : bytes.getLast? ≠ some 0
  /-- The number is not too large. -/
  small : bytes.length ≤ L.bytes

/-- Why a function does not succeed. -/
inductive Trouble where
  /-- It returns an error. -/
  | failed
  /-- It reads or writes outside of the buffer. -/
  | outside
deriving DecidableEq, Repr

/-- The largest integer. -/
def INT_MAX : Nat := 2147483647

/-- The value of a 64-bit word. -/
def word64 (value : Nat) : Nat := value % 18446744073709551616

/-- 64-bit subtraction. -/
def sub64 (left right : Nat) : Nat :=
  (left + (18446744073709551616 - right % 18446744073709551616)) % 18446744073709551616

/-- Read bytes of a buffer. -/
def load (mem : List UInt8) (pos len : Nat) : Except Trouble (List UInt8) :=
  if pos + len ≤ mem.length then .ok ((mem.drop pos).take len) else .error .outside

/-- Write bytes to a buffer. -/
def store (mem : List UInt8) (pos : Nat) (bytes : List UInt8) : Except Trouble (List UInt8) :=
  if pos + bytes.length ≤ mem.length then
    .ok (mem.take pos ++ bytes ++ mem.drop (pos + bytes.length))
  else .error .outside

section Slots

/-- How the key of a slot is encoded. -/
inductive Encoding where
  /-- The integers of an RSA key: n, e and, for a private key, d, p, q, d mod (p-1), d mod (q-1)
  and 1/q mod p. -/
  | rsa (count : Nat)
  /-- The bytes of an HMAC key. -/
  | hmac
deriving DecidableEq, Repr

/-- The keys of an encoding. -/
def Encoding.Key (L : BignumLimit) : Encoding → Type
  | rsa count => List.Vector (Bignum L) count
  | hmac => List.Vector UInt8 32

/-- The slots of the key cache. -/
inductive Slot where
  /-- Archive signing. -/
  | signPriv
  /-- Archive signature verification. -/
  | signPub
  /-- Archive decryption. -/
  | encrPriv
  /-- Archive encryption. -/
  | encrPub
  /-- The server root. -/
  | rootPub
  /-- The file HMAC. -/
  | hmacFile
  /-- The file write HMAC. -/
  | hmacFileWrite
  /-- The chunk HMAC. -/
  | hmacChunk
  /-- The archive name HMAC. -/
  | hmacName
  /-- Chunk randomization. -/
  | hmacCparams
  /-- Write authorization. -/
  | authPut
  /-- Read authorization. -/
  | authGet
  /-- Delete authorization. -/
  | authDelete
deriving DecidableEq, Repr

/-- The number of a key, which is its type in an exported record and its bit in a mask. -/
def Slot.key : Slot → Nat
  | signPriv => 0
  | signPub => 1
  | encrPriv => 2
  | encrPub => 3
  | hmacFile => 4
  | hmacChunk => 5
  | hmacName => 6
  | hmacCparams => 7
  | rootPub => 9
  | authPut => 10
  | authGet => 11
  | authDelete => 12
  | hmacFileWrite => 19

/-- How the key of each slot is encoded. -/
def Slot.encoding : Slot → Encoding
  | signPriv | encrPriv => .rsa 8
  | signPub | encrPub | rootPub => .rsa 2
  | hmacFile | hmacFileWrite | hmacChunk | hmacName | hmacCparams => .hmac
  | authPut | authGet | authDelete => .hmac

/-- The key cache. -/
abbrev Keycache (L : BignumLimit) : Type := (s : Slot) → Option (s.encoding.Key L)

/-- The file HMAC key. -/
def Keycache.fileHmac {L : BignumLimit} (cache : Keycache L) : Option (List.Vector UInt8 32) :=
  cache .hmacFile

/-- The file write HMAC key. -/
def Keycache.fileWriteHmac {L : BignumLimit} (cache : Keycache L) :
    Option (List.Vector UInt8 32) :=
  cache .hmacFileWrite

end Slots

section Import

variable {L : BignumLimit}

/-- Drop the most significant bytes that are zero. -/
def trim (bytes : List UInt8) : List UInt8 := bytes.rdropWhile (· = 0)

/-- What is left has no most significant byte that is zero. -/
theorem trim_normal (bytes : List UInt8) : (trim bytes).getLast? ≠ some 0 := by
  intro zero
  have nonempty : trim bytes ≠ [] := fun empty => by
    rw [empty] at zero
    cases zero
  rw [List.getLast?_eq_some_getLast nonempty] at zero
  have kept := List.rdropWhile_last_not (fun byte : UInt8 => decide (byte = 0)) bytes nonempty
  exact kept (decide_eq_true (Option.some.inj zero))

/-- The number with the given bytes, most significant byte first. -/
def bnBin2bn (L : BignumLimit) (bin : List UInt8) : Option (Bignum L) :=
  if small : (trim bin.reverse).length ≤ L.bytes then
    some ⟨trim bin.reverse, trim_normal bin.reverse, small⟩
  else none

/-- Import a large integer. Return it, what follows, and how much is left. -/
def importBN (L : BignumLimit) (mem : List UInt8) (pos buflen : Nat) :
    Except Trouble (Bignum L × Nat × Nat) :=
  if buflen < 4 then .error .failed
  else do
    let field ← load mem pos 4
    let len := leDec field
    if INT_MAX < len then .error .failed
    else if buflen - 4 < len then .error .failed
    else do
      let bytes ← load mem (pos + 4) len
      match bnBin2bn L bytes.reverse with
      | none => .error .failed
      | some bn => .ok (bn, pos + 4 + len, buflen - 4 - len)

/-- Import the integers of an RSA key. -/
def importInts (L : BignumLimit) (mem : List UInt8) :
    (count : Nat) → Nat → Nat → Except Trouble (List.Vector (Bignum L) count × Nat × Nat)
  | 0, pos, buflen => .ok (.nil, pos, buflen)
  | count + 1, pos, buflen => do
    let (bn, pos, buflen) ← importBN L mem pos buflen
    let (ints, rest) ← importInts L mem count pos buflen
    return (bn ::ᵥ ints, rest)

/-- Import an RSA key. -/
def importRSA (L : BignumLimit) (count : Nat) (mem : List UInt8) (pos buflen : Nat) :
    Except Trouble (List.Vector (Bignum L) count) := do
  let (ints, _, buflen) ← importInts L mem count pos buflen
  if buflen ≠ 0 then .error .failed else .ok ints

/-- Import an HMAC key. -/
def importHMAC (mem : List UInt8) (pos buflen : Nat) : Except Trouble (List.Vector UInt8 32) :=
  if buflen ≠ 32 then .error .failed
  else do
    let bytes ← load mem pos 32
    if length : bytes.length = 32 then .ok ⟨bytes, length⟩ else .error .outside

/-- Import a key. -/
def Encoding.importKey (L : BignumLimit) :
    (e : Encoding) → List UInt8 → Nat → Nat → Except Trouble (e.Key L)
  | rsa count, mem, pos, buflen => importRSA L count mem pos buflen
  | hmac, mem, pos, buflen => importHMAC mem pos buflen

/-- Import a key into its slot, which is freed first. -/
def importInto (cache : Keycache L) (s : Slot) (mem : List UInt8) (pos buflen : Nat) :
    Option (Int × Keycache L) :=
  match s.encoding.importKey L mem pos buflen with
  | .ok key => some (0, Function.update cache s (some key))
  | .error .failed => some (-1, Function.update cache s none)
  | .error .outside => none

/-- The slots that a record of a type is imported into. -/
def slotsOf : Nat → Option (List Slot)
  | 0 => some [.signPriv]
  | 1 => some [.signPub]
  | 2 => some [.encrPriv]
  | 3 => some [.encrPub]
  -- The one file HMAC key of a key file is set as one of two keys, or as both.
  | 4 => some [.hmacFile, .hmacFileWrite]
  | 5 => some [.hmacChunk]
  | 6 => some [.hmacName]
  | 7 => some [.hmacCparams]
  | 9 => some [.rootPub]
  | 10 => some [.authPut]
  | 11 => some [.authGet]
  | 12 => some [.authDelete]
  | _ => none

/-- Import a key into those of some slots that the mask asks for. -/
def importSlots (keys : BitVec 32) (mem : List UInt8) (pos buflen : Nat) :
    List Slot → Keycache L → Option (Int × Keycache L)
  | [], cache => some (0, cache)
  | s :: rest, cache =>
    if keys.getLsbD s.key then do
      let (rc, cache) ← importInto cache s mem pos buflen
      if rc ≠ 0 then some (-1, cache) else importSlots keys mem pos buflen rest cache
    else importSlots keys mem pos buflen rest cache

/-- The length of the header of a record. -/
def KEYHEADER_LEN : Nat := 5

/-- Import the keys of a buffer that the mask asks for. -/
def cryptoKeysImport (mem : List UInt8) (keys : BitVec 32) (pos buflen : Nat)
    (cache : Keycache L) : Option (Int × Keycache L) :=
  if buflen = 0 then some (0, cache)
  else if buflen < KEYHEADER_LEN then some (-1, cache)
  else do
    let kh ← (load mem pos KEYHEADER_LEN).toOption
    let len := leDec (kh.take 4)
    if buflen - KEYHEADER_LEN < len then some (-1, cache)
    else
      match slotsOf (leDec (kh.drop 4)) with
      | none => some (-1, cache)
      | some slots => do
        let (rc, cache) ← importSlots keys mem (pos + KEYHEADER_LEN) len slots cache
        if rc ≠ 0 then some (-1, cache)
        else
          cryptoKeysImport mem keys (pos + KEYHEADER_LEN + len) (buflen - KEYHEADER_LEN - len)
            cache
termination_by buflen
decreasing_by
  unfold KEYHEADER_LEN at *
  omega

end Import

section Export

variable {L : BignumLimit}

/-- Where a key is exported to. -/
structure Out where
  /-- The pointer is NULL: only the length is asked for. -/
  null : Bool
  /-- The whole memory that the pointer points into. -/
  mem : List UInt8
  /-- Where in the memory it points. -/
  pos : Nat
  /-- How much may be written there. -/
  buflen : Nat

/-- Exclusive or of one byte of a buffer into another one. -/
def xorByte (mem : List UInt8) (i j : Nat) : Except Trouble (List UInt8) :=
  match mem[i]?, mem[j]? with
  | some left, some right => .ok (mem.set i (left ^^^ right))
  | _, _ => .error .outside

/-- Exchange bytes from both ends on, from the given distance from the ends. -/
def reverseLoop (mem : List UInt8) (pos bnlen i : Nat) : Except Trouble (List UInt8) :=
  -- The first subtraction is one of 32 bits, the other one of 64 bits.
  if i < sub64 (sub32 bnlen 1) i then do
    let far := pos + sub64 (sub32 bnlen 1) i
    let mem ← xorByte mem (pos + i) far
    let mem ← xorByte mem far (pos + i)
    let mem ← xorByte mem (pos + i) far
    reverseLoop mem pos bnlen (i + 1)
  else .ok mem
termination_by 18446744073709551616 - i
decreasing_by
  unfold sub64 at *
  omega

/-- Export a large integer, and add the length it takes. -/
def exportBN (bn : Bignum L) (out : Out) (len : Nat) : Except Trouble (Out × Nat) :=
  let bnlen := bn.bytes.length
  -- This sum has 64 bits, the next one 32.
  if word64 (len + 4) < len then .error .failed
  else if word (word (len + 4) + bnlen) < word (len + 4) then .error .failed
  else if out.null then .ok (out, word (word (len + 4) + bnlen))
  else if out.buflen < 4 then .error .failed
  else do
    let mem ← store out.mem out.pos (leEnc 4 bnlen)
    if out.buflen - 4 < bnlen then .error .failed
    else do
      let mem ← store mem (out.pos + 4) bn.bytes.reverse
      let mem ← reverseLoop mem (out.pos + 4) bnlen 0
      .ok (⟨false, mem, out.pos + 4 + bnlen, out.buflen - 4 - bnlen⟩,
        word (word (len + 4) + bnlen))

/-- Export the integers of an RSA key. -/
def exportInts : List (Bignum L) → Out → Nat → Except Trouble (Out × Nat)
  | [], out, len => .ok (out, len)
  | bn :: rest, out, len => do
    let (out, len) ← exportBN bn out len
    exportInts rest out len

/-- Export an HMAC key. -/
def exportHMAC (key : List.Vector UInt8 32) (out : Out) : Except Trouble (Out × Nat) :=
  if out.null then .ok (out, 32)
  else if out.buflen < 32 then .error .failed
  else do
    let mem ← store out.mem out.pos key.toList
    .ok ({ out with mem }, 32)

/-- Export a key. -/
def Encoding.exportKey : (e : Encoding) → e.Key L → Out → Except Trouble (Out × Nat)
  | rsa _, key, out => exportInts key.toList out 0
  | hmac, key, out => exportHMAC key out

/-- The slots that can be exported, by the numbers of their keys. -/
def exportSlot : Nat → Option Slot
  | 0 => some .signPriv
  | 1 => some .signPub
  | 2 => some .encrPriv
  | 3 => some .encrPub
  | 4 => some .hmacFile
  | 5 => some .hmacChunk
  | 6 => some .hmacName
  | 7 => some .hmacCparams
  | 10 => some .authPut
  | 11 => some .authGet
  | 12 => some .authDelete
  | _ => none

/-- Export the key with a number. Return the buffer and the length of the key. -/
def exportKey (cache : Keycache L) (key : Nat) (out : Out) : Except Trouble (List UInt8 × Nat) :=
  match exportSlot key with
  | none => .error .failed
  | some s =>
    match cache s with
    | none => .error .failed
    | some held => do
      let (out, len) ← s.encoding.exportKey held out
      -- This length means an error.
      if len = 4294967295 then .error .failed else .ok (out.mem, len)

/-- Add the length that a key takes, if the mask asks for the key. -/
def lengthStep (cache : Keycache L) (keys : BitVec 32) (buflen key : Nat) : Except Trouble Nat :=
  if keys.getLsbD key then do
    let (_, len) ← exportKey cache key ⟨true, [], 0, 0⟩
    if word64 (buflen + len) < buflen then .error .failed
    else if word64 (word64 (buflen + len) + KEYHEADER_LEN) < word64 (buflen + len) then
      .error .failed
    else .ok (word64 (word64 (buflen + len) + KEYHEADER_LEN))
  else .ok buflen

/-- Write the record of a key, if the mask asks for the key. -/
def writeStep (cache : Keycache L) (keys : BitVec 32) (buflen : Nat) (written : List UInt8 × Nat)
    (key : Nat) : Except Trouble (List UInt8 × Nat) :=
  if keys.getLsbD key then
    if sub64 buflen written.2 < KEYHEADER_LEN then .error .failed
    else do
      let (mem, len) ← exportKey cache key ⟨false, written.1, written.2 + KEYHEADER_LEN,
        sub64 buflen (written.2 + KEYHEADER_LEN)⟩
      let mem ← store mem written.2 (leEnc 4 len ++ [UInt8.ofNat key])
      .ok (mem, written.2 + KEYHEADER_LEN + len)
  else .ok written

/-- Export the keys of a mask to a new buffer. -/
def cryptoKeysExport (cache : Keycache L) (keys : BitVec 32) : Except Trouble (List UInt8) := do
  let buflen ← (List.range 32).foldlM (lengthStep cache keys) 0
  let (mem, bufpos) ← (List.range 32).foldlM (writeStep cache keys buflen)
    (List.replicate buflen 0, 0)
  if bufpos ≠ buflen then .error .failed else .ok mem

end Export

end Tarsnap.Crypto
