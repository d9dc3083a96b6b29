import Tarsnap.Crypto.Keys
import Tarsnap.Lib.Heap

/-!
# The memory of the key cache

Each slot of the key cache is a null pointer or points to a key in memory: an RSA key of OpenSSL, or
a structure with a pointer to the bytes of an HMAC key. Importing or generating a key frees the old
key first and then builds the new one in steps that may fail: allocations, parsing, the library and
the entropy source. At exit all keys are freed.

The integers of an RSA key are objects of their own until the library takes them over; from then on
they are freed with the key.
-/

namespace Tarsnap.Crypto.KeySlots

open Tarsnap.Lib

/-- What is in memory. -/
inductive Object (L : BignumLimit) where
  /-- A large integer. -/
  | bignum (value : Bignum L)
  /-- An RSA key and the integers that were put into it. -/
  | rsa (ints : List (Bignum L))
  /-- A buffer, with what was written to it. -/
  | buffer (content : Option (List.Vector UInt8 32))
  /-- The length of an HMAC key and the pointer to its bytes, as far as they were stored. -/
  | hmac (len : Option Nat) (key : Option Nat)

variable {L : BignumLimit}

section Free

/-- Free an RSA key; freeing a null pointer does nothing. -/
def rsaFree (h : Heap (Object L)) (key : Option Nat) : Except HeapFault (Heap (Object L)) :=
  match key with
  | none => .ok h
  | some id => do
    match ← h.read id with
    | .rsa _ => h.free (some id)
    | _ => .error .mistaken

/-- Free the bytes of an HMAC key and its structure. -/
def hmacFree (h : Heap (Object L)) (key : Option Nat) : Except HeapFault (Heap (Object L)) :=
  match key with
  | none => .ok h
  | some id => do
    match ← h.read id with
    | .hmac _ bytes =>
      let h ← h.free bytes
      h.free (some id)
    | _ => .error .mistaken

/-- Free large integers. -/
def freeInts (h : Heap (Object L)) (ids : List Nat) : Except HeapFault (Heap (Object L)) :=
  ids.foldlM (fun h id => h.free (some id)) h

end Free

section Import

/-- Import a large integer into memory, unless the data or an allocation fails. -/
def importInt (h : Heap (Object L)) (mem : List UInt8) (pos buflen : Nat) :
    Except HeapFault (Option (Nat × Nat × Nat) × Heap (Object L)) :=
  match importBN L mem pos buflen with
  | .error .outside => .error .outside
  | .error .failed => .ok (none, h)
  | .ok (bn, pos, buflen) => do
    let (bnbuf, h) := h.alloc (.buffer none)
    match bnbuf with
    | none => return (none, h)
    | some buf => do
      let (id, h) := h.alloc (.bignum bn)
      let h ← h.free (some buf)
      return (id.map fun id => (id, pos, buflen), h)

/-- Import so many large integers. Return those that were imported, and what is left of the data
unless one of them failed. -/
def importIntegers (mem : List UInt8) : Nat → Heap (Object L) → Nat → Nat →
    Except HeapFault (List Nat × Option Nat × Heap (Object L))
  | 0, h, _, buflen => .ok ([], some buflen, h)
  | count + 1, h, pos, buflen => do
    let (imported, h) ← importInt h mem pos buflen
    match imported with
    | none => return ([], none, h)
    | some (id, pos, buflen) => do
      let (ids, left, h) ← importIntegers mem count h pos buflen
      return (id :: ids, left, h)

/-- Take the integers out of memory into an RSA key. -/
def takeInts (h : Heap (Object L)) (key : Nat) : List Nat → Except HeapFault (Heap (Object L))
  | [] => .ok h
  | id :: ids => do
    match ← h.read id, ← h.read key with
    | .bignum bn, .rsa ints => do
      let h ← h.free (some id)
      let h ← h.write key (.rsa (ints ++ [bn]))
      takeInts h key ids
    | _, _ => .error .mistaken

/-- Put groups of integers into an RSA key, each of which may fail. Integers that are not put into
the key are freed then. -/
def cryptoCompatRSAImport (h : Heap (Object L)) (key : Nat) :
    List (List Nat) → Except HeapFault (Int × Heap (Object L))
  | [] => .ok (0, h)
  | ids :: later => do
    let (fails, h) := h.attempt
    if fails then do
      let h ← freeInts h (ids ++ later.flatten)
      return (-1, h)
    else do
      let h ← takeInts h key ids
      cryptoCompatRSAImport h key later

/-- Import an RSA key of so many integers, which are put into the key in groups. Return the pointer
that the slot holds then. -/
def importRSASlot (count : Nat) (groups : List Nat → List (List Nat)) (h : Heap (Object L))
    (key : Option Nat) (data : List UInt8) :
    Except HeapFault (Int × Option Nat × Heap (Object L)) := do
  let h ← rsaFree h key
  let (key, h) := h.alloc (.rsa [])
  match key with
  | none => return (-1, none, h)
  | some id => do
    let (ids, left, h) ← importIntegers data count h 0 data.length
    if left ≠ some 0 then do
      let h ← freeInts h ids
      let h ← rsaFree h (some id)
      return (-1, none, h)
    else do
      let (rc, h) ← cryptoCompatRSAImport h id (groups ids)
      if rc ≠ 0 then do
        let h ← rsaFree h (some id)
        return (-1, none, h)
      else return (0, some id, h)

/-- Import a private RSA key: n, e and d, then p and q, then the other three. -/
def cryptoKeysSubrImportRSAPriv (h : Heap (Object L)) (key : Option Nat) (data : List UInt8) :
    Except HeapFault (Int × Option Nat × Heap (Object L)) :=
  importRSASlot 8 (fun ids => [ids.take 3, (ids.drop 3).take 2, ids.drop 5]) h key data

/-- Import a public RSA key: n and e. -/
def cryptoKeysSubrImportRSAPub (h : Heap (Object L)) (key : Option Nat) (data : List UInt8) :
    Except HeapFault (Int × Option Nat × Heap (Object L)) :=
  importRSASlot 2 (fun ids => [ids]) h key data

/-- Import an HMAC key. -/
def cryptoKeysSubrImportHMAC (h : Heap (Object L)) (key : Option Nat) (data : List UInt8) :
    Except HeapFault (Int × Option Nat × Heap (Object L)) := do
  let h ← hmacFree h key
  if size : data.length = 32 then do
    let (key, h) := h.alloc (.hmac none none)
    match key with
    | none => return (-1, none, h)
    | some id => do
      let (bytes, h) := h.alloc (.buffer none)
      let h ← h.write id (.hmac none bytes)
      match bytes with
      | none => do
        let h ← h.free (some id)
        return (-1, none, h)
      | some buf => do
        let h ← h.write id (.hmac (some 32) (some buf))
        let h ← h.write buf (.buffer (some ⟨data, size⟩))
        return (0, some id, h)
  else return (-1, none, h)

end Import

section Generate

/-- The keys and the entropy that are found when memory was used up to an address. -/
structure Randomness (L : BignumLimit) where
  /-- The integers of a new RSA key. -/
  rsa : Nat → List.Vector (Bignum L) 8
  /-- The bytes of the entropy source. -/
  entropy : Nat → List.Vector UInt8 32

variable (R : Randomness L)

/-- Generate a key pair. -/
def cryptoCompatRSAGenerateKey (h : Heap (Object L)) (e : Bignum L) :
    Except HeapFault (Option Nat × Heap (Object L)) := do
  let (e, h) := h.alloc (.bignum e)
  match e with
  | none => return (none, h)
  | some e => do
    let (key, h) := h.alloc (.rsa [])
    match key with
    | none => do
      let h ← h.free (some e)
      return (none, h)
    | some id => do
      let (fails, h) := h.attempt
      if fails then do
        let h ← rsaFree h (some id)
        let h ← h.free (some e)
        return (none, h)
      else do
        let h ← h.write id (.rsa (R.rsa id).toList)
        let h ← h.free (some e)
        return (some id, h)

/-- Generate an RSA key and store the private and public parts. Return the pointers that the slots
hold then. -/
def cryptoKeysSubrGenerateRSA (e : Bignum L) (h : Heap (Object L)) (priv pub : Option Nat) :
    Except HeapFault (Int × Option Nat × Option Nat × Heap (Object L)) := do
  let h ← rsaFree h priv
  let h ← rsaFree h pub
  let (priv, h) ← cryptoCompatRSAGenerateKey R h e
  match priv with
  | none => return (-1, none, none, h)
  | some id => do
    let (pub, h) := h.alloc (.rsa ((R.rsa id).toList.take 2))
    match pub with
    | none => do
      let h ← rsaFree h (some id)
      return (-1, none, none, h)
    | some dup => return (0, some id, some dup, h)

/-- Generate an HMAC key. Return the pointer that the slot holds then. -/
def cryptoKeysSubrGenerateHMAC (h : Heap (Object L)) (key : Option Nat) :
    Except HeapFault (Int × Option Nat × Heap (Object L)) := do
  let h ← hmacFree h key
  let (key, h) := h.alloc (.hmac none none)
  match key with
  | none => return (-1, none, h)
  | some id => do
    let (bytes, h) := h.alloc (.buffer none)
    let h ← h.write id (.hmac none bytes)
    match bytes with
    | none => do
      -- The structure is freed, and the slot still points to it.
      let h ← h.free (some id)
      return (-1, some id, h)
    | some buf => do
      let h ← h.write id (.hmac (some 32) (some buf))
      let (fails, h) := h.attempt
      if fails then do
        let h ← h.free (some buf)
        let h ← h.free (some id)
        return (-1, some id, h)
      else do
        let h ← h.write buf (.buffer (some (R.entropy buf)))
        return (0, some id, h)

end Generate

section Cache

/-- The memory and the slots of the key cache. -/
structure Keys (L : BignumLimit) where
  /-- The memory. -/
  heap : Heap (Object L)
  /-- The pointers in the slots. -/
  slots : Slot → Option Nat

/-- The key cache before any key is imported or generated. -/
def cryptoKeysInitKeycache (fates : List Bool) : Keys L := ⟨Heap.empty fates, fun _ => none⟩

/-- A pair of slots for an RSA key. -/
inductive KeyPair where
  /-- Archive signing. -/
  | sign
  /-- Archive encryption. -/
  | encr

/-- The slot of the private key. -/
def KeyPair.priv : KeyPair → Slot
  | sign => .signPriv
  | encr => .encrPriv

/-- The slot of the public key. -/
def KeyPair.pub : KeyPair → Slot
  | sign => .signPub
  | encr => .encrPub

/-- An operation on keys. -/
inductive Op where
  /-- The data of a record is imported into a slot. -/
  | importKey (s : Slot) (data : List UInt8)
  /-- An RSA key is generated. -/
  | generateRSA (pair : KeyPair)
  /-- An HMAC key is generated. -/
  | generateHMAC (s : Slot) (hmac : s.encoding = .hmac)

/-- Import the data of a record into a slot. -/
def importSlot (s : Slot) : Heap (Object L) → Option Nat → List UInt8 →
    Except HeapFault (Int × Option Nat × Heap (Object L)) :=
  match s with
  | .signPriv | .encrPriv => cryptoKeysSubrImportRSAPriv
  | .signPub | .encrPub | .rootPub => cryptoKeysSubrImportRSAPub
  | _ => cryptoKeysSubrImportHMAC

variable (R : Randomness L) (e : Bignum L)

/-- Do an operation. -/
def step (keys : Keys L) : Op → Except HeapFault (Int × Keys L)
  | .importKey s data => do
    let (rc, key, h) ← importSlot s keys.heap (keys.slots s) data
    return (rc, ⟨h, Function.update keys.slots s key⟩)
  | .generateRSA pair => do
    let (rc, priv, pub, h) ← cryptoKeysSubrGenerateRSA R e keys.heap (keys.slots pair.priv)
      (keys.slots pair.pub)
    return (rc, ⟨h, Function.update (Function.update keys.slots pair.priv priv) pair.pub pub⟩)
  | .generateHMAC s _ => do
    let (rc, key, h) ← cryptoKeysSubrGenerateHMAC R keys.heap (keys.slots s)
    return (rc, ⟨h, Function.update keys.slots s key⟩)

/-- Read the key of a slot through its pointer, as what looks up or exports a key does. -/
def readSlot (keys : Keys L) (s : Slot) :
    Except HeapFault (Option (List (Bignum L) ⊕ List.Vector UInt8 32)) :=
  match keys.slots s with
  | none => .ok none
  | some id => do
    match ← keys.heap.read id with
    | .rsa ints => return some (.inl ints)
    | .hmac _ (some buf) => do
      match ← keys.heap.read buf with
      | .buffer (some content) => return some (.inr content)
      | _ => .error .mistaken
    | _ => .error .mistaken

/-- The slots for RSA keys, in the order in which they are freed. -/
def rsaSlots : List Slot := [.signPriv, .signPub, .encrPriv, .encrPub, .rootPub]

/-- The slots for HMAC keys, in the order in which they are freed. -/
def hmacSlots : List Slot :=
  [.hmacFile, .hmacFileWrite, .hmacChunk, .hmacName, .hmacCparams, .authPut, .authGet, .authDelete]

/-- Free the key cache. -/
def cryptoKeysAtexit (keys : Keys L) : Except HeapFault (Keys L) := do
  let h ← rsaSlots.foldlM (fun h s => rsaFree h (keys.slots s)) keys.heap
  hmacSlots.foldlM (fun keys s => do
    let h ← hmacFree keys.heap (keys.slots s)
    return ⟨h, Function.update keys.slots s none⟩) ⟨h, keys.slots⟩

end Cache

end Tarsnap.Crypto.KeySlots
