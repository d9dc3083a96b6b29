import Tarsnap.Lib.Word
import Tarsnap.Lib.Xor
import Tarsnap.Netpacket.Packet

/-!
# RSA encryption and signatures

Messages are padded to blocks of 256 bytes before RSA is applied to them, and the padding is checked
after it is undone. Encryption pads with OAEP, signatures use PSS, both with SHA256. The RSA
primitive is given: it maps blocks to blocks, and the two keys of a pair invert each other on the
blocks that are numbers below the modulus, which has 2048 bits.
-/

namespace Tarsnap.Crypto

open Tarsnap.Lib Tarsnap.Netpacket

/-- What the RSA primitive does to a block. -/
inductive RsaResult where
  /-- It yields a block. -/
  | block (EM : List UInt8)
  /-- The number is too large for the modulus. -/
  | tooLarge
  /-- Internal error. -/
  | error
deriving DecidableEq

/-- The primitive with the two keys of a pair. -/
structure RsaPair where
  /-- RSA with the public key. -/
  rsaPublic : List UInt8 → RsaResult
  /-- RSA with the private key. -/
  rsaPrivate : List UInt8 → RsaResult
  /-- What the public key encrypts, the private key decrypts. -/
  decrypts : ∀ EM, EM.length = 256 → beDec EM < 2 ^ 2047 →
    ∃ c, c.length = 256 ∧ rsaPublic EM = .block c ∧ rsaPrivate c = .block EM
  /-- What the private key signs, the public key verifies. -/
  verifies : ∀ EM, EM.length = 256 → beDec EM < 2 ^ 2047 →
    ∃ c, c.length = 256 ∧ rsaPrivate EM = .block c ∧ rsaPublic c = .block EM

/-- How a function ends. -/
inductive Outcome (α : Type) where
  /-- It returns 0. -/
  | success (value : α)
  /-- It returns 1: the ciphertext or the signature is invalid. -/
  | bad
  /-- It returns -1. -/
  | error
deriving DecidableEq

section Masks

variable (sha256 : List UInt8 → Bytes32)

/-- The blocks of a mask from a position on. -/
def mgf1Loop (seed : List UInt8) (pos left : Nat) : List UInt8 :=
  if left = 0 then []
  else (sha256 (seed ++ beEnc 4 (pos / 32))).toList.take left ++
    mgf1Loop seed (pos + 32) (left - 32)
termination_by left

/-- The MGF1 mask generation function. -/
def cryptoMGF1 (seed : List UInt8) (buflen : Nat) : List UInt8 := mgf1Loop sha256 seed 0 buflen

/-- A mask has the length that is asked for. -/
theorem cryptoMGF1_length (seed : List UInt8) (buflen : Nat) :
    (cryptoMGF1 sha256 seed buflen).length = buflen := by
  have loop : ∀ left pos, (mgf1Loop sha256 seed pos left).length = left := by
    intro left
    induction left using Nat.strong_induction_on with
    | _ left ih =>
      intro pos
      rw [mgf1Loop]
      split
      · rename_i none
        rw [none]
        rfl
      · rename_i some_
        rw [List.length_append, List.length_take, Vector.length_toList, ih (left - 32) (by omega)]
        omega
  exact loop buflen 0

end Masks

/-- Zero if and only if two buffers are identical. -/
def cryptoVerifyBytes (buf0 buf1 : List UInt8) : UInt8 :=
  (buf0.zip buf1).foldl (fun rc pair => rc ||| (pair.1 ^^^ pair.2)) 0

/-- The comparison of two buffers of one length. -/
theorem cryptoVerifyBytes_eq_zero {buf0 buf1 : List UInt8} (lengths : buf0.length = buf1.length) :
    cryptoVerifyBytes buf0 buf1 = 0 ↔ buf0 = buf1 := by
  have loop : ∀ (left right : List UInt8) (rc : UInt8), left.length = right.length →
      ((left.zip right).foldl (fun rc pair => rc ||| (pair.1 ^^^ pair.2)) rc = 0 ↔
        rc = 0 ∧ left = right) := by
    intro left
    induction left with
    | nil =>
      intro right rc same
      rw [List.eq_nil_of_length_eq_zero same.symm]
      simp
    | cons first left ih =>
      intro right rc same
      cases right with
      | nil => cases same
      | cons second right =>
        rw [List.zip_cons_cons, List.foldl_cons, ih right _ (Nat.succ.inj same), or_eq_zero,
          UInt8.xor_eq_zero_iff, List.cons.injEq, and_assoc]
  rw [cryptoVerifyBytes, loop buf0 buf1 0 lengths]
  exact ⟨And.right, fun same => ⟨rfl, same⟩⟩

section Encryption

variable (sha256 : List UInt8 → Bytes32)

/-- The block for a message: zero, the masked seed, and the masked hash of the label, padding and
message. -/
def oaepBlock (seed data : List UInt8) : List UInt8 :=
  let DB := (sha256 []).toList ++ List.replicate (190 - data.length) 0 ++ [1] ++ data
  let maskedDB := xorBytes DB (cryptoMGF1 sha256 seed 223)
  let maskedSeed := xorBytes seed (cryptoMGF1 sha256 maskedDB 32)
  [0] ++ maskedSeed ++ maskedDB

/-- Encrypt data with a key, whose size is valid or not. The random seed may not be available. -/
def cryptoRsaEncrypt (rsa : Option (Bool × RsaPair)) (entropy : Option (Bytes32))
    (data : List UInt8) (outlen : Nat) : Outcome (List UInt8) :=
  match rsa with
  | none => .error
  | some (validSize, rsa) =>
    if validSize = false then .error
    else if outlen ≠ 256 then .error
    else if 190 < data.length then .error
    else
      match entropy with
      | none => .error
      | some seed =>
        match rsa.rsaPublic (oaepBlock sha256 seed.toList data) with
        | .block c => .success c
        | _ => .error

/-- The state of the check of the padding. -/
structure Padding where
  /-- Not zero if the data is bad. -/
  baddata : UInt8
  /-- All ones as long as this is padding. -/
  paddingmask : UInt8
  /-- Length of the message. -/
  msglen : Nat

/-- A byte as a signed number, in 64 bits. -/
def signExtend (byte : UInt8) : Nat :=
  if byte.toNat < 128 then byte.toNat else 18446744073709551616 - 256 + byte.toNat

/-- Check one byte of the padding. -/
def paddingStep (s : Padding) (byte : UInt8) : Padding where
  baddata := s.baddata ||| (s.paddingmask &&& byte &&& 0xfe)
  msglen := (s.msglen + signExtend s.paddingmask) % 18446744073709551616
  paddingmask := s.paddingmask &&& (byte - 1)

/-- Undo the padding of a block: the message, or nothing if the data is bad. The third result says
that the message does not fit. -/
def oaepDecode (EM : List UInt8) (outlen : Nat) : Outcome (List UInt8) :=
  let lHash := (sha256 []).toList
  let baddata := EM.getD 0 0
  let maskedSeed := (EM.drop 1).take 32
  let maskedDB := (EM.drop 33).take 223
  let seed := xorBytes maskedSeed (cryptoMGF1 sha256 maskedDB 32)
  let DB := xorBytes maskedDB (cryptoMGF1 sha256 seed 223)
  let baddata := baddata ||| cryptoVerifyBytes (DB.take 32) lHash
  let s := (DB.drop 32).foldl paddingStep ⟨baddata, 0xff, 191⟩
  let baddata := s.baddata ||| s.paddingmask
  if baddata ≠ 0 then .bad
  else if outlen < s.msglen then .error
  else .success ((DB.drop (223 - s.msglen)).take s.msglen)

/-- Decrypt data with a key, whose size is valid or not, into a buffer of a length. -/
def cryptoRsaDecrypt (rsa : Option (Bool × RsaPair)) (data : List UInt8) (outlen : Nat) :
    Outcome (List UInt8) :=
  match rsa with
  | none => .error
  | some (validSize, rsa) =>
    if validSize = false then .error
    else if data.length ≠ 256 then .error
    else if outlen < 256 then .error
    else
      match rsa.rsaPrivate data with
      | .tooLarge => .bad
      | .error => .error
      | .block EM => oaepDecode sha256 EM outlen

end Encryption

section Signatures

variable (sha256 : List UInt8 → Bytes32)

/-- Clear the highest bit of a string of bytes. -/
def clearTop : List UInt8 → List UInt8
  | [] => []
  | first :: rest => (first &&& 0x7f) :: rest

/-- What is hashed for a signature. -/
def pssMprime (mHash salt : List UInt8) : List UInt8 := List.replicate 8 0 ++ mHash ++ salt

/-- The block for a hash and a salt. -/
def pssBlock (mHash salt : List UInt8) : List UInt8 :=
  let H := (sha256 (pssMprime mHash salt)).toList
  let DB := List.replicate 190 0 ++ [1] ++ salt
  let maskedDB := clearTop (xorBytes DB (cryptoMGF1 sha256 H 223))
  maskedDB ++ H ++ [0xbc]

/-- Sign data with a key, whose size is valid or not. The random salt may not be available. -/
def cryptoRsaSign (rsa : Option (Bool × RsaPair)) (entropy : Option (Bytes32))
    (data : List UInt8) (siglen : Nat) : Outcome (List UInt8) :=
  match rsa with
  | none => .error
  | some (validSize, rsa) =>
    if validSize = false then .error
    else if siglen ≠ 256 then .error
    else
      match entropy with
      | none => .error
      | some salt =>
        match rsa.rsaPrivate (pssBlock sha256 (sha256 data).toList salt.toList) with
        | .block sig => .success sig
        | _ => .error

/-- Check that a block is one for a hash. -/
def pssVerify (mHash EM : List UInt8) : Bool :=
  if EM.getD 255 0 ≠ 0xbc then false
  else
    let maskedDB := EM.take 223
    let H := (EM.drop 223).take 32
    if maskedDB.getD 0 0 &&& 0x80 ≠ 0 then false
    else
      let DB := clearTop (xorBytes maskedDB (cryptoMGF1 sha256 H 223))
      if (DB.take 190).any (· ≠ 0) then false
      else if DB.getD 190 0 ≠ 1 then false
      else
        let salt := DB.drop 191
        let Hprime := (sha256 (pssMprime mHash salt)).toList
        cryptoVerifyBytes H Hprime = 0

/-- Verify that a signature matches data. -/
def cryptoRsaVerify (rsa : Option (Bool × RsaPair)) (data sig : List UInt8) : Outcome Unit :=
  match rsa with
  | none => .error
  | some (validSize, rsa) =>
    if validSize = false then .error
    else if sig.length ≠ 256 then .error
    else
      match rsa.rsaPublic sig with
      | .tooLarge => .bad
      | .error => .error
      | .block EM => if pssVerify sha256 (sha256 data).toList EM then .success () else .bad

end Signatures

end Tarsnap.Crypto
