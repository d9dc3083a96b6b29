import Tarsnap.Lib.Cells
import Tarsnap.Lib.Keystream
import Tarsnap.Lib.Stdio
import Tarsnap.Scryptenc.Params

/-!
# Blocks that are encrypted with a passphrase

An encrypted block has a header of 96 bytes with the parameters of scrypt and the salt, a checksum
and a signature of these, the encrypted data, and a signature of all before it. It is decrypted in
memory, where its length is known, or as a file is read, where the last 32 bytes that were read are
held back since they may be the signature.

A signature is computed from all bytes that were hashed, in their order.
-/

namespace Tarsnap.Scryptenc

open Tarsnap.Lib Tarsnap.Netpacket Tarsnap.Crypto

/-- The cryptographic functions. -/
structure ScryptPrimitives where
  /-- SHA256. -/
  sha256 : List UInt8 → Bytes32
  /-- HMAC-SHA256 under a key. -/
  hmac : List UInt8 → List UInt8 → Bytes32
  /-- The keys from a passphrase, a salt, N, r and p, unless it cannot be computed. -/
  scrypt : List UInt8 → List UInt8 → Nat → Nat → Nat → Option (Vector UInt8 64)
  /-- The keystream of AES in counter mode under a key and a nonce. -/
  aesctr : List UInt8 → UInt64 → UInt64 → UInt8

/-- What a computation has: its limits, and the memory for a key and a stream. -/
structure Machine where
  /-- The limits for the parameters. -/
  limits : Limits
  /-- The key can be expanded. -/
  expand : Bool
  /-- There is memory for the stream. -/
  stream : Bool

/-- The bytes of the magic string "scrypt". -/
def scryptMagic : List UInt8 := [115, 99, 114, 121, 112, 116]

/-- No explicit parameters. -/
def noParams : ScryptencParams := ⟨0, 0, 0⟩

section Setup

variable (S : ScryptPrimitives) (M : Machine)

/-- The part of the header that has the parameters and the salt. -/
def headerStart (P : ScryptencParams) (salt : Bytes32) : List UInt8 :=
  scryptMagic ++ [0, UInt8.ofNat (P.logN % 256).toNat] ++ beEnc 4 P.r.toNat ++
    beEnc 4 P.p.toNat ++ salt.toList

/-- The header with its checksum. -/
def headerChecked (P : ScryptencParams) (salt : Bytes32) : List UInt8 :=
  headerStart P salt ++ (S.sha256 (headerStart P salt)).toList.take 16

/-- The header with its checksum and its signature. -/
def headerSigned (P : ScryptencParams) (salt : Bytes32) (dk : Vector UInt8 64) : List UInt8 :=
  headerChecked S P salt ++ (S.hmac (dk.toList.drop 32) (headerChecked S P salt)).toList

/-- Determine the parameters, and generate the header and the keys. -/
def scryptencSetup (salt : Option Bytes32) (passwd : List UInt8) (P : ScryptencParams)
    (force : Bool) : ScryptencParams × Except ScryptError (List UInt8 × Vector UInt8 64) :=
  match chooseParams M.limits P force with
  | .error rc => (P, .error rc)
  | .ok P =>
    match salt with
    | none => (P, .error .esalt)
    | some salt =>
      match S.scrypt passwd salt.toList (2 ^ P.logN.toNat) P.r.toNat P.p.toNat with
      | none => (P, .error .ekey)
      | some dk => (P, .ok (headerSigned S P salt dk, dk))

/-- The parameters in a header. -/
def headerParams (header : List UInt8) : ScryptencParams :=
  ⟨(header.getD 7 0).toNat, UInt32.ofNat (beDec ((header.drop 8).take 4)),
    UInt32.ofNat (beDec ((header.drop 12).take 4))⟩

/-- Check a header and derive the keys from it. -/
def scryptdecSetup (header passwd : List UInt8) (force : Bool) :
    Except ScryptError (Vector UInt8 64) := do
  let P := headerParams header
  let salt := (header.drop 16).take 32
  if cryptoVerifyBytes ((header.drop 48).take 16) ((S.sha256 (header.take 48)).toList.take 16) ≠ 0
    then throw .einval
  checkparams M.limits P force
  match S.scrypt passwd salt (2 ^ P.logN.toNat) P.r.toNat P.p.toNat with
  | none => throw .ekey
  | some dk =>
    let hbuf := S.hmac (dk.toList.drop 32) (header.take 64)
    if cryptoVerifyBytes hbuf.toList ((header.drop 64).take 32) ≠ 0 then throw .epass
    return dk

end Setup

section Buffers

variable (S : ScryptPrimitives) (M : Machine)

/-- What a function on buffers returns and writes. -/
structure BufResult where
  /-- What it returns. -/
  rc : Except ScryptError Unit
  /-- The explicit parameters that it leaves. -/
  params : ScryptencParams
  /-- What it writes to the output, if it gets there. -/
  outbuf : Option (List UInt8)
deriving DecidableEq

/-- Encrypt a buffer. -/
def scryptencBuf (salt : Option Bytes32) (passwd : List UInt8) (P : ScryptencParams)
    (force : Bool) (inbuf : List UInt8) : BufResult :=
  match scryptencSetup S M salt passwd P force with
  | (P, .error rc) => ⟨.error rc, P, none⟩
  | (P, .ok (header, dk)) =>
    if M.expand = false then ⟨.error .eopenssl, P, some header⟩
    else if M.stream = false then ⟨.error .enomem, P, some header⟩
    else
      let signed := header ++ xorStream (S.aesctr (dk.toList.take 32) 0) 0 inbuf
      ⟨.ok (), P, some (signed ++ (S.hmac (dk.toList.drop 32) signed).toList)⟩

/-- Decrypt a buffer. -/
def scryptdecBuf (passwd : List UInt8) (force : Bool) (inbuf : List UInt8) : BufResult :=
  if inbuf.length < 7 ∨ inbuf.take 6 ≠ scryptMagic then ⟨.error .einval, noParams, none⟩
  else if inbuf.getD 6 0 ≠ 0 then ⟨.error .eversion, noParams, none⟩
  else if inbuf.length < 128 then ⟨.error .einval, noParams, none⟩
  else
    let header := inbuf.take 96
    let P := headerParams header
    match scryptdecSetup S M header passwd force with
    | .error rc => ⟨.error rc, P, none⟩
    | .ok dk =>
      if M.expand = false then ⟨.error .eopenssl, P, none⟩
      else if M.stream = false then ⟨.error .enomem, P, none⟩
      else
        let outbuf := xorStream (S.aesctr (dk.toList.take 32) 0) 0
          ((inbuf.drop 96).take (inbuf.length - 128))
        let hbuf := S.hmac (dk.toList.drop 32) (inbuf.take (inbuf.length - 32))
        if cryptoVerifyBytes hbuf.toList (inbuf.drop (inbuf.length - 32)) ≠ 0 then
          ⟨.error .einval, P, some outbuf⟩
        else ⟨.ok (), P, some outbuf⟩

end Buffers

section Files

variable (S : ScryptPrimitives) (M : Machine)

/-- How much is read at once, besides what is held back. -/
def ENCBLOCK : Nat := 65536

/-- What a decryption keeps between its two parts. -/
structure Cookie where
  /-- The file, after the header. -/
  infile : File
  /-- The header. -/
  header : List UInt8
  /-- The derived keys. -/
  dk : Vector UInt8 64

/-- Load the header and check the magic. -/
def scryptdecFileLoadHeader (infile : File) : Except ScryptError (List UInt8) × File :=
  let (first, infile) := freadItem infile 7
  if first.bytes.length < 7 then
    (.error (if first.ferror then .erdfile else .einval), infile)
  else if first.bytes.take 6 ≠ scryptMagic then (.error .einval, infile)
  else if first.bytes.getD 6 0 ≠ 0 then (.error .eversion, infile)
  else
    let (second, infile) := freadItem infile 89
    if second.bytes.length < 89 then
      (.error (if second.ferror then .erdfile else .einval), infile)
    else (.ok (first.bytes ++ second.bytes), infile)

/-- Prepare to decrypt a file. -/
def scryptdecFilePrep (malloc : Bool) (passwd : List UInt8) (force : Bool) (infile : File) :
    ScryptencParams × Except ScryptError Cookie :=
  if malloc = false then (noParams, .error .enomem)
  else
    match scryptdecFileLoadHeader infile with
    | (.error rc, _) => (noParams, .error rc)
    | (.ok header, infile) => (headerParams header,
        (scryptdecSetup S M header passwd force).map fun dk => ⟨infile, header, dk⟩)

/-- The variables of the loop. -/
structure Copying where
  /-- The buffer. -/
  buf : Cells
  /-- How many bytes are in the buffer. -/
  buflen : Nat
  /-- What was hashed. -/
  hctx : List UInt8
  /-- The position in the keystream. -/
  bytectr : UInt64
  /-- The file that is read. -/
  infile : File
  /-- Whether reading failed. -/
  ferror : Bool
  /-- The file that is written. -/
  outfile : Outfile

variable (keystream : UInt64 → UInt8)

/-- Decrypt, hash, and output everything except the last 32 bytes of the buffer. -/
def outputBlock (c : Copying) : Except Fault (Nat × Copying) := do
  let block ← loadBytes c.buf 0 (c.buflen - 32)
  let buf ← storeBytes c.buf 0 (xorStream keystream c.bytectr block)
  let decrypted ← loadBytes buf 0 (c.buflen - 32)
  let (written, outfile) := fwrite c.outfile decrypted
  return (written, { c with
    buf, hctx := c.hctx ++ block, bytectr := c.bytectr + UInt64.ofNat (c.buflen - 32), outfile })

/-- Read data, and decrypt all of it except the final 32 bytes. -/
def copyLoop : Nat → Copying → Except Fault (Except ScryptError Unit × Copying)
  | 0, _ => .error .diverges
  | fuel + 1, c => do
    let (read, infile) := fread c.infile (ENCBLOCK + 32 - c.buflen)
    if read.bytes.length = 0 then
      return (.ok (), { c with infile, ferror := c.ferror || read.ferror })
    let buf ← storeBytes c.buf c.buflen read.bytes
    let c := { c with
      buf, buflen := c.buflen + read.bytes.length, infile, ferror := c.ferror || read.ferror }
    if c.buflen ≤ 32 then copyLoop fuel c
    else do
      let (written, c) ← outputBlock keystream c
      if written < c.buflen - 32 then return (.error .ewrfile, c)
      let buf ← moveCells c.buf (c.buflen - 32) 32
      copyLoop fuel { c with buf, buflen := 32 }

/-- Decrypt the file of a cookie. -/
def scryptdecFileCopy (C : Cookie) (outfile : Outfile) :
    Except Fault (Except ScryptError Unit × Outfile) :=
  if M.expand = false then .ok (.error .eopenssl, outfile)
  else if M.stream = false then .ok (.error .enomem, outfile)
  else do
    let (rc, c) ← copyLoop (S.aesctr (C.dk.toList.take 32) 0) (C.infile.rest.length + 1)
      ⟨List.replicate (ENCBLOCK + 32) none, 0, C.header, 0, C.infile, false, outfile⟩
    match rc with
    | .error rc => return (.error rc, c.outfile)
    | .ok () =>
      if c.ferror then return (.error .erdfile, c.outfile)
      else if c.buflen < 32 then return (.error .einval, c.outfile)
      else do
        let signature ← loadBytes c.buf 0 32
        let hbuf := S.hmac (C.dk.toList.drop 32) c.hctx
        if cryptoVerifyBytes hbuf.toList signature ≠ 0 then return (.error .einval, c.outfile)
        else return (.ok (), c.outfile)

/-- What a decryption of a file returns and writes. -/
structure FileResult where
  /-- What it returns. -/
  rc : Except ScryptError Unit
  /-- The explicit parameters that it leaves. -/
  params : ScryptencParams
  /-- The file that it writes. -/
  outfile : Outfile

/-- Decrypt a file. -/
def scryptdecFile (malloc : Bool) (passwd : List UInt8) (force : Bool) (infile : File)
    (outfile : Outfile) : Except Fault FileResult :=
  match scryptdecFilePrep S M malloc passwd force infile with
  | (P, .error rc) => .ok ⟨.error rc, P, outfile⟩
  | (P, .ok C) => do
    let (rc, outfile) ← scryptdecFileCopy S M C outfile
    return ⟨rc, P, outfile⟩

end Files

end Tarsnap.Scryptenc
