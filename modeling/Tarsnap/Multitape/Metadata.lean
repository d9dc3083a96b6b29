import Tarsnap.Multitape.Metaindex

/-!
# Reading archive metadata

A metadata file holds the archive name, its creation time and command line, the hash and length
of the metaindex, and a signature. It is accepted only under the hash of the name it holds.
-/

namespace Tarsnap.Multitape

open Tarsnap.Lib Tarsnap.Chunks

/-- What may fail while metadata is read. -/
structure MetadataFaults where
  /-- Allocating the metadata structure fails. -/
  alloc : Bool
  /-- The storage layer fails to read the file. -/
  storage : Option ReadError
  /-- Decoding runs out of memory, or the signature check fails to run. -/
  decode : Bool
  /-- Hashing the name fails. -/
  name : Bool

/-- Nothing fails. -/
def MetadataFaults.none : MetadataFaults := ⟨false, .none, false, false⟩

/-- Read a file of any length, unless the read fails. -/
def storageReadFileAlloc (fault : Option ReadError) (S : Store) (cls : Char) (name : Hash) :
    Except ReadError (List UInt8) :=
  match fault with
  | some failure => .error failure
  | none =>
    match S cls name with
    | none => .error .missing
    | some data => .ok data

/-- A NUL-terminated string and what follows it. -/
def takeString (buf : List UInt8) : Except ReadError (List UInt8 × List UInt8) :=
  if 0 ∈ buf then .ok (buf.takeWhile (· ≠ 0), (buf.dropWhile (· ≠ 0)).drop 1)
  else .error .corrupt

/-- A field of the given width and what follows it. -/
def takeField (width : Nat) (buf : List UInt8) : Except ReadError (List UInt8 × List UInt8) :=
  if buf.length < width then .error .corrupt else .ok (buf.take width, buf.drop width)

/-- The given number of NUL-terminated strings and what follows them. -/
def takeStrings : Nat → List UInt8 → Except ReadError (List (List UInt8) × List UInt8)
  | 0, buf => .ok ([], buf)
  | argc + 1, buf => do
    let (arg, buf) ← takeString buf
    let (argv, buf) ← takeStrings argc buf
    return (arg :: argv, buf)

/-- Parse metadata and check its signature. -/
def multitapeMetadataDec (K : Crypto) (buf : List UInt8) : Except ReadError TapeMetadata := do
  let (name, p) ← takeString buf
  let (ctime, p) ← takeField 8 p
  let (argc, p) ← takeField 4 p
  if 2147483648 ≤ leDec argc ∨ p.length < leDec argc then .error .corrupt
  else do
    let (argv, p) ← takeStrings (leDec argc) p
    let (indexhash, p) ← takeField 32 p
    let (indexlen, p) ← takeField 8 p
    let (signature, rest) ← takeField 256 p
    if K.rsaVerify (buf.take (buf.length - p.length)) signature = false then .error .corrupt
    else if rest.length ≠ 0 then .error .corrupt
    else .ok {
      name
      ctime := leDec ctime
      argv
      indexhash := ⟨Vector.ofFn fun i => indexhash.getD i.val 0⟩
      indexlen := leDec indexlen
      metadatalen := buf.length }

/-- Read the metadata of an archive by the hash of its name. -/
def multitapeMetadataGetByhash (K : Crypto) (faults : MetadataFaults) (S : Store)
    (tapehash : Hash) : Except ReadError TapeMetadata := do
  let mbuf ← storageReadFileAlloc faults.storage S 'm' tapehash
  if faults.decode then .error .error
  else do
    let mdat ← multitapeMetadataDec K mbuf
    if faults.name then .error .error
    else if K.hmacName mdat.name ≠ tapehash then .error .corrupt
    else .ok mdat

/-- Metadata is found under the hash of its name. -/
theorem multitapeMetadataGetByhash_name {K : Crypto} {faults : MetadataFaults} {S : Store}
    {tapehash : Hash} {mdat : TapeMetadata}
    (read : multitapeMetadataGetByhash K faults S tapehash = .ok mdat) :
    K.hmacName mdat.name = tapehash := by
  obtain ⟨mbuf, _, read⟩ := bind_eq_ok.mp read
  split at read
  · exact nomatch read
  obtain ⟨decoded, _, read⟩ := bind_eq_ok.mp read
  split at read
  · exact nomatch read
  split at read
  · exact nomatch read
  rename_i same
  cases read
  exact Decidable.not_not.mp same

/-- Metadata that is read in spite of failures is the one in the store. -/
theorem multitapeMetadataGetByhash_sound {K : Crypto} {faults : MetadataFaults} {S : Store}
    {tapehash : Hash} {mdat : TapeMetadata}
    (read : multitapeMetadataGetByhash K faults S tapehash = .ok mdat) :
    multitapeMetadataGetByhash K .none S tapehash = .ok mdat := by
  obtain ⟨mbuf, fetched, read⟩ := bind_eq_ok.mp read
  split at read
  · exact nomatch read
  obtain ⟨decoded, parsed, read⟩ := bind_eq_ok.mp read
  split at read
  · exact nomatch read
  have again : storageReadFileAlloc none S 'm' tapehash = .ok mbuf := by
    cases fault : faults.storage with
    | none =>
      rw [fault] at fetched
      exact fetched
    | some failure =>
      rw [fault] at fetched
      exact nomatch fetched
  refine bind_eq_ok.mpr ⟨mbuf, again, ?_⟩
  rw [if_neg (by decide)]
  refine bind_eq_ok.mpr ⟨decoded, parsed, ?_⟩
  rw [if_neg (by decide)]
  exact read

end Tarsnap.Multitape
