import Tarsnap.Chunks.Directory

/-!
# Reading files and chunks

The storage layer returns the contents of a file, or one of three failures: an error, a missing
file or a corrupt file. Any of them may happen at any read. A chunk is read from its file,
decompressed, and checked against its length and hash, so a chunk that is returned is the chunk
that the store holds.
-/

namespace Tarsnap.Chunks

open Tarsnap.Lib

/-- Why a read fails. -/
inductive ReadError where
  /-- Error. -/
  | error
  /-- No such file. -/
  | missing
  /-- The file is corrupt. -/
  | corrupt
deriving DecidableEq, Repr

/-- The return code of a failing read. -/
def ReadError.rc : ReadError → Int
  | .error => -1
  | .missing => 1
  | .corrupt => 2

/-- A failing read does not return zero. -/
theorem ReadError.rc_ne_zero (failure : ReadError) : failure.rc ≠ 0 := by
  cases failure <;> decide

/-- The files of a machine: the contents for a class and a name. -/
abbrev Store := Char → Hash → Option (List UInt8)

/-- Read a file which should have the given length, unless the read fails. -/
def storageReadFile (fault : Option ReadError) (S : Store) (buflen : Nat) (cls : Char)
    (name : Hash) : Except ReadError (List UInt8) :=
  match fault with
  | some failure => .error failure
  | none =>
    if storageFileLimit < buflen then .error .error
    else
      match S cls name with
      | none => .error .missing
      | some data => if data.length = buflen then .ok data else .error .corrupt

/-- The keyed hashes and the signature check that the layers use. -/
structure Crypto where
  /-- HMAC of a chunk. -/
  hmacChunk : List UInt8 → Hash
  /-- HMAC of an archive name. -/
  hmacName : List UInt8 → Hash
  /-- SHA256. -/
  sha256 : List UInt8 → Hash
  /-- Whether a signature of some data is good. -/
  rsaVerify : List UInt8 → List UInt8 → Bool
  /-- Decompress a buffer into at most the given number of bytes. -/
  uncompress : Nat → List UInt8 → Option (List UInt8)

/-- What may fail while a chunk is read. -/
structure ChunkFaults where
  /-- The storage layer fails to read the file. -/
  storage : Option ReadError
  /-- Decompressing runs out of memory. -/
  inflate : Bool
  /-- Hashing fails. -/
  hash : Bool

/-- Nothing fails. -/
def ChunkFaults.none : ChunkFaults := ⟨.none, false, false⟩

/-- Read a chunk with the given hash, length and compressed length. -/
def chunksReadChunk (K : Crypto) (maxlen : Nat) (faults : ChunkFaults) (S : Store) (hash : Hash)
    (len zlen : Nat) : Except ReadError (List UInt8) :=
  if maxlen < len ∨ maxlen + maxlen / 1000 + 13 < zlen then .error .corrupt
  else do
    let zbuf ← storageReadFile faults.storage S zlen 'c' hash
    if faults.inflate then .error .corrupt
    else
      match K.uncompress len zbuf with
      | none => .error .corrupt
      | some buf =>
        if buf.length ≠ len then .error .corrupt
        else if faults.hash then .error .error
        else if K.hmacChunk buf ≠ hash then .error .corrupt
        else .ok buf

/-- What a read returns in spite of the failures is what the file holds. -/
theorem storageReadFile_sound {fault : Option ReadError} {S : Store} {buflen : Nat} {cls : Char}
    {name : Hash} {data : List UInt8} (read : storageReadFile fault S buflen cls name = .ok data) :
    storageReadFile none S buflen cls name = .ok data ∧ data.length = buflen := by
  cases fault with
  | some failure => exact nomatch read
  | none =>
    refine ⟨read, ?_⟩
    rw [storageReadFile] at read
    split at read
    · exact nomatch read
    split at read
    · exact nomatch read
    · rename_i contents present
      split at read
      · rename_i fits
        cases read
        exact fits
      · exact nomatch read

/-- A chunk which is read in spite of the failures is the one that is read without failures. -/
theorem chunksReadChunk_sound {K : Crypto} {maxlen : Nat} {faults : ChunkFaults} {S : Store}
    {hash : Hash} {len zlen : Nat} {data : List UInt8}
    (read : chunksReadChunk K maxlen faults S hash len zlen = .ok data) :
    chunksReadChunk K maxlen .none S hash len zlen = .ok data := by
  unfold chunksReadChunk at read ⊢
  split at read
  · exact nomatch read
  rename_i sized
  obtain ⟨zbuf, fetched, rest⟩ := bind_eq_ok.mp read
  rw [if_neg sized, ChunkFaults.none, (storageReadFile_sound fetched).1, ok_bind]
  split at rest
  · exact nomatch rest
  rw [if_neg (by decide)]
  cases inflated : K.uncompress len zbuf with
  | none =>
    rw [inflated] at rest
    exact nomatch rest
  | some buf =>
    rw [inflated] at rest
    simp only [] at rest ⊢
    split at rest
    · exact nomatch rest
    rename_i fits
    split at rest
    · exact nomatch rest
    rw [if_neg fits, if_neg (by decide)]
    exact rest

/-- A chunk which is read has the hash that was asked for. -/
theorem chunksReadChunk_hash {K : Crypto} {maxlen : Nat} {faults : ChunkFaults} {S : Store}
    {hash : Hash} {len zlen : Nat} {data : List UInt8}
    (read : chunksReadChunk K maxlen faults S hash len zlen = .ok data) :
    K.hmacChunk data = hash := by
  unfold chunksReadChunk at read
  split at read
  · exact nomatch read
  obtain ⟨zbuf, fetched, rest⟩ := bind_eq_ok.mp read
  split at rest
  · exact nomatch rest
  split at rest
  · exact nomatch rest
  · split at rest
    · exact nomatch rest
    split at rest
    · exact nomatch rest
    split at rest
    · exact nomatch rest
    rename_i hashed
    cases rest
    exact Decidable.not_not.mp hashed

/-- A chunk which is read has the length that was asked for. -/
theorem chunksReadChunk_length {K : Crypto} {maxlen : Nat} {faults : ChunkFaults} {S : Store}
    {hash : Hash} {len zlen : Nat} {data : List UInt8}
    (read : chunksReadChunk K maxlen faults S hash len zlen = .ok data) : data.length = len := by
  unfold chunksReadChunk at read
  split at read
  · exact nomatch read
  obtain ⟨zbuf, fetched, rest⟩ := bind_eq_ok.mp read
  split at rest
  · exact nomatch rest
  split at rest
  · exact nomatch rest
  · rename_i buf inflated
    split at rest
    · exact nomatch rest
    rename_i fits
    split at rest
    · exact nomatch rest
    split at rest
    · exact nomatch rest
    cases rest
    exact Decidable.not_not.mp fits

end Tarsnap.Chunks
