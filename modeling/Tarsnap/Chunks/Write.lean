import Tarsnap.Chunks.Directory

/-!
# The write transaction of the chunk layer

Writing a chunk either references a record that the table has or compresses, pads and stores
the chunk and inserts a record for it. A chunk may also be referenced by its hash alone. A
checkpoint writes the table to a new directory file.
-/

namespace Tarsnap.Chunks

open Tarsnap.Lib

/-- The compressor: `compress2` with the room it is given, or an error. -/
structure Zlib where
  /-- Compress a buffer into at most the given number of bytes. -/
  compress2 : Nat → List UInt8 → Option (List UInt8)
  /-- The output fits its buffer. -/
  fits : ∀ {room buf zbuf}, compress2 room buf = some zbuf → zbuf.length ≤ room
  /-- A compressed stream is never empty. -/
  nonempty : ∀ {room buf zbuf}, compress2 room buf = some zbuf → zbuf ≠ []

/-- The first shift from the given one on that brings a `size_t` value below the bound. -/
def shiftLoop (bound value : Nat) : Nat → Nat → Nat
  | 0, shift => shift
  | fuel + 1, shift =>
    if value >>> shift < bound then shift else shiftLoop bound value fuel (shift + 1)

/-- `1 << shift` in an `int` of 32 bits, which is undefined from the sign bit on. -/
def intShift (shift : Nat) : Option Nat := if shift < 31 then some (1 <<< shift) else none

/-- The amount of padding needed to expand a length to a padme-compliant size or to the
maximum, whichever is less; nothing when an assertion fails or the shift is undefined. -/
def padme (len maxlen : Nat) : Option Nat :=
  if len = 0 ∨ maxlen < len then none
  else if len ≤ 8 then some 0
  else do
    let e := shiftLoop 2 len 64 0
    let s := shiftLoop 1 e 64 1
    let bitmask := (← intShift (e - s)) - 1
    let plen := (len + bitmask) % 18446744073709551616 &&& (18446744073709551615 ^^^ bitmask)
    let plen := if plen > maxlen then maxlen else plen
    return plen - len

/-- A file name of class `c` and its contents, as handed to the storage layer. -/
abbrev ChunkFile := Hash × List UInt8

/-- The cookie of a write transaction. -/
structure ChunksW where
  /-- Maximum chunk size. -/
  maxlen : Nat
  /-- Hash table of chunk records. -/
  HT : Table
  /-- Chunk files handed to the storage layer, none in a dry run. -/
  S : Option (List ChunkFile)
  /-- All archives, with multiplicity. -/
  statsTotal : ChunkStats
  /-- All archives, without multiplicity. -/
  statsUnique : ChunkStats
  /-- Extra (non-chunked) data. -/
  statsExtra : ChunkStats
  /-- Copy for checkpoint statistics. -/
  statsExtraCopy : ChunkStats
  /-- This archive, with multiplicity. -/
  statsTape : ChunkStats
  /-- New chunks. -/
  statsNew : ChunkStats
  /-- Extra data in this archive. -/
  statsTapee : ChunkStats

/-- Length of the compression buffer. -/
def ChunksW.zbuflen (C : ChunksW) : Nat := C.maxlen + C.maxlen / 1000 + 13

/-- Start a write transaction with the directory file of the cache directory. -/
def chunksWriteStart (directory : Option (List UInt8)) (S : Option (List ChunkFile))
    (maxchunksize : Nat) : Except DirectoryError ChunksW := do
  let loaded ← chunksDirectoryRead false directory
  return {
    maxlen := maxchunksize
    HT := loaded.HT
    S
    statsTotal := loaded.statsAll
    statsUnique := loaded.statsUnique
    statsExtra := loaded.statsExtra
    statsExtraCopy := 0
    statsTape := 0
    statsNew := 0
    statsTapee := 0 }

/-- One more copy of a chunk in the current tape, and one more tape unless it had one. -/
def ChunkData.reference (ch : ChunkData) : ChunkData :=
  { ch with
    ncopies := ch.ncopies + 1
    nrefs := if ch.ctape then ch.nrefs else ch.nrefs + 1
    ctape := true }

/-- Reference a chunk whose record is in the table. -/
def ChunksW.reference (C : ChunksW) (hash : Hash) (ch : ChunkData) : ChunksW :=
  { C with
    statsTotal := chunksStatsAdd C.statsTotal ch.len ch.zlen 1
    statsTape := chunksStatsAdd C.statsTape ch.len ch.zlen 1
    HT := updateRecord C.HT hash ChunkData.reference }

/-- Ask the storage layer to write a chunk file. A dry run writes nothing; otherwise a file that
is too large fails. -/
def storageWriteFile (S : Option (List ChunkFile)) (hash : Hash) (buf : List UInt8) :
    Option (Option (List ChunkFile)) :=
  match S with
  | none => some none
  | some files =>
    if storageFileLimit < buf.length then none else some (some (files ++ [(hash, buf)]))

/-- Write a chunk as part of the transaction and return the compressed size; nothing is
returned when an assertion, the compressor or the storage layer fails. -/
def chunksWriteChunk (zlib : Zlib) (C : ChunksW) (hash : Hash) (buf : List UInt8) :
    Option (ChunksW × Nat) :=
  if 4294967295 < buf.length ∨ 2 ^ 30 ≤ C.zbuflen then none
  else
    match rwhashtabRead C.HT hash with
    | some ch => some (C.reference hash ch, ch.zlen.toNat)
    | none => do
      let zbuf ← zlib.compress2 C.zbuflen buf
      let padlen ← padme zbuf.length C.zbuflen
      let zbuf := zbuf ++ List.replicate padlen 0
      let S ← storageWriteFile C.S hash zbuf
      let ch : ChunkData := {
        hash
        len := UInt32.ofNat buf.length
        zlen := UInt32.ofNat zbuf.length
        ctape := true
        nrefs := 1
        ncopies := 1 }
      return ({ C with
        S
        HT := C.HT ++ [ch]
        statsTotal := chunksStatsAdd C.statsTotal ch.len ch.zlen 1
        statsUnique := chunksStatsAdd C.statsUnique ch.len ch.zlen 1
        statsTape := chunksStatsAdd C.statsTape ch.len ch.zlen 1
        statsNew := chunksStatsAdd C.statsNew ch.len ch.zlen 1 }, zbuf.length)

/-- Zero if a chunk with the given hash exists, one otherwise. -/
def chunksWriteIspresent (C : ChunksW) (hash : Hash) : Nat :=
  if (rwhashtabRead C.HT hash).isSome then 0 else 1

/-- If a chunk with the given hash exists, mark it as part of the transaction and return zero;
otherwise return one. -/
def chunksWriteChunkref (C : ChunksW) (hash : Hash) : Nat × ChunksW :=
  match rwhashtabRead C.HT hash with
  | some ch => (0, C.reference hash ch)
  | none => (1, C)

/-- Count data written directly to the storage layer. -/
def chunksWriteExtrastats (C : ChunksW) (len : UInt32) : ChunksW :=
  { C with
    statsExtra := chunksStatsAdd C.statsExtra len len 1
    statsTapee := chunksStatsAdd C.statsTapee len len 1 }

/-- The directory file that a checkpoint writes, unless this is a dry run. -/
def chunksWriteCheckpoint (order : SlotOrder) (C : ChunksW) : Option (List UInt8) :=
  C.S.map fun _ => chunksDirectoryWrite order C.HT C.statsExtra

end Tarsnap.Chunks
