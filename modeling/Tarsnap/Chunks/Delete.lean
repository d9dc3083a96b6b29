import Tarsnap.Chunks.Directory

/-!
# The delete transaction of the chunk layer

Deleting a chunk takes one copy away, and one tape the first time in the transaction; the
chunk file is deleted when no tape is left.
-/

namespace Tarsnap.Chunks

open Tarsnap.Lib

/-- The cookie of a delete transaction. -/
structure ChunksD where
  /-- Hash table of chunk records. -/
  HT : Table
  /-- Chunk files that the storage layer was asked to delete. -/
  S : List Hash
  /-- All archives, with multiplicity. -/
  statsTotal : ChunkStats
  /-- All archives, without multiplicity. -/
  statsUnique : ChunkStats
  /-- Extra (non-chunked) data. -/
  statsExtra : ChunkStats
  /-- This archive, with multiplicity. -/
  statsTape : ChunkStats
  /-- Chunks being deleted. -/
  statsFreed : ChunkStats
  /-- Extra data in this archive. -/
  statsTapee : ChunkStats

/-- Start a delete transaction with the directory file of the cache directory. -/
def chunksDeleteStart (directory : Option (List UInt8)) : Except DirectoryError ChunksD := do
  let loaded ← chunksDirectoryRead false directory
  return {
    HT := loaded.HT
    S := []
    statsTotal := loaded.statsAll
    statsUnique := loaded.statsUnique
    statsExtra := loaded.statsExtra
    statsTape := 0
    statsFreed := 0
    statsTapee := 0 }

/-- One copy less of a chunk, and one tape less the first time. -/
def ChunkData.dereference (ch : ChunkData) : ChunkData :=
  { ch with
    ncopies := ch.ncopies - 1
    ctape := true
    nrefs := if ch.ctape then ch.nrefs else ch.nrefs - 1 }

/-- Delete a chunk as part of the transaction; nothing is returned when it is missing. -/
def chunksDeleteChunk (C : ChunksD) (hash : Hash) : Option ChunksD :=
  match rwhashtabRead C.HT hash with
  | none => none
  | some ch =>
    let C := { C with
      statsTotal := chunksStatsAdd C.statsTotal ch.len ch.zlen (-1)
      statsTape := chunksStatsAdd C.statsTape ch.len ch.zlen 1
      HT := updateRecord C.HT hash ChunkData.dereference }
    if ch.ctape = false ∧ ch.nrefs - 1 = 0 then
      some { C with
        statsUnique := chunksStatsAdd C.statsUnique ch.len ch.zlen (-1)
        statsFreed := chunksStatsAdd C.statsFreed ch.len ch.zlen 1
        S := C.S ++ [hash] }
    else some C

/-- Count data deleted directly via the storage layer. -/
def chunksDeleteExtrastats (C : ChunksD) (len : UInt32) : ChunksD :=
  { C with
    statsExtra := chunksStatsAdd C.statsExtra len len (-1)
    statsTapee := chunksStatsAdd C.statsTapee len len 1 }

/-- The directory file that ends the transaction. -/
def chunksDeleteEnd (order : SlotOrder) (C : ChunksD) : List UInt8 :=
  chunksDirectoryWrite order C.HT C.statsExtra

end Tarsnap.Chunks
