import Tarsnap.Chunks.Directory

/-!
# Rebuilding the chunk directory

A check of the archives starts from the list of chunk files on the server, counts the references
of each archive in turn, adds the counts of the archives that are kept, and deletes the chunks
without references. A record whose chunk was seen in a kept archive keeps a reference.
-/

namespace Tarsnap.Chunks

open Tarsnap.Lib

/-- A chunk metadata record with the copies in the current tape. -/
structure ChunkdataStatstape where
  /-- The record of the directory. -/
  d : ChunkData
  /-- Number of copies in the current tape. -/
  ncopiesCtape : UInt32

/-- The cookie of a statistics or fsck operation. -/
structure ChunksS where
  /-- Hash table of records. -/
  HT : List ChunkdataStatstape
  /-- All archives, with multiplicity. -/
  statsTotal : ChunkStats
  /-- All archives, without multiplicity. -/
  statsUnique : ChunkStats
  /-- Extra (non-chunked) data. -/
  statsExtra : ChunkStats
  /-- This archive, with multiplicity. -/
  statsTape : ChunkStats
  /-- Data unique to this archive. -/
  statsTapeu : ChunkStats
  /-- Extra data in this archive. -/
  statsTapee : ChunkStats

/-- Start a check with the list of chunk files on the server; a file listed twice cannot be
inserted twice. -/
def chunksFsckStart (flist : List Hash) : Option ChunksS :=
  if flist.Nodup then
    some {
      HT := flist.map fun hash => ⟨⟨hash, 0, 0, false, 0, 0⟩, 0⟩
      statsTotal := 0
      statsUnique := 0
      statsExtra := 0
      statsTape := 0
      statsTapeu := 0
      statsTapee := 0 }
  else none

/-- Mark a record as not being used in the current archive. -/
def callbackZero (ch : ChunkdataStatstape) : ChunkdataStatstape :=
  ⟨{ ch.d with ctape := false }, 0⟩

/-- Add the counts of the current archive to the counts of a record. -/
def callbackAdd (ch : ChunkdataStatstape) : ChunkdataStatstape :=
  { ch with d := { ch.d with
      ncopies := ch.d.ncopies + ch.ncopiesCtape
      nrefs := if ch.d.ctape then ch.d.nrefs + 1 else ch.d.nrefs } }

/-- Zero per-archive statistics. -/
def chunksStatsZeroarchive (C : ChunksS) : ChunksS :=
  { C with statsTape := 0, statsTapeu := 0, statsTapee := 0, HT := C.HT.map callbackZero }

/-- Record the lengths of a chunk; a length may reach into the flag bit. -/
def ChunkData.setLengths (d : ChunkData) (len zlen : UInt32) : ChunkData :=
  { d with
    len
    zlen := UInt32.ofNat (zlen.toNat % (CHDATA_ZLEN + 1))
    ctape := d.ctape || zlen.toNat.testBit 31 }

/-- The record of a chunk with its lengths, before it is counted. -/
def ChunkdataStatstape.measured (ch : ChunkdataStatstape) (len zlen : UInt32) :
    ChunkdataStatstape :=
  if ch.d.nrefs = 0 ∧ ch.ncopiesCtape = 0 then { ch with d := ch.d.setLengths len zlen } else ch

/-- Count a chunk in the current archive. -/
def ChunkdataStatstape.count (ch : ChunkdataStatstape) (len zlen : UInt32) :
    ChunkdataStatstape :=
  let ch := ch.measured len zlen
  ⟨{ ch.d with ctape := true }, ch.ncopiesCtape + 1⟩

/-- Add a chunk to the per-archive statistics; one is returned if it does not exist. -/
def chunksStatsAddchunk (C : ChunksS) (hash : Hash) (len zlen : UInt32) : Int × ChunksS :=
  match C.HT.find? (·.d.hash = hash) with
  | none => (1, C)
  | some ch =>
    let measured := ch.measured len zlen
    (0, { C with
      HT := C.HT.map fun ch => if ch.d.hash = hash then ch.count len zlen else ch
      statsTape := chunksStatsAdd C.statsTape len zlen 1
      statsTapeu :=
        if measured.d.nrefs ≤ 1 ∧ measured.d.ctape = false then
          chunksStatsAdd C.statsTapeu len zlen 1
        else C.statsTapeu })

/-- Count non-chunked data of the current archive. -/
def chunksStatsExtrastats (C : ChunksS) (len : Nat) : ChunksS :=
  { C with
    statsTapee := chunksStatsAdd C.statsTapee (UInt32.ofNat len) (UInt32.ofNat len) 1 }

/-- Add the statistics of the current archive to the totals. -/
def chunksFsckArchiveAdd (C : ChunksS) : ChunksS :=
  { C with
    statsTotal := C.statsTotal + C.statsTape
    statsUnique := C.statsUnique + C.statsTapeu
    statsExtra := C.statsExtra + C.statsTapee
    HT := C.HT.map callbackAdd }

/-- The chunk files that are deleted because no archive uses them. -/
def chunksFsckDeletechunks (order : SlotOrder) (C : ChunksS) : List Hash :=
  ((order.foreach (C.HT.map (·.d))).filter (·.nrefs = 0)).map (·.hash)

/-- The directory file that ends the check. -/
def chunksFsckEnd (order : SlotOrder) (C : ChunksS) : List UInt8 :=
  chunksDirectoryWrite order (C.HT.map (·.d)) C.statsExtra

section Marks

/-- The chunk is counted in the current archive. -/
def ChunksS.Marked (C : ChunksS) (hash : Hash) : Prop :=
  ∀ ch ∈ C.HT, ch.d.hash = hash → ch.d.ctape = true

/-- Counting a chunk changes no hash and no references. -/
@[simp] theorem count_hash (ch : ChunkdataStatstape) (len zlen : UInt32) :
    (ch.count len zlen).d.hash = ch.d.hash ∧ (ch.count len zlen).d.nrefs = ch.d.nrefs := by
  simp only [ChunkdataStatstape.count, ChunkdataStatstape.measured]
  split <;> exact ⟨rfl, rfl⟩

/-- What counting a chunk that exists does to a record. -/
theorem chunksStatsAddchunk_HT {C : ChunksS} {hash : Hash} {len zlen : UInt32}
    (found : (chunksStatsAddchunk C hash len zlen).1 = 0) :
    (chunksStatsAddchunk C hash len zlen).2.HT =
      C.HT.map fun ch => if ch.d.hash = hash then ch.count len zlen else ch := by
  rw [chunksStatsAddchunk] at found ⊢
  split
  · rename_i missing
    rw [missing] at found
    exact absurd found (show ¬(1 : Int) = 0 by decide)
  · rfl

/-- A chunk that is counted is marked. -/
theorem chunksStatsAddchunk_marked {C : ChunksS} {hash : Hash} {len zlen : UInt32}
    (found : (chunksStatsAddchunk C hash len zlen).1 = 0) :
    (chunksStatsAddchunk C hash len zlen).2.Marked hash := by
  intro ch member same
  rw [chunksStatsAddchunk_HT found, List.mem_map] at member
  obtain ⟨old, _, rfl⟩ := member
  by_cases here : old.d.hash = hash
  · rw [if_pos here]
    rfl
  · rw [if_neg here] at same
    exact absurd same here

/-- Counting a chunk unmarks no other. -/
theorem Marked.chunksStatsAddchunk {C : ChunksS} {marked hash : Hash} {len zlen : UInt32}
    (mark : C.Marked marked) : (chunksStatsAddchunk C hash len zlen).2.Marked marked := by
  rw [Tarsnap.Chunks.chunksStatsAddchunk]
  split
  · exact mark
  · intro ch member same
    obtain ⟨old, owned, rfl⟩ := List.mem_map.mp member
    by_cases here : old.d.hash = hash
    · simp only [if_pos here]
      rfl
    · simp only [if_neg here] at same ⊢
      exact mark old owned same

/-- The references that a table records for its chunks. -/
def ChunksS.nrefs (C : ChunksS) : List (Hash × UInt32) := C.HT.map fun ch => (ch.d.hash, ch.d.nrefs)

/-- Counting a chunk leaves the references as they are. -/
@[simp] theorem chunksStatsAddchunk_nrefs (C : ChunksS) (hash : Hash) (len zlen : UInt32) :
    (chunksStatsAddchunk C hash len zlen).2.nrefs = C.nrefs := by
  rw [chunksStatsAddchunk]
  split
  · rfl
  · simp only [ChunksS.nrefs, List.map_map]
    refine List.map_congr_left fun ch _ => ?_
    simp only [Function.comp]
    split
    · rw [(count_hash ch len zlen).1, (count_hash ch len zlen).2]
    · rfl

/-- Starting the next archive leaves the references as they are. -/
@[simp] theorem chunksStatsZeroarchive_nrefs (C : ChunksS) :
    (chunksStatsZeroarchive C).nrefs = C.nrefs := by
  simp only [ChunksS.nrefs, chunksStatsZeroarchive, List.map_map]
  rfl

/-- Counting extra data leaves the references as they are. -/
@[simp] theorem chunksStatsExtrastats_nrefs (C : ChunksS) (len : Nat) :
    (chunksStatsExtrastats C len).nrefs = C.nrefs := rfl

/-- The chunks of a table. -/
def ChunksS.hashes (C : ChunksS) : List Hash := C.HT.map (·.d.hash)

/-- The chunks are those whose references are recorded. -/
theorem ChunksS.hashes_eq (C : ChunksS) : C.hashes = C.nrefs.map Prod.fst := by
  simp only [ChunksS.hashes, ChunksS.nrefs, List.map_map]
  rfl

/-- Adding an archive leaves the chunks as they are. -/
@[simp] theorem chunksFsckArchiveAdd_hashes (C : ChunksS) :
    (chunksFsckArchiveAdd C).hashes = C.hashes := by
  simp only [ChunksS.hashes, chunksFsckArchiveAdd, List.map_map]
  rfl

/-- A chunk that cannot be counted is missing. -/
theorem chunksStatsAddchunk_rc (C : ChunksS) (hash : Hash) (len zlen : UInt32) :
    (chunksStatsAddchunk C hash len zlen).1 = 0 ∨ (chunksStatsAddchunk C hash len zlen).1 = 1 := by
  rw [chunksStatsAddchunk]
  split
  · exact .inr rfl
  · exact .inl rfl

/-- No chunk has more references than the given number. -/
def ChunksS.Bounded (C : ChunksS) (bound : Nat) : Prop :=
  ∀ entry ∈ C.nrefs, entry.2.toNat ≤ bound

/-- The chunk has a reference, if it exists. -/
def ChunksS.Referenced (C : ChunksS) (hash : Hash) : Prop :=
  ∀ entry ∈ C.nrefs, entry.1 = hash → 0 < entry.2.toNat

/-- One more reference, without overflow. -/
theorem toNat_succ {nrefs : UInt32} {bound : Nat} (below : nrefs.toNat ≤ bound)
    (fits : bound + 1 < 4294967296) : (nrefs + 1).toNat = nrefs.toNat + 1 := by
  rw [UInt32.toNat_add]
  exact Nat.mod_eq_of_lt (by exact Nat.lt_of_le_of_lt (Nat.succ_le_succ below) fits)

/-- Adding an archive adds at most one reference. -/
theorem ChunksS.Bounded.archiveAdd {C : ChunksS} {bound : Nat} (bounded : C.Bounded bound)
    (fits : bound + 1 < 4294967296) : (chunksFsckArchiveAdd C).Bounded (bound + 1) := by
  intro entry member
  simp only [ChunksS.nrefs, chunksFsckArchiveAdd, List.map_map, List.mem_map] at member
  obtain ⟨ch, owned, rfl⟩ := member
  have below := bounded (ch.d.hash, ch.d.nrefs) (List.mem_map.mpr ⟨ch, owned, rfl⟩)
  simp only [Function.comp, callbackAdd]
  split
  · rw [toNat_succ below fits]
    exact Nat.succ_le_succ below
  · exact Nat.le_succ_of_le below

/-- Adding an archive takes no reference away. -/
theorem ChunksS.Referenced.archiveAdd {C : ChunksS} {hash : Hash} {bound : Nat}
    (referenced : C.Referenced hash) (bounded : C.Bounded bound) (fits : bound + 1 < 4294967296) :
    (chunksFsckArchiveAdd C).Referenced hash := by
  intro entry member same
  simp only [ChunksS.nrefs, chunksFsckArchiveAdd, List.map_map, List.mem_map] at member
  obtain ⟨ch, owned, rfl⟩ := member
  have recorded : (ch.d.hash, ch.d.nrefs) ∈ C.nrefs := List.mem_map.mpr ⟨ch, owned, rfl⟩
  have positive := referenced _ recorded same
  simp only [Function.comp, callbackAdd]
  split
  · rw [toNat_succ (bounded _ recorded) fits]
    exact Nat.succ_pos _
  · exact positive

/-- Adding an archive references the chunks it marked. -/
theorem ChunksS.Marked.archiveAdd {C : ChunksS} {hash : Hash} {bound : Nat}
    (marked : C.Marked hash) (bounded : C.Bounded bound) (fits : bound + 1 < 4294967296) :
    (chunksFsckArchiveAdd C).Referenced hash := by
  intro entry member same
  simp only [ChunksS.nrefs, chunksFsckArchiveAdd, List.map_map, List.mem_map] at member
  obtain ⟨ch, owned, rfl⟩ := member
  have recorded : (ch.d.hash, ch.d.nrefs) ∈ C.nrefs := List.mem_map.mpr ⟨ch, owned, rfl⟩
  simp only [Function.comp, callbackAdd] at same ⊢
  rw [if_pos (marked ch owned same), toNat_succ (bounded _ recorded) fits]
  exact Nat.succ_pos _

/-- A chunk with a reference is not deleted. -/
theorem not_mem_chunksFsckDeletechunks {C : ChunksS} {hash : Hash} (order : SlotOrder)
    (referenced : C.Referenced hash) : hash ∉ chunksFsckDeletechunks order C := by
  intro member
  obtain ⟨d, chosen, rfl⟩ := List.mem_map.mp member
  obtain ⟨visited, unreferenced⟩ := List.mem_filter.mp chosen
  obtain ⟨ch, owned, rfl⟩ := List.mem_map.mp ((order.perm _).mem_iff.mp visited)
  have positive := referenced (ch.d.hash, ch.d.nrefs) (List.mem_map.mpr ⟨ch, owned, rfl⟩) rfl
  have zero : ch.d.nrefs = 0 := of_decide_eq_true unreferenced
  simp only [zero] at positive
  exact absurd positive (by decide)

end Marks

end Tarsnap.Chunks
