import Tarsnap.Chunks.Stats
import Tarsnap.Datastruct.Rwhashtab

/-!
# The chunk directory file, with its records in memory

A record in memory packs two flags into the word with the compressed length of its chunk. Reading
the file fills records that were allocated together, in one of two layouts, and inserts each of
them into a hash table; writing it visits the hash table.
-/

namespace Tarsnap.Chunks.DirectoryFile

open Tarsnap.Lib Tarsnap.Datastruct

section Records

/-- `CHDATA_MALLOC` and `CHDATA_CTAPE`. -/
def CHDATA_FLAGS : UInt32 := 0xc0000000

/-- The bits of the compressed length. -/
def CHDATA_ZLEN : UInt32 := ~~~CHDATA_FLAGS

/-- In-core chunk metadata structure. -/
@[ext] structure Chunkdata where
  /-- HMAC of chunk. -/
  hash : Hash
  /-- Length of chunk. -/
  len : UInt32
  /-- Compressed length of chunk | flags. -/
  zlenFlags : UInt32
  /-- Number of existing tapes using this. -/
  nrefs : UInt32
  /-- Number of copies of this chunk. -/
  ncopies : UInt32
deriving DecidableEq

/-- The record without its flags. -/
def Chunkdata.clear (ch : Chunkdata) : Chunkdata :=
  { ch with zlenFlags := ch.zlenFlags &&& CHDATA_ZLEN }

/-- In-core chunk metadata structure used by statstape. -/
structure ChunkdataStatstape where
  /-- The record of the directory. -/
  d : Chunkdata
  /-- Number of copies in the current tape. -/
  ncopiesCtape : UInt32
deriving DecidableEq

/-- How the records of a directory lie in memory. -/
structure Layout (ρ : Type) where
  /-- The record of the directory that is part of a record in memory. -/
  d : ρ → Chunkdata
  /-- Write this part of a record in memory. -/
  fill : ρ → Chunkdata → ρ
  /-- What is written is there. -/
  d_fill : ∀ p ch, d (fill p ch) = ch

/-- Records as they are in the directory. -/
def plain : Layout Chunkdata := ⟨id, fun _ ch => ch, fun _ _ => rfl⟩

/-- Records for `statstape`. -/
def statstape : Layout ChunkdataStatstape :=
  ⟨fun ps => ps.d, fun ps ch => { ps with d := ch }, fun _ _ => rfl⟩

/-- The hash table of records in memory, for a function that hashes their keys. -/
def Layout.hashing {ρ : Type} (L : Layout ρ) (hash : Hash → Nat) : Hashing Hash ρ :=
  ⟨fun p => (L.d p).hash, hash⟩

end Records

section Writing

/-- Convert a record to its form on disk, unless it has no references. -/
def callbackWrite (ch : Chunkdata) : List UInt8 :=
  if ch.nrefs = 0 then []
  else ch.hash.bytes.toList ++ leEnc 4 ch.len.toNat ++
    leEnc 4 (ch.zlenFlags &&& CHDATA_ZLEN).toNat ++ leEnc 4 ch.nrefs.toNat ++
    leEnc 4 ch.ncopies.toNat

/-- The extra statistics on disk. -/
def chunkstatsExternal (statsExtra : ChunkStats) : List UInt8 :=
  leEnc 8 statsExtra.nchunks.toNat ++ leEnc 8 statsExtra.s_len.toNat ++
    leEnc 8 statsExtra.s_zlen.toNat

/-- Write the extra statistics and the records of a hash table. -/
def chunksDirectoryWrite {ρ : Type} (L : Layout ρ) (HT : Rwhashtab ρ) (statsExtra : ChunkStats) :
    List UInt8 :=
  (rwhashtabForeach HT (fun f rec => (0, f ++ callbackWrite (L.d rec)))
    (chunkstatsExternal statsExtra)).2

end Writing

section Reading

/-- Why a directory is not read. -/
inductive ReadError where
  /-- Error reading cache directory. -/
  | missing
  /-- on-disk directory has insane size. -/
  | insane
  /-- on-disk directory is too small. -/
  | tooSmall
  /-- on-disk directory is corrupt. -/
  | corrupt
  /-- on-disk directory is too large. -/
  | tooLarge
  /-- A record could not be inserted. -/
  | insert
  /-- The search for a place of a record would not end. -/
  | endless
deriving DecidableEq, Repr

/-- The record with the contents of 48 bytes. -/
def decodeRecord (che : List UInt8) : Chunkdata where
  hash := ⟨Vector.ofFn fun i => che.getD i.val 0⟩
  len := UInt32.ofNat (leDec ((che.drop 32).take 4))
  zlenFlags := UInt32.ofNat (leDec ((che.drop 36).take 4))
  nrefs := UInt32.ofNat (leDec ((che.drop 40).take 4))
  ncopies := UInt32.ofNat (leDec ((che.drop 44).take 4))

/-- A record passes the sanity check. -/
def Chunkdata.Sane (ch : Chunkdata) : Prop :=
  ¬ (ch.len = 0 ∨ ch.zlenFlags = 0 ∨ ch.zlenFlags &&& CHDATA_FLAGS ≠ 0 ∨ ch.nrefs = 0)

instance (ch : Chunkdata) : Decidable ch.Sane := inferInstanceAs (Decidable (¬ _))

/-- What is read so far. -/
structure Reading (ρ : Type) where
  /-- Hash table of records. -/
  HT : Rwhashtab ρ
  /-- Statistics without multiplicity. -/
  statsUnique : ChunkStats
  /-- Statistics with multiplicity. -/
  statsAll : ChunkStats

/-- What reading a directory yields. -/
structure Directory (ρ : Type) extends Reading ρ where
  /-- Statistics on non-chunks which are stored. -/
  statsExtra : ChunkStats

variable {ρ : Type} (L : Layout ρ) (hash : Hash → Nat)

/-- Read a record into memory, insert it into the hash table and update the statistics. -/
def readRecord (R : Reading ρ) (p : ρ) (che : List UInt8) : Except ReadError (Reading ρ) :=
  let ch := decodeRecord che
  if ¬ ch.Sane then .error .corrupt
  else
    match rwhashtabInsert (L.hashing hash) R.HT (L.fill p ch) true with
    | none => .error .endless
    | some (rc, HT) =>
      if rc ≠ 0 then .error .insert
      else .ok ⟨HT, chunksStatsAdd R.statsUnique ch.len ch.zlenFlags 1,
        chunksStatsAdd R.statsAll ch.len ch.zlenFlags ch.ncopies.toNat⟩

/-- Read the file one record at a time, into the records that were allocated. -/
def readRecords : List ρ → List UInt8 → Reading ρ → Except ReadError (Reading ρ)
  | [], _, R => .ok R
  | p :: dir, f, R => do
    let R ← readRecord L hash R p (f.take 48)
    readRecords dir (f.drop 48) R

/-- Read the extra statistics and the records of a directory file, if it is present. The records
are read into memory with the given contents. -/
def chunksDirectoryRead (mustexist : Bool) (memory : Nat → ρ) (file : Option (List UInt8)) :
    Except ReadError (Directory ρ) :=
  match file with
  | none => if mustexist then .error .missing else .ok ⟨⟨rwhashtabInit, 0, 0⟩, 0⟩
  | some f =>
    if SIZE_MAX < f.length then .error .insane
    else if f.length < 24 then .error .tooSmall
    else if (f.length - 24) % 48 ≠ 0 then .error .corrupt
    else
      let numchunks := (f.length - 24) / 48
      -- A record in the larger layout takes 52 bytes.
      if SIZE_MAX / 52 ≤ numchunks then .error .tooLarge
      else do
        let statsExtra : ChunkStats := ⟨UInt64.ofNat (leDec (f.take 8)),
          UInt64.ofNat (leDec ((f.drop 8).take 8)), UInt64.ofNat (leDec ((f.drop 16).take 8))⟩
        let R ← readRecords L hash ((List.range numchunks).map memory) (f.drop 24)
          ⟨rwhashtabInit, 0, 0⟩
        return ⟨R, statsExtra⟩

end Reading

end Tarsnap.Chunks.DirectoryFile
