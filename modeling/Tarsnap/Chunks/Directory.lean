import Tarsnap.Lib.Word
import Tarsnap.Lib.Except
import Mathlib.Data.UInt
import Mathlib.Data.List.Basic
import Mathlib.Data.List.Nodup

/-!
# The chunk directory

The chunk layer keeps a table of chunk metadata records, indexed by the hash of the chunk, and
statistics modulo `2 ^ 64`. Between transactions the records with references and the extra
statistics are stored in the directory file, whose integers are little-endian. Reading a stored
directory yields exactly the records that were written, with their flags cleared, and the
statistics recomputed from them.
-/

namespace Tarsnap.Chunks

open Tarsnap.Lib

/-- The largest file that the storage layer reads or writes, without its encryption overhead. -/
def storageFileLimit : Nat := 262144 - (256 + 8 + 32)

/-- The HMAC of a chunk. -/
structure Hash where
  /-- Its 32 bytes. -/
  bytes : Vector UInt8 32
deriving DecidableEq, Repr

/-- Chunk statistics, of 64-bit words. -/
@[ext] structure ChunkStats where
  /-- Number of chunks. -/
  nchunks : UInt64
  /-- Total length of chunks. -/
  s_len : UInt64
  /-- Total compressed length of chunks. -/
  s_zlen : UInt64
deriving DecidableEq, Repr

namespace ChunkStats

/-- Zeroed statistics. -/
def zero : ChunkStats := ⟨0, 0, 0⟩

/-- Fieldwise sum, `chunks_stats_addstats`. -/
def add (total more : ChunkStats) : ChunkStats :=
  ⟨total.nchunks + more.nchunks, total.s_len + more.s_len, total.s_zlen + more.s_zlen⟩

instance : Zero ChunkStats := ⟨zero⟩
instance : Add ChunkStats := ⟨add⟩

instance : AddCommMonoid ChunkStats where
  add_assoc left middle right := ChunkStats.ext (UInt64.add_assoc _ _ _)
    (UInt64.add_assoc _ _ _) (UInt64.add_assoc _ _ _)
  zero_add stats := ChunkStats.ext (UInt64.zero_add _) (UInt64.zero_add _) (UInt64.zero_add _)
  add_zero stats := ChunkStats.ext (UInt64.add_zero _) (UInt64.add_zero _) (UInt64.add_zero _)
  add_comm left right := ChunkStats.ext (UInt64.add_comm _ _) (UInt64.add_comm _ _)
    (UInt64.add_comm _ _)
  nsmul := nsmulRec

/-- The statistics of the given number of copies of a chunk of the given lengths. -/
def ofCopies (len zlen : UInt32) (copies : Int) : ChunkStats :=
  ⟨UInt64.ofInt copies, len.toUInt64 * UInt64.ofInt copies, zlen.toUInt64 * UInt64.ofInt copies⟩

/-- Copies add up, also across zero. -/
theorem ofCopies_add (len zlen : UInt32) (left right : Int) :
    ofCopies len zlen left + ofCopies len zlen right = ofCopies len zlen (left + right) := by
  apply ChunkStats.ext
  · exact (UInt64.ofInt_add left right).symm
  · change _ * _ + _ * _ = _ * _
    rw [UInt64.ofInt_add, UInt64.mul_add]
  · change _ * _ + _ * _ = _ * _
    rw [UInt64.ofInt_add, UInt64.mul_add]

/-- No copies count nothing. -/
@[simp] theorem ofCopies_zero (len zlen : UInt32) : ofCopies len zlen 0 = 0 := by
  apply ChunkStats.ext
  · rfl
  · exact UInt64.mul_zero
  · exact UInt64.mul_zero

/-- A copy that is taken away again leaves nothing. -/
theorem ofCopies_cancel (len zlen : UInt32) : ofCopies len zlen (-1) + ofCopies len zlen 1 = 0 := by
  rw [ofCopies_add]
  exact ofCopies_zero len zlen

/-- What is added on both sides cancels. -/
theorem add_right_cancel {left right more : ChunkStats} (same : left + more = right + more) :
    left = right := by
  have nchunks := congrArg ChunkStats.nchunks same
  have s_len := congrArg ChunkStats.s_len same
  have s_zlen := congrArg ChunkStats.s_zlen same
  exact ChunkStats.ext ((UInt64.add_left_inj _).mp nchunks) ((UInt64.add_left_inj _).mp s_len)
    ((UInt64.add_left_inj _).mp s_zlen)

/-- A number of copies is that many single copies. -/
theorem nsmul_ofCopies (len zlen : UInt32) (copies : Nat) :
    copies • ofCopies len zlen 1 = ofCopies len zlen copies := by
  induction copies with
  | zero => rw [zero_nsmul]; exact (ofCopies_zero len zlen).symm
  | succ copies ih => rw [succ_nsmul, ih, ofCopies_add]; rfl

end ChunkStats

/-- Adjust statistics for the addition of chunks; the number of copies may be negative. -/
def chunksStatsAdd (stats : ChunkStats) (len zlen : UInt32) (copies : Int) : ChunkStats :=
  stats + ChunkStats.ofCopies len zlen copies

/-- A chunk metadata record. The flag words of `zlen_flags` are kept as fields of their own. -/
@[ext] structure ChunkData where
  /-- HMAC of chunk. -/
  hash : Hash
  /-- Length of chunk. -/
  len : UInt32
  /-- Compressed length of chunk. -/
  zlen : UInt32
  /-- Chunk belongs to the current tape. -/
  ctape : Bool
  /-- Number of existing tapes using this. -/
  nrefs : UInt32
  /-- Number of copies of this chunk. -/
  ncopies : UInt32
deriving DecidableEq

/-- The records of a hash table. -/
abbrev Table := List ChunkData

/-- The record with the given hash. -/
def rwhashtabRead (HT : Table) (hash : Hash) : Option ChunkData := HT.find? (·.hash = hash)

/-- Change the record with the given hash through its pointer. -/
def updateRecord (HT : Table) (hash : Hash) (change : ChunkData → ChunkData) : Table :=
  HT.map fun ch => if ch.hash = hash then change ch else ch

/-- The order in which a hash table's slots are visited by `rwhashtab_foreach`. -/
structure SlotOrder where
  /-- The records in slot order. -/
  foreach : Table → Table
  /-- Every record is visited once. -/
  perm : ∀ HT, (foreach HT).Perm HT

/-- The largest compressed length, below the flag bits. -/
def CHDATA_ZLEN : Nat := 0x3fffffff

/-- Convert a record to its 48 bytes on disk. -/
def chunkdataEncode (ch : ChunkData) : List UInt8 :=
  ch.hash.bytes.toList ++ leEnc 4 ch.len.toNat ++ leEnc 4 ch.zlen.toNat ++ leEnc 4 ch.nrefs.toNat ++
    leEnc 4 ch.ncopies.toNat

/-- The bytes of a directory file: the extra statistics, then the records with references. -/
def chunksDirectoryWrite (order : SlotOrder) (HT : Table) (statsExtra : ChunkStats) :
    List UInt8 :=
  leEnc 8 statsExtra.nchunks.toNat ++ leEnc 8 statsExtra.s_len.toNat ++
    leEnc 8 statsExtra.s_zlen.toNat ++
    ((order.foreach HT).filter (·.nrefs ≠ 0)).flatMap chunkdataEncode

/-- Why a directory file is refused. -/
inductive DirectoryError where
  /-- Error reading cache directory: it does not exist. -/
  | missing
  /-- on-disk directory is too small. -/
  | tooSmall
  /-- on-disk directory is corrupt. -/
  | corrupt
  /-- A record could not be inserted into the hash table, since its hash is there already. -/
  | duplicate
deriving DecidableEq, Repr

/-- Read one record and check it: lengths and references are positive and no flag bit is set. -/
def chunkdataDecode (che : List UInt8) : Except DirectoryError ChunkData :=
  let len := leDec ((che.drop 32).take 4)
  let zlenFlags := leDec ((che.drop 36).take 4)
  let nrefs := leDec ((che.drop 40).take 4)
  let ncopies := leDec ((che.drop 44).take 4)
  if len = 0 ∨ zlenFlags = 0 ∨ CHDATA_ZLEN < zlenFlags ∨ nrefs = 0 then .error .corrupt
  else .ok {
    hash := ⟨Vector.ofFn fun i => che.getD i.val 0⟩
    len := UInt32.ofNat len
    zlen := UInt32.ofNat zlenFlags
    ctape := false
    nrefs := UInt32.ofNat nrefs
    ncopies := UInt32.ofNat ncopies }

/-- Read the given number of records one at a time, and insert them into the hash table. -/
def readRecords : Nat → List UInt8 → Table → Except DirectoryError Table
  | 0, _, HT => .ok HT
  | numchunks + 1, bytes, HT => do
    let ch ← chunkdataDecode (bytes.take 48)
    if (rwhashtabRead HT ch.hash).isSome then .error .duplicate
    else readRecords numchunks (bytes.drop 48) (HT ++ [ch])

/-- What reading a directory yields. -/
structure Loaded where
  /-- Hash table of chunk records. -/
  HT : Table
  /-- Statistics without multiplicity. -/
  statsUnique : ChunkStats
  /-- Statistics with multiplicity. -/
  statsAll : ChunkStats
  /-- Statistics on non-chunks which are stored. -/
  statsExtra : ChunkStats

/-- Read a directory file, if present, and compute the statistics of its records. -/
def chunksDirectoryRead (mustexist : Bool) (file : Option (List UInt8)) :
    Except DirectoryError Loaded :=
  match file with
  | none => if mustexist then .error .missing else .ok ⟨[], 0, 0, 0⟩
  | some bytes =>
    if bytes.length < 24 then .error .tooSmall
    else if (bytes.length - 24) % 48 ≠ 0 then .error .corrupt
    else do
      let numchunks := (bytes.length - 24) / 48
      let HT ← readRecords numchunks (bytes.drop 24) []
      return {
        HT
        statsUnique := HT.foldl (fun stats p => chunksStatsAdd stats p.len p.zlen 1) 0
        statsAll := HT.foldl (fun stats p => chunksStatsAdd stats p.len p.zlen p.ncopies.toNat) 0
        statsExtra := {
          nchunks := UInt64.ofNat (leDec (bytes.take 8))
          s_len := UInt64.ofNat (leDec ((bytes.drop 8).take 8))
          s_zlen := UInt64.ofNat (leDec ((bytes.drop 16).take 8)) } }

/-- A record that a directory file may hold. -/
structure ChunkData.Storable (ch : ChunkData) : Prop where
  /-- The chunk is not empty. -/
  len : ch.len ≠ 0
  /-- The compressed chunk is not empty. -/
  zlen : ch.zlen ≠ 0
  /-- The compressed length leaves the flag bits clear. -/
  flags : ch.zlen.toNat ≤ CHDATA_ZLEN

/-- The record without its flag. -/
def ChunkData.clear (ch : ChunkData) : ChunkData := { ch with ctape := false }

section RoundTrip

/-- Decoding the encoding of a word. -/
theorem ofNat_leDec_leEnc (value : UInt32) : UInt32.ofNat (leDec (leEnc 4 value.toNat)) =
    value := by
  rw [leDec_leEnc, Nat.mod_eq_of_lt (by exact value.toNat_lt), UInt32.ofNat_toNat]

/-- Decoding the encoding of a double word. -/
theorem ofNat_leDec_leEnc64 (value : UInt64) :
    UInt64.ofNat (leDec (leEnc 8 value.toNat)) = value := by
  rw [leDec_leEnc, Nat.mod_eq_of_lt (by exact value.toNat_lt), UInt64.ofNat_toNat]

/-- A word is positive when it is not zero. -/
theorem leDec_leEnc_ne_zero {value : UInt32} (nonzero : value ≠ 0) :
    leDec (leEnc 4 value.toNat) ≠ 0 := by
  intro zero
  apply nonzero
  rw [← ofNat_leDec_leEnc value, zero]
  rfl

/-- A record takes 48 bytes. -/
@[simp] theorem chunkdataEncode_length (ch : ChunkData) : (chunkdataEncode ch).length = 48 := by
  simp [chunkdataEncode]

/-- A hash is the list of its bytes. -/
theorem hash_ofFn (hash : Hash) (rest : List UInt8) :
    (⟨Vector.ofFn fun i : Fin 32 => (hash.bytes.toList ++ rest).getD i.val 0⟩ : Hash) = hash := by
  obtain ⟨bytes⟩ := hash
  have same : (Vector.ofFn fun i : Fin 32 => (bytes.toList ++ rest).getD i.val 0) = bytes := by
    ext i bound
    simp [List.getD_eq_getElem?_getD, List.getElem?_append]
  rw [same]

/-- A storable record with references is read back without its flag. -/
theorem chunkdataDecode_encode {ch : ChunkData} (storable : ch.Storable) (refs : ch.nrefs ≠ 0) :
    chunkdataDecode (chunkdataEncode ch) = .ok ch.clear := by
  have split : chunkdataEncode ch = ch.hash.bytes.toList ++ (leEnc 4 ch.len.toNat ++
      (leEnc 4 ch.zlen.toNat ++ (leEnc 4 ch.nrefs.toNat ++ leEnc 4 ch.ncopies.toNat))) := by
    simp only [chunkdataEncode, List.append_assoc]
  have len : ((chunkdataEncode ch).drop 32).take 4 = leEnc 4 ch.len.toNat := by
    rw [split, List.drop_left' (by simp), List.take_left' (by simp)]
  have zlen : ((chunkdataEncode ch).drop 36).take 4 = leEnc 4 ch.zlen.toNat := by
    rw [split, ← List.append_assoc, List.drop_left' (by simp), List.take_left' (by simp)]
  have nrefs : ((chunkdataEncode ch).drop 40).take 4 = leEnc 4 ch.nrefs.toNat := by
    rw [split, ← List.append_assoc, ← List.append_assoc, List.drop_left' (by simp),
      List.take_left' (by simp)]
  have ncopies : ((chunkdataEncode ch).drop 44).take 4 = leEnc 4 ch.ncopies.toNat := by
    rw [split, ← List.append_assoc, ← List.append_assoc, ← List.append_assoc,
      List.drop_left' (by simp), List.take_of_length_le (by simp)]
  have checked : ¬ (leDec (leEnc 4 ch.len.toNat) = 0 ∨ leDec (leEnc 4 ch.zlen.toNat) = 0 ∨
      CHDATA_ZLEN < leDec (leEnc 4 ch.zlen.toNat) ∨ leDec (leEnc 4 ch.nrefs.toNat) = 0) := by
    rintro (zero | zero | large | zero)
    · exact leDec_leEnc_ne_zero storable.len zero
    · exact leDec_leEnc_ne_zero storable.zlen zero
    · rw [leDec_leEnc, Nat.mod_eq_of_lt (by exact ch.zlen.toNat_lt)] at large
      exact absurd storable.flags (Nat.not_le.mpr large)
    · exact leDec_leEnc_ne_zero refs zero
  simp only [chunkdataDecode, len, zlen, nrefs, ncopies, if_neg checked, ofNat_leDec_leEnc]
  rw [split, hash_ofFn]
  rfl

/-- Storable records with references and different hashes are read back one by one. -/
theorem readRecords_encode (records HT : Table)
    (storable : ∀ ch ∈ records, ch.Storable ∧ ch.nrefs ≠ 0)
    (distinct : ((HT ++ records).map (·.hash)).Nodup) :
    readRecords records.length (records.flatMap chunkdataEncode) HT =
      .ok (HT ++ records.map ChunkData.clear) := by
  induction records generalizing HT with
  | nil => rw [List.map_nil, List.append_nil]; rfl
  | cons ch records ih =>
    obtain ⟨here, refs⟩ := storable ch List.mem_cons_self
    have moved : ((HT ++ [ch.clear] ++ records).map (·.hash)).Nodup := by
      rw [List.append_assoc, List.map_append] at *
      exact distinct
    have rest := ih (HT ++ [ch.clear])
      (fun other member => storable other (List.mem_cons_of_mem _ member)) moved
    have absent : (rwhashtabRead HT ch.clear.hash).isSome = false := by
      rw [Option.isSome_eq_false_iff, Option.isNone_iff_eq_none, rwhashtabRead,
        List.find?_eq_none]
      intro other member same
      rw [List.map_append, List.nodup_append] at distinct
      exact distinct.2.2 other.hash (List.mem_map_of_mem member) ch.hash List.mem_cons_self
        (of_decide_eq_true same)
    rw [List.flatMap_cons, List.length_cons, readRecords, List.take_left' (by simp),
      List.drop_left' (by simp), chunkdataDecode_encode here refs, ok_bind, absent, rest,
      List.append_assoc]
    rfl

/-- Reading a written directory yields the records with references, flags cleared, the
statistics of these records and the extra statistics. -/
theorem chunksDirectoryRead_write (order : SlotOrder) (HT : Table) (statsExtra : ChunkStats)
    (mustexist : Bool) (storable : ∀ ch ∈ HT, ch.Storable)
    (distinct : (HT.map (·.hash)).Nodup) :
    ∃ loaded, chunksDirectoryRead mustexist (some (chunksDirectoryWrite order HT statsExtra)) =
        .ok loaded ∧
      loaded.HT = ((order.foreach HT).filter (·.nrefs ≠ 0)).map ChunkData.clear ∧
      loaded.statsUnique =
        loaded.HT.foldl (fun stats p => chunksStatsAdd stats p.len p.zlen 1) 0 ∧
      loaded.statsAll =
        loaded.HT.foldl (fun stats p => chunksStatsAdd stats p.len p.zlen p.ncopies.toNat) 0 ∧
      loaded.statsExtra = statsExtra := by
  generalize kept : (order.foreach HT).filter (·.nrefs ≠ 0) = records
  have members : ∀ ch ∈ records, ch.Storable ∧ ch.nrefs ≠ 0 := by
    intro ch member
    rw [← kept, List.mem_filter] at member
    exact ⟨storable ch ((order.perm HT).mem_iff.mp member.1), by simpa using member.2⟩
  have apart : (([] ++ records).map (fun ch : ChunkData => ch.hash)).Nodup := by
    rw [List.nil_append, ← kept]
    exact ((((order.perm HT).map _).nodup_iff.mpr distinct).sublist (List.filter_sublist.map _))
  have file : chunksDirectoryWrite order HT statsExtra =
      leEnc 8 statsExtra.nchunks.toNat ++ (leEnc 8 statsExtra.s_len.toNat ++
        (leEnc 8 statsExtra.s_zlen.toNat ++ records.flatMap chunkdataEncode)) := by
    simp only [chunksDirectoryWrite, kept, List.append_assoc]
  have body : (records.flatMap chunkdataEncode).length = 48 * records.length := by
    rw [List.length_flatMap]
    simp [Nat.mul_comm]
  have size : (chunksDirectoryWrite order HT statsExtra).length = 24 + 48 * records.length := by
    rw [file]
    simp only [List.length_append, leEnc_length, body]
    omega
  have count : (24 + 48 * records.length - 24) / 48 = records.length := by omega
  have rest : (chunksDirectoryWrite order HT statsExtra).drop 24 =
      records.flatMap chunkdataEncode := by
    rw [file, ← List.append_assoc, ← List.append_assoc, List.drop_left' (by simp)]
  refine ⟨_, by
    rw [chunksDirectoryRead]
    simp only [size, count]
    rw [if_neg (by omega), if_neg (by omega), rest, readRecords_encode records [] members apart]
    rfl, rfl, rfl, rfl, ?_⟩
  have third : ((chunksDirectoryWrite order HT statsExtra).drop 16).take 8 =
      leEnc 8 statsExtra.s_zlen.toNat := by
    rw [file, ← List.append_assoc, List.drop_left' (by simp), List.take_left' (by simp)]
  have second : ((chunksDirectoryWrite order HT statsExtra).drop 8).take 8 =
      leEnc 8 statsExtra.s_len.toNat := by
    rw [file, List.drop_left' (by simp), List.take_left' (by simp)]
  have first : (chunksDirectoryWrite order HT statsExtra).take 8 =
      leEnc 8 statsExtra.nchunks.toNat := by
    rw [file, List.take_left' (by simp)]
  simp only [first, second, third, ofNat_leDec_leEnc64]

end RoundTrip

end Tarsnap.Chunks
