import Tarsnap.Chunks.DirectoryFile
import Tarsnap.Datastruct.RwhashtabRuns

/-!
# Reading and writing the chunk directory file

A file is read exactly if it has the size of some number of records, each of which passes the
sanity check and has a hash of its own. Then the hash table has these records and the statistics
are theirs. A file that is written has the records with references, without their flags.
-/

namespace Tarsnap.Chunks.DirectoryFile

open Tarsnap.Lib Tarsnap.Datastruct

section Loop

variable {ρ : Type} {L : Layout ρ} {hash : Hash → Nat} {R : Reading ρ} {done : List Chunkdata}

/-- The records in a part of a file. -/
def fileRecords (numchunks : Nat) (f : List UInt8) : List Chunkdata :=
  (List.range numchunks).map fun i => decodeRecord ((f.drop (48 * i)).take 48)

/-- The records in a part of a file are the first one and the others. -/
theorem fileRecords_succ (numchunks : Nat) (f : List UInt8) :
    fileRecords (numchunks + 1) f =
      decodeRecord (f.take 48) :: fileRecords numchunks (f.drop 48) := by
  unfold fileRecords
  rw [List.range_succ_eq_map, List.map_cons, List.map_map, Nat.mul_zero, List.drop_zero]
  apply congrArg (List.cons _)
  apply List.map_congr_left
  intro i _
  rw [Function.comp_apply, List.drop_drop, Nat.mul_succ, Nat.add_comm]

/-- The statistics of records, each counted as often as given. -/
def statsOf (copies : Chunkdata → Int) (done : List Chunkdata) : ChunkStats :=
  (done.map fun ch => ChunkStats.ofCopies ch.len ch.zlenFlags (copies ch)).sum

/-- The hash table has the records that were read, and the statistics are theirs. -/
structure Filled (L : Layout ρ) (hash : Hash → Nat) (done : List Chunkdata) (R : Reading ρ) :
    Prop where
  /-- Searches find the records. -/
  valid : Valid (L.hashing hash) R.HT
  /-- The records are those that were read. -/
  records : ((records R.HT.ht).map L.d).Perm done
  /-- Statistics without multiplicity. -/
  unique : R.statsUnique = statsOf (fun _ => 1) done
  /-- Statistics with multiplicity. -/
  all : R.statsAll = statsOf (fun ch => ch.ncopies.toNat) done

/-- The records that were read have different hashes. -/
theorem Filled.distinct (filled : Filled L hash done R) : (done.map (·.hash)).Nodup := by
  have keys := keys_nodup filled.valid.sound
  have hashes := filled.records.map (fun ch : Chunkdata => ch.hash)
  rw [List.map_map] at hashes
  exact hashes.nodup_iff.mp keys

/-- A table with fewer records than the largest directory can be enlarged. -/
theorem not_stuck {S : Hashing Hash ρ} {HT : Rwhashtab ρ} (valid : Valid S HT)
    (few : HT.numentries < SIZE_MAX / 52) : ¬ (HT.full ∧ Stuck HT true) := by
  rintro ⟨full, large | absurdity⟩
  · obtain ⟨part, whole, quarter⟩ := quarters valid.large
    unfold Rwhashtab.full at full
    rw [quarter] at full
    unfold SIZE_MAX at few large
    omega
  · cases absurdity

/-- Counting one more record. -/
theorem statsOf_concat (copies : Chunkdata → Int) (done : List Chunkdata) (ch : Chunkdata) :
    chunksStatsAdd (statsOf copies done) ch.len ch.zlenFlags (copies ch) =
      statsOf copies (done ++ [ch]) := by
  unfold statsOf chunksStatsAdd
  rw [List.map_append, List.sum_append, List.map_singleton, List.sum_singleton]

/-- A record is read exactly if it passes the sanity check and has a new hash. -/
theorem readRecord_spec (filled : Filled L hash done R) (few : done.length < SIZE_MAX / 52)
    (p : ρ) (che : List UInt8) :
    ((decodeRecord che).Sane ∧ (∀ old ∈ done, old.hash ≠ (decodeRecord che).hash)) ∧
        (∃ R', readRecord L hash R p che = .ok R' ∧
          Filled L hash (done ++ [decodeRecord che]) R') ∨
      ¬ ((decodeRecord che).Sane ∧ (∀ old ∈ done, old.hash ≠ (decodeRecord che).hash)) ∧
        ∃ e, readRecord L hash R p che = .error e ∧ e ≠ .endless := by
  by_cases sane : (decodeRecord che).Sane
  · have count : R.HT.numentries < SIZE_MAX / 52 := by
      have length := filled.records.length_eq
      rw [List.length_map, ← filled.valid.count] at length
      omega
    have able := not_stuck filled.valid count
    have key : (L.hashing hash).key (L.fill p (decodeRecord che)) = (decodeRecord che).hash :=
      congrArg Chunkdata.hash (L.d_fill p (decodeRecord che))
    obtain ⟨code, H', result, valid, ⟨full, stuck, _⟩ | ⟨_, ⟨present, rfl, _⟩ |
      ⟨absent, rfl, more⟩⟩⟩ :=
        rwhashtabInsert_spec filled.valid (L.fill p (decodeRecord che)) true
    · exact absurd ⟨full, stuck⟩ able
    · refine .inr ⟨?_, .insert, ?_, by decide⟩
      · rintro ⟨_, new⟩
        obtain ⟨found, member, same⟩ := present
        have old := filled.records.subset (List.mem_map_of_mem member)
        exact new _ old (same.trans key)
      · unfold readRecord
        simp only [sane, not_true, if_false, result]
        rfl
    · refine .inl ⟨⟨sane, ?_⟩, ⟨H', chunksStatsAdd R.statsUnique (decodeRecord che).len
        (decodeRecord che).zlenFlags 1, chunksStatsAdd R.statsAll (decodeRecord che).len
          (decodeRecord che).zlenFlags (decodeRecord che).ncopies.toNat⟩, ?_, ?_⟩
      · intro old member same
        obtain ⟨found, inside, rfl⟩ := List.mem_map.mp (filled.records.symm.subset member)
        exact absent found inside (same.trans key.symm)
      · unfold readRecord
        simp only [sane, not_true, if_false, result]
        rfl
      · refine ⟨valid, ?_, ?_, ?_⟩
        · have mapped := more.map L.d
          rw [List.map_cons, L.d_fill] at mapped
          exact mapped.trans ((filled.records.cons _).trans (List.perm_append_singleton _ _).symm)
        · rw [filled.unique]
          exact statsOf_concat (fun _ => 1) done _
        · rw [filled.all]
          exact statsOf_concat (fun ch => ch.ncopies.toNat) done _
  · refine .inr ⟨fun both => sane both.1, .corrupt, ?_, by decide⟩
    unfold readRecord
    simp only [sane, not_false_eq_true, if_true]

/-- The records in a part of a file can follow those that were read. -/
def Readable (done more : List Chunkdata) : Prop :=
  (∀ ch ∈ more, ch.Sane) ∧ ((done ++ more).map (·.hash)).Nodup

/-- Records can follow if the first one can, and the others can then. -/
theorem readable_cons (done more : List Chunkdata) (ch : Chunkdata) :
    Readable done (ch :: more) ↔
      (ch.Sane ∧ ∀ old ∈ done, old.hash ≠ ch.hash) ∧ Readable (done ++ [ch]) more := by
  unfold Readable
  rw [List.forall_mem_cons, List.append_assoc, List.singleton_append]
  constructor
  · rintro ⟨⟨sane, others⟩, distinct⟩
    refine ⟨⟨sane, ?_⟩, others, distinct⟩
    intro old member
    rw [List.map_append, List.nodup_append] at distinct
    exact distinct.2.2 old.hash (List.mem_map_of_mem member) ch.hash List.mem_cons_self
  · rintro ⟨⟨sane, _⟩, others, distinct⟩
    exact ⟨⟨sane, others⟩, distinct⟩

/-- The records in a part of a file are read exactly if they can follow those that were read. -/
theorem readRecords_spec (dir : List ρ) (f : List UInt8) (filled : Filled L hash done R)
    (few : done.length + dir.length ≤ SIZE_MAX / 52) :
    Readable done (fileRecords dir.length f) ∧ (∃ R', readRecords L hash dir f R = .ok R' ∧
        Filled L hash (done ++ fileRecords dir.length f) R') ∨
      ¬ Readable done (fileRecords dir.length f) ∧
        ∃ e, readRecords L hash dir f R = .error e ∧ e ≠ .endless := by
  induction dir generalizing done f R with
  | nil =>
    left
    have none : fileRecords 0 f = [] := rfl
    rw [List.length_nil, none, List.append_nil]
    refine ⟨⟨fun _ absurdity => (nomatch absurdity), ?_⟩, R, rfl, filled⟩
    rw [List.append_nil]
    exact filled.distinct
  | cons p dir ih =>
    rw [List.length_cons] at few ⊢
    rw [fileRecords_succ, readable_cons]
    rcases readRecord_spec filled (by omega) p (f.take 48) with
      ⟨here, R', result, filled'⟩ | ⟨bad, e, result, notEndless⟩
    · have length : (done ++ [decodeRecord (f.take 48)]).length + dir.length ≤ SIZE_MAX / 52 := by
        rw [List.length_append, List.length_singleton]
        omega
      have rest := ih (f.drop 48) filled' length
      rw [List.append_assoc, List.singleton_append] at rest
      unfold readRecords
      rw [result, ok_bind]
      rcases rest with ⟨readable, later⟩ | ⟨unreadable, later⟩
      · exact .inl ⟨⟨here, readable⟩, later⟩
      · exact .inr ⟨fun both => unreadable both.2, later⟩
    · refine .inr ⟨fun both => bad both.1, e, ?_, notEndless⟩
      unfold readRecords
      rw [result, error_bind]

end Loop

section Codec

variable {ρ ρ' : Type}

/-- A record with references takes 48 bytes. -/
theorem callbackWrite_length {ch : Chunkdata} (refs : ch.nrefs ≠ 0) :
    (callbackWrite ch).length = 48 := by
  unfold callbackWrite
  rw [if_neg refs]
  simp

/-- A record that is written is read without its flags. -/
theorem decodeRecord_callbackWrite {ch : Chunkdata} (refs : ch.nrefs ≠ 0) :
    decodeRecord (callbackWrite ch) = ch.clear := by
  have split : callbackWrite ch = ch.hash.bytes.toList ++ (leEnc 4 ch.len.toNat ++
      (leEnc 4 (ch.zlenFlags &&& CHDATA_ZLEN).toNat ++ (leEnc 4 ch.nrefs.toNat ++
        leEnc 4 ch.ncopies.toNat))) := by
    unfold callbackWrite
    rw [if_neg refs]
    simp only [List.append_assoc]
  have len : ((callbackWrite ch).drop 32).take 4 = leEnc 4 ch.len.toNat := by
    rw [split, List.drop_left' (by simp), List.take_left' (by simp)]
  have zlen : ((callbackWrite ch).drop 36).take 4 =
      leEnc 4 (ch.zlenFlags &&& CHDATA_ZLEN).toNat := by
    rw [split, ← List.append_assoc, List.drop_left' (by simp), List.take_left' (by simp)]
  have nrefs : ((callbackWrite ch).drop 40).take 4 = leEnc 4 ch.nrefs.toNat := by
    rw [split, ← List.append_assoc, ← List.append_assoc, List.drop_left' (by simp),
      List.take_left' (by simp)]
  have ncopies : ((callbackWrite ch).drop 44).take 4 = leEnc 4 ch.ncopies.toNat := by
    rw [split, ← List.append_assoc, ← List.append_assoc, ← List.append_assoc,
      List.drop_left' (by simp), List.take_of_length_le (by simp)]
  unfold decodeRecord
  simp only [len, zlen, nrefs, ncopies, ofNat_leDec_leEnc]
  rw [split, hash_ofFn]
  rfl

/-- Records that are written are read one by one. -/
theorem fileRecords_callbackWrite (kept : List Chunkdata) (refs : ∀ ch ∈ kept, ch.nrefs ≠ 0) :
    fileRecords kept.length (kept.flatMap callbackWrite) = kept.map Chunkdata.clear := by
  induction kept with
  | nil => rfl
  | cons ch kept ih =>
    have here := refs ch List.mem_cons_self
    have rest := ih fun other member => refs other (List.mem_cons_of_mem _ member)
    have length := callbackWrite_length here
    rw [List.length_cons, List.flatMap_cons, fileRecords_succ, List.take_left' length,
      List.drop_left' length, decodeRecord_callbackWrite here, rest, List.map_cons]

/-- The bits of the compressed length have no flags. -/
theorem clear_flags (word : UInt32) : word &&& CHDATA_ZLEN &&& CHDATA_FLAGS = 0 := by
  unfold CHDATA_ZLEN
  rw [UInt32.and_assoc, UInt32.not_and_self, UInt32.and_zero]

/-- The records with references in a hash table. -/
def referenced (L : Layout ρ) (HT : Rwhashtab ρ) : List Chunkdata :=
  ((records HT.ht).map L.d).filter (·.nrefs ≠ 0)

/-- Records without references are not written. -/
theorem flatMap_callbackWrite (chs : List Chunkdata) :
    chs.flatMap callbackWrite = (chs.filter (·.nrefs ≠ 0)).flatMap callbackWrite := by
  induction chs with
  | nil => rfl
  | cons ch chs ih =>
    rw [List.flatMap_cons, ih]
    by_cases refs : ch.nrefs = 0
    · have nothing : callbackWrite ch = [] := if_pos refs
      rw [nothing, List.filter_cons_of_neg (by simp [refs]), List.nil_append]
    · rw [List.filter_cons_of_pos (by simp [refs]), List.flatMap_cons]

/-- A file has the extra statistics and the records with references. -/
theorem chunksDirectoryWrite_eq (L : Layout ρ) (HT : Rwhashtab ρ) (statsExtra : ChunkStats) :
    chunksDirectoryWrite L HT statsExtra =
      chunkstatsExternal statsExtra ++ (referenced L HT).flatMap callbackWrite := by
  have visits (recs : List ρ) (f : List UInt8) :
      (visitRecords (fun f rec => (0, f ++ callbackWrite (L.d rec))) recs f).2 =
        f ++ (recs.map L.d).flatMap callbackWrite := by
    induction recs generalizing f with
    | nil => exact (List.append_nil f).symm
    | cons rec recs ih =>
      unfold visitRecords
      rw [if_neg (not_not_intro rfl), ih, List.map_cons, List.flatMap_cons, List.append_assoc]
  unfold chunksDirectoryWrite referenced rwhashtabForeach
  rw [foreachSlot_eq, ← flatMap_callbackWrite]
  exact visits (records HT.ht) (chunkstatsExternal statsExtra)

/-- Lengths are in range: neither a chunk nor a compressed chunk is empty. -/
def InRange (ch : Chunkdata) : Prop := ch.len ≠ 0 ∧ ch.zlenFlags &&& CHDATA_ZLEN ≠ 0

/-- The contents of a file are those of a directory. -/
structure Accepted (f : List UInt8) (numchunks : Nat) : Prop where
  /-- The size is that of the statistics and of some number of records. -/
  size : f.length = 24 + 48 * numchunks
  /-- Lengths and references are positive, and no flags are set. -/
  sane : ∀ ch ∈ fileRecords numchunks (f.drop 24),
    ch.len ≠ 0 ∧ ch.zlenFlags ≠ 0 ∧ ch.nrefs ≠ 0 ∧ ch.zlenFlags &&& CHDATA_FLAGS = 0
  /-- Each record has a hash of its own. -/
  distinct : ((fileRecords numchunks (f.drop 24)).map (·.hash)).Nodup

/-- The check of a record is that its lengths and references are positive and no flags are set. -/
theorem sane_iff (ch : Chunkdata) :
    ch.Sane ↔ ch.len ≠ 0 ∧ ch.zlenFlags ≠ 0 ∧ ch.nrefs ≠ 0 ∧ ch.zlenFlags &&& CHDATA_FLAGS = 0 := by
  unfold Chunkdata.Sane
  constructor
  · intro sane
    simp only [not_or, not_not] at sane
    exact ⟨sane.1, sane.2.1, sane.2.2.2, sane.2.2.1⟩
  · rintro ⟨len, zlen, nrefs, flags⟩ (bad | bad | bad | bad)
    · exact len bad
    · exact zlen bad
    · exact bad flags
    · exact nrefs bad

/-- Nothing is read at first. -/
theorem filled_start (L : Layout ρ) (hash : Hash → Nat) :
    Filled L hash [] ⟨rwhashtabInit, 0, 0⟩ where
  valid := rwhashtabInit_valid
  records := by
    have none : records (rwhashtabInit : Rwhashtab ρ).ht = [] := records_empty
    rw [none]
    exact .nil
  unique := rfl
  all := rfl

/-- What is read from the contents of a file. -/
theorem chunksDirectoryRead_spec (L : Layout ρ) (hash : Hash → Nat) (mustexist : Bool)
    (memory : Nat → ρ) {f : List UInt8} (small : f.length < 2 ^ 63) :
    (∃ numchunks, Accepted f numchunks ∧ ∃ loaded : Directory ρ,
        chunksDirectoryRead L hash mustexist memory (some f) = .ok loaded ∧
        Filled L hash (fileRecords numchunks (f.drop 24)) loaded.toReading ∧
        loaded.statsExtra = ⟨UInt64.ofNat (leDec (f.take 8)),
          UInt64.ofNat (leDec ((f.drop 8).take 8)), UInt64.ofNat (leDec ((f.drop 16).take 8))⟩) ∨
      (∀ numchunks, ¬ Accepted f numchunks) ∧
        ∃ e, chunksDirectoryRead L hash mustexist memory (some f) = .error e ∧ e ≠ .endless := by
  have sizeMax : SIZE_MAX = 18446744073709551615 := rfl
  unfold chunksDirectoryRead
  simp only
  rw [if_neg (by omega)]
  by_cases short : f.length < 24
  · rw [if_pos short]
    refine .inr ⟨fun numchunks accepted => ?_, .tooSmall, rfl, by decide⟩
    have size := accepted.size
    omega
  rw [if_neg short]
  by_cases part : (f.length - 24) % 48 ≠ 0
  · rw [if_pos part]
    refine .inr ⟨fun numchunks accepted => ?_, .corrupt, rfl, by decide⟩
    have size := accepted.size
    omega
  rw [if_neg part, if_neg (by omega)]
  obtain ⟨numchunks, count⟩ : ∃ numchunks, (f.length - 24) / 48 = numchunks := ⟨_, rfl⟩
  have size : f.length = 24 + 48 * numchunks := by omega
  have length : ((List.range numchunks).map memory).length = numchunks := by
    rw [List.length_map, List.length_range]
  rw [count]
  have readable : Readable [] (fileRecords numchunks (f.drop 24)) ↔ Accepted f numchunks := by
    unfold Readable
    rw [List.nil_append]
    constructor
    · exact fun both => ⟨size, fun ch member => (sane_iff ch).mp (both.1 ch member), both.2⟩
    · exact fun accepted => ⟨fun ch member => (sane_iff ch).mpr (accepted.sane ch member),
        accepted.distinct⟩
  have loop := readRecords_spec ((List.range numchunks).map memory) (f.drop 24)
    (filled_start L hash) (by rw [length, List.length_nil]; omega)
  rw [length, readable] at loop
  rcases loop with ⟨accepted, R, result, filled⟩ | ⟨refused, e, result, notEndless⟩
  · refine .inl ⟨numchunks, accepted, ⟨R, _⟩, ?_, filled, rfl⟩
    rw [result]
    rfl
  · refine .inr ⟨fun other accepted => refused ?_, e, ?_, notEndless⟩
    · have same : other = numchunks := by
        have total := accepted.size
        omega
      rwa [same] at accepted
    · rw [result]
      rfl

/-- The flag of chunks that belong to the current tape. -/
def CHDATA_CTAPE : UInt32 := 0x80000000

/-- A record with its flag in a field of its own. -/
def Chunkdata.toChunkData (ch : Chunkdata) : ChunkData where
  hash := ch.hash
  len := ch.len
  zlen := ch.zlenFlags &&& CHDATA_ZLEN
  ctape := ch.zlenFlags &&& CHDATA_CTAPE ≠ 0
  nrefs := ch.nrefs
  ncopies := ch.ncopies

/-- A word without flags is a compressed length. -/
theorem and_zlen_of_noFlags {word : UInt32} (none : word &&& CHDATA_FLAGS = 0) :
    word &&& CHDATA_ZLEN = word := by
  have whole : CHDATA_FLAGS ||| CHDATA_ZLEN = -1 := by decide +kernel
  calc word &&& CHDATA_ZLEN = word &&& CHDATA_FLAGS ||| word &&& CHDATA_ZLEN := by
        rw [none, UInt32.zero_or]
    _ = word &&& (CHDATA_FLAGS ||| CHDATA_ZLEN) := by
        apply UInt32.toNat_inj.mp
        simp only [UInt32.toNat_and, UInt32.toNat_or, Nat.and_or_distrib_left]
    _ = word := by rw [whole, UInt32.and_neg_one]

/-- A word has no flags exactly if it is at most the greatest compressed length. -/
theorem flags_eq_zero_iff (word : UInt32) :
    word &&& CHDATA_FLAGS = 0 ↔ word.toNat ≤ Chunks.CHDATA_ZLEN := by
  have mask : CHDATA_ZLEN.toNat = 2 ^ 30 - 1 := by decide +kernel
  constructor
  · intro none
    rw [← and_zlen_of_noFlags none, UInt32.toNat_and, mask]
    exact Nat.and_le_right
  · intro small
    have fits : word.toNat < 2 ^ 30 := Nat.lt_of_le_of_lt small (by decide)
    have same : word &&& CHDATA_ZLEN = word := by
      apply UInt32.toNat_inj.mp
      rw [UInt32.toNat_and, mask, Nat.and_two_pow_sub_one_of_lt_two_pow fits]
    rw [← same]
    exact clear_flags word

/-- A record is read into a table exactly if it passes the sanity check. -/
theorem chunkdataDecode_eq (che : List UInt8) :
    chunkdataDecode che =
      if (decodeRecord che).Sane then .ok (decodeRecord che).toChunkData else .error .corrupt := by
  have word (pos : Nat) : leDec ((che.drop pos).take 4) < 4294967296 := by
    have small := leDec_lt ((che.drop pos).take 4)
    have length : ((che.drop pos).take 4).length ≤ 4 := List.length_take_le ..
    exact Nat.lt_of_lt_of_le small (Nat.pow_le_pow_right (by decide) length)
  have zero (pos : Nat) : UInt32.ofNat (leDec ((che.drop pos).take 4)) = 0 ↔
      leDec ((che.drop pos).take 4) = 0 := by
    rw [← UInt32.toNat_inj, UInt32.toNat_ofNat', Nat.mod_eq_of_lt (word pos)]
    rfl
  have flags : (decodeRecord che).zlenFlags &&& CHDATA_FLAGS = 0 ↔
      leDec ((che.drop 36).take 4) ≤ Chunks.CHDATA_ZLEN := by
    rw [flags_eq_zero_iff]
    change (UInt32.ofNat (leDec ((che.drop 36).take 4))).toNat ≤ _ ↔ _
    rw [UInt32.toNat_ofNat', Nat.mod_eq_of_lt (word 36)]
  have check : (leDec ((che.drop 32).take 4) = 0 ∨ leDec ((che.drop 36).take 4) = 0 ∨
      Chunks.CHDATA_ZLEN < leDec ((che.drop 36).take 4) ∨ leDec ((che.drop 40).take 4) = 0) ↔
      ¬ (decodeRecord che).Sane := by
    unfold Chunkdata.Sane
    rw [not_not, ← Nat.not_le, ← flags, ← zero 32, ← zero 36, ← zero 40]
    rfl
  unfold chunkdataDecode
  simp only [check]
  by_cases sane : (decodeRecord che).Sane
  · have none := Decidable.not_not.mp fun set => sane (.inr (.inr (.inl set)))
    rw [if_neg (not_not_intro sane), if_pos sane]
    unfold Chunkdata.toChunkData
    rw [and_zlen_of_noFlags none]
    have clear : (decodeRecord che).zlenFlags &&& CHDATA_CTAPE = 0 := by
      rw [← and_zlen_of_noFlags none, UInt32.and_assoc]
      have apart : CHDATA_ZLEN &&& CHDATA_CTAPE = 0 := by decide +kernel
      rw [apart, UInt32.and_zero]
    simp only [clear, ne_eq, not_true, decide_false]
    rfl
  · rw [if_pos sane, if_neg sane]

/-- Records that are read are those of the table that is read. -/
theorem readRecords_eq (numchunks : Nat) (f : List UInt8) (done : List Chunkdata)
    (readable : Readable done (fileRecords numchunks f)) :
    Chunks.readRecords numchunks f (done.map Chunkdata.toChunkData) =
      .ok ((done ++ fileRecords numchunks f).map Chunkdata.toChunkData) := by
  induction numchunks generalizing f done with
  | zero =>
    have none : fileRecords 0 f = [] := rfl
    rw [none, List.append_nil]
    rfl
  | succ numchunks ih =>
    rw [fileRecords_succ, readable_cons] at readable
    obtain ⟨⟨sane, new⟩, later⟩ := readable
    have absent : (Chunks.rwhashtabRead (done.map Chunkdata.toChunkData)
        (decodeRecord (f.take 48)).toChunkData.hash).isSome = false := by
      rw [Option.isSome_eq_false_iff, Option.isNone_iff_eq_none, Chunks.rwhashtabRead,
        List.find?_eq_none]
      intro other member same
      obtain ⟨old, inside, rfl⟩ := List.mem_map.mp member
      exact new old inside (of_decide_eq_true same)
    have rest := ih (f.drop 48) (done ++ [decodeRecord (f.take 48)]) later
    rw [List.map_append, List.map_singleton, List.append_assoc] at rest
    rw [Chunks.readRecords, chunkdataDecode_eq, if_pos sane, ok_bind, absent, fileRecords_succ]
    exact rest

/-- The sum of the statistics of records that are read into a table. -/
theorem foldl_chunksStatsAdd (copies : UInt32 → Int) (done : List Chunkdata)
    (noFlags : ∀ ch ∈ done, ch.zlenFlags &&& CHDATA_FLAGS = 0) (stats : ChunkStats) :
    (done.map Chunkdata.toChunkData).foldl
        (fun stats p => chunksStatsAdd stats p.len p.zlen (copies p.ncopies)) stats =
      stats + statsOf (fun ch => copies ch.ncopies) done := by
  induction done generalizing stats with
  | nil => exact (add_zero stats).symm
  | cons ch done ih =>
    have zlen := and_zlen_of_noFlags (noFlags ch List.mem_cons_self)
    rw [List.map_cons, List.foldl_cons,
      ih fun other member => noFlags other (List.mem_cons_of_mem _ member)]
    unfold statsOf chunksStatsAdd Chunkdata.toChunkData
    rw [List.map_cons, List.sum_cons, zlen, add_assoc]

/-- The table that is read from the contents of a directory file has the records of the file, and
the statistics are theirs. -/
theorem chunksDirectoryRead_table {f : List UInt8} {numchunks : Nat}
    (accepted : Accepted f numchunks) (mustexist : Bool) :
    ∃ listed, Chunks.chunksDirectoryRead mustexist (some f) = .ok listed ∧
      listed.HT = (fileRecords numchunks (f.drop 24)).map Chunkdata.toChunkData ∧
      listed.statsUnique = statsOf (fun _ => 1) (fileRecords numchunks (f.drop 24)) ∧
      listed.statsAll =
        statsOf (fun ch => ch.ncopies.toNat) (fileRecords numchunks (f.drop 24)) ∧
      listed.statsExtra = ⟨UInt64.ofNat (leDec (f.take 8)),
        UInt64.ofNat (leDec ((f.drop 8).take 8)), UInt64.ofNat (leDec ((f.drop 16).take 8))⟩ := by
  have size := accepted.size
  have readable : Readable [] (fileRecords numchunks (f.drop 24)) :=
    ⟨fun ch member => (sane_iff ch).mpr (accepted.sane ch member), accepted.distinct⟩
  have noFlags : ∀ ch ∈ fileRecords numchunks (f.drop 24), ch.zlenFlags &&& CHDATA_FLAGS = 0 :=
    fun ch member => (accepted.sane ch member).2.2.2
  have loop := readRecords_eq numchunks (f.drop 24) [] readable
  rw [List.map_nil, List.nil_append] at loop
  have count : (24 + 48 * numchunks - 24) / 48 = numchunks := by omega
  have unique := foldl_chunksStatsAdd (fun _ => 1) _ noFlags 0
  have all := foldl_chunksStatsAdd (fun ncopies => ncopies.toNat) _ noFlags 0
  rw [zero_add] at unique all
  rw [Chunks.chunksDirectoryRead]
  simp only [size, count]
  rw [if_neg (by omega), if_neg (by omega), loop]
  exact ⟨_, rfl, rfl, unique, all, rfl⟩

/-- Reading is the inverse of writing, for hash tables with records in the given layouts, and a file
is read exactly if it is a directory. -/
structure Codec (L : Layout ρ) (L' : Layout ρ') : Prop where
  /-- A directory that is written is read. -/
  roundTrip : ∀ (hash hash' : Hash → Nat) (HT : Rwhashtab ρ) (statsExtra : ChunkStats)
    (mustexist : Bool) (memory : Nat → ρ'), Valid (L.hashing hash) HT →
    (∀ ch ∈ referenced L HT, InRange ch) →
    (chunksDirectoryWrite L HT statsExtra).length < 2 ^ 63 →
    ∃ loaded : Directory ρ', chunksDirectoryRead L' hash' mustexist memory
        (some (chunksDirectoryWrite L HT statsExtra)) = .ok loaded ∧
      ((records loaded.HT.ht).map L'.d).Perm ((referenced L HT).map Chunkdata.clear) ∧
      Valid (L'.hashing hash') loaded.HT ∧ loaded.statsExtra = statsExtra ∧
      loaded.statsUnique = statsOf (fun _ => 1) ((referenced L HT).map Chunkdata.clear) ∧
      loaded.statsAll =
        statsOf (fun ch => ch.ncopies.toNat) ((referenced L HT).map Chunkdata.clear)
  /-- A file is read exactly if it is a directory, and no search is endless. -/
  accepts : ∀ (hash : Hash → Nat) (mustexist : Bool) (memory : Nat → ρ') (f : List UInt8),
    f.length < 2 ^ 63 →
    ((∃ loaded, chunksDirectoryRead L' hash mustexist memory (some f) = .ok loaded) ↔
      ∃ numchunks, Accepted f numchunks) ∧
    chunksDirectoryRead L' hash mustexist memory (some f) ≠ .error .endless
  /-- Reading the records into a list instead of a hash table gives the same records and the same
  statistics. -/
  tables : ∀ (hash : Hash → Nat) (mustexist : Bool) (memory : Nat → ρ') (f : List UInt8)
    (loaded : Directory ρ'), f.length < 2 ^ 63 →
    chunksDirectoryRead L' hash mustexist memory (some f) = .ok loaded →
    ∃ listed, Chunks.chunksDirectoryRead mustexist (some f) = .ok listed ∧
      ((records loaded.HT.ht).map fun p => (L'.d p).toChunkData).Perm listed.HT ∧
      listed.statsUnique = loaded.statsUnique ∧ listed.statsAll = loaded.statsAll ∧
      listed.statsExtra = loaded.statsExtra

/-- A file that is written is that of a directory. -/
theorem accepted_write {L : Layout ρ} {hash : Hash → Nat} {HT : Rwhashtab ρ}
    (valid : Valid (L.hashing hash) HT) (statsExtra : ChunkStats)
    (range : ∀ ch ∈ referenced L HT, InRange ch) :
    Accepted (chunksDirectoryWrite L HT statsExtra) (referenced L HT).length ∧
      fileRecords (referenced L HT).length ((chunksDirectoryWrite L HT statsExtra).drop 24) =
        (referenced L HT).map Chunkdata.clear := by
  have refs : ∀ ch ∈ referenced L HT, ch.nrefs ≠ 0 := by
    intro ch member
    exact of_decide_eq_true (List.mem_filter.mp member).2
  have header : (chunkstatsExternal statsExtra).length = 24 := by
    unfold chunkstatsExternal
    simp
  have recs : fileRecords (referenced L HT).length
      ((chunksDirectoryWrite L HT statsExtra).drop 24) =
        (referenced L HT).map Chunkdata.clear := by
    rw [chunksDirectoryWrite_eq, List.drop_left' header]
    exact fileRecords_callbackWrite _ refs
  refine ⟨⟨?_, ?_, ?_⟩, recs⟩
  · have body : ∀ chs : List Chunkdata, (∀ ch ∈ chs, ch.nrefs ≠ 0) →
        (chs.flatMap callbackWrite).length = 48 * chs.length := by
      intro chs all
      induction chs with
      | nil => rfl
      | cons ch chs ih =>
        have rest := ih fun other member => all other (List.mem_cons_of_mem _ member)
        have here := callbackWrite_length (all ch List.mem_cons_self)
        rw [List.flatMap_cons, List.length_append, here, rest, List.length_cons]
        omega
    rw [chunksDirectoryWrite_eq, List.length_append, header, body _ refs]
  · rw [recs]
    intro ch member
    obtain ⟨old, inside, rfl⟩ := List.mem_map.mp member
    exact ⟨(range old inside).1, (range old inside).2, refs old inside, clear_flags old.zlenFlags⟩
  · rw [recs, List.map_map]
    have keys := keys_nodup valid.sound
    have hashes : ((records HT.ht).map L.d).map (·.hash) =
        (records HT.ht).map (L.hashing hash).key := by
      rw [List.map_map]
      rfl
    rw [← hashes] at keys
    exact keys.sublist (List.filter_sublist.map _)

/-- Reading and writing, for any two layouts. -/
theorem codec (L : Layout ρ) (L' : Layout ρ') : Codec L L' where
  roundTrip hash hash' HT statsExtra mustexist memory valid range small := by
    obtain ⟨written, recs⟩ := accepted_write valid statsExtra range
    rcases chunksDirectoryRead_spec L' hash' mustexist memory small with
      ⟨numchunks, accepted, loaded, result, filled, extra⟩ | ⟨refused, _⟩
    · have same : numchunks = (referenced L HT).length := by
        have left := accepted.size
        have right := written.size
        omega
      rw [same, recs] at filled
      refine ⟨loaded, result, filled.records, filled.valid, ?_, filled.unique, filled.all⟩
      have file : chunksDirectoryWrite L HT statsExtra =
          leEnc 8 statsExtra.nchunks.toNat ++ (leEnc 8 statsExtra.s_len.toNat ++
            (leEnc 8 statsExtra.s_zlen.toNat ++ (referenced L HT).flatMap callbackWrite)) := by
        rw [chunksDirectoryWrite_eq]
        unfold chunkstatsExternal
        simp only [List.append_assoc]
      rw [extra, file, List.take_left' (by simp), List.drop_left' (by simp),
        List.take_left' (by simp), ← List.append_assoc, List.drop_left' (by simp),
        List.take_left' (by simp)]
      simp only [ofNat_leDec_leEnc64]
    · exact absurd written (refused _)
  accepts hash mustexist memory f small := by
    rcases chunksDirectoryRead_spec L' hash mustexist memory small with
      ⟨numchunks, accepted, loaded, result, _⟩ | ⟨refused, e, result, notEndless⟩
    · rw [result]
      exact ⟨iff_of_true ⟨loaded, rfl⟩ ⟨numchunks, accepted⟩, fun absurdity => nomatch absurdity⟩
    · rw [result]
      refine ⟨iff_of_false ?_ ?_, fun same => notEndless (Except.error.inj same)⟩
      · rintro ⟨_, absurdity⟩
        cases absurdity
      · rintro ⟨numchunks, accepted⟩
        exact refused numchunks accepted
  tables hash mustexist memory f loaded small result := by
    rcases chunksDirectoryRead_spec L' hash mustexist memory small with
      ⟨numchunks, accepted, read, succeeds, filled, extra⟩ | ⟨_, e, fails, _⟩
    · have same : read = loaded := Except.ok.inj (succeeds.symm.trans result)
      rw [same] at filled extra
      obtain ⟨listed, reads, table, unique, all, others⟩ :=
        chunksDirectoryRead_table accepted mustexist
      refine ⟨listed, reads, ?_, unique.trans filled.unique.symm, all.trans filled.all.symm,
        others.trans extra.symm⟩
      have records := filled.records.map Chunkdata.toChunkData
      rw [List.map_map] at records
      rw [table]
      exact records
    · rw [fails] at result
      cases result

/-- A chunk directory that is written is read as it was, in both layouts of records, without the
records that have no references and without flags; a file is read exactly if it is that of a
directory; and a list instead of a hash table gets the same records and statistics. -/
theorem chunksDirectory_codec :
    Codec plain plain ∧ Codec plain statstape ∧ Codec statstape plain ∧
      Codec statstape statstape :=
  ⟨codec plain plain, codec plain statstape, codec statstape plain, codec statstape statstape⟩

end Codec

end Tarsnap.Chunks.DirectoryFile
