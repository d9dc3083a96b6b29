import Tarsnap.Chunks.Padme
import Tarsnap.Chunks.Read
import Tarsnap.Chunks.RefCount

/-!
# Reading back chunks that were written

A chunk that has no record yet is compressed, padded and stored, and its record holds the lengths
of the chunk and of the file. With these the reader finds the file, inflates it in spite of the
padding and gets the chunk. A later chunk with the same hash refers to the record and stores
nothing, so what is read back for a hash stays what was read back for it first.
-/

namespace Tarsnap.Chunks

open Tarsnap.Lib

/-- What the chunk layer relies on from the compression library, for chunks up to a length: the
compressor fits its output into the buffer, and decompression inverts it, whatever follows the
compressed data. -/
structure ZlibInverts (K : Crypto) (zlib : Zlib) (maxlen : Nat) : Prop where
  /-- Compressed chunks fit the buffer. -/
  compresses : ∀ buf : List UInt8, buf.length ≤ maxlen →
    ∃ zbuf, zlib.compress2 (maxlen + maxlen / 1000 + 13) buf = some zbuf
  /-- Decompression inverts compression and ignores trailing bytes. -/
  inverts : ∀ room buf zbuf trailing, zlib.compress2 room buf = some zbuf →
    K.uncompress buf.length (zbuf ++ trailing) = some buf

/-- The files of a machine with the chunk files of a transaction on top. -/
def withFiles (base : Store) (files : List ChunkFile) : Store := fun cls name =>
  if cls = 'c' then ((files.find? (·.1 = name)).map (·.2)).or (base cls name) else base cls name

section Back

variable (K : Crypto) (base : Store)

/-- Reading a chunk with the lengths of its record returns the given bytes. -/
def ReadsBack (C : ChunksW) (ch : ChunkData) (data : List UInt8) : Prop :=
  ∃ files, C.S = some files ∧
    chunksReadChunk K C.maxlen .none (withFiles base files) ch.hash ch.len.toNat ch.zlen.toNat =
      .ok data

/-- Every record of the table can be stored and its chunk read back, as bytes that were written
for it or that it had at the start. -/
structure Backed (start : Table) (written : List (List UInt8)) (C : ChunksW) : Prop where
  /-- The transaction is not a dry run. -/
  files : C.S.isSome
  /-- Files of chunks have a record. -/
  named : ∀ files, C.S = some files → ∀ file ∈ files, (rwhashtabRead C.HT file.1).isSome
  /-- A record can be stored in the directory file, and its chunk is read back. -/
  records : ∀ hash ch, rwhashtabRead C.HT hash = some ch → ch.Storable ∧
    ∃ data, ReadsBack K base C ch data ∧
      (data ∈ written ∨ (rwhashtabRead start hash).isSome)

end Back

section Lookups

/-- Looking a hash up in a table with a changed record. -/
theorem rwhashtabRead_update {HT : Table} {hash : Hash} {change : ChunkData → ChunkData}
    (keeps : ∀ ch, (change ch).hash = ch.hash) (other : Hash) :
    rwhashtabRead (updateRecord HT hash change) other =
      (rwhashtabRead HT other).map fun ch => if ch.hash = hash then change ch else ch := by
  rw [rwhashtabRead, rwhashtabRead, updateRecord, List.find?_map]
  congr 2
  funext ch
  simp only [Function.comp_apply]
  split <;> simp [keeps]

/-- Looking a hash up in a table with a new record. -/
theorem rwhashtabRead_insert {HT : Table} {ch : ChunkData}
    (absent : rwhashtabRead HT ch.hash = none) (other : Hash) :
    rwhashtabRead (HT ++ [ch]) other =
      if other = ch.hash then some ch else rwhashtabRead HT other := by
  by_cases same : other = ch.hash
  · rw [if_pos same, same]
    rw [rwhashtabRead] at absent ⊢
    rw [List.find?_append, absent]
    simp
  · have apart : ¬ ch.hash = other := fun equal => same equal.symm
    rw [if_neg same, rwhashtabRead, rwhashtabRead, List.find?_append]
    simp [apart]

/-- A new file leaves files of other names alone. -/
theorem withFiles_append {base : Store} {files : List ChunkFile} {file : ChunkFile} {cls : Char}
    {name : Hash} (apart : file.1 ≠ name) :
    withFiles base (files ++ [file]) cls name = withFiles base files cls name := by
  simp [withFiles, List.find?_append, apart]

/-- A new file is the one of its name. -/
theorem withFiles_new {base : Store} {files : List ChunkFile} {name : Hash} {data : List UInt8}
    (fresh : ∀ file ∈ files, file.1 ≠ name) :
    withFiles base (files ++ [(name, data)]) 'c' name = some data := by
  have none : files.find? (·.1 = name) = none := by
    rw [List.find?_eq_none]
    intro file member
    simpa using fresh file member
  simp [withFiles, List.find?_append, none]

end Lookups

section Write

variable {K : Crypto} {zlib : Zlib} {base : Store} {start : Table} {written : List (List UInt8)}

/-- Reading back depends on the lengths of a record and the files only. -/
theorem ReadsBack.congr {C C' : ChunksW} {ch ch' : ChunkData} {data : List UInt8}
    (reads : ReadsBack K base C ch data) (files : C'.S = C.S) (maxlen : C'.maxlen = C.maxlen)
    (hash : ch'.hash = ch.hash) (len : ch'.len = ch.len) (zlen : ch'.zlen = ch.zlen) :
    ReadsBack K base C' ch' data := by
  obtain ⟨stored, same, read⟩ := reads
  exact ⟨stored, files.trans same, by rw [maxlen, hash, len, zlen]; exact read⟩

/-- A reference to a recorded chunk keeps what is read back. -/
theorem Backed.reference {C : ChunksW} (backed : Backed K base start written C) (hash : Hash)
    (ch : ChunkData) (more : List (List UInt8)) :
    Backed K base start (written ++ more) (C.reference hash ch) := by
  have lookup : ∀ other, rwhashtabRead (C.reference hash ch).HT other =
      (rwhashtabRead C.HT other).map fun record =>
        if record.hash = hash then record.reference else record :=
    rwhashtabRead_update fun _ => rfl
  refine ⟨backed.files, ?_, ?_⟩
  · intro files stored file member
    rw [lookup, Option.isSome_map]
    exact backed.named files stored file member
  · intro other changed found
    rw [lookup] at found
    obtain ⟨record, before, change⟩ := Option.map_eq_some_iff.mp found
    obtain ⟨storable, data, reads, origin⟩ := backed.records other record before
    have kept : changed.hash = record.hash ∧ changed.len = record.len ∧
        changed.zlen = record.zlen := by
      rw [← change]
      split <;> exact ⟨rfl, rfl, rfl⟩
    obtain ⟨name, len, zlen⟩ := kept
    refine ⟨⟨by rw [len]; exact storable.len, by rw [zlen]; exact storable.zlen,
      by rw [zlen]; exact storable.flags⟩, data, reads.congr rfl rfl name len zlen, ?_⟩
    exact origin.imp (List.mem_append_left more) id

/-- A chunk whose file has just been stored is read back. -/
theorem read_new {maxlen padlen : Nat} {files : List ChunkFile} {buf zbuf : List UInt8}
    (inverts : K.uncompress buf.length (zbuf ++ List.replicate padlen 0) = some buf)
    (fresh : ∀ file ∈ files, file.1 ≠ K.hmacChunk buf) (short : buf.length ≤ maxlen)
    (room : (zbuf ++ List.replicate padlen 0).length ≤ maxlen + maxlen / 1000 + 13)
    (limit : maxlen + maxlen / 1000 + 13 ≤ storageFileLimit) :
    chunksReadChunk K maxlen .none
      (withFiles base (files ++ [(K.hmacChunk buf, zbuf ++ List.replicate padlen 0)]))
      (K.hmacChunk buf) buf.length (zbuf ++ List.replicate padlen 0).length = .ok buf := by
  rw [chunksReadChunk, if_neg (by omega), ChunkFaults.none, storageReadFile,
    withFiles_new fresh]
  simp only [if_neg (show ¬ storageFileLimit < (zbuf ++ List.replicate padlen 0).length by omega),
    if_true, ok_bind, Bool.false_eq_true, if_false, inverts, ne_eq, not_true_eq_false]

/-- A new chunk is stored and recorded, and it and the chunks before it are read back. -/
theorem Backed.insert {C : ChunksW} {files : List ChunkFile} {buf zbuf : List UInt8}
    {ch : ChunkData} (backed : Backed K base start written C) (stored : C.S = some files)
    (absent : rwhashtabRead C.HT ch.hash = none) (storable : ch.Storable)
    (reads : chunksReadChunk K C.maxlen .none (withFiles base (files ++ [(ch.hash, zbuf)]))
      ch.hash ch.len.toNat ch.zlen.toNat = .ok buf)
    {C' : ChunksW} (maxlen : C'.maxlen = C.maxlen) (table : C'.HT = C.HT ++ [ch])
    (store : C'.S = some (files ++ [(ch.hash, zbuf)])) :
    Backed K base start (written ++ [buf]) C' := by
  have lookup := rwhashtabRead_insert absent
  rw [← table] at lookup
  refine ⟨by rw [store]; rfl, ?_, ?_⟩
  · intro other same file member
    have all : other = files ++ [(ch.hash, zbuf)] := Option.some.inj (same.symm.trans store)
    rw [all, List.mem_append, List.mem_singleton] at member
    rw [lookup]
    split
    · rfl
    · rename_i apart
      rcases member with old | new
      · exact backed.named files stored file old
      · exact absurd (by rw [new]) apart
  · intro other record found
    rw [lookup] at found
    split at found
    · rename_i here
      have same : ch = record := Option.some.inj found
      rw [← same]
      exact ⟨storable, buf, ⟨_, store, by rw [maxlen]; exact reads⟩,
        .inl (List.mem_append_right _ (List.mem_singleton_self buf))⟩
    · rename_i apart
      obtain ⟨old, data, ⟨before, held, read⟩, origin⟩ := backed.records other record found
      have filesSame : before = files := Option.some.inj (held.symm.trans stored)
      have name : record.hash = other := (rwhashtabRead_some found).2
      refine ⟨old, data, ⟨_, store, ?_⟩, origin.imp (List.mem_append_left _) id⟩
      rw [maxlen]
      rw [filesSame] at read
      have different : (ch.hash, zbuf).1 ≠ record.hash := by
        rw [name]
        exact fun equal => apart equal.symm
      simp only [chunksReadChunk, ChunkFaults.none, storageReadFile] at read ⊢
      rw [withFiles_append different]
      exact read

/-- Every chunk of the allowed lengths is written. What was read back before still is, and a chunk
that had no record is read back from the file that was stored for it. -/
theorem chunksWriteChunk_backed {C : ChunksW} (backed : Backed K base start written C)
    (works : ZlibInverts K zlib C.maxlen) (limit : C.zbuflen ≤ storageFileLimit)
    {buf : List UInt8} (sized : buf ≠ []) (short : buf.length ≤ C.maxlen) :
    ∃ C' zlen, chunksWriteChunk zlib C (K.hmacChunk buf) buf = some (C', zlen) ∧
      C'.maxlen = C.maxlen ∧ Backed K base start (written ++ [buf]) C' ∧
      ∃ ch, rwhashtabRead C'.HT (K.hmacChunk buf) = some ch ∧ zlen = ch.zlen.toNat ∧
        (rwhashtabRead C.HT (K.hmacChunk buf) = none → ReadsBack K base C' ch buf) ∧
        ∀ other, (rwhashtabRead C.HT other).isSome → (rwhashtabRead C'.HT other).isSome := by
  obtain ⟨files, stored⟩ := Option.isSome_iff_exists.mp backed.files
  have buffer : C.zbuflen = C.maxlen + C.maxlen / 1000 + 13 := rfl
  have bound : storageFileLimit = 261848 := rfl
  have sane : ¬ (4294967295 < buf.length ∨ 2 ^ 30 ≤ C.zbuflen) := by omega
  rw [chunksWriteChunk, if_neg sane]
  cases found : rwhashtabRead C.HT (K.hmacChunk buf) with
  | some ch =>
    have kept := backed.reference (K.hmacChunk buf) ch [buf]
    have lookup : ∀ other, rwhashtabRead (C.reference (K.hmacChunk buf) ch).HT other =
        (rwhashtabRead C.HT other).map fun record =>
          if record.hash = K.hmacChunk buf then record.reference else record :=
      rwhashtabRead_update fun _ => rfl
    have name : ch.hash = K.hmacChunk buf := (rwhashtabRead_some found).2
    refine ⟨_, _, rfl, rfl, kept, ch.reference, ?_, rfl, fun missing => absurd missing
      (Option.some_ne_none _), ?_⟩
    · rw [lookup, found, Option.map_some, if_pos name]
    · intro other here
      rw [lookup, Option.isSome_map]
      exact here
  | none =>
    obtain ⟨zbuf, compressed⟩ : ∃ zbuf, zlib.compress2 C.zbuflen buf = some zbuf :=
      works.compresses buf short
    have fits : zbuf.length ≤ C.zbuflen := zlib.fits compressed
    have some_ : 0 < zbuf.length := List.length_pos_iff.mpr (zlib.nonempty compressed)
    have padding := padme_eq some_ fits (by omega)
    rw [if_pos ((clearedBits_iff some_ (by omega)).mpr (by omega))] at padding
    generalize padded : min (padTo zbuf.length) C.zbuflen - zbuf.length = padlen at padding
    have total : (zbuf ++ List.replicate padlen 0).length ≤ C.zbuflen := by
      rw [List.length_append, List.length_replicate]
      exact padme_le padding
    have write : storageWriteFile C.S (K.hmacChunk buf) (zbuf ++ List.replicate padlen 0) =
        some (some (files ++ [(K.hmacChunk buf, zbuf ++ List.replicate padlen 0)])) := by
      rw [stored]
      simp only [storageWriteFile]
      rw [if_neg (by omega)]
    have fresh : ∀ file ∈ files, file.1 ≠ K.hmacChunk buf := by
      intro file member same
      have named := backed.named files stored file member
      rw [same, found] at named
      cases named
    have stretched : K.uncompress buf.length (zbuf ++ List.replicate padlen 0) = some buf :=
      works.inverts C.zbuflen buf zbuf (List.replicate padlen 0) compressed
    let ch : ChunkData := ⟨K.hmacChunk buf, UInt32.ofNat buf.length,
      UInt32.ofNat (zbuf ++ List.replicate padlen 0).length, true, 1, 1⟩
    have storable : ch.Storable := storable_new sized (by omega) (by omega) compressed padding
    have len : ch.len.toNat = buf.length := by
      change (UInt32.ofNat buf.length).toNat = buf.length
      rw [UInt32.toNat_ofNat', Nat.mod_eq_of_lt (by omega)]
    have zlen : ch.zlen.toNat = (zbuf ++ List.replicate padlen 0).length := by
      change (UInt32.ofNat (zbuf ++ List.replicate padlen 0).length).toNat = _
      rw [UInt32.toNat_ofNat', Nat.mod_eq_of_lt (by omega)]
    have readNew : chunksReadChunk K C.maxlen .none (withFiles base
        (files ++ [(ch.hash, zbuf ++ List.replicate padlen 0)])) ch.hash ch.len.toNat
        ch.zlen.toNat = .ok buf := by
      rw [len, zlen]
      exact read_new stretched fresh short total limit
    have lookup : ∀ other, rwhashtabRead (C.HT ++ [ch]) other =
        if other = ch.hash then some ch else rwhashtabRead C.HT other :=
      rwhashtabRead_insert found
    simp only [compressed, Option.bind_eq_bind, Option.bind_some, padding, write,
      Option.pure_def]
    refine ⟨_, _, rfl, rfl, ?_, ch, ?_, zlen.symm, fun _ => ?_, ?_⟩
    · exact backed.insert stored found storable readNew rfl rfl rfl
    · exact (lookup (K.hmacChunk buf)).trans (if_pos rfl)
    · exact ⟨_, rfl, readNew⟩
    · intro other here
      have next := lookup other
      split at next
      · exact (congrArg Option.isSome next).trans rfl
      · exact (congrArg Option.isSome next).trans here

end Write

section Run

variable (K : Crypto) (zlib : Zlib)

/-- Write chunks one after the other, each under its keyed hash. -/
def writeChunks (C : ChunksW) (chunks : List (List UInt8)) : Option ChunksW :=
  chunks.foldlM (fun C buf => (chunksWriteChunk zlib C (K.hmacChunk buf) buf).map (·.1)) C

variable {K zlib} {base : Store} {start : Table}

/-- Chunks of the allowed lengths are all written, and every record is read back. -/
theorem writeChunks_backed {chunks written : List (List UInt8)} {C : ChunksW}
    (backed : Backed K base start written C) (works : ZlibInverts K zlib C.maxlen)
    (limit : C.zbuflen ≤ storageFileLimit)
    (sized : ∀ buf ∈ chunks, buf ≠ [] ∧ buf.length ≤ C.maxlen) :
    ∃ C', writeChunks K zlib C chunks = some C' ∧ Backed K base start (written ++ chunks) C' ∧
      (∀ buf ∈ chunks, (rwhashtabRead C'.HT (K.hmacChunk buf)).isSome) ∧
      ∀ other, (rwhashtabRead C.HT other).isSome → (rwhashtabRead C'.HT other).isSome := by
  induction chunks generalizing C written with
  | nil =>
    refine ⟨C, rfl, by rw [List.append_nil]; exact backed, ?_, fun _ here => here⟩
    intro buf member
    exact absurd member List.not_mem_nil
  | cons buf rest ih =>
    obtain ⟨nonempty, short⟩ := sized buf List.mem_cons_self
    obtain ⟨next, zlen, write, maxlen, kept, ch, found, _, _, grows⟩ :=
      chunksWriteChunk_backed backed works limit nonempty short
    obtain ⟨last, run, backedLast, present, growsLast⟩ := ih kept (by rw [maxlen]; exact works)
      (by rw [ChunksW.zbuflen, maxlen]; exact limit)
      (fun other member => by rw [maxlen]; exact sized other (List.mem_cons_of_mem _ member))
    refine ⟨last, ?_, ?_, ?_, fun other here => growsLast other (grows other here)⟩
    · rw [writeChunks, List.foldlM_cons, write]
      exact run
    · rw [List.append_assoc, List.singleton_append] at backedLast
      exact backedLast
    · intro other member
      rcases List.mem_cons.mp member with here | later
      · rw [here]
        exact growsLast _ (by rw [found]; rfl)
      · exact present other later

/-- Padding for every maximum below `2 ^ 37` is sound. In a transaction whose buffer is within the
file limit of the storage layer, over records that are read back, every chunk of the allowed
lengths is written, and with the lengths of its record the reader returns it, or a chunk that was
written or recorded before it and has the same keyed hash. -/
theorem chunks_padded_readBack (C : ChunksW) (chunks : List (List UInt8)) (fresh : C.S = some [])
    (recorded : ∀ hash ch, rwhashtabRead C.HT hash = some ch →
      ch.Storable ∧ ∃ data, ReadsBack K base C ch data)
    (works : ZlibInverts K zlib C.maxlen) (limit : C.zbuflen ≤ storageFileLimit)
    (sized : ∀ buf ∈ chunks, buf ≠ [] ∧ buf.length ≤ C.maxlen) :
    (∀ maxlen < 137438953472, PadmeSound maxlen) ∧
      ∃ C', writeChunks K zlib C chunks = some C' ∧ ∀ buf ∈ chunks, ∃ ch data,
        rwhashtabRead C'.HT (K.hmacChunk buf) = some ch ∧ ch.Storable ∧
        ReadsBack K base C' ch data ∧ K.hmacChunk data = K.hmacChunk buf ∧
        (data = buf ∨ data ≠ buf ∧
          (data ∈ chunks ∨ (rwhashtabRead C.HT (K.hmacChunk buf)).isSome)) := by
  refine ⟨fun maxlen small => (padmeSound_iff (by omega)).mpr small, ?_⟩
  have backed : Backed K base C.HT [] C := by
    refine ⟨by rw [fresh]; rfl, ?_, ?_⟩
    · intro files stored file member
      cases fresh.symm.trans stored
      exact absurd member List.not_mem_nil
    · intro hash ch found
      obtain ⟨storable, data, reads⟩ := recorded hash ch found
      exact ⟨storable, data, reads, .inr (by rw [found]; rfl)⟩
  obtain ⟨C', run, after, present, _⟩ := writeChunks_backed backed works limit sized
  refine ⟨C', run, ?_⟩
  intro buf member
  obtain ⟨ch, found⟩ := Option.isSome_iff_exists.mp (present buf member)
  obtain ⟨storable, data, reads, origin⟩ := after.records _ ch found
  have name : ch.hash = K.hmacChunk buf := (rwhashtabRead_some found).2
  have hashed : K.hmacChunk data = K.hmacChunk buf := by
    obtain ⟨files, _, read⟩ := reads
    rw [← name]
    exact chunksReadChunk_hash read
  refine ⟨ch, data, found, storable, reads, hashed, ?_⟩
  rw [List.nil_append] at origin
  by_cases same : data = buf
  · exact .inl same
  · exact .inr ⟨same, origin⟩

end Run

/-- For a maximum of `2 ^ 37` the padding of that length shifts a one into the sign bit. -/
theorem padmeSound_fails : padme 137438953472 137438953472 = none ∧ ¬ PadmeSound 137438953472 := by
  have large : ¬ PadmeSound 137438953472 := by
    rw [padmeSound_iff (by decide)]
    decide
  have shift : ¬ clearedBits 137438953472 < 31 := by
    rw [clearedBits_iff (by decide) (by decide)]
    decide
  exact ⟨by rw [padme_eq (by decide) (by decide) (by decide), if_neg shift], large⟩

section Example

/-- A chunk of nine equal bytes. -/
def nineBytes : List UInt8 := List.replicate 9 97

/-- Its compressed form. -/
def nineDeflated : List UInt8 := [0x78, 0xda, 0x4b, 0x4c, 0x84, 0x02, 0x00, 0x11, 0x16, 0x03, 0x6a]

/-- The two sums of the checksum of a stream. -/
def adler (buf : List UInt8) : Nat × Nat :=
  buf.foldl (fun sums byte => ((sums.1 + byte.toNat) % 65521,
    (sums.2 + sums.1 + byte.toNat) % 65521)) (1, 0)

/-- A compressed stream: the one of the nine bytes, or a stored block. -/
def deflated (buf : List UInt8) : List UInt8 :=
  if buf = nineBytes then nineDeflated
  else [0x78, 0x01, 0x01] ++ (leEnc 2 buf.length ++ (leEnc 2 (65535 - buf.length) ++
    (buf ++ beEnc 4 ((adler buf).2 * 65536 + (adler buf).1))))

/-- A compressor that stores what it does not know in one block. -/
def storedZlib : Zlib where
  compress2 room buf :=
    if buf.length < 65536 ∧ (deflated buf).length ≤ room then some (deflated buf) else none
  fits := by
    intro room buf zbuf compressed
    split at compressed
    case isTrue fits => cases compressed; exact fits.2
    case isFalse => cases compressed
  nonempty := by
    intro room buf zbuf compressed
    split at compressed
    case isTrue =>
      cases compressed
      unfold deflated
      split <;> simp [nineDeflated]
    case isFalse => cases compressed

/-- Hashes by the first bytes of a buffer, and the decompressor for these streams. -/
def storedCrypto : Crypto where
  hmacChunk buf := ⟨Vector.ofFn fun i => buf.getD i.val 0⟩
  hmacName buf := ⟨Vector.ofFn fun i => buf.getD i.val 0⟩
  sha256 buf := ⟨Vector.ofFn fun i => buf.getD i.val 0⟩
  rsaVerify _ _ := true
  uncompress len zbuf :=
    if zbuf.take 11 = nineDeflated then if 9 ≤ len then some nineBytes else none
    else
      let size := leDec ((zbuf.drop 3).take 2)
      if size ≤ len then some ((zbuf.drop 7).take size) else none

/-- The decompressor inverts the compressor. -/
theorem storedZlib_inverts : ZlibInverts storedCrypto storedZlib 9 := by
  refine ⟨?_, ?_⟩
  · intro buf short
    refine ⟨deflated buf, ?_⟩
    have length : (deflated buf).length ≤ 22 := by
      unfold deflated
      split
      · decide
      · simp only [List.length_append, leEnc_length, beEnc_length, List.length_cons,
          List.length_nil]
        omega
    exact if_pos ⟨by omega, length⟩
  · intro room buf zbuf trailing compressed
    simp only [storedZlib] at compressed
    split at compressed
    case isFalse => cases compressed
    case isTrue small =>
      cases compressed
      by_cases nine : buf = nineBytes
      · rw [nine]
        simp only [storedCrypto, deflated, if_pos]
        rfl
      · have size : leDec (leEnc 2 buf.length) = buf.length := by
          rw [leDec_leEnc]
          exact Nat.mod_eq_of_lt small.1
        have stored : deflated buf = [0x78, 0x01, 0x01] ++ (leEnc 2 buf.length ++
            (leEnc 2 (65535 - buf.length) ++ (buf ++
              beEnc 4 ((adler buf).2 * 65536 + (adler buf).1)))) := if_neg nine
        have differs : ¬ (deflated buf ++ trailing).take 11 = nineDeflated := by
          intro same
          have second := congrArg (fun bytes => bytes[1]?) same
          simp [stored, nineDeflated] at second
        have rest : (deflated buf ++ trailing).drop 3 = leEnc 2 buf.length ++
            (leEnc 2 (65535 - buf.length) ++ (buf ++
              (beEnc 4 ((adler buf).2 * 65536 + (adler buf).1) ++ trailing))) := by
          rw [stored]
          simp only [List.append_assoc]
          exact List.drop_left' rfl
        have sizes : ((deflated buf ++ trailing).drop 3).take 2 = leEnc 2 buf.length := by
          rw [rest, List.take_left' (leEnc_length 2 _)]
        have body : ((deflated buf ++ trailing).drop 7).take buf.length = buf := by
          have later : (deflated buf ++ trailing).drop 7 =
              (((deflated buf ++ trailing).drop 3).drop 2).drop 2 := by
            rw [List.drop_drop, List.drop_drop]
          rw [later, rest, List.drop_left' (leEnc_length 2 _), List.drop_left' (leEnc_length 2 _),
            List.take_left' rfl]
        simp only [storedCrypto]
        rw [if_neg differs, sizes, size, if_pos (Nat.le_refl _), body]

/-- Statistics of no chunks. -/
def noStats : ChunkStats := ⟨0, 0, 0⟩

/-- A transaction for chunks of up to nine bytes, without records or files. -/
def emptyTransaction : ChunksW :=
  ⟨9, [], some [], noStats, noStats, noStats, noStats, noStats, noStats, noStats⟩

/-- A chunk of nine bytes, stored in the sixteen bytes its eleven are padded to, is read back. -/
theorem chunks_padded_readBack_nine :
    PadmeSound 9 ∧ ∃ C',
      writeChunks storedCrypto storedZlib emptyTransaction [nineBytes] = some C' ∧
        ∃ ch data, rwhashtabRead C'.HT (storedCrypto.hmacChunk nineBytes) = some ch ∧
        ReadsBack storedCrypto (fun _ _ => none) C' ch data ∧ data = nineBytes := by
  have empty : emptyTransaction.HT = [] := rfl
  have result := @chunks_padded_readBack storedCrypto storedZlib (fun _ _ => none) emptyTransaction
    [nineBytes] rfl
    (fun hash ch found => by rw [empty] at found; exact nomatch found) storedZlib_inverts
    (by decide) (by
      intro buf member
      rw [List.mem_singleton.mp member]
      decide)
  obtain ⟨sound, C', run, back⟩ := result
  obtain ⟨ch, data, found, _, reads, _, same⟩ := back nineBytes (List.mem_singleton_self _)
  refine ⟨sound 9 (by decide), C', run, ch, data, found, reads, ?_⟩
  rcases same with same | ⟨other, again | before⟩
  · exact same
  · exact absurd (List.mem_singleton.mp again) other
  · exact absurd before (by rw [empty]; exact Bool.false_ne_true)

end Example

end Tarsnap.Chunks
