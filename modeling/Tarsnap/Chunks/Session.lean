import Tarsnap.Chunks.WriteRead

/-!
# A write transaction over files that are read back

While an archive is written, the records of the chunk layer count its references, and the chunk of
every record is read back from the files on the server and those of the transaction. What is read
back for a hash is what is known under this hash, as long as no two different chunks have the same
hash.
-/

namespace Tarsnap.Chunks

open Tarsnap.Lib

/-- Decompression inverts compression, whatever follows the compressed data. -/
def Unpacks (K : Crypto) (zlib : Zlib) : Prop :=
  ∀ room buf zbuf trailing, zlib.compress2 room buf = some zbuf →
    K.uncompress buf.length (zbuf ++ trailing) = some buf

/-- The chunk of every record is read back from the given files, as what is known under its hash. -/
def Readable (K : Crypto) (maxlen : Nat) (contents : Hash → List UInt8) (S : Store) (HT : Table) :
    Prop :=
  ∀ ch ∈ HT, chunksReadChunk K maxlen .none S ch.hash ch.len.toNat ch.zlen.toNat =
    .ok (contents ch.hash)

/-- A write transaction over a machine whose chunks are read back, with the references of the
archive so far. -/
structure Session (K : Crypto) (contents : Hash → List UInt8) (base : Store) (start : Table)
    (archives : List (List Hash)) (tape : List Hash) (C : ChunksW) : Prop where
  /-- The records count the references. -/
  writing : Writing start archives tape C
  /-- The chunks of the records are read back. -/
  readable : ∃ files, C.S = some files ∧
    Readable K C.maxlen contents (withFiles base files) C.HT

variable {K : Crypto} {zlib : Zlib} {contents : Hash → List UInt8} {base : Store} {start : Table}
  {archives : List (List Hash)} {tape : List Hash} {C C' : ChunksW}

section Readable

variable {maxlen : Nat} {S S' : Store} {HT HT' : Table}

/-- Reading a chunk depends on its own file only. -/
theorem chunksReadChunk_congr {faults : ChunkFaults} {hash : Hash} {len zlen : Nat}
    (same : S' 'c' hash = S 'c' hash) :
    chunksReadChunk K maxlen faults S' hash len zlen =
      chunksReadChunk K maxlen faults S hash len zlen := by
  simp only [chunksReadChunk, storageReadFile, same]

/-- A chunk that is read has at most the maximum length. -/
theorem chunksReadChunk_le {faults : ChunkFaults} {hash : Hash} {len zlen : Nat} {data : List UInt8}
    (read : chunksReadChunk K maxlen faults S hash len zlen = .ok data) : len ≤ maxlen := by
  unfold chunksReadChunk at read
  split at read
  · cases read
  · omega

/-- Reading depends on the lengths of the records and their files only. -/
theorem Readable.congr (readable : Readable K maxlen contents S HT)
    (sizes_ : ∀ ch ∈ HT', (ch.hash, ch.len, ch.zlen) ∈ sizes HT)
    (files : ∀ ch ∈ HT', S' 'c' ch.hash = S 'c' ch.hash) :
    Readable K maxlen contents S' HT' := by
  intro ch member
  obtain ⟨old, inside, same⟩ := List.mem_map.mp (sizes_ ch member)
  simp only [Prod.mk.injEq] at same
  obtain ⟨hash, len, zlen⟩ := same
  have read := readable old inside
  rw [hash, len, zlen] at read
  rw [chunksReadChunk_congr (files ch member)]
  exact read

/-- A record of a chunk that is read back has the length of the chunk. -/
theorem Readable.length (readable : Readable K maxlen contents S HT) {ch : ChunkData}
    (member : ch ∈ HT) : ch.len = UInt32.ofNat (contents ch.hash).length := by
  rw [chunksReadChunk_length (readable ch member)]
  exact UInt32.ofNat_toNat.symm

end Readable

/-- Referencing a chunk that has a record. -/
theorem Session.reference (session : Session K contents base start archives tape C) {hash : Hash}
    {ch : ChunkData} (found : rwhashtabRead C.HT hash = some ch) :
    Session K contents base start archives (tape ++ [hash]) (C.reference hash ch) ∧
      sizes (C.reference hash ch).HT = sizes C.HT := by
  have same : sizes (C.reference hash ch).HT = sizes C.HT := sizes_update reference_keeps
  obtain ⟨files, stored, readable⟩ := session.readable
  refine ⟨⟨session.writing.reference found, files, stored, ?_⟩, same⟩
  refine readable.congr (fun record member => ?_) (fun _ _ => rfl)
  rw [← same]
  exact List.mem_map_of_mem member

/-- A chunk that is found by its hash is referenced. -/
theorem Session.chunkref (session : Session K contents base start archives tape C) {hash : Hash}
    (referenced : chunksWriteChunkref C hash = (0, C')) :
    Session K contents base start archives (tape ++ [hash]) C' ∧ C'.maxlen = C.maxlen ∧
      sizes C'.HT = sizes C.HT := by
  unfold chunksWriteChunkref at referenced
  split at referenced
  case h_1 ch found =>
    cases referenced
    obtain ⟨kept, same⟩ := session.reference found
    exact ⟨kept, rfl, same⟩
  case h_2 => cases referenced

/-- A chunk is written under its hash: it is referenced, and its record has the lengths that are
returned. -/
theorem Session.chunk (session : Session K contents base start archives tape C)
    (inflates : Unpacks K zlib) (limit : C.zbuflen ≤ storageFileLimit) {buf : List UInt8}
    {zlen : Nat} (sized : buf ≠ []) (short : buf.length ≤ C.maxlen)
    (known : contents (K.hmacChunk buf) = buf)
    (written : chunksWriteChunk zlib C (K.hmacChunk buf) buf = some (C', zlen)) :
    Session K contents base start archives (tape ++ [K.hmacChunk buf]) C' ∧ C'.maxlen = C.maxlen ∧
      (K.hmacChunk buf, UInt32.ofNat buf.length, UInt32.ofNat zlen) ∈ sizes C'.HT ∧
      ∀ size ∈ sizes C.HT, size ∈ sizes C'.HT := by
  have counted := session.writing.chunk sized written
  have bound : storageFileLimit = 261848 := rfl
  unfold chunksWriteChunk at written
  split at written
  case isTrue => cases written
  case isFalse sane =>
    cases found : rwhashtabRead C.HT (K.hmacChunk buf) with
    | some ch =>
      rw [found] at written
      cases written
      obtain ⟨kept, same⟩ := session.reference found
      obtain ⟨member, hash⟩ := rwhashtabRead_some found
      obtain ⟨files, _, readable⟩ := session.readable
      have len := readable.length member
      rw [hash, known] at len
      refine ⟨kept, rfl, ?_, fun size inside => by rw [same]; exact inside⟩
      rw [same, ← len, ← hash, UInt32.ofNat_toNat]
      exact List.mem_map_of_mem member
    | none =>
      rw [found] at written
      obtain ⟨zbuf, compressed, rest⟩ := Option.bind_eq_some_iff.mp written
      obtain ⟨padlen, padded, rest⟩ := Option.bind_eq_some_iff.mp rest
      obtain ⟨S, write, rest⟩ := Option.bind_eq_some_iff.mp rest
      cases rest
      obtain ⟨files, stored, readable⟩ := session.readable
      have total : (zbuf ++ List.replicate padlen 0).length ≤ C.zbuflen := by
        rw [List.length_append, List.length_replicate]
        exact padme_le padded
      have buffer : C.zbuflen = C.maxlen + C.maxlen / 1000 + 13 := rfl
      rw [stored, storageWriteFile, if_neg (by omega)] at write
      cases write
      have fresh : ∀ file ∈ files, file.1 ≠ K.hmacChunk buf := by
        intro file member same
        obtain ⟨others, held, _, new⟩ := session.writing.files
        cases stored.symm.trans held
        have inTape := (new _).mp (List.mem_map_of_mem member)
        apply rwhashtabRead_none.mp found
        rw [session.writing.counts.listed, List.flatten_cons, ← same]
        exact List.mem_append_left _ inTape.1
      have len : (UInt32.ofNat buf.length).toNat = buf.length := by
        rw [UInt32.toNat_ofNat', Nat.mod_eq_of_lt (by omega)]
      have zlen : (UInt32.ofNat (zbuf ++ List.replicate padlen 0).length).toNat =
          (zbuf ++ List.replicate padlen 0).length := by
        rw [UInt32.toNat_ofNat', Nat.mod_eq_of_lt (by omega)]
      have grown : ∀ ch : ChunkData, sizes (C.HT ++ [ch]) =
          sizes C.HT ++ [(ch.hash, ch.len, ch.zlen)] := by
        intro ch
        rw [sizes, List.map_append]
        rfl
      refine ⟨⟨counted, _, rfl, ?_⟩, rfl, ?_, ?_⟩
      · intro ch member
        rcases List.mem_append.mp member with old | new
        · have apart : (K.hmacChunk buf, zbuf ++ List.replicate padlen 0).1 ≠ ch.hash := by
            intro same
            exact rwhashtabRead_none.mp found (List.mem_map.mpr ⟨ch, old, same.symm⟩)
          rw [chunksReadChunk_congr (withFiles_append apart)]
          exact readable ch old
        · rw [List.mem_singleton.mp new]
          simp only [len, zlen, known]
          exact read_new (inflates _ _ _ _ compressed) fresh short total limit
      · rw [grown]
        exact List.mem_append_right _ (List.mem_singleton_self _)
      · intro size inside
        rw [grown]
        exact List.mem_append_left _ inside

/-- Only the records, the files and the statistics of the chunks matter. -/
theorem Session.congr (session : Session K contents base start archives tape C)
    (maxlen : C'.maxlen = C.maxlen) (table : C'.HT = C.HT) (files : C'.S = C.S)
    (total : C'.statsTotal = C.statsTotal) (unique : C'.statsUnique = C.statsUnique) :
    Session K contents base start archives tape C' where
  writing := session.writing.congr table files total unique
  readable := by
    rw [maxlen, table, files]
    exact session.readable

/-- The order of the references does not matter. -/
theorem Session.perm (session : Session K contents base start archives tape C) {other : List Hash}
    (perm : tape.Perm other) : Session K contents base start archives other C :=
  ⟨session.writing.perm perm, session.readable⟩

end Tarsnap.Chunks
