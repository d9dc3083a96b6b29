import Tarsnap.Chunks.Counts

/-!
# Reference counts while an archive is written

An archive is written over a directory that counts the references of the archives that exist. Every
chunk that is written or referenced keeps the counts of the table for these archives and the one
that is being written, and so does the directory file that a checkpoint writes.
-/

namespace Tarsnap.Chunks

open Tarsnap.Lib

section Write

variable {base : Table} {archives : List (List Hash)} {tape : List Hash} {zlib : Zlib}
  {C C' : ChunksW}

/-- What holds while an archive is written over the given table and archives. -/
structure Writing (base : Table) (archives : List (List Hash)) (tape : List Hash) (C : ChunksW) :
    Prop where
  /-- The table counts the existing archives and the current one. -/
  counts : Counts C.HT (tapeRefs (tape :: archives)) (copyRefs (tape :: archives))
    (· ∈ tape) (· ∈ (tape :: archives).flatten)
  /-- The total statistics count every reference. -/
  total : C.statsTotal = tableStats C.HT (copyRefs (tape :: archives))
  /-- The unique statistics count every chunk. -/
  unique : C.statsUnique = tableStats C.HT (fun _ => 1)
  /-- The files written are those of the new chunks. -/
  files : ∃ stored, C.S = some stored ∧ (stored.map Prod.fst).Nodup ∧
    ∀ hash, hash ∈ stored.map Prod.fst ↔ hash ∈ tape ∧ hash ∉ archives.flatten
  /-- The chunks that were there keep their lengths. -/
  kept : ∃ more, sizes C.HT = sizes base ++ more

/-- One more reference of the current archive adds a tape the first time. -/
theorem tapeRefs_append (tape : List Hash) (archives : List (List Hash)) (hash other : Hash) :
    tapeRefs ((tape ++ [hash]) :: archives) other =
      tapeRefs (tape :: archives) other + if other = hash ∧ hash ∉ tape then 1 else 0 := by
  unfold tapeRefs
  rw [List.countP_cons, List.countP_cons]
  by_cases here : other = hash
  · subst here
    by_cases member : other ∈ tape <;> simp [member]
  · simp [here]

/-- One more reference of the current archive adds a copy. -/
theorem copyRefs_append (tape : List Hash) (archives : List (List Hash)) (hash other : Hash) :
    copyRefs ((tape ++ [hash]) :: archives) other =
      copyRefs (tape :: archives) other + if other = hash then 1 else 0 := by
  unfold copyRefs
  simp only [List.flatten_cons, List.count_append, List.count_singleton]
  by_cases here : hash = other
  · simp [here]
    omega
  · simp [here, Ne.symm here]

/-- Referencing keeps hash and lengths. -/
theorem reference_keeps (ch : ChunkData) :
    ch.reference.hash = ch.hash ∧ ch.reference.len = ch.len ∧ ch.reference.zlen = ch.zlen :=
  ⟨rfl, rfl, rfl⟩

/-- Referencing a chunk that has a record. -/
theorem Writing.reference (writing : Writing base archives tape C) {hash : Hash} {ch : ChunkData}
    (found : rwhashtabRead C.HT hash = some ch) :
    Writing base archives (tape ++ [hash]) (C.reference hash ch) := by
  obtain ⟨member, rfl⟩ := rwhashtabRead_some found
  have current := writing.counts.ctape ch member
  have listed : ch.hash ∈ (tape :: archives).flatten :=
    (writing.counts.listed _).mp (List.mem_map_of_mem member)
  have counts : Counts (updateRecord C.HT ch.hash ChunkData.reference)
      (tapeRefs ((tape ++ [ch.hash]) :: archives)) (copyRefs ((tape ++ [ch.hash]) :: archives))
      (· ∈ tape ++ [ch.hash]) (· ∈ (tape :: archives).flatten) := by
    apply writing.counts.update member reference_keeps
    · rw [tapeRefs_append]
      by_cases flagged : ch.ctape = true
      · simp [ChunkData.reference, flagged, current.mp flagged, writing.counts.nrefs ch member]
      · have fresh : ch.hash ∉ tape := fun inside => flagged (current.mpr inside)
        simp [ChunkData.reference, flagged, fresh, writing.counts.nrefs ch member,
          UInt32.ofNat_add]
    · rw [copyRefs_append]
      simp [ChunkData.reference, writing.counts.ncopies ch member, UInt32.ofNat_add]
    · simp [ChunkData.reference]
    · intro other apart
      simp [tapeRefs_append, copyRefs_append, apart]
  refine ⟨counts.congr (fun _ => ⟨rfl, rfl, Iff.rfl⟩) ?_, ?_, ?_, ?_, ?_⟩
  · intro other
    simp only [List.flatten_cons, List.mem_append, List.mem_singleton] at listed ⊢
    constructor
    · rintro ((inside | rfl) | inside)
      · exact .inl inside
      · exact listed
      · exact .inr inside
    · rintro (inside | inside)
      · exact .inl (.inl inside)
      · exact .inr inside
  · have moved := tableStats_change (copyRefs (tape :: archives))
      (copyRefs ((tape ++ [ch.hash]) :: archives)) writing.counts.nodup member
      (fun other apart => by simp [copyRefs_append, apart]) 1 (by simp [copyRefs_append])
    simp only [ChunksW.reference]
    rw [tableStats_update reference_keeps, moved, writing.total]
  · simp only [ChunksW.reference]
    rw [tableStats_update reference_keeps, writing.unique]
  · obtain ⟨stored, files, nodup, new⟩ := writing.files
    refine ⟨stored, files, nodup, fun other => ?_⟩
    rw [new, List.mem_append, List.mem_singleton]
    constructor
    · rintro ⟨inside, fresh⟩
      exact ⟨.inl inside, fresh⟩
    · rintro ⟨inside | rfl, fresh⟩
      · exact ⟨inside, fresh⟩
      · rw [List.flatten_cons, List.mem_append] at listed
        exact ⟨listed.resolve_right fresh, fresh⟩
  · obtain ⟨more, same⟩ := writing.kept
    exact ⟨more, (sizes_update reference_keeps).trans same⟩

/-- Padding never exceeds the maximum. -/
theorem padme_le {len maxlen padlen : Nat} (padded : padme len maxlen = some padlen) :
    len + padlen ≤ maxlen := by
  unfold padme at padded
  split at padded
  · exact nomatch padded
  split at padded
  · cases padded
    omega
  · obtain ⟨shifted, _, rest⟩ := Option.bind_eq_some_iff.mp padded
    cases rest
    split <;> omega

/-- A table with a record for a new hash added. -/
theorem Counts.insert {HT : Table} {refs copies refs' copies' : Hash → Nat}
    {current current' listed listed' : Hash → Prop}
    (counts : Counts HT refs copies current listed) (ch : ChunkData) (fresh : ¬ listed ch.hash)
    (nrefs : ch.nrefs = UInt32.ofNat (refs' ch.hash))
    (ncopies : ch.ncopies = UInt32.ofNat (copies' ch.hash))
    (ctape : ch.ctape = true ↔ current' ch.hash) (storable : ch.Storable)
    (others : ∀ hash, hash ≠ ch.hash → refs' hash = refs hash ∧ copies' hash = copies hash ∧
      (current' hash ↔ current hash))
    (list : ∀ hash, listed' hash ↔ listed hash ∨ hash = ch.hash) :
    Counts (HT ++ [ch]) refs' copies' current' listed' := by
  have apart : ∀ old ∈ HT, old.hash ≠ ch.hash := fun old member same =>
    fresh (same ▸ (counts.listed _).mp (List.mem_map_of_mem member))
  refine ⟨?_, ?_, ?_, ?_, ?_, ?_⟩
  · rw [List.map_append, List.nodup_append]
    refine ⟨counts.nodup, by simp, ?_⟩
    intro hash member other single
    obtain ⟨old, inside, rfl⟩ := List.mem_map.mp member
    rw [List.map_cons, List.map_nil, List.mem_singleton] at single
    rw [single]
    exact apart old inside
  · intro hash
    rw [List.map_append, List.mem_append, counts.listed, list]
    simp
  · intro old member
    rcases List.mem_append.mp member with inside | single
    · rw [counts.nrefs old inside, (others _ (apart old inside)).1]
    · rw [List.mem_singleton.mp single, nrefs]
  · intro old member
    rcases List.mem_append.mp member with inside | single
    · rw [counts.ncopies old inside, (others _ (apart old inside)).2.1]
    · rw [List.mem_singleton.mp single, ncopies]
  · intro old member
    rcases List.mem_append.mp member with inside | single
    · rw [counts.ctape old inside, (others _ (apart old inside)).2.2]
    · rw [List.mem_singleton.mp single, ctape]
  · intro old member
    rcases List.mem_append.mp member with inside | single
    · exact counts.storable old inside
    · rw [List.mem_singleton.mp single]
      exact storable

/-- Writing a chunk that has no record yet. -/
theorem Writing.insert (writing : Writing base archives tape C) {hash : Hash}
    (absent : rwhashtabRead C.HT hash = none) (len zlen : UInt32) {buf : List UInt8}
    {S : Option (List ChunkFile)} (write : storageWriteFile C.S hash buf = some S)
    (storable : ChunkData.Storable ⟨hash, len, zlen, true, 1, 1⟩) :
    Writing base archives (tape ++ [hash]) { C with
      S
      HT := C.HT ++ [⟨hash, len, zlen, true, 1, 1⟩]
      statsTotal := chunksStatsAdd C.statsTotal len zlen 1
      statsUnique := chunksStatsAdd C.statsUnique len zlen 1
      statsTape := chunksStatsAdd C.statsTape len zlen 1
      statsNew := chunksStatsAdd C.statsNew len zlen 1 } := by
  have fresh : hash ∉ (tape :: archives).flatten := fun inside =>
    rwhashtabRead_none.mp absent ((writing.counts.listed _).mpr inside)
  have freshTape : hash ∉ tape := fun inside =>
    fresh (by rw [List.flatten_cons]; exact List.mem_append_left _ inside)
  have freshArchives : hash ∉ archives.flatten := fun inside =>
    fresh (by rw [List.flatten_cons]; exact List.mem_append_right _ inside)
  have noTapes := (tapeRefs_eq_zero (tape :: archives) hash).mpr fresh
  have noCopies := (copyRefs_eq_zero (tape :: archives) hash).mpr fresh
  have old : ∀ ch ∈ C.HT, ch.hash ≠ hash := by
    rintro ch member rfl
    exact fresh ((writing.counts.listed _).mp (List.mem_map_of_mem member))
  refine ⟨?_, ?_, ?_, ?_, ?_⟩
  · apply writing.counts.insert _ fresh
    · simp [tapeRefs_append, noTapes, freshTape]
    · simp [copyRefs_append, noCopies]
    · simp
    · exact storable
    · intro other apart
      change other ≠ hash at apart
      simp [tapeRefs_append, copyRefs_append, apart]
    · intro other
      simp only [List.flatten_cons, List.mem_append, List.mem_singleton]
      tauto
  · have same : tableStats C.HT (copyRefs ((tape ++ [hash]) :: archives)) =
        tableStats C.HT (copyRefs (tape :: archives)) :=
      tableStats_congr fun ch member => by simp [copyRefs_append, old ch member]
    simp only [tableStats, List.map_append, List.sum_append, List.map_cons, List.map_nil,
      List.sum_singleton, copyRefs_append, noCopies, if_true] at same ⊢
    rw [same, writing.total]
    rfl
  · simp only [tableStats, List.map_append, List.sum_append, List.map_cons, List.map_nil,
      List.sum_singleton]
    rw [writing.unique]
    rfl
  · obtain ⟨stored, files, nodup, new⟩ := writing.files
    have more : S = some (stored ++ [(hash, buf)]) := by
      rw [files] at write
      simp only [storageWriteFile] at write
      split at write
      · cases write
      · exact (Option.some.inj write).symm
    refine ⟨stored ++ [(hash, buf)], more, ?_, ?_⟩
    · rw [List.map_append, List.nodup_append]
      refine ⟨nodup, by simp, ?_⟩
      intro other inside last single
      rw [List.map_cons, List.map_nil, List.mem_singleton] at single
      rw [single]
      rintro rfl
      exact freshTape ((new _).mp inside).1
    · intro other
      rw [List.map_append, List.mem_append, new, List.mem_append]
      simp only [List.map_cons, List.map_nil, List.mem_singleton]
      constructor
      · rintro (⟨inside, fresh⟩ | rfl)
        · exact ⟨.inl inside, fresh⟩
        · exact ⟨.inr rfl, freshArchives⟩
      · rintro ⟨inside | rfl, fresh⟩
        · exact .inl ⟨inside, fresh⟩
        · exact .inr rfl
  · obtain ⟨more, same⟩ := writing.kept
    refine ⟨more ++ [(hash, len, zlen)], ?_⟩
    rw [sizes] at same ⊢
    rw [List.map_append, same, List.append_assoc]
    rfl

/-- A compressed, padded chunk can be recorded. -/
theorem storable_new {C : ChunksW} {hash : Hash} {buf zbuf : List UInt8} {padlen : Nat}
    (sized : buf ≠ []) (small : buf.length ≤ 4294967295) (room : C.zbuflen < 2 ^ 30)
    (compressed : zlib.compress2 C.zbuflen buf = some zbuf)
    (padded : padme zbuf.length C.zbuflen = some padlen) :
    ChunkData.Storable ⟨hash, UInt32.ofNat buf.length,
      UInt32.ofNat (zbuf ++ List.replicate padlen 0).length, true, 1, 1⟩ := by
  have some_ : 0 < buf.length := List.length_pos_iff.mpr sized
  have zsome : 0 < zbuf.length := List.length_pos_iff.mpr (zlib.nonempty compressed)
  have bound := padme_le padded
  rw [List.length_append, List.length_replicate]
  refine ⟨?_, ?_, ?_⟩
  · exact (ofNat_ne_zero (by omega)).mpr (by omega)
  · exact (ofNat_ne_zero (by omega)).mpr (by omega)
  · simp only [UInt32.toNat_ofNat', CHDATA_ZLEN]
    omega

/-- A chunk that is written is referenced. -/
theorem Writing.chunk (writing : Writing base archives tape C) {hash : Hash} {buf : List UInt8}
    {zlen : Nat} (sized : buf ≠ []) (written : chunksWriteChunk zlib C hash buf = some (C', zlen)) :
    Writing base archives (tape ++ [hash]) C' := by
  unfold chunksWriteChunk at written
  split at written
  case isTrue => cases written
  case isFalse sane =>
    push Not at sane
    cases found : rwhashtabRead C.HT hash with
    | some ch =>
      rw [found] at written
      cases written
      exact writing.reference found
    | none =>
      rw [found] at written
      obtain ⟨zbuf, compressed, rest⟩ := Option.bind_eq_some_iff.mp written
      obtain ⟨padlen, padded, rest⟩ := Option.bind_eq_some_iff.mp rest
      obtain ⟨S, write, rest⟩ := Option.bind_eq_some_iff.mp rest
      cases rest
      exact writing.insert found _ _ write (storable_new sized sane.1 sane.2 compressed padded)

/-- Only the records, the files and the statistics of the chunks matter. -/
theorem Writing.congr (writing : Writing base archives tape C) (table : C'.HT = C.HT)
    (files : C'.S = C.S) (total : C'.statsTotal = C.statsTotal)
    (unique : C'.statsUnique = C.statsUnique) : Writing base archives tape C' where
  counts := by rw [table]; exact writing.counts
  total := by rw [total, table]; exact writing.total
  unique := by rw [unique, table]; exact writing.unique
  files := by rw [files]; exact writing.files
  kept := by rw [table]; exact writing.kept

/-- The order of the references does not matter. -/
theorem Writing.perm (writing : Writing base archives tape C) {other : List Hash}
    (perm : tape.Perm other) : Writing base archives other C := by
  have tapes : tapeRefs (other :: archives) = tapeRefs (tape :: archives) := by
    funext hash
    simp only [tapeRefs, List.countP_cons, perm.mem_iff]
  have copies : copyRefs (other :: archives) = copyRefs (tape :: archives) := by
    funext hash
    simp only [copyRefs, List.flatten_cons, List.count_append, perm.count_eq]
  refine ⟨writing.counts.congr (fun hash => ⟨?_, ?_, ?_⟩) (fun hash => ?_), ?_, writing.unique, ?_,
    writing.kept⟩
  · rw [tapes]
  · rw [copies]
  · rw [perm.mem_iff]
  · rw [List.flatten_cons, List.flatten_cons, List.mem_append, List.mem_append, perm.mem_iff]
  · rw [copies]
    exact writing.total
  · obtain ⟨stored, files, nodup, new⟩ := writing.files
    exact ⟨stored, files, nodup, fun hash => by rw [new, perm.mem_iff]⟩

end Write

section Describes

/-- A directory that was read counts the references of the given archives. -/
structure Describes (loaded : Loaded) (archives : List (List Hash)) : Prop where
  /-- The records count the archives. -/
  counts : Counts loaded.HT (tapeRefs archives) (copyRefs archives) (fun _ => False)
    (· ∈ archives.flatten)
  /-- The statistics with multiplicity count every reference. -/
  all : loaded.statsAll = tableStats loaded.HT (copyRefs archives)
  /-- The statistics without multiplicity count every chunk. -/
  unique : loaded.statsUnique = tableStats loaded.HT (fun _ => 1)

/-- The references of one more archive without references. -/
theorem refs_nil (archives : List (List Hash)) (hash : Hash) :
    tapeRefs ([] :: archives) hash = tapeRefs archives hash ∧
      copyRefs ([] :: archives) hash = copyRefs archives hash := by
  simp [tapeRefs, copyRefs]

/-- A write transaction starts with the counts of its directory. -/
theorem Describes.writing {loaded : Loaded} {archives : List (List Hash)}
    (describes : Describes loaded archives) {directory : Option (List UInt8)}
    (read : chunksDirectoryRead false directory = .ok loaded) {maxchunksize : Nat} {C : ChunksW}
    (start : chunksWriteStart directory (some []) maxchunksize = .ok C) :
    Writing loaded.HT archives [] C := by
  rw [chunksWriteStart, read, ok_bind] at start
  cases start
  have same : copyRefs ([] :: archives) = copyRefs archives :=
    funext fun hash => (refs_nil archives hash).2
  refine ⟨?_, ?_, describes.unique, ⟨[], rfl, List.nodup_nil, by simp⟩, ⟨[], by simp⟩⟩
  · exact describes.counts.congr
      (fun hash => ⟨(refs_nil archives hash).1, (refs_nil archives hash).2, by simp⟩) (by simp)
  · simp only [same]
    exact describes.all

/-- The directory that a checkpoint commits counts the existing archives and the new one. -/
theorem Writing.describes {base : Table} {archives : List (List Hash)} {tape : List Hash}
    {C : ChunksW} (writing : Writing base archives tape C)
    (bound : ∀ hash, copyRefs (tape :: archives) hash < 4294967296) (order : SlotOrder) :
    ∃ loaded, chunksDirectoryRead false (some (chunksDirectoryWrite order C.HT C.statsExtra)) =
        .ok loaded ∧ Describes loaded (tape :: archives) ∧ loaded.statsExtra = C.statsExtra ∧
      ∀ ch ∈ loaded.HT, (ch.hash, ch.len, ch.zlen) ∈ sizes C.HT := by
  obtain ⟨loaded, read, counts, all, unique, extra, kept⟩ := writing.counts.reload
    (fun hash => ⟨tapeRefs_le_copyRefs _ hash, bound hash⟩) order C.statsExtra false
  refine ⟨loaded, read, ⟨counts.congr (fun _ => ⟨rfl, rfl, Iff.rfl⟩) ?_, all, unique⟩, extra, kept⟩
  intro hash
  have referenced := tapeRefs_eq_zero (tape :: archives) hash
  tauto

end Describes

end Tarsnap.Chunks
