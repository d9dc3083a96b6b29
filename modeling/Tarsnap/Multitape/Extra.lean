import Tarsnap.Multitape.Truncate

/-!
# Statistics of extra data

The files of an archive that are not chunks are its metadata and its metaindex. They are counted,
for all archives and for this archive, when the tape is flushed. No other function of the tape layer
counts extra data.
-/

namespace Tarsnap.Multitape

open Tarsnap.Lib Tarsnap.Chunks Tarsnap.Chunkify

variable {P : Params} {κ : Type} {K : Crypto} {zlib : Zlib} {rsa : RsaSigner K}
  {d d' : TapeW P κ}

/-- The files of an archive that are not chunks. -/
def StoredTape.files (tape : StoredTape) : List (List UInt8) :=
  tape.ifiles.map Prod.snd ++ [tape.mfile]

/-- What the files of an archive add to the statistics of extra data. -/
def StoredTape.extra (tape : StoredTape) : ChunkStats :=
  (tape.files.map fun file =>
    ChunkStats.ofCopies (UInt32.ofNat file.length) (UInt32.ofNat file.length) 1).sum

section Unchanged

/-- The statistics of extra data, for all archives and for this archive, and the copy. -/
def extras (C : ChunksW) : ChunkStats × ChunkStats × ChunkStats :=
  (C.statsExtra, C.statsTapee, C.statsExtraCopy)

/-- Storing a chunk counts no extra data. -/
theorem storeChunk_extras {buf : List UInt8} {C C' : ChunksW} {ch : ChunkHeader}
    (stored : storeChunk K zlib buf C = some (ch, C')) : extras C' = extras C := by
  obtain ⟨⟨C1, zlen⟩, written, rest⟩ := Option.bind_eq_some_iff.mp stored
  cases rest
  unfold chunksWriteChunk at written
  split at written
  · exact nomatch written
  split at written
  · cases written
    rfl
  · obtain ⟨zbuf, _, written⟩ := Option.bind_eq_some_iff.mp written
    obtain ⟨padlen, _, written⟩ := Option.bind_eq_some_iff.mp written
    obtain ⟨S, _, written⟩ := Option.bind_eq_some_iff.mp written
    cases written
    rfl

/-- A callback that counts no extra data, called on chunks in turn. -/
theorem accept_extras {chunkdone : TapeW P κ → List UInt8 → Nat × TapeW P κ}
    {chunks : List (List UInt8)} (accepted : chunks.foldlM (accept chunkdone) d = some d')
    (counts : ∀ d buf d', chunkdone d buf = (0, d') → extras d'.C = extras d.C) :
    extras d'.C = extras d.C := by
  refine foldlM_run (fun _ (state : TapeW P κ) => extras state.C = extras d.C) ?_ rfl accepted
  intro done chunk rest state state' _ holds step
  unfold accept at step
  split at step
  · rename_i succeeded
    cases step
    exact (counts _ _ _ (Prod.ext succeeded rfl)).trans holds
  · exact nomatch step

/-- A chunk of a stream counts no extra data. -/
theorem handleChunk_extras {s : StreamName} {buf : List UInt8}
    (handled : handleChunk K zlib s d buf = (0, d')) : extras d'.C = extras d.C := by
  unfold handleChunk at handled
  split at handled
  · have code : failure = 0 := congrArg Prod.fst handled
    exact absurd code (by decide)
  · rename_i ch C stored
    cases handled
    exact storeChunk_extras stored

/-- Writing to a stream counts no extra data. -/
theorem streamWrite_extras {s : StreamName} {buf : List UInt8}
    (written : streamWrite K zlib s d buf = some d') : extras d'.C = extras d.C := by
  unfold streamWrite at written
  rw [streamCallback_eq] at written
  split at written
  · rename_i c d1 chunkified
    cases written
    obtain ⟨_, _, accepted⟩ := chunkifyWrite_ok _ chunkified
    have passed := accept_extras accepted fun _ _ _ handled => handleChunk_extras handled
    exact passed
  · exact nomatch written

/-- Ending a stream counts no extra data. -/
theorem streamEnd_extras {s : StreamName} (ended : streamEnd K zlib s d = some d') :
    extras d'.C = extras d.C := by
  unfold streamEnd at ended
  rw [streamCallback_eq] at ended
  split at ended
  · rename_i c d1 chunkified
    cases ended
    have passed := accept_extras (chunkifyEnd_ok _ chunkified).1
      fun _ _ _ handled => handleChunk_extras handled
    exact passed
  · exact nomatch ended

/-- A chunk of file data counts no extra data. -/
theorem callbackFile_extras {buf : List UInt8} (handled : callbackFile K zlib d buf = (0, d')) :
    extras d'.C = extras d.C := by
  unfold callbackFile at handled
  simp only at handled
  split at handled
  · have code : failure = 0 := congrArg Prod.fst handled
    exact absurd code (by decide)
  rename_i d1 result
  cases handled
  split at result
  · unfold fileTrailer at result
    split at result
    · exact nomatch result
    · obtain ⟨d2, wrote, result⟩ := Option.bind_eq_some_iff.mp result
      have passed := streamWrite_extras wrote
      rw [(notifyTrailer_ok result).1]
      exact passed
  · obtain ⟨⟨ch, C⟩, stored, result⟩ := Option.bind_eq_some_iff.mp result
    obtain ⟨d2, wrote, result⟩ := Option.bind_eq_some_iff.mp result
    have passed := (streamWrite_extras wrote).trans (storeChunk_extras stored)
    rw [(notifyChunk_ok result).1]
    exact passed

/-- Writing file data counts no extra data. -/
theorem fileWrite_extras {buf : List UInt8} (written : fileWrite K zlib d buf = some d') :
    extras d'.C = extras d.C := by
  unfold fileWrite at written
  split at written
  · rename_i c d1 chunkified
    cases written
    obtain ⟨_, _, accepted⟩ := chunkifyWrite_ok _ chunkified
    have passed := accept_extras accepted fun _ _ _ handled => callbackFile_extras handled
    exact passed
  · exact nomatch written

/-- Ending the file chunk counts no extra data. -/
theorem fileEnd_extras (ended : fileEnd K zlib d = some d') : extras d'.C = extras d.C := by
  unfold fileEnd at ended
  split at ended
  · rename_i c d1 chunkified
    cases ended
    have passed := accept_extras (chunkifyEnd_ok _ chunkified).1
      fun _ _ _ handled => callbackFile_extras handled
    exact passed
  · exact nomatch ended

/-- Ending an entry counts no extra data. -/
theorem endentry_extras (ended : endentry K zlib d = some d') : extras d'.C = extras d.C := by
  unfold endentry at ended
  split at ended
  · exact nomatch ended
  obtain ⟨d1, first, ended⟩ := Option.bind_eq_some_iff.mp ended
  obtain ⟨d2, second, ended⟩ := Option.bind_eq_some_iff.mp ended
  cases ended
  have passed := (streamWrite_extras second).trans (streamWrite_extras first)
  exact passed

/-- Setting the mode counts no extra data. -/
theorem writetapeSetmode_extras {mode : Mode} (set : writetapeSetmode K zlib d mode = some d') :
    extras d'.C = extras d.C := by
  unfold writetapeSetmode at set
  split at set
  · cases set
    rfl
  obtain ⟨d1, first, set⟩ := Option.bind_eq_some_iff.mp set
  split at set
  · exact nomatch set
  obtain ⟨d2, second, set⟩ := Option.bind_eq_some_iff.mp set
  cases set
  have one : extras d1.C = extras d.C := by
    split at first
    · exact fileEnd_extras first
    · cases first
      rfl
  have two : extras d2.C = extras d1.C := by
    split at second
    · exact endentry_extras second
    · cases second
      rfl
  exact two.trans one

/-- No call but a checkpoint counts extra data. -/
theorem TapeOp.run_extras {op : TapeOp} {more : List Piece} (other : op ≠ .checkpoint)
    (made : op.run K zlib rsa d = some (more, d')) : extras d'.C = extras d.C := by
  cases op with
  | write nomem buffer =>
    obtain ⟨⟨lenwrit, d1⟩, written, rest⟩ := Option.bind_eq_some_iff.mp made
    cases rest
    rcases writetapeWrite_cases written with ⟨_, _, rfl⟩ | ⟨_, _, _, d2, wrote, rfl⟩ |
      ⟨_, _, _, mode, _, _, rfl⟩
    · rfl
    · have passed := fileWrite_extras wrote
      exact passed
    · rfl
  | writechunk ch =>
    obtain ⟨⟨lenwrit, d1⟩, written, rest⟩ := Option.bind_eq_some_iff.mp made
    cases rest
    unfold writetapeWritechunk at written
    split at written
    · cases written
      rfl
    split at written
    · cases written
      rfl
    cases found : rwhashtabRead d.C.HT ch.hash with
    | none =>
      simp only [chunksWriteChunkref, found] at written
      cases written
      rfl
    | some record =>
      simp only [chunksWriteChunkref, found] at written
      obtain ⟨d2, wrote, rest⟩ := Option.bind_eq_some_iff.mp written
      cases rest
      have passed := streamWrite_extras wrote
      exact passed
  | setmode mode =>
    obtain ⟨d1, set, rest⟩ := Option.bind_eq_some_iff.mp made
    cases rest
    exact writetapeSetmode_extras set
  | checkpoint => exact absurd rfl other
  | truncate =>
    cases made
    rfl

end Unchanged

section Stored

/-- Storing the metaindex counts its files, for all archives and for this archive. -/
theorem multitapeMetaindexPut_extras {C C' : ChunksW} {mind : TapeMetaindex}
    {mdat mdat' : TapeMetadata} {files : List ChunkFile}
    (put : multitapeMetaindexPut K C mind mdat = some (files, C', mdat')) :
    let added := (files.map fun file =>
      ChunkStats.ofCopies (UInt32.ofNat file.2.length) (UInt32.ofNat file.2.length) 1).sum
    extras C' = (C.statsExtra + added, C.statsTapee + added, C.statsExtraCopy) := by
  obtain ⟨_, described, written, counted⟩ := multitapeMetaindexPut_cases put
  have size : mdat'.indexlen = (metaindexEnc mind).length := by rw [described]
  have added : (files.map fun file =>
      ChunkStats.ofCopies (UInt32.ofNat file.2.length) (UInt32.ofNat file.2.length) 1).sum =
        fragStats mdat'.indexlen := by
    rw [written, List.map_map, fragStats]
    congr 1
    apply List.map_congr_left
    intro fragnum _
    simp only [Function.comp, fragment_length, size]
  have total := foldl_extrastats (fun C : ChunksW => C.statsExtra)
    (fun C fragnum => chunksWriteExtrastats C (UInt32.ofNat (fraglen mdat'.indexlen fragnum))) 1
    (fun fragnum => UInt32.ofNat (fraglen mdat'.indexlen fragnum)) (fun _ _ => rfl)
    (fragnums mdat'.indexlen) C
  have tape := foldl_extrastats (fun C : ChunksW => C.statsTapee)
    (fun C fragnum => chunksWriteExtrastats C (UInt32.ofNat (fraglen mdat'.indexlen fragnum))) 1
    (fun fragnum => UInt32.ofNat (fraglen mdat'.indexlen fragnum)) (fun _ _ => rfl)
    (fragnums mdat'.indexlen) C
  have copy : ∀ (fragnums : List Nat) (C : ChunksW), (fragnums.foldl (fun C fragnum =>
      chunksWriteExtrastats C (UInt32.ofNat (fraglen mdat'.indexlen fragnum))) C).statsExtraCopy =
        C.statsExtraCopy := by
    intro fragnums
    induction fragnums with
    | nil => exact fun _ => rfl
    | cons fragnum rest ih => exact fun C => ih _
  simp only
  rw [added, extras, counted, total, tape, copy]
  rfl

/-- Storing the metadata counts its file. -/
theorem multitapeMetadataPut_extras {C C' : ChunksW} {mdat : TapeMetadata} {file : List UInt8}
    (put : multitapeMetadataPut rsa C mdat = some (file, C')) :
    let added := ChunkStats.ofCopies (UInt32.ofNat file.length) (UInt32.ofNat file.length) 1
    extras C' = (C.statsExtra + added, C.statsTapee + added, C.statsExtraCopy) := by
  obtain ⟨⟨buf, buflen⟩, encoded, rest⟩ := Option.bind_eq_some_iff.mp put
  cases rest
  obtain ⟨signature, signed, rfl, rfl⟩ := multitapeMetadataEnc_cases encoded
  have length : (mdat.signed ++ signature).length = mdat.buflen := by
    rw [List.length_append, rsa.length signed, signed_length]
  simp only
  rw [length]
  rfl

/-- Flushing the tape counts the files of the archive, for all archives and for this archive. -/
theorem flushtape_extras {isapart : Bool} {tape : StoredTape}
    (flushed : flushtape K zlib rsa d isapart = some (tape, d')) :
    extras d'.C = (d.C.statsExtra + tape.extra, d.C.statsTapee + tape.extra,
      d.C.statsExtraCopy) := by
  obtain ⟨d1, one, flushed⟩ := Option.bind_eq_some_iff.mp flushed
  obtain ⟨d2, two, flushed⟩ := Option.bind_eq_some_iff.mp flushed
  obtain ⟨d3, three, flushed⟩ := Option.bind_eq_some_iff.mp flushed
  obtain ⟨d4, four, flushed⟩ := Option.bind_eq_some_iff.mp flushed
  obtain ⟨⟨ifiles, C1, tmd⟩, metaindex, flushed⟩ := Option.bind_eq_some_iff.mp flushed
  obtain ⟨⟨mfile, C2⟩, metadata, flushed⟩ := Option.bind_eq_some_iff.mp flushed
  cases flushed
  have before : extras d4.C = extras d.C :=
    (streamEnd_extras four).trans ((streamEnd_extras three).trans
      ((streamEnd_extras two).trans (fileEnd_extras one)))
  have index := multitapeMetaindexPut_extras metaindex
  have data := multitapeMetadataPut_extras metadata
  simp only [extras, Prod.mk.injEq] at before index data ⊢
  rw [data.1, data.2.1, data.2.2, index.1, index.2.1, index.2.2, before.1, before.2.1, before.2.2]
  have total : ∀ name tmi, (StoredTape.mk name tmi ifiles tmd mfile).extra =
      (ifiles.map fun file =>
        ChunkStats.ofCopies (UInt32.ofNat file.2.length) (UInt32.ofNat file.2.length) 1).sum +
      ChunkStats.ofCopies (UInt32.ofNat mfile.length) (UInt32.ofNat mfile.length) 1 := by
    intro name tmi
    rw [StoredTape.extra, StoredTape.files, List.map_append, List.sum_append, List.map_map]
    simp only [List.map_cons, List.map_nil, List.sum_cons, List.sum_nil, add_zero]
    rfl
  rw [total, add_assoc, add_assoc]
  exact ⟨rfl, rfl, rfl⟩

end Stored

end Tarsnap.Multitape
