import Tarsnap.Multitape.FileData

/-!
# Operations of the tape writer

Writing file data and ending a file chunk pass chunks on, one step for each of them. Whatever else
an operation does leaves the file chunkifier and the callbacks alone. So what is kept by ending a
file chunk and by such changes is kept by a change of mode and by a checkpoint.
-/

namespace Tarsnap.Multitape

open Tarsnap.Lib Tarsnap.Chunks Tarsnap.Chunkify

variable {P : Params} {κ : Type} {K : Crypto} {zlib : Zlib} {rsa : RsaSigner K}
  {d d' : TapeW P κ}

/-- The file chunkifier passed on some chunks in turn. -/
inductive FileSteps (K : Crypto) : List (List UInt8) → TapeW P κ → TapeW P κ → Prop where
  /-- No chunk. -/
  | nil (tape : TapeW P κ) : FileSteps K [] tape tape
  /-- One chunk and then others. -/
  | cons {chunk : List UInt8} {chunks : List (List UInt8)} {before middle after : TapeW P κ}
    (first : FileStep K chunk before middle) (later : FileSteps K chunks middle after) :
    FileSteps K (chunk :: chunks) before after

/-- Accepted chunks were passed on in turn. -/
theorem fileSteps_of_accept {chunks : List (List UInt8)}
    (accepted : chunks.foldlM (accept (callbackFile K zlib)) d = some d') :
    FileSteps K chunks d d' := by
  induction chunks generalizing d with
  | nil =>
    cases accepted
    exact .nil _
  | cons chunk chunks ih =>
    rw [List.foldlM_cons] at accepted
    obtain ⟨d1, first, later⟩ := Option.bind_eq_some_iff.mp accepted
    unfold accept at first
    split at first
    · rename_i succeeded
      cases first
      exact .cons (callbackFile_ok (Prod.ext succeeded rfl)) (ih later)
    · exact nomatch first

/-- Chunks that are passed on leave the file chunkifier itself alone. -/
theorem FileSteps.cFile {chunks : List (List UInt8)} (steps : FileSteps K chunks d d') :
    d'.cFile = d.cFile := by
  induction steps with
  | nil => rfl
  | cons first _ ih =>
    rw [ih, first.rest]

/-- Writing file data passes on the chunks that the chunkifier ends. -/
theorem fileWrite_ok {buf : List UInt8} (written : fileWrite K zlib d buf = some d') :
    ∃ chunks c d1, feed d.cFile buf = .ok (chunks, c) ∧ FileSteps K chunks d d1 ∧
      d' = { d1 with cFile := c } := by
  unfold fileWrite at written
  split at written
  · rename_i c d1 chunkified
    cases written
    obtain ⟨chunks, fed, accepted⟩ := chunkifyWrite_ok _ chunkified
    exact ⟨chunks, c, d1, fed, fileSteps_of_accept accepted, rfl⟩
  · exact nomatch written

/-- Ending the file chunk passes on the bytes that the chunkifier holds. -/
theorem fileEnd_ok (ended : fileEnd K zlib d = some d') :
    ∃ c d1, FileSteps K (lastChunk d.cFile) d d1 ∧ d' = { d1 with cFile := c } ∧ c.k = 0 := by
  unfold fileEnd at ended
  split at ended
  · rename_i c d1 chunkified
    cases ended
    obtain ⟨accepted, last⟩ := chunkifyEnd_ok _ chunkified
    refine ⟨c, d1, fileSteps_of_accept accepted, rfl, ?_⟩
    rw [last]
    split
    · assumption
    · rfl
  · exact nomatch ended

section Quiet

/-- A change that leaves file data, callbacks and the end of the tape alone. -/
structure Quiet (d d' : TapeW P κ) : Prop extends Grows d d' where
  /-- The file chunkifier is the same. -/
  cFile : d'.cFile = d.cFile
  /-- The bytes written to it are the same. -/
  cFileIn : d'.cFileIn = d.cFileIn
  /-- The bytes passed out by it are the same. -/
  cFileOut : d'.cFileOut = d.cFileOut
  /-- The cookie of the callbacks is the same. -/
  callbackCookie : d'.callbackCookie = d.callbackCookie
  /-- The chunk callback is the same. -/
  callbackChunk : d'.callbackChunk = d.callbackChunk
  /-- The trailer callback is the same. -/
  callbackTrailer : d'.callbackTrailer = d.callbackTrailer
  /-- The tape is truncated or not, as before. -/
  eof : d'.eof = d.eof

/-- Two changes. -/
theorem Quiet.trans {d'' : TapeW P κ} (first : Quiet d d') (second : Quiet d' d'') :
    Quiet d d'' where
  toGrows := first.toGrows.trans second.toGrows
  cFile := second.cFile.trans first.cFile
  cFileIn := second.cFileIn.trans first.cFileIn
  cFileOut := second.cFileOut.trans first.cFileOut
  callbackCookie := second.callbackCookie.trans first.callbackCookie
  callbackChunk := second.callbackChunk.trans first.callbackChunk
  callbackTrailer := second.callbackTrailer.trans first.callbackTrailer
  eof := second.eof.trans first.eof

/-- Writing to a stream. -/
theorem OnlyStream.quiet {s : StreamName} (only : OnlyStream s d d') : Quiet d d' := by
  have rest := only.rest
  refine ⟨only.toGrows, ?_, ?_, ?_, ?_, ?_, ?_, ?_⟩ <;> rw [rest]

/-- Ending an entry. -/
theorem endentry_quiet (ended : endentry K zlib d = some d') : Quiet d d' := by
  unfold endentry at ended
  split at ended
  · exact nomatch ended
  obtain ⟨d1, first, ended⟩ := Option.bind_eq_some_iff.mp ended
  obtain ⟨d2, second, ended⟩ := Option.bind_eq_some_iff.mp ended
  cases ended
  have one := (streamWrite_ok first).1.quiet
  have two := (streamWrite_ok second).1.quiet
  have both := one.trans two
  exact ⟨⟨both.has, both.stored⟩, both.cFile, both.cFileIn, both.cFileOut, both.callbackCookie,
    both.callbackChunk, both.callbackTrailer, both.eof⟩

/-- Counting extra data keeps the table. -/
theorem extrastats_table (lengths : Nat → UInt32) (fragnums : List Nat) (C : ChunksW) :
    (fragnums.foldl (fun C fragnum => chunksWriteExtrastats C (lengths fragnum)) C).HT = C.HT := by
  induction fragnums generalizing C with
  | nil => rfl
  | cons fragnum rest ih =>
    rw [List.foldl_cons, ih]
    rfl

/-- Storing the metaindex keeps the table. -/
theorem multitapeMetaindexPut_table {C C' : ChunksW} {tmi : TapeMetaindex}
    {tmd tmd' : TapeMetadata} {ifiles : List ChunkFile}
    (put : multitapeMetaindexPut K C tmi tmd = some (ifiles, C', tmd')) : C'.HT = C.HT := by
  obtain ⟨_, _, _, rfl⟩ := multitapeMetaindexPut_cases put
  exact extrastats_table _ _ C

/-- Changing the chunk layer but not its table. -/
theorem quiet_of_table {C : ChunksW} (same : C.HT = d.C.HT) : Quiet d { d with C } := by
  refine ⟨⟨?_, List.prefix_refl _⟩, rfl, rfl, rfl, rfl, rfl, rfl, rfl⟩
  intro hash here
  rw [HasChunk]
  simp only [same]
  exact here

/-- Changing the mode. -/
theorem quiet_of_mode (mode : Mode) : Quiet d { d with mode } :=
  ⟨⟨fun _ here => here, List.prefix_refl _⟩, rfl, rfl, rfl, rfl, rfl, rfl, rfl⟩

end Quiet

section Keeping

/-- What is kept by ending a file chunk and by quiet changes. -/
structure Kept (K : Crypto) (zlib : Zlib) (R : TapeW P κ → Prop) : Prop where
  /-- Kept by ending a file chunk. -/
  ended : ∀ d d', fileEnd K zlib d = some d' → R d → R d'
  /-- Kept by quiet changes. -/
  quiet : ∀ d d', Quiet d d' → R d → R d'

variable {R : TapeW P κ → Prop}

/-- It is kept when the chunkifiers are flushed and the indexes are stored. -/
theorem Kept.flushtape (kept : Kept K zlib R) {isapart : Bool} {tape : StoredTape}
    (flushed : flushtape K zlib rsa d isapart = some (tape, d')) (holds : R d) : R d' := by
  obtain ⟨d1, one, flushed⟩ := Option.bind_eq_some_iff.mp flushed
  obtain ⟨d2, two, flushed⟩ := Option.bind_eq_some_iff.mp flushed
  obtain ⟨d3, three, flushed⟩ := Option.bind_eq_some_iff.mp flushed
  obtain ⟨d4, four, flushed⟩ := Option.bind_eq_some_iff.mp flushed
  obtain ⟨⟨ifiles, C1, tmd⟩, metaindex, flushed⟩ := Option.bind_eq_some_iff.mp flushed
  obtain ⟨⟨mfile, C2⟩, metadata, flushed⟩ := Option.bind_eq_some_iff.mp flushed
  obtain ⟨⟨buf, buflen⟩, _, counted⟩ := Option.bind_eq_some_iff.mp metadata
  cases counted
  cases flushed
  have table : C1.HT = d4.C.HT := multitapeMetaindexPut_table metaindex
  have counted : (chunksWriteExtrastats C1 (UInt32.ofNat buflen)).HT = d4.C.HT := table
  have ended := kept.ended _ _ one holds
  have trailers := kept.quiet _ _ (streamEnd_ok two).1.quiet ended
  have chunks := kept.quiet _ _ (streamEnd_ok three).1.quiet trailers
  have headers := kept.quiet _ _ (streamEnd_ok four).1.quiet chunks
  exact kept.quiet _ _ (quiet_of_table counted) headers

/-- It is kept when the mode is changed. -/
theorem Kept.setmode (kept : Kept K zlib R) {mode : Mode}
    (set : writetapeSetmode K zlib d mode = some d') (holds : R d) : R d' := by
  unfold writetapeSetmode at set
  split at set
  · cases set
    exact holds
  obtain ⟨d1, first, set⟩ := Option.bind_eq_some_iff.mp set
  have one : R d1 := by
    split at first
    · exact kept.ended _ _ first holds
    · cases first
      exact holds
  split at set
  · exact nomatch set
  obtain ⟨d2, second, set⟩ := Option.bind_eq_some_iff.mp set
  have two : R d2 := by
    split at second
    · exact kept.quiet _ _ (endentry_quiet second) one
    · cases second
      exact one
  cases set
  exact kept.quiet _ _ (quiet_of_mode mode) two

/-- It is kept by a checkpoint. -/
theorem Kept.checkpoint (kept : Kept K zlib R) {part : StoredTape}
    (created : writetapeCheckpoint K zlib rsa d = some (part, d')) (holds : R d) : R d' := by
  unfold writetapeCheckpoint at created
  simp only at created
  obtain ⟨d1, first, created⟩ := Option.bind_eq_some_iff.mp created
  have one : R d1 := by
    split at first
    · exact kept.setmode first holds
    · cases first
      exact holds
  obtain ⟨d2, second, created⟩ := Option.bind_eq_some_iff.mp created
  have two : R d2 := by
    split at second
    · exact kept.quiet _ _ (endentry_quiet second) one
    · cases second
      exact one
  obtain ⟨⟨tape, d3⟩, flushed, created⟩ := Option.bind_eq_some_iff.mp created
  have saved : R { d2 with C := chunksWriteExtrastatsCopy d2.C 0 } :=
    kept.quiet _ _ (quiet_of_table rfl) two
  have three := kept.flushtape flushed saved
  have restored : R { d3 with C := chunksWriteExtrastatsCopy d3.C 1 } :=
    kept.quiet _ _ (quiet_of_table rfl) three
  obtain ⟨d4, last, created⟩ := Option.bind_eq_some_iff.mp created
  cases created
  split at last
  · exact kept.setmode last restored
  · cases last
    exact restored

end Keeping

end Tarsnap.Multitape
