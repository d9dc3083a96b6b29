import Tarsnap.Ccache.Lookup
import Tarsnap.Multitape.Run

/-!
# What the callbacks record

While a file is archived, the tape informs the cache of the chunks and the trailer that the file
chunkifier passes on. Until there is a trailer the recorded chunks are all that was passed on.
Afterwards the record is not changed any more, so it describes the start of what was passed on.
-/

namespace Tarsnap.Ccache

open Tarsnap.Lib Tarsnap.Chunks Tarsnap.Chunkify Tarsnap.Multitape

variable {P : Params} {K : Crypto} {zlib : Zlib} {contents : Hash → List UInt8}

/-- What is deflated can be inflated. -/
def Inflates (K : Crypto) (zlib : Zlib) : Prop :=
  ∀ room buf zbuf, zlib.compress2 room buf = some zbuf → K.uncompress buf.length zbuf = some buf

section Describing

/-- The bytes that a record describes. -/
def recorded (K : Crypto) (contents : Hash → List UInt8) (ccr : CcacheRecord) : List UInt8 :=
  indexed contents ccr.chp ++ (decompressTrailer K ccr).getD []

/-- The lengths in the headers are the lengths of the chunks. -/
def Measured (contents : Hash → List UInt8) (chp : List ChunkHeader) : Prop :=
  ∀ ch ∈ chp, (contents ch.hash).length = ch.len.toNat

/-- A record describes the start of what was passed on, and all of it without a trailer. -/
structure Describes (K : Crypto) (contents : Hash → List UInt8) (cce : CcacheEntry)
    (passed : List UInt8) : Prop where
  /-- The record describes the start. -/
  start : recorded K contents cce.ccr <+: passed
  /-- The headers have the lengths of the chunks. -/
  measured : Measured contents cce.ccr.chp
  /-- Without a trailer the chunks are all that was passed on. -/
  complete : cce.hittrailer = false → indexed contents cce.ccr.chp = passed ∧ cce.ccr.tlen = 0
  /-- A trailer that is recorded can be inflated. -/
  intact : cce.ccr.tlen ≠ 0 → decompressTrailer K cce.ccr ≠ none

/-- An entry that differs from another one by what the callbacks change. -/
def CcacheEntry.Updates (cce before : CcacheEntry) : Prop :=
  cce = { before with
    hittrailer := cce.hittrailer
    ccr := { before.ccr with
      chp := cce.ccr.chp
      tlen := cce.ccr.tlen
      ztrailer := cce.ccr.ztrailer
      ztrailerMalloc := cce.ccr.ztrailerMalloc }
    cci := { before.cci with
      chunksusage := cce.cci.chunksusage
      trailerusage := cce.cci.trailerusage } }

/-- The lengths in the headers add up to the length of the chunks. -/
theorem Measured.bytes {chp : List ChunkHeader} (measured : Measured contents chp) :
    (indexed contents chp).length = chunkBytes chp := by
  rw [indexed, List.length_flatMap, chunkBytes]
  congr 1
  exact List.map_congr_left measured

/-- A record without a trailer describes its chunks. -/
theorem recorded_chunks {ccr : CcacheRecord} (none_ : ccr.tlen = 0) :
    recorded K contents ccr = indexed contents ccr.chp := by
  rw [recorded]
  cases decompressed : decompressTrailer K ccr with
  | none => exact List.append_nil _
  | some trailer =>
    have length := decompressTrailer_length decompressed
    rw [none_] at length
    rw [List.length_eq_zero_iff.mp length]
    exact List.append_nil _

/-- A deflated trailer is recorded. -/
theorem decompressTrailer_compress {ccr : CcacheRecord} {room : Nat} {buf ztrailer : List UInt8}
    (inflates : Inflates K zlib) (deflated : zlib.compress2 room buf = some ztrailer)
    (tlen : ccr.tlen = buf.length) (stored : ccr.ztrailer = ztrailer) :
    decompressTrailer K ccr = some buf := by
  have inflated := inflates room buf ztrailer deflated
  rw [decompressTrailer, tlen, stored, inflated, Option.bind_eq_bind, Option.bind_some,
    if_pos rfl]

variable {cce cce' before : CcacheEntry} {passed buf : List UInt8}

/-- What is passed on after the trailer is not recorded. -/
theorem Describes.later (describes : Describes K contents cce passed)
    (hit : cce.hittrailer = true) : Describes K contents cce (passed ++ buf) where
  start := describes.start.trans (List.prefix_append _ _)
  measured := describes.measured
  complete := fun open_ => by
    rw [hit] at open_
    cases open_
  intact := describes.intact

/-- The chunk callback records the chunk unless there is a trailer. -/
theorem callbackAddchunk_describes {ch : ChunkHeader} {cookie : Option CcacheEntry}
    (describes : Describes K contents cce passed) (holds : contents ch.hash = buf)
    (length : ch.len.toNat = buf.length) (updates : cce.Updates before)
    (called : callbackAddchunk (some cce) ch = some cookie) :
    ∃ cce', cookie = some cce' ∧ cce'.Updates before ∧ Describes K contents cce'
      (passed ++ buf) := by
  rw [callbackAddchunk, Option.bind_eq_bind, Option.bind_some] at called
  split at called
  · rename_i hit
    cases called
    exact ⟨cce, rfl, updates, describes.later hit⟩
  · rename_i open_
    cases called
    rw [Bool.not_eq_true] at open_
    obtain ⟨all, none_⟩ := describes.complete open_
    have extended : indexed contents (cce.ccr.chp ++ [ch]) = passed ++ buf := by
      rw [indexed_append, all]
      simp [indexed, holds]
    refine ⟨_, rfl, ?_, ?_, ?_, ?_, ?_⟩
    · rw [CcacheEntry.Updates]
      rw [CcacheEntry.Updates] at updates
      rw [updates]
    · have described :=
        @recorded_chunks K contents { cce.ccr with chp := cce.ccr.chp ++ [ch] } none_
      exact (described.trans extended) ▸ List.prefix_refl _
    · intro other member
      rcases List.mem_append.mp member with old | new
      · exact describes.measured other old
      · rw [List.mem_singleton.mp new, holds, length]
    · exact fun _ => ⟨extended, none_⟩
    · exact fun some_ => absurd none_ some_

/-- The trailer callback records the trailer unless there is one. -/
theorem callbackAddtrailer_describes {cookie : Option CcacheEntry} (inflates : Inflates K zlib)
    (describes : Describes K contents cce passed) (updates : cce.Updates before)
    (called : callbackAddtrailer zlib (some cce) buf = some cookie) :
    ∃ cce', cookie = some cce' ∧ cce'.Updates before ∧ Describes K contents cce'
      (passed ++ buf) := by
  rw [callbackAddtrailer, Option.bind_eq_bind, Option.bind_some] at called
  split at called
  · rename_i hit
    cases called
    exact ⟨cce, rfl, updates, describes.later hit⟩
  · rename_i open_
    rw [Bool.not_eq_true] at open_
    obtain ⟨ztrailer, deflated, rest⟩ := Option.bind_eq_some_iff.mp called
    cases rest
    obtain ⟨all, _⟩ := describes.complete open_
    have inflated : decompressTrailer K
        { cce.ccr with ztrailer, tlen := buf.length, ztrailerMalloc := true } = some buf :=
      decompressTrailer_compress inflates deflated rfl rfl
    refine ⟨_, rfl, ?_, ?_, describes.measured, ?_, ?_⟩
    · rw [CcacheEntry.Updates]
      rw [CcacheEntry.Updates] at updates
      rw [updates]
    · rw [recorded, inflated, Option.getD_some, all]
    · exact fun open_ => nomatch open_
    · intro _
      rw [inflated]
      exact Option.some_ne_none buf

/-- The callback that fakes a trailer leaves the record alone. -/
theorem callbackFaketrailer_describes {cookie : Option CcacheEntry}
    (describes : Describes K contents cce passed) (updates : cce.Updates before)
    (called : callbackFaketrailer (some cce) buf = some cookie) :
    ∃ cce', cookie = some cce' ∧ cce'.Updates before ∧ Describes K contents cce'
      (passed ++ buf) := by
  rw [callbackFaketrailer, Option.bind_eq_bind, Option.bind_some] at called
  cases called
  refine ⟨_, rfl, ?_, ?_, describes.measured, ?_, describes.intact⟩
  · rw [CcacheEntry.Updates]
    rw [CcacheEntry.Updates] at updates
    rw [updates]
  · exact describes.start.trans (List.prefix_append _ _)
  · exact fun open_ => nomatch open_

end Describing

section Passing

/-- The callbacks of a tape record what is passed on for an entry. -/
structure Passed (K : Crypto) (zlib : Zlib) (contents : Hash → List UInt8) (before : CcacheEntry)
    (passed : List UInt8) (d : Tape P) : Prop where
  /-- The record describes what was passed on. -/
  cookie : Faithful contents d → ∃ cce, d.callbackCookie = some cce ∧ cce.Updates before ∧
    Describes K contents cce passed
  /-- Chunks are recorded. -/
  chunk : d.callbackChunk = some callbackAddchunk
  /-- Trailers are recorded, or it is recorded that there was one. -/
  trailer : d.callbackTrailer = some (callbackAddtrailer zlib) ∨
    d.callbackTrailer = some callbackFaketrailer

variable {rsa : RsaSigner K} {before : CcacheEntry} {passed buf : List UInt8} {d d' : Tape P}

/-- One more piece of data is passed on. -/
theorem Passed.step (holds : Passed K zlib contents before passed d)
    (inflates : Inflates K zlib) (step : FileStep K buf d d') (fits : buf.length ≤ P.blen) :
    Passed K zlib contents before (passed ++ buf) d' := by
  have rest := step.rest
  have chunkSet : d'.callbackChunk = some callbackAddchunk := by
    rw [rest]
    exact holds.chunk
  have trailerSet : d'.callbackTrailer = d.callbackTrailer := by rw [rest]
  refine ⟨?_, chunkSet, by rw [trailerSet]; exact holds.trailer⟩
  intro faithful
  obtain ⟨cce, cookie, updates, describes⟩ := holds.cookie (faithful.earlier step.toGrows)
  rcases step.kind with trailer | ⟨ch, chunk⟩
  · rcases holds.trailer with set | set
    · have told := trailer.told _ set
      rw [cookie] at told
      exact callbackAddtrailer_describes inflates describes updates told
    · have told := trailer.told _ set
      rw [cookie] at told
      exact callbackFaketrailer_describes describes updates told
  · have told := chunk.told _ holds.chunk
    rw [cookie] at told
    have length : ch.len.toNat = buf.length := by
      rw [chunk.len, UInt32.toNat_ofNat']
      exact Nat.mod_eq_of_lt (Nat.lt_of_le_of_lt fits P.blen_lt)
    exact callbackAddchunk_describes describes (faithful ch buf chunk.stored) length updates told

/-- More pieces of data are passed on. -/
theorem Passed.steps {chunks : List (List UInt8)} (steps : FileSteps K chunks d d')
    (inflates : Inflates K zlib) (fits : ∀ chunk ∈ chunks, chunk.length ≤ P.blen)
    (holds : Passed K zlib contents before passed d) :
    Passed K zlib contents before (passed ++ chunks.flatten) d' := by
  induction steps generalizing passed with
  | nil =>
    rw [List.flatten_nil, List.append_nil]
    exact holds
  | cons first _ ih =>
    have one := holds.step inflates first (fits _ List.mem_cons_self)
    have all := ih (fun chunk member => fits chunk (List.mem_cons_of_mem _ member)) one
    rw [List.flatten_cons, ← List.append_assoc]
    exact all

/-- The callbacks record what a tape accepts for an entry: what was passed on, and what the file
chunkifier holds. -/
structure Recording (K : Crypto) (zlib : Zlib) (contents : Hash → List UInt8)
    (before : CcacheEntry) (written : List UInt8) (d : Tape P) : Prop where
  /-- The chunkifier holds no more than its buffer. -/
  room : d.cFile.k ≤ P.blen
  /-- What was passed on is recorded. -/
  passed : ∃ passed, written = passed ++ d.cFile.bytes ∧
    Passed K zlib contents before passed d

/-- The record describes the start of what was written. -/
theorem Recording.describes {written : List UInt8}
    (recording : Recording K zlib contents before written d) (faithful : Faithful contents d) :
    ∃ cce, d.callbackCookie = some cce ∧ cce.Updates before ∧
      recorded K contents cce.ccr <+: written ∧ Measured contents cce.ccr.chp ∧
      (cce.ccr.tlen ≠ 0 → decompressTrailer K cce.ccr ≠ none) := by
  obtain ⟨passed, same, holds⟩ := recording.passed
  obtain ⟨cce, cookie, updates, describes⟩ := holds.cookie faithful
  refine ⟨cce, cookie, updates, ?_, describes.measured, describes.intact⟩
  rw [same]
  exact describes.start.trans (List.prefix_append _ _)

/-- Recording goes on when data is written. -/
theorem Recording.write {written : List UInt8}
    (recording : Recording K zlib contents before written d) (inflates : Inflates K zlib)
    (wrote : fileWrite K zlib d buf = some d') :
    Recording K zlib contents before (written ++ buf) d' := by
  obtain ⟨chunks, c, d1, fed, steps, rfl⟩ := fileWrite_ok wrote
  obtain ⟨passed, same, holds⟩ := recording.passed
  have fits := fun chunk member => (feed_lengths fed chunk member).2
  have later := holds.steps steps inflates fits
  refine ⟨feed_room fed recording.room, passed ++ chunks.flatten, ?_,
    later.cookie, later.chunk, later.trailer⟩
  rw [same, List.append_assoc, List.append_assoc, feed_flatten fed]

/-- Recording goes on when a file chunk is ended and when the file data is left alone. -/
theorem recording_kept (inflates : Inflates K zlib) (written : List UInt8) :
    Kept K zlib (Recording (P := P) K zlib contents before written) where
  ended := by
    intro d d' ended recording
    obtain ⟨c, d1, steps, rfl, empty⟩ := fileEnd_ok ended
    obtain ⟨passed, same, holds⟩ := recording.passed
    have fits := fun chunk member => (lastChunk_lengths recording.room chunk member).2
    have later := holds.steps steps inflates fits
    refine ⟨by simp only [empty, Nat.zero_le], passed ++ (lastChunk d.cFile).flatten, ?_,
      later.cookie, later.chunk, later.trailer⟩
    rw [lastChunk_flatten, same]
    simp [Chunkifier.bytes, empty]
  quiet := by
    intro d d' quiet recording
    obtain ⟨passed, same, holds⟩ := recording.passed
    refine ⟨by rw [quiet.cFile]; exact recording.room, passed, by rw [quiet.cFile]; exact same,
      ?_, quiet.callbackChunk.trans holds.chunk, by rw [quiet.callbackTrailer]; exact holds.trailer⟩
    intro faithful
    rw [quiet.callbackCookie]
    exact holds.cookie (faithful.earlier quiet.toGrows)

end Passing

end Tarsnap.Ccache
