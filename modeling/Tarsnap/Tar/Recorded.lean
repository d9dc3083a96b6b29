import Tarsnap.Ccache.FilePrefix
import Tarsnap.Tar.WriteEntry

/-!
# What an archive entry leaves in the cache

The bytes of a file, and the zeros after them, are recorded as the tape accepts them. So an entry
whose file was read leaves a record of a prefix of the file and its padding. Any other entry leaves
the record that it found, perhaps without its trailer or its chunks.
-/

namespace Tarsnap.Tar

open Tarsnap.Lib Tarsnap.Chunks Tarsnap.Chunkify Tarsnap.Multitape Tarsnap.Ccache

variable {P : Params} {K : Crypto} {zlib : Zlib} {rsa : RsaSigner K}
  {contents : Hash → List UInt8} {before : CcacheEntry} {written : List UInt8} {a a' : Archive P}

section Data

/-- The callbacks record the data of an entry. -/
structure DataRecording (K : Crypto) (zlib : Zlib) (contents : Hash → List UInt8)
    (before : CcacheEntry) (written : List UInt8) (a : Archive P) : Prop where
  /-- The tape is in data mode. -/
  mode : a.tape.mode = .data
  /-- What the tape accepts is recorded. -/
  recording : Recording K zlib contents before written a.tape

/-- Bytes that are written are recorded. -/
theorem DataRecording.compressor {buff : List UInt8}
    (holds : DataRecording K zlib contents before written a) (inflates : Inflates K zlib)
    (wrote : compressorWrite K zlib a buff = some a') :
    DataRecording K zlib contents before (written ++ buff) a' := by
  unfold compressorWrite at wrote
  split at wrote
  · rename_i empty
    cases wrote
    rw [empty, List.append_nil]
    exact holds
  split at wrote
  · rename_i lenwrit tape accepted
    cases wrote
    obtain ⟨recording, mode, all⟩ := holds.recording.writetape inflates holds.mode accepted
    rcases all with none_ | whole
    · exact nomatch none_
    · rw [whole, List.take_length] at recording
      exact ⟨mode, recording⟩
  · exact nomatch wrote

/-- Zeros that are written are recorded. -/
theorem DataRecording.nullsLoop {rounds padding : Nat} (enough : padding ≤ rounds)
    (holds : DataRecording K zlib contents before written a) (inflates : Inflates K zlib)
    (wrote : writeNullsLoop K zlib rounds a padding = some a') :
    DataRecording K zlib contents before (written ++ List.replicate padding 0) a' := by
  induction rounds generalizing written a padding with
  | zero =>
    cases wrote
    rw [Nat.le_zero.mp enough, List.replicate_zero, List.append_nil]
    exact holds
  | succ rounds ih =>
    rw [writeNullsLoop] at wrote
    split at wrote
    · rename_i positive
      obtain ⟨a1, first, later⟩ := Option.bind_eq_some_iff.mp wrote
      have one := holds.compressor inflates first
      have left : padding - min padding nullLength ≤ rounds := by
        simp only [nullLength]
        omega
      have all := ih left one later
      have total : min padding nullLength + (padding - min padding nullLength) = padding := by omega
      rw [List.append_assoc, List.replicate_append_replicate, total] at all
      exact all
    · rename_i none_
      cases wrote
      rw [Nat.eq_zero_of_not_pos none_, List.replicate_zero, List.append_nil]
      exact holds

/-- Finishing an entry records zeros for what is missing, and the padding. -/
theorem DataRecording.finish (holds : DataRecording K zlib contents before written a)
    (inflates : Inflates K zlib) (inData : a.inData = true)
    (finished : archiveWriteFinishEntry K zlib a = some a') :
    DataRecording K zlib contents before
      (written ++ List.replicate (a.entryBytesRemaining + a.entryPadding) 0) a' := by
  unfold archiveWriteFinishEntry at finished
  rw [if_pos inData] at finished
  obtain ⟨a1, rest, last⟩ := Option.bind_eq_some_iff.mp finished
  obtain ⟨a2, nulls, same⟩ := Option.bind_eq_some_iff.mp rest
  cases same
  cases last
  have later := holds.nullsLoop (Nat.le_refl _) inflates nulls
  exact ⟨later.mode, later.recording⟩

/-- Data of the entry that is written is recorded. -/
theorem DataRecording.data {buff : List UInt8} {length : Nat}
    (holds : DataRecording K zlib contents before written a) (inflates : Inflates K zlib)
    (wrote : archiveWriteData K zlib a buff = some (length, a')) :
    DataRecording K zlib contents before (written ++ buff.take length) a' ∧
      a' = { a with tape := a'.tape, entryBytesRemaining := a.entryBytesRemaining - length } := by
  obtain ⟨a1, compressed, rest⟩ := Option.bind_eq_some_iff.mp wrote
  have one := holds.compressor inflates compressed
  have fields := compressorWrite_tape compressed
  cases rest
  refine ⟨⟨one.mode, one.recording⟩, ?_⟩
  rw [fields]

/-- What was recorded stays recorded when the archive is truncated. -/
theorem DataRecording.truncate (holds : DataRecording K zlib contents before written a)
    (sigquit : Bool) : DataRecording K zlib contents before written
    (truncateArchive a sigquit) := by
  cases sigquit with
  | false => exact holds
  | true =>
    obtain ⟨passed, split, passes⟩ := holds.recording.passed
    exact ⟨holds.mode, holds.recording.room, passed, split, passes.cookie, passes.chunk,
      passes.trailer⟩

/-- What is copied from a file is recorded: its start, as long as the entry allows, unless the
archive is truncated. -/
theorem DataRecording.file {optionQuiet warned sigquit : Bool} {pending : List Pending} {reads : Fd}
    (holds : DataRecording K zlib contents before written a) (inflates : Inflates K zlib)
    (copied : writeFileData K zlib rsa optionQuiet pending reads a = some (warned, sigquit, a')) :
    ∃ data, DataRecording K zlib contents before (written ++ data) a' ∧ data <+: fdBytes reads ∧
      data.length ≤ a.entryBytesRemaining ∧
      a' = { a with
        tape := a'.tape, entryBytesRemaining := a.entryBytesRemaining - data.length } ∧
      (sigquit = false → none ∉ reads →
        data = (fdBytes reads).take a.entryBytesRemaining) := by
  induction reads generalizing pending a written with
  | nil =>
    cases copied
    refine ⟨[], by rw [List.append_nil]; exact holds, List.nil_prefix, Nat.zero_le _, rfl, ?_⟩
    exact fun _ _ => List.take_nil.symm
  | cons result reads ih =>
    match result with
    | none =>
      cases copied
      refine ⟨[], by rw [List.append_nil]; exact holds, List.nil_prefix, Nat.zero_le _, rfl, ?_⟩
      exact fun _ clean => absurd List.mem_cons_self clean
    | some [] =>
      cases copied
      refine ⟨[], by rw [List.append_nil]; exact holds, List.nil_prefix, Nat.zero_le _, rfl, ?_⟩
      exact fun _ _ => List.take_nil.symm
    | some (byte :: bytes) =>
      unfold writeFileData at copied
      simp only at copied
      split at copied
      · exact nomatch copied
      obtain ⟨⟨length, a1⟩, wrote, copied⟩ := Option.bind_eq_some_iff.mp copied
      obtain ⟨counted, _⟩ := archiveWriteData_remaining wrote
      obtain ⟨one, fields⟩ := holds.data inflates wrote
      have whole : fdBytes (some (byte :: bytes) :: reads) = byte :: bytes ++ fdBytes reads := rfl
      have taken : ((byte :: bytes).take length).length = length := by
        rw [List.length_take, counted]
        omega
      have start : (byte :: bytes).take length <+: fdBytes (some (byte :: bytes) :: reads) :=
        (List.take_prefix _ _).trans (List.prefix_append _ _)
      simp only at copied
      split at copied
      · rename_i cut
        cases copied
        refine ⟨_, one, start, by omega, by rw [taken]; exact fields, ?_⟩
        intro _ _
        rw [whole, List.take_append_of_le_length (by omega)]
        congr 1
        omega
      rename_i uncut
      have all : length = (byte :: bytes).length := by omega
      rw [all, List.take_length] at one start
      rw [all] at fields
      split at copied
      · cases copied
        refine ⟨byte :: bytes, one.truncate true, start, by omega, ?_, fun goesOn => nomatch goesOn⟩
        rw [fields]
        rfl
      · obtain ⟨a2, checkpoint, copied⟩ := Option.bind_eq_some_iff.mp copied
        have two : DataRecording K zlib contents before (written ++ byte :: bytes) a2 := by
          unfold checkpointArchive at checkpoint
          split at checkpoint
          · obtain ⟨⟨part, tape⟩, created, rest⟩ := Option.bind_eq_some_iff.mp checkpoint
            cases rest
            exact ⟨writetapeCheckpoint_mode one.mode created,
              (recording_kept inflates _).checkpoint created one.recording⟩
          · cases checkpoint
            exact one
        have kept := checkpointArchive_tape checkpoint
        have left : a2.entryBytesRemaining = a.entryBytesRemaining - (byte :: bytes).length := by
          rw [kept, fields]
        obtain ⟨data, later, rest, short, changed, complete⟩ := ih two copied
        refine ⟨byte :: bytes ++ data, ?_, ?_, ?_, ?_, ?_⟩
        · rw [← List.append_assoc]
          exact later
        · rw [whole]
          exact (List.prefix_append_right_inj _).mpr rest
        · rw [List.length_append]
          omega
        · rw [changed, kept, fields, List.length_append, Nat.sub_sub]
        · intro goesOn clean
          have others : none ∉ reads := fun member => clean (List.mem_cons_of_mem _ member)
          have full : (byte :: bytes).take a.entryBytesRemaining = byte :: bytes :=
            List.take_of_length_le (by omega)
          rw [complete goesOn others, whole, left, List.take_append, full]

end Data

section Silent

variable {d d' : Tape P}

/-- No callback is set, and no cache entry. -/
structure Silent (d : Tape P) : Prop where
  /-- There is no cache entry. -/
  cookie : d.callbackCookie = none
  /-- Chunks are not recorded. -/
  chunk : d.callbackChunk = none
  /-- Trailers are not recorded. -/
  trailer : d.callbackTrailer = none

/-- Nothing is recorded when file data is passed on. -/
theorem Silent.steps {chunks : List (List UInt8)} (steps : FileSteps K chunks d d')
    (silent : Silent d) : Silent d' := by
  induction steps with
  | nil => exact silent
  | cons first _ ih =>
    apply ih
    have rest := first.rest
    refine ⟨?_, by rw [rest]; exact silent.chunk, by rw [rest]; exact silent.trailer⟩
    rcases first.kind with trailer | ⟨ch, chunk⟩
    · exact (trailer.untold silent.trailer).trans silent.cookie
    · exact (chunk.untold silent.chunk).trans silent.cookie

/-- Nothing is recorded when a file chunk is ended or file data is left alone. -/
theorem silent_kept : Kept K zlib (Silent (P := P)) where
  ended := by
    intro d d' ended silent
    obtain ⟨c, d1, steps, rfl, _⟩ := fileEnd_ok ended
    have later := silent.steps steps
    exact ⟨later.cookie, later.chunk, later.trailer⟩
  quiet := fun d d' quiet silent => ⟨quiet.callbackCookie.trans silent.cookie,
    quiet.callbackChunk.trans silent.chunk, quiet.callbackTrailer.trans silent.trailer⟩

/-- Nothing is recorded when data is written. -/
theorem Silent.write {nomem : Bool} {buffer : List UInt8} {lenwrit : Nat} (silent : Silent d)
    (wrote : writetapeWrite K zlib nomem d buffer = some (lenwrit, d')) : Silent d' := by
  by_cases data : d.mode = .data
  · rcases writetapeWrite_data data wrote with ⟨_, same⟩ | ⟨_, d1, fed, same⟩
    · rw [same]
      exact silent
    · obtain ⟨chunks, c, d2, _, steps, rfl⟩ := fileWrite_ok fed
      have later := silent.steps steps
      rw [same]
      exact ⟨later.cookie, later.chunk, later.trailer⟩
  · unfold writetapeWrite at wrote
    generalize (if nomem then d.hbuf else d.hbuf ++ buffer) = hbuf at wrote
    split at wrote
    · cases wrote
      exact silent
    split at wrote
    · exact absurd (by assumption) data
    all_goals
      cases wrote
      exact ⟨silent.cookie, silent.chunk, silent.trailer⟩

/-- Nothing is recorded when chunks are written by their headers. -/
theorem Silent.chunks {chp : List ChunkHeader} {skiplen : Nat} (silent : Silent d) :
    Silent (Ccache.writeChunks K zlib chp skiplen d).2 := by
  induction chp generalizing skiplen d with
  | nil => exact silent
  | cons ch rest ih =>
    rw [Ccache.writeChunks]
    cases written : writetapeWritechunk K zlib d ch with
    | none => exact silent
    | some result =>
      obtain ⟨lenwrit, d1⟩ := result
      have one : Silent d1 := by
        rcases writetapeWritechunk_cases written with ⟨_, _, _, _, one⟩ | ⟨_, _, same⟩
        · have fields := one.rest
          rw [fields]
          exact ⟨silent.cookie, silent.chunk, silent.trailer⟩
        · rw [same]
          exact silent
      simp only []
      split
      · exact one
      · exact ih one

/-- Nothing is recorded when an entry is written from the cache. -/
theorem Silent.cached {cce : CcacheEntry} (silent : Silent d) :
    Silent (ccacheEntryWrite K zlib cce d).2 := by
  unfold ccacheEntryWrite
  split
  · exact silent
  · have chunks := @Silent.chunks P K zlib d cce.ccr.chp 0 silent
    generalize Ccache.writeChunks K zlib cce.ccr.chp 0 d = result at chunks ⊢
    obtain ⟨code, d1⟩ := result
    cases code with
    | error fault => exact chunks
    | ok skiplen =>
      simp only []
      cases trailer : cce.trailer with
      | none => exact chunks
      | some bytes =>
        simp only []
        cases wrote : writetapeWrite K zlib false d1 (bytes.take cce.ccr.tlen) with
        | none => exact chunks
        | some pair => exact Silent.write chunks wrote

end Silent

section Phases

variable {a1 a2 : Archive P} {header : Header} {mode : Mode}

/-- An archive between two entries. -/
structure Idle (a : Archive P) : Prop where
  /-- The last entry is finished. -/
  inData : a.inData = false
  /-- The tape is at the end of an entry. -/
  mode : a.tape.mode = .finished
  /-- The file chunkifier holds nothing. -/
  empty : a.tape.cFile.k = 0
  /-- No callback is set. -/
  silent : Silent a.tape

/-- A change of mode outside of data, but not to the end of an entry, changes nothing else. -/
theorem modeSet_plain (data : a.tape.mode ≠ .data) (finished : mode ≠ .finished)
    (set : modeSet K zlib a mode = some a') : a' = { a with tape := { a.tape with mode } } := by
  obtain ⟨tape, changed, rest⟩ := Option.bind_eq_some_iff.mp set
  cases rest
  unfold writetapeSetmode at changed
  split at changed
  · rename_i same
    cases changed
    rw [same]
  · obtain ⟨d1, first, changed⟩ := Option.bind_eq_some_iff.mp changed
    cases first
    split at changed
    · exact nomatch changed
    · obtain ⟨d2, second, changed⟩ := Option.bind_eq_some_iff.mp changed
      cases second
      cases changed
      rfl

/-- A header goes to the header buffer. -/
theorem compressorWrite_header {buff : List UInt8} (headers : a.tape.mode = .header)
    (wrote : compressorWrite K zlib a buff = some a') :
    a' = { a with tape := { a.tape with hbuf := a'.tape.hbuf } } := by
  unfold compressorWrite at wrote
  split at wrote
  · cases wrote
    rfl
  split at wrote
  · rename_i lenwrit tape accepted
    cases wrote
    unfold writetapeWrite at accepted
    split at accepted
    · cases accepted
    · rw [headers] at accepted
      have same := congrArg Prod.snd (Option.some.inj accepted)
      simp only at same
      simp only [← same, headers]
  · exact nomatch wrote

/-- After the header of an entry the tape is in header mode, and the size of the data is known. -/
theorem header_phase (idle : Idle a) (set : modeSet K zlib a .header = some a1)
    (formatted : archiveWriteHeader K zlib a1 header = some a2) :
    a2.inData = true ∧ a2.tape = { a.tape with mode := .header, hbuf := a2.tape.hbuf } ∧
      (header.status = .ok ∨ header.status = .warn → a2.entryBytesRemaining = header.size ∧
        a2.entryPadding = (512 - header.size % 512) % 512) := by
  have one := modeSet_plain (by rw [idle.mode]; decide) (by decide) set
  have before : a1.inData = false := by
    rw [one]
    exact idle.inData
  have headers : a1.tape.mode = .header := by rw [one]
  have tape : a1.tape = { a.tape with mode := .header } := by rw [one]
  obtain ⟨b, finished, written⟩ := Option.bind_eq_some_iff.mp formatted
  have same : b = a1 := by
    unfold archiveWriteFinishEntry at finished
    rw [before, if_neg Bool.false_ne_true, Option.bind_eq_bind, Option.bind_some] at finished
    cases finished
    rw [← before]
  rw [same] at written
  cases status : header.status with
  | fatal =>
    rw [status] at written
    exact nomatch written
  | failed =>
    rw [status] at written
    cases written
    refine ⟨rfl, tape ▸ rfl, fun impossible => ?_⟩
    rcases impossible with ok | warn
    · exact nomatch ok
    · exact nomatch warn
  | ok | warn =>
    rw [status] at written
    obtain ⟨c, wrote, rest⟩ := Option.bind_eq_some_iff.mp written
    cases rest
    have fields := compressorWrite_header headers wrote
    refine ⟨rfl, ?_, fun _ => ⟨rfl, rfl⟩⟩
    change c.tape = _
    rw [fields, tape]

end Phases

section Leaving

variable {bsdtar : Bsdtar} {entry : Entry} {cache cache' : Cache} {path : Path}
  {r r' : CcacheRecord} {cce : CcacheEntry} {file : List UInt8}

/-- The contents of a file and the padding of its entry. -/
def padded (file : List UInt8) : List UInt8 :=
  file ++ List.replicate ((512 - file.length % 512) % 512) 0

/-- Every read while an entry is written returns the file. -/
structure Delivers (entry : Entry) (file : List UInt8) : Prop where
  /-- The size in the header is the one of the file, unless no data is written. -/
  size : 0 < entry.header.size → entry.header.size = file.length
  /-- The cache reads the file. -/
  cachedReads : fdBytes entry.cachedReads = file
  /-- The rest of the file is read without an error. -/
  reads : ∀ position, none ∉ entry.reads position ∧
    fdBytes (entry.reads position) = file.drop position

/-- A record that was found, perhaps with an older time and with less data. -/
structure Carried (K : Crypto) (contents : Hash → List UInt8) (snaptime : Int)
    (r r' : CcacheRecord) : Prop where
  /-- The inode number is the same. -/
  ino : r'.ino = r.ino
  /-- The size is the same. -/
  size : r'.size = r.size
  /-- The time is before the snapshot, or the same. -/
  mtime : r'.mtime = r.mtime ∨ snaptime ≤ r.mtime ∧ r'.mtime = snaptime - 1
  /-- What is recorded was recorded before. -/
  start : recorded K contents r' <+: recorded K contents r

/-- A record of a file that was read. -/
structure Rewritten (K : Crypto) (contents : Hash → List UInt8) (snaptime : Int) (entry : Entry)
    (r' : CcacheRecord) : Prop where
  /-- The inode number of the file. -/
  ino : r'.ino = entry.st.ino
  /-- The size of the file. -/
  size : r'.size = entry.st.size
  /-- The time of the file, if it is before the snapshot. -/
  mtime : r'.mtime = if entry.st.mtime ≥ snaptime then snaptime - 1 else entry.st.mtime
  /-- If the file was read, the start of the file and its padding is recorded. -/
  start : ∀ file, Delivers entry file → recorded K contents r' <+: padded file

/-- The data of a looked-up entry is what the lookup found, without the trailer if it is not
used. -/
theorem ccacheEntryLookup_new {κ : Type} {st : Stat} {d : TapeW P κ} :
    (ccacheEntryLookup K cache path st d).1.inoNew = st.ino ∧
      (ccacheEntryLookup K cache path st d).1.sizeNew = st.size ∧
      (ccacheEntryLookup K cache path st d).1.mtimeNew = st.mtime := by
  have dropped : ∀ cce : CcacheEntry, cce.dropTrailer.inoNew = cce.inoNew ∧
      cce.dropTrailer.sizeNew = cce.sizeNew ∧ cce.dropTrailer.mtimeNew = cce.mtimeNew := by
    intro cce
    unfold CcacheEntry.dropTrailer
    split <;> exact ⟨rfl, rfl, rfl⟩
  cases found : cache.tree.lookup path with
  | none =>
    unfold ccacheEntryLookup
    rw [found]
    exact ⟨rfl, rfl, rfl⟩
  | some ccr =>
    rw [ccacheEntryLookup_found found]
    split
    · exact dropped _
    · exact dropped _

/-- Dropping the trailer leaves a record of the chunks. -/
theorem recorded_dropTrailer :
    cce.dropTrailer.ccr.ino = cce.ccr.ino ∧ cce.dropTrailer.ccr.size = cce.ccr.size ∧
      cce.dropTrailer.ccr.mtime = cce.ccr.mtime ∧
      recorded K contents cce.dropTrailer.ccr <+: recorded K contents cce.ccr ∧
      (cce.trailer = none → recorded K contents cce.dropTrailer.ccr =
        indexed contents cce.ccr.chp) := by
  unfold CcacheEntry.dropTrailer
  split
  · have dropped := @recorded_chunks K contents { cce.ccr with ztrailer := [], tlen := 0 } rfl
    refine ⟨rfl, rfl, rfl, ?_, fun _ => dropped⟩
    change recorded K contents { cce.ccr with ztrailer := [], tlen := 0 } <+: _
    rw [dropped]
    exact List.prefix_append _ _
  · rename_i kept
    refine ⟨rfl, rfl, rfl, List.prefix_refl _, fun none_ => ?_⟩
    exact recorded_chunks (by
      by_contra positive
      exact kept ⟨none_, Nat.pos_of_ne_zero positive⟩)

/-- An entry that has been looked up carries the record that was found, and no trailer if it is
stale. -/
theorem ccacheEntryLookup_carried {κ : Type} {st : Stat} {d : TapeW P κ}
    (found : cache.tree.lookup path = some r) (snaptime : Int) :
    Carried K contents snaptime r (ccacheEntryLookup K cache path st d).1.ccr ∧
      (ccacheEntryLookup K cache path st d).1.ccr.mtime = r.mtime ∧
      (¬ (ccacheEntryLookup K cache path st d).1.Fresh →
        (ccacheEntryLookup K cache path st d).1.ccr.tlen = 0) := by
  rw [ccacheEntryLookup_found found]
  split
  · rename_i used
    have fields := dropTrailer_fields (lookedUp cache path st r (decompressTrailer K r))
    obtain ⟨ino, size, mtime, start, _⟩ := @recorded_dropTrailer K contents
      (lookedUp cache path st r (decompressTrailer K r))
    exact ⟨⟨ino, size, .inl mtime, start⟩, mtime,
      fun stale => absurd (fields.2.2.1.mpr used.1) stale⟩
  · obtain ⟨ino, size, mtime, start, _⟩ := @recorded_dropTrailer K contents
      (lookedUp cache path st r none)
    refine ⟨⟨ino, size, .inl mtime, start⟩, mtime, fun _ => ?_⟩
    unfold CcacheEntry.dropTrailer
    split
    · rfl
    · rename_i kept
      by_contra positive
      exact kept ⟨rfl, Nat.pos_of_ne_zero positive⟩

/-- The final record of an entry has its inode number and size, and a time before the snapshot. -/
theorem final_fields (cce : CcacheEntry) (snaptime : Int) :
    (cce.final snaptime).ino = cce.ccr.ino ∧ (cce.final snaptime).size = cce.ccr.size ∧
      (cce.final snaptime).mtime =
        if cce.ccr.mtime ≥ snaptime then snaptime - 1 else cce.ccr.mtime := by
  unfold CcacheEntry.final
  by_cases fresh : cce.Fresh
  · rw [if_pos fresh]
    exact ⟨rfl, rfl, rfl⟩
  · rw [if_neg fresh]
    exact ⟨rfl, rfl, rfl⟩

/-- The final record of an entry whose callbacks were not called carries the record. -/
theorem Carried.final {snaptime : Int} (carried : Carried K contents snaptime r cce.ccr)
    (same : cce.ccr.mtime = r.mtime) (stale : ¬ cce.Fresh → cce.ccr.tlen = 0) :
    Carried K contents snaptime r (cce.final snaptime) := by
  obtain ⟨ino, size, mtime⟩ := final_fields cce snaptime
  refine ⟨ino.trans carried.ino, size.trans carried.size, ?_, ?_⟩
  · rw [mtime, same]
    split
    · rename_i later
      exact .inr ⟨later, rfl⟩
    · exact .inl rfl
  · by_cases fresh : cce.Fresh
    · obtain ⟨chp, tlen, ztrailer⟩ := @final_fresh cce snaptime fresh
      have data : (cce.final snaptime).SameData cce.ccr := ⟨chp, tlen, ztrailer⟩
      rw [recorded, chp, data.decompress]
      exact carried.start
    · have none_ : (cce.final snaptime).tlen = 0 := by
        unfold CcacheEntry.final
        rw [if_neg fresh]
        exact stale fresh
      have empty : (cce.final snaptime).chp = [] := by
        unfold CcacheEntry.final
        rw [if_neg fresh]
      rw [recorded_chunks none_, empty]
      exact List.nil_prefix

end Leaving

section Done

variable {bsdtar : Bsdtar} {entry : Entry} {cache cache' : Cache} {path : Path}
  {r r' : CcacheRecord} {cce : CcacheEntry} {a1 a2 : Archive P} {corrupt warned sigquit w : Bool}

/-- The end of an entry: the archive is truncated or the entry is finished, and the cache is
told. -/
theorem entryDone_cases (named : entry.rpath = some path)
    (done : entryDone K zlib bsdtar entry (some cce) corrupt (warned, sigquit, a) =
      some (w, some cache', a')) :
    ∃ a1, (a1 = truncateArchive a true ∨
        sigquit = false ∧ modeDone K zlib (truncateArchive a false) = some a1) ∧
      ccacheEntryEnd (a1.tape.callbackCookie.getD cce) a1.tape path bsdtar.snaptime =
        some (cache', a'.tape) := by
  unfold entryDone at done
  obtain ⟨a1, finished, done⟩ := Option.bind_eq_some_iff.mp done
  obtain ⟨⟨kept, a2⟩, ended, done⟩ := Option.bind_eq_some_iff.mp done
  have results := Option.some.inj done
  have same : kept = some cache' := congrArg (fun result => result.2.1) results
  have archive : a2 = a' := congrArg (fun result => result.2.2) results
  refine ⟨a1, ?_, ?_⟩
  · by_cases truncated : (sigquit || entry.sigquit) = true
    · rw [if_pos truncated, truncated] at finished
      cases finished
      exact .inl rfl
    · rw [if_neg truncated] at finished
      rw [Bool.not_eq_true] at truncated
      rw [truncated] at finished
      rw [Bool.or_eq_false_iff] at truncated
      exact .inr ⟨truncated.1, finished⟩
  · unfold endCacheEntry at ended
    rw [named] at ended
    obtain ⟨⟨other, tape⟩, last, ended⟩ := Option.bind_eq_some_iff.mp ended
    have pair := Option.some.inj ended
    have first : some other = kept := congrArg Prod.fst pair
    have second : { a1 with tape } = a2 := congrArg Prod.snd pair
    rw [same] at first
    cases first
    rw [← archive, ← second]
    exact last

/-- Finishing an entry records what is missing. -/
theorem DataRecording.done (holds : DataRecording K zlib contents before written a)
    (inflates : Inflates K zlib) (inData : a.inData = true)
    (finished : modeDone K zlib a = some a1) :
    Recording K zlib contents before
      (written ++ List.replicate (a.entryBytesRemaining + a.entryPadding) 0) a1.tape := by
  obtain ⟨a2, nulls, set⟩ := Option.bind_eq_some_iff.mp finished
  have one := holds.finish inflates inData nulls
  obtain ⟨tape, changed, rest⟩ := Option.bind_eq_some_iff.mp set
  cases rest
  exact (recording_kept inflates _).setmode changed one.recording

/-- Nothing is recorded when bytes are written. -/
theorem Silent.compressor {buff : List UInt8} (silent : Silent a.tape)
    (wrote : compressorWrite K zlib a buff = some a') : Silent a'.tape := by
  unfold compressorWrite at wrote
  split at wrote
  · cases wrote
    exact silent
  split at wrote
  · rename_i accepted
    cases wrote
    exact silent.write accepted
  · exact nomatch wrote

/-- Nothing is recorded when zeros are written. -/
theorem Silent.nullsLoop {rounds padding : Nat} (silent : Silent a.tape)
    (wrote : writeNullsLoop K zlib rounds a padding = some a') : Silent a'.tape := by
  induction rounds generalizing a padding with
  | zero =>
    cases wrote
    exact silent
  | succ rounds ih =>
    rw [writeNullsLoop] at wrote
    split at wrote
    · obtain ⟨a1, first, later⟩ := Option.bind_eq_some_iff.mp wrote
      exact ih (silent.compressor first) later
    · cases wrote
      exact silent

/-- Nothing is recorded when an entry is finished. -/
theorem Silent.done (silent : Silent a.tape) (finished : modeDone K zlib a = some a1) :
    Silent a1.tape := by
  obtain ⟨a2, ended, set⟩ := Option.bind_eq_some_iff.mp finished
  have one : Silent a2.tape := by
    obtain ⟨a3, nulls, last⟩ := Option.bind_eq_some_iff.mp ended
    cases last
    split at nulls
    · obtain ⟨a4, wrote, rest⟩ := Option.bind_eq_some_iff.mp nulls
      cases rest
      have later : Silent a4.tape := silent.nullsLoop wrote
      exact later
    · cases nulls
      exact silent
  obtain ⟨tape, changed, rest⟩ := Option.bind_eq_some_iff.mp set
  cases rest
  exact silent_kept.setmode changed one

/-- The place of an entry that has been looked up. -/
theorem lookup_origin {κ : Type} {st : Stat} {d : TapeW P κ}
    (looked : cce = (ccacheEntryLookup K cache path st d).1) :
    cce.cci.tree = cache.tree ∧
      (cce.ccrp = some path ∨ cce.ccrp = none ∧ cache.tree.lookup path = none) := by
  rw [looked]
  exact @ccacheEntryLookup_origin P K κ cache path st d

/-- An entry whose record was not found has nothing in it. -/
theorem lookup_missing {κ : Type} {st : Stat} {d : TapeW P κ}
    (looked : cce = (ccacheEntryLookup K cache path st d).1)
    (missing : cache.tree.lookup path = none) : cce.ccrp = none ∧ cce.ccr = .zero := by
  rw [looked]
  unfold ccacheEntryLookup
  rw [missing]
  exact ⟨rfl, rfl⟩

/-- An entry that is freed carries the record that was found. -/
theorem free_carried {κ : Type} {st : Stat} {d : TapeW P κ}
    (looked : cce = (ccacheEntryLookup K cache path st d).1) (freed : cce.cache = cache')
    (found : cache'.tree.lookup path = some r') :
    ∃ r, cache.tree.lookup path = some r ∧ Carried K contents bsdtar.snaptime r r' := by
  obtain ⟨tree, origin⟩ := lookup_origin looked
  rw [← freed, CcacheEntry.cache] at found
  rcases origin with there | ⟨none_, missing⟩
  · rw [there] at found
    have last := SortedMap.lookup_update found
    cases before : cache.tree.lookup path with
    | none =>
      rw [(lookup_missing looked before).1] at there
      cases there
    | some r =>
      obtain ⟨carried, _, _⟩ :=
        @ccacheEntryLookup_carried P K contents cache path r κ st d before bsdtar.snaptime
      rw [last, looked]
      exact ⟨r, rfl, carried⟩
  · rw [none_, tree, missing] at found
    cases found

/-- The tree of an entry is changed at its path only. -/
theorem cache_other {other : Path} (different : other ≠ path)
    (place : cce.ccrp = some path ∨ cce.ccrp = none) :
    cce.cache.tree.lookup other = cce.cci.tree.lookup other := by
  unfold CcacheEntry.cache
  rcases place with there | missing
  · rw [there]
    exact SortedMap.lookup_update_ne different
  · rw [missing]

/-- The end of an entry changes the tree at its path only. -/
theorem ccacheEntryEnd_other {other : Path} {d d' : Tape P} {snaptime : Int}
    (different : other ≠ path) (place : cce.ccrp = some path ∨ cce.ccrp = none)
    (ended : ccacheEntryEnd cce d path snaptime = some (cache', d')) :
    cache'.tree.lookup other = cce.cci.tree.lookup other := by
  have kept : ∀ ccr, (CcacheEntry.cache { cce with ccr }).tree.lookup other =
      cce.cci.tree.lookup other := fun _ => cache_other different place
  unfold ccacheEntryEnd at ended
  simp only at ended
  split at ended
  · cases ended
    exact kept _
  · split at ended
    · obtain ⟨tree, inserted, rest⟩ := Option.bind_eq_some_iff.mp ended
      cases rest
      exact SortedMap.lookup_insert_ne different inserted
    · cases ended
      exact kept _

/-- A silent entry carries the record that was found. -/
theorem Silent.ends {κ : Type} {st : Stat} {d : TapeW P κ} {tape : Tape P} (silent : Silent a.tape)
    (looked : cce = (ccacheEntryLookup K cache path st d).1)
    (ended : ccacheEntryEnd (a.tape.callbackCookie.getD cce) a.tape path bsdtar.snaptime =
      some (cache', tape))
    (found : cache'.tree.lookup path = some r') :
    ∃ r, cache.tree.lookup path = some r ∧ Carried K contents bsdtar.snaptime r r' := by
  rw [silent.cookie, Option.getD_none] at ended
  obtain ⟨tree, origin⟩ := lookup_origin looked
  have last := ccacheEntryEnd_record tree origin ended found
  cases before : cache.tree.lookup path with
  | some r =>
    obtain ⟨carried, mtime, stale⟩ :=
      @ccacheEntryLookup_carried P K contents cache path r κ st d before bsdtar.snaptime
    rw [← looked] at carried mtime stale
    refine ⟨r, rfl, ?_⟩
    rw [last]
    exact carried.final mtime stale
  | none =>
    -- An empty record is not inserted.
    exfalso
    obtain ⟨place, empty⟩ := lookup_missing looked before
    unfold ccacheEntryEnd at ended
    simp only [place] at ended
    have nothing : ¬((cce.final bsdtar.snaptime).nch ≠ 0 ∨
        (cce.final bsdtar.snaptime).tlen ≠ 0) := by
      unfold CcacheEntry.final
      rw [empty]
      split <;> simp [CcacheRecord.zero, CcacheRecord.nch]
    rw [if_neg nothing] at ended
    cases ended
    simp only [CcacheEntry.cache, tree, before] at found
    cases found

/-- An entry whose file was read leaves its record. -/
theorem recording_ends {κ : Type} {d : TapeW P κ} {tape : Tape P} {count : Nat}
    (recording : Recording K zlib contents (cce.started count) written a.tape)
    (looked : cce = (ccacheEntryLookup K cache path entry.st d).1)
    (faithful : Faithful contents a.tape)
    (ended : ccacheEntryEnd (a.tape.callbackCookie.getD cce) a.tape path bsdtar.snaptime =
      some (cache', tape))
    (found : cache'.tree.lookup path = some r')
    (start : ∀ file, Delivers entry file → written <+: padded file) :
    Rewritten K contents bsdtar.snaptime entry r' := by
  obtain ⟨cce', cookie, updates, prefix_, _, _⟩ := recording.describes faithful
  rw [cookie, Option.getD_some] at ended
  obtain ⟨kept, tree, place⟩ := updates.kept
  obtain ⟨treeBefore, origin⟩ := lookup_origin looked
  have fresh : cce'.Fresh := kept.mpr ⟨rfl, rfl, rfl⟩
  have last := ccacheEntryEnd_record (tree.trans treeBefore) (by rw [place]; exact origin) ended
    found
  obtain ⟨ino, size, mtime⟩ := final_fields cce' bsdtar.snaptime
  obtain ⟨chp, tlen, ztrailer⟩ := @final_fresh cce' bsdtar.snaptime fresh
  obtain ⟨inoNew, sizeNew, mtimeNew⟩ := @ccacheEntryLookup_new P K cache path κ entry.st d
  rw [← looked] at inoNew sizeNew mtimeNew
  rw [CcacheEntry.Updates] at updates
  have newIno : cce'.ccr.ino = entry.st.ino := by
    rw [updates]
    exact inoNew
  have newSize : cce'.ccr.size = entry.st.size := by
    rw [updates]
    exact sizeNew
  have newMtime : cce'.ccr.mtime = entry.st.mtime := by
    rw [updates]
    exact mtimeNew
  refine ⟨by rw [last, ino, newIno], by rw [last, size, newSize], by rw [last, mtime, newMtime], ?_⟩
  intro file delivers
  have data : (cce'.final bsdtar.snaptime).SameData cce'.ccr := ⟨chp, tlen, ztrailer⟩
  have described : recorded K contents (cce'.final bsdtar.snaptime) = recorded K contents
    cce'.ccr := by
    rw [recorded, recorded, chp, data.decompress]
  rw [last, described]
  exact prefix_.trans (start file delivers)

/-- The data of an entry that is read from the file is recorded. -/
theorem uncached_recording (idle : Idle a) (set : modeSet K zlib a .header = some a1)
    (formatted : archiveWriteHeader K zlib a1 entry.header = some a2)
    (status : entry.header.status = .ok ∨ entry.header.status = .warn)
    (positive : 0 < entry.header.size) (inflates : Inflates K zlib)
    (unique : Unique K contents (fdBytes entry.cachedReads))
    (wrote : writeUncached K zlib rsa bsdtar entry (some cce) a2 = some (warned, sigquit, a')) :
    ∃ count written, DataRecording K zlib contents (cce.started count) written a' ∧
      a'.inData = true ∧
      (∀ file, Delivers entry file → written <+: file) ∧
      (sigquit = false → ∀ file, Delivers entry file →
        written ++ List.replicate (a'.entryBytesRemaining + a'.entryPadding) 0 = padded file) := by
  obtain ⟨inData, tape, sizes⟩ := header_phase idle set formatted
  obtain ⟨remaining, padding⟩ := sizes status
  obtain ⟨a3, data, wrote⟩ := Option.bind_eq_some_iff.mp wrote
  have headers : a2.tape.mode = .header := by rw [tape]
  have plain := modeSet_plain (by rw [headers]; decide) (by decide) data
  have empty : a3.tape.cFile.k = 0 := by
    rw [plain, tape]
    exact idle.empty
  have mode3 : a3.tape.mode = .data := by rw [plain]
  obtain ⟨⟨skiplen, a4⟩, unchanged, copied⟩ := Option.bind_eq_some_iff.mp wrote
  simp only [writeUnchangedChunks] at unchanged
  split at unchanged
  · exact nomatch unchanged
  rename_i skip tape4 fd' file
  obtain ⟨_, _, unchanged⟩ := Option.bind_eq_some_iff.mp unchanged
  obtain ⟨b, skipped, same⟩ := Option.bind_eq_some_iff.mp unchanged
  cases same
  obtain ⟨count, d, started, long, _, _, mode⟩ := ccacheEntryWritefile_ok rsa empty unique file
  have skips : a4 = { a3 with
      tape := tape4
      entryBytesRemaining := a3.entryBytesRemaining - min skiplen a3.entryBytesRemaining
      entryPadding := a3.entryPadding -
        min (skiplen - min skiplen a3.entryBytesRemaining) a3.entryPadding } := by
    unfold archiveWriteSkip at skipped
    simp only at skipped
    split at skipped
    · exact nomatch skipped
    · exact (Option.some.inj skipped).symm
  have recording : DataRecording K zlib contents (cce.started count)
      ((fdBytes entry.cachedReads).take skiplen) a4 := by
    rw [skips]
    exact ⟨mode.trans mode3, started⟩
  obtain ⟨bytes, later, rest, short, fields, complete⟩ := recording.file inflates copied
  refine ⟨count, _, later, ?_, ?_, ?_⟩
  · rw [fields, skips, plain]
    exact inData
  · intro file delivers
    have joined := List.take_append_drop skiplen file
    rw [delivers.cachedReads]
    rw [(delivers.reads skiplen).2] at rest
    obtain ⟨more, whole⟩ := rest
    refine ⟨more, ?_⟩
    rw [List.append_assoc, whole, joined]
  · intro goesOn file delivers
    have size := delivers.size positive
    have all := complete goesOn (delivers.reads skiplen).1
    rw [delivers.cachedReads] at long
    have dataLeft : a3.entryBytesRemaining = file.length := by
      rw [plain]
      exact remaining.trans size
    have padLeft : a3.entryPadding = (512 - file.length % 512) % 512 := by
      rw [plain, ← size]
      exact padding
    have left : a4.entryBytesRemaining = file.length - skiplen := by
      rw [skips]
      change a3.entryBytesRemaining - min skiplen a3.entryBytesRemaining = _
      omega
    have pad : a4.entryPadding = (512 - file.length % 512) % 512 := by
      rw [skips]
      change a3.entryPadding -
        min (skiplen - min skiplen a3.entryBytesRemaining) a3.entryPadding = _
      omega
    have copiedAll : bytes = file.drop skiplen := by
      rw [all, (delivers.reads skiplen).2, left, ← List.length_drop, List.take_length]
    have done : a'.entryBytesRemaining + a'.entryPadding = (512 - file.length % 512) % 512 := by
      rw [fields]
      change a4.entryBytesRemaining - bytes.length + a4.entryPadding = _
      rw [left, pad, copiedAll, List.length_drop]
      omega
    rw [delivers.cachedReads, copiedAll, List.take_append_drop, done]
    rfl

/-- A record that was found and kept. -/
theorem Carried.refl (snaptime : Int) (r : CcacheRecord) : Carried K contents snaptime r r :=
  ⟨rfl, rfl, .inl rfl, List.prefix_refl _⟩

/-- The end of an entry stores no chunks. -/
theorem ccacheEntryEnd_stored {d d' : Tape P} {snaptime : Int}
    (ended : ccacheEntryEnd cce d path snaptime = some (cache', d')) : d'.stored = d.stored := by
  unfold ccacheEntryEnd at ended
  simp only at ended
  split at ended
  · cases ended
    rfl
  · split at ended
    · obtain ⟨tree, _, rest⟩ := Option.bind_eq_some_iff.mp ended
      cases rest
      rfl
    · cases ended
      rfl

/-- An entry that is not looked up leaves the cache alone. -/
theorem entryDone_none {cache : Option Cache} {written : Bool × Bool × Archive P}
    (done : entryDone K zlib bsdtar entry none corrupt written = some (w, cache, a')) :
    cache = bsdtar.chunkCache := by
  obtain ⟨warned, sigquit, a⟩ := written
  obtain ⟨a1, _, done⟩ := Option.bind_eq_some_iff.mp done
  obtain ⟨⟨kept, a2⟩, ended, done⟩ := Option.bind_eq_some_iff.mp done
  have same : kept = cache := congrArg (fun result => result.2.1) (Option.some.inj done)
  have left := congrArg Prod.fst (Option.some.inj ended)
  exact same.symm.trans left.symm

/-- The lookup of an entry that takes place finds the entry of its path. -/
theorem Entry.lookup_some {result : CcacheEntry × Bool × Bool} (named : entry.rpath = some path)
    (cached : bsdtar.chunkCache = some cache) (looked : entry.lookup K bsdtar a = some result) :
    result = ccacheEntryLookup K cache path entry.st a.tape := by
  unfold Entry.lookup at looked
  rw [named, cached] at looked
  change (if 0 < entry.size ∧ bsdtar.cachecrunch < 2 then
    some (ccacheEntryLookup K cache path entry.st a.tape) else none) = some result at looked
  split at looked
  · exact (Option.some.inj looked).symm
  · exact nomatch looked

/-- The data of an entry is read from the file, or nothing is recorded. -/
theorem writeData_cases {found : Option CcacheEntry} {filecached : Bool}
    {result : Bool × Bool × Archive P}
    (wrote : writeData K zlib rsa bsdtar entry found filecached a = some result) :
    ((entry.header.status = .ok ∨ entry.header.status = .warn) ∧ 0 < entry.header.size ∧
        writeUncached K zlib rsa bsdtar entry found a = some result) ∨
      (Silent a.tape → Silent result.2.2.tape) := by
  unfold writeData at wrote
  split at wrote
  · rename_i writes
    split at wrote
    · -- The entry is written from the cache.
      rename_i cce
      obtain ⟨a1, cached, same⟩ := Option.map_eq_some_iff.mp wrote
      right
      intro silent
      rw [← same]
      obtain ⟨a2, set, cached⟩ := Option.bind_eq_some_iff.mp cached
      obtain ⟨tape, changed, rest⟩ := Option.bind_eq_some_iff.mp set
      cases rest
      have one : Silent tape := silent_kept.setmode changed silent
      have two := @Silent.cached P K zlib tape cce one
      simp only at cached
      split at cached
      · exact nomatch cached
      · rename_i code tape' emitted
        rw [emitted] at two
        split at cached
        · exact nomatch cached
        · unfold archiveWriteSkip at cached
          simp only at cached
          split at cached
          · exact nomatch cached
          · cases cached
            exact two
    · split at wrote
      · exact .inl ⟨writes.1, writes.2, wrote⟩
      · cases wrote
        exact .inr id
  · cases wrote
    exact .inr id

/-- How an entry with the given path ends. The first case is the one of an entry that is not looked
up, the second one that of a file that cannot be opened. -/
theorem writeEntryBackend_cases (idle : Idle a) (named : entry.rpath = some path)
    (cached : bsdtar.chunkCache = some cache) (inflates : Inflates K zlib)
    (unique : Unique K contents (fdBytes entry.cachedReads))
    (wrote : writeEntryBackend K zlib rsa bsdtar entry a = some (w, some cache', a')) :
    cache' = cache ∨
      ∃ cce, cce = (ccacheEntryLookup K cache path entry.st a.tape).1 ∧ (cce.cache = cache' ∨
        ∃ a1 : Archive P, ccacheEntryEnd (a1.tape.callbackCookie.getD cce) a1.tape path
            bsdtar.snaptime = some (cache', a'.tape) ∧
          (Silent a1.tape ∨
            ∃ count written, Recording K zlib contents (cce.started count) written a1.tape ∧
              ∀ file, Delivers entry file → written <+: padded file)) := by
  unfold writeEntryBackend at wrote
  simp only at wrote
  cases looked : entry.lookup K bsdtar a with
  | none =>
    left
    rw [looked] at wrote
    have kept : some cache' = bsdtar.chunkCache := by
      split at wrote
      · exact (congrArg (fun result => result.2.1) (Option.some.inj wrote)).symm
      · obtain ⟨a1, _, wrote⟩ := Option.bind_eq_some_iff.mp wrote
        obtain ⟨a2, _, wrote⟩ := Option.bind_eq_some_iff.mp wrote
        obtain ⟨result, _, done⟩ := Option.bind_eq_some_iff.mp wrote
        exact entryDone_none done
    rw [cached] at kept
    exact Option.some.inj kept
  | some result =>
    right
    have entered := Entry.lookup_some named cached looked
    obtain ⟨cce, filecached, warning⟩ := result
    refine ⟨cce, congrArg Prod.fst entered, ?_⟩
    rw [looked] at wrote
    simp only [Option.map_some, Option.any_some] at wrote
    split at wrote
    · left
      exact Option.some.inj (congrArg (fun result => result.2.1) (Option.some.inj wrote))
    · right
      obtain ⟨a1, set, wrote⟩ := Option.bind_eq_some_iff.mp wrote
      obtain ⟨a2, formatted, wrote⟩ := Option.bind_eq_some_iff.mp wrote
      obtain ⟨⟨warned, sigquit, a3⟩, data, done⟩ := Option.bind_eq_some_iff.mp wrote
      obtain ⟨_, tape, _⟩ := header_phase idle set formatted
      have silent : Silent a2.tape := by
        rw [tape]
        exact ⟨idle.silent.cookie, idle.silent.chunk, idle.silent.trailer⟩
      obtain ⟨a4, finished, ended⟩ := entryDone_cases named done
      refine ⟨a4, ended, ?_⟩
      rcases writeData_cases data with ⟨status, positive, uncached⟩ | quiet
      · right
        obtain ⟨count, written, recording, inData, short, complete⟩ :=
          uncached_recording idle set formatted status positive inflates unique uncached
        rcases finished with truncated | ⟨goesOn, finished⟩
        · rw [truncated]
          refine ⟨count, written, (recording.truncate true).recording, ?_⟩
          intro file delivers
          exact (short file delivers).trans (List.prefix_append _ _)
        · refine ⟨count, _, recording.done inflates inData finished, ?_⟩
          intro file delivers
          rw [complete goesOn file delivers]
      · left
        rcases finished with truncated | ⟨_, finished⟩
        · have one := quiet silent
          rw [truncated]
          exact ⟨one.cookie, one.chunk, one.trailer⟩
        · exact (quiet silent).done finished

/-- What an entry leaves under its path is the record that was found, perhaps with less data, or
starts with what was read from the file. -/
theorem writeEntryBackend_record (idle : Idle a) (named : entry.rpath = some path)
    (cached : bsdtar.chunkCache = some cache) (inflates : Inflates K zlib)
    (unique : Unique K contents (fdBytes entry.cachedReads)) (faithful : Faithful contents a'.tape)
    (wrote : writeEntryBackend K zlib rsa bsdtar entry a = some (w, some cache', a'))
    (found : cache'.tree.lookup path = some r') :
    (∃ r, cache.tree.lookup path = some r ∧ Carried K contents bsdtar.snaptime r r') ∨
      Rewritten K contents bsdtar.snaptime entry r' := by
  rcases writeEntryBackend_cases idle named cached inflates unique wrote with
    same | ⟨cce, looked, freed | ⟨a1, ended, silent | ⟨count, written, recording, start⟩⟩⟩
  · rw [same] at found
    exact .inl ⟨r', found, Carried.refl _ _⟩
  · left
    exact free_carried looked freed found
  · left
    exact silent.ends looked ended found
  · right
    apply recording_ends recording looked _ ended found start
    intro ch buf member
    apply faithful ch buf
    rw [ccacheEntryEnd_stored ended]
    exact member

/-- An entry leaves the records of other paths alone. -/
theorem writeEntryBackend_other {other : Path} (idle : Idle a) (named : entry.rpath = some path)
    (different : other ≠ path) (cached : bsdtar.chunkCache = some cache)
    (inflates : Inflates K zlib) (unique : Unique K contents (fdBytes entry.cachedReads))
    (faithful : Faithful contents a'.tape)
    (wrote : writeEntryBackend K zlib rsa bsdtar entry a = some (w, some cache', a')) :
    cache'.tree.lookup other = cache.tree.lookup other := by
  rcases writeEntryBackend_cases idle named cached inflates unique wrote with
    same | ⟨cce, looked, freed | ⟨a1, ended, silent | ⟨count, written, recording, start⟩⟩⟩
  · rw [same]
  · obtain ⟨tree, origin⟩ := lookup_origin looked
    rw [← freed, cache_other different (origin.imp_right And.left), tree]
  · obtain ⟨tree, origin⟩ := lookup_origin looked
    rw [silent.cookie, Option.getD_none] at ended
    rw [ccacheEntryEnd_other different (origin.imp_right And.left) ended, tree]
  · obtain ⟨tree, origin⟩ := lookup_origin looked
    have stored : Faithful contents a1.tape := by
      intro ch buf member
      apply faithful ch buf
      rw [ccacheEntryEnd_stored ended]
      exact member
    obtain ⟨cce', cookie, updates, _⟩ := recording.describes stored
    obtain ⟨_, kept, place⟩ := updates.kept
    rw [cookie, Option.getD_some] at ended
    have there : cce'.ccrp = some path ∨ cce'.ccrp = none := by
      rw [place]
      exact origin.imp_right And.left
    rw [ccacheEntryEnd_other different there ended, kept]
    exact congrArg (fun map => map.lookup other) tree

/-- An entry without a canonical path leaves the cache alone. -/
theorem writeEntryBackend_unnamed (unnamed : entry.rpath = none)
    (wrote : writeEntryBackend K zlib rsa bsdtar entry a = some (w, some cache', a')) :
    bsdtar.chunkCache = some cache' := by
  have missing : entry.lookup K bsdtar a = none := by
    unfold Entry.lookup
    rw [unnamed]
    rfl
  unfold writeEntryBackend at wrote
  simp only [missing, Option.map_none, Option.any_none] at wrote
  split at wrote
  · exact congrArg (fun result => result.2.1) (Option.some.inj wrote)
  · obtain ⟨a1, _, wrote⟩ := Option.bind_eq_some_iff.mp wrote
    obtain ⟨a2, _, wrote⟩ := Option.bind_eq_some_iff.mp wrote
    obtain ⟨result, _, done⟩ := Option.bind_eq_some_iff.mp wrote
    exact (entryDone_none done).symm

end Done

end Tarsnap.Tar
