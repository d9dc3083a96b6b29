import Tarsnap.Ccache.FilePrefix
import Tarsnap.Tar.WriteEntry

/-!
# Errors while a file is read

The cache reports an error of a read, and the program exits. The loop that copies a file to the
archive takes an error for the end of the file: it ends without a warning, zeros take the place of
the data that is missing, and the cache records them.
-/

namespace Tarsnap.Tar

open Tarsnap.Lib Tarsnap.Chunks Tarsnap.Chunkify Tarsnap.Multitape Tarsnap.Ccache

variable {P : Params} {K : Crypto} {zlib : Zlib} {rsa : RsaSigner K}

section Failing

/-- A read of a block is made and fails while data is still to come. -/
def EarlyError (K : Crypto) (zlib : Zlib) (rsa : RsaSigner K) :
    List Pending → Fd → Archive P → Prop
  | _, none :: _, a => 0 < a.entryBytesRemaining
  | pending, some (byte :: bytes) :: reads, a =>
    (pending.headD .none).network = false ∧ (pending.headD .none).sigquit = false ∧
      ∃ a1 a2, archiveWriteData K zlib a (byte :: bytes) = some ((byte :: bytes).length, a1) ∧
        checkpointArchive K zlib rsa a1 (pending.headD .none).sigusr2 = some a2 ∧
        EarlyError K zlib rsa pending.tail reads a2
  | _, _, _ => False

/-- The archive when the data of an entry is going to be read from the file. -/
def dataStart (K : Crypto) (zlib : Zlib) (bsdtar : Bsdtar) (entry : Entry) (a : Archive P) :
    Option (Archive P) :=
  if 0 < entry.size ∧ (entry.lookup K bsdtar a).any (·.2.1) = false ∧ entry.opens = true ∧
      (entry.header.status = .ok ∨ entry.header.status = .warn) ∧ 0 < entry.header.size then do
    let a ← modeSet K zlib a .header
    let a ← archiveWriteHeader K zlib a entry.header
    modeSet K zlib a .data
  else none

/-- A read fails while the cache looks for unchanged chunks. -/
def CacheReadFails (K : Crypto) (zlib : Zlib) (bsdtar : Bsdtar) (entry : Entry) (a : Archive P) :
    Prop :=
  ∃ a1 cce corrupt, dataStart K zlib bsdtar entry a = some a1 ∧
    entry.lookup K bsdtar a = some (cce, false, corrupt) ∧
    ccacheEntryWritefile K zlib cce a1.tape (0 < bsdtar.cachecrunch) entry.cachedReads =
      .error .read

/-- A read of a block of the file fails while data of the entry is still to come. -/
def FileReadFails (K : Crypto) (zlib : Zlib) (rsa : RsaSigner K) (bsdtar : Bsdtar) (entry : Entry)
    (a : Archive P) : Prop :=
  ∃ a1 skiplen a2, dataStart K zlib bsdtar entry a = some a1 ∧
    writeUnchangedChunks K zlib bsdtar entry a1 ((entry.lookup K bsdtar a).map (·.1)) =
      some (skiplen, a2) ∧
    EarlyError K zlib rsa entry.pending (entry.reads skiplen) a2

/-- A later run with the same `lstat` data finds the record of the path, up to its age, and treats
it as a full entry. -/
def LaterFull (K : Crypto) (cache : Cache) (path : Path) (st : Stat) : Prop :=
  ∃ (Q : Params) (κ : Type) (tape : TapeW Q κ) (later : Cache) (ccr copy : CcacheRecord),
    cache.tree.lookup path = some ccr ∧ later.tree.lookup path = some copy ∧
      copy = { ccr with age := copy.age, ztrailerMalloc := copy.ztrailerMalloc } ∧
      (ccacheEntryLookup K later path st tape).2.1 = true

/-- A read that fails before the data is complete does not become silent wrong data: the run is not
clean, and no later run takes the record for a full entry. -/
def NotSilent (K : Crypto) (zlib : Zlib) (rsa : RsaSigner K) (bsdtar : Bsdtar) (entry : Entry)
    (a : Archive P) : Prop :=
  CacheReadFails K zlib bsdtar entry a ∨ FileReadFails K zlib rsa bsdtar entry a →
    (∀ cache a', writeEntryBackend K zlib rsa bsdtar entry a ≠ some (false, cache, a')) ∧
    ∀ warned cache a' path,
      writeEntryBackend K zlib rsa bsdtar entry a = some (warned, some cache, a') →
      entry.rpath = some path → ¬ LaterFull K cache path entry.st

/-- The file is copied without a warning when a read fails early. -/
theorem writeFileData_early {optionQuiet warned sigquit : Bool} {pending : List Pending}
    {reads : Fd} {a a' : Archive P} (early : EarlyError K zlib rsa pending reads a)
    (copied : writeFileData K zlib rsa optionQuiet pending reads a = some (warned, sigquit, a')) :
    warned = false ∧ sigquit = false ∧ 0 < a'.entryBytesRemaining := by
  induction reads generalizing pending a with
  | nil => exact early.elim
  | cons result reads ih =>
    match result with
    | none =>
      cases copied
      exact ⟨rfl, rfl, early⟩
    | some [] => exact early.elim
    | some (byte :: bytes) =>
      obtain ⟨network, quit, a1, a2, wrote, checkpoint, later⟩ := early
      unfold writeFileData at copied
      simp only [network, quit, wrote, Option.bind_eq_bind, Option.bind_some, Nat.lt_irrefl,
        if_false, Bool.false_eq_true, checkpoint] at copied
      exact ih later copied

end Failing

section Entries

variable {bsdtar : Bsdtar} {entry : Entry} {a a1 : Archive P}

/-- An entry whose data is read from the file: the unchanged chunks, the blocks, and the end. -/
theorem writeEntryBackend_data (started : dataStart K zlib bsdtar entry a = some a1) :
    writeEntryBackend K zlib rsa bsdtar entry a = (do
      let (skiplen, a2) ←
        writeUnchangedChunks K zlib bsdtar entry a1 ((entry.lookup K bsdtar a).map (·.1))
      let written ←
        writeFileData K zlib rsa bsdtar.optionQuiet entry.pending (entry.reads skiplen) a2
      entryDone K zlib bsdtar entry ((entry.lookup K bsdtar a).map (·.1))
        ((entry.lookup K bsdtar a).any (·.2.2)) written) := by
  unfold dataStart at started
  split at started
  · rename_i condition
    obtain ⟨positive, uncached, opens, status, long⟩ := condition
    obtain ⟨b1, header, started⟩ := Option.bind_eq_some_iff.mp started
    obtain ⟨b2, formatted, data⟩ := Option.bind_eq_some_iff.mp started
    unfold writeEntryBackend
    simp only [uncached, opens, Bool.true_eq_false, and_false, if_false]
    rw [header, Option.bind_eq_bind, Option.bind_some, formatted, Option.bind_some]
    have written :
        writeData K zlib rsa bsdtar entry ((entry.lookup K bsdtar a).map (·.1)) false b2 =
          writeUncached K zlib rsa bsdtar entry ((entry.lookup K bsdtar a).map (·.1)) b2 := by
      unfold writeData
      rw [if_pos ⟨status, long⟩]
      split
      · rename_i impossible
        exact nomatch impossible
      · rw [if_pos positive]
    rw [written, writeUncached, data]
    simp only [Option.bind_eq_bind, Option.bind_some, Option.bind_assoc]
  · exact nomatch started

/-- The program exits when a read of the cache fails. -/
theorem CacheReadFails.exits (fails : CacheReadFails K zlib bsdtar entry a) :
    writeEntryBackend K zlib rsa bsdtar entry a = none := by
  obtain ⟨a1, cce, corrupt, started, found, failed⟩ := fails
  have stopped : writeUnchangedChunks K zlib bsdtar entry a1
      ((entry.lookup K bsdtar a).map (·.1)) = none := by
    rw [found, Option.map_some, writeUnchangedChunks, failed]
  rw [writeEntryBackend_data started, stopped]
  rfl

/-- Nothing is silent unless a read of a block fails early. -/
theorem notSilent_of_reads (reads : ¬ FileReadFails K zlib rsa bsdtar entry a) :
    NotSilent K zlib rsa bsdtar entry a := by
  intro fails
  rcases fails with cached | file
  · have exits : writeEntryBackend K zlib rsa bsdtar entry a = none := cached.exits
    constructor
    · intro cache a' same
      rw [exits] at same
      cases same
    · intro warned cache a' path same
      rw [exits] at same
      cases same
  · exact absurd file reads

/-- The run is clean when a read of a block fails early, unless something else is warned of or the
program exits. -/
theorem FileReadFails.clean (fails : FileReadFails K zlib rsa bsdtar entry a)
    (header : entry.header.status = .ok) (intact : (entry.lookup K bsdtar a).any (·.2.2) = false)
    (sigquit : entry.sigquit = false)
    (goesOn : writeEntryBackend K zlib rsa bsdtar entry a ≠ none) :
    ∃ cache a', writeEntryBackend K zlib rsa bsdtar entry a = some (false, cache, a') := by
  obtain ⟨a1, skiplen, a2, started, unchanged, early⟩ := fails
  obtain ⟨⟨warned, cache, a'⟩, done⟩ := Option.ne_none_iff_exists'.mp goesOn
  refine ⟨cache, a', ?_⟩
  rw [done]
  rw [writeEntryBackend_data started, unchanged, Option.bind_eq_bind, Option.bind_some] at done
  obtain ⟨⟨warnedOf, quit, a3⟩, copied, ended⟩ := Option.bind_eq_some_iff.mp done
  obtain ⟨silent, goes, _⟩ := writeFileData_early early copied
  rw [entryDone] at ended
  obtain ⟨a4, _, ended⟩ := Option.bind_eq_some_iff.mp ended
  obtain ⟨⟨kept, a5⟩, _, ended⟩ := Option.bind_eq_some_iff.mp ended
  cases ended
  rw [silent, goes, sigquit, intact, header]
  rfl

/-- An error is not silent if no read of a block fails early; and if nothing else is warned of and
the program does not exit, only then. -/
theorem notSilent_iff :
    (¬ FileReadFails K zlib rsa bsdtar entry a → NotSilent K zlib rsa bsdtar entry a) ∧
    (entry.header.status = .ok → (entry.lookup K bsdtar a).any (·.2.2) = false →
      entry.sigquit = false → writeEntryBackend K zlib rsa bsdtar entry a ≠ none →
      (NotSilent K zlib rsa bsdtar entry a ↔ ¬ FileReadFails K zlib rsa bsdtar entry a)) := by
  refine ⟨notSilent_of_reads, ?_⟩
  intro header intact sigquit goesOn
  refine ⟨?_, notSilent_of_reads⟩
  intro notSilent fails
  obtain ⟨cache, a', clean⟩ := fails.clean header intact sigquit goesOn
  exact (notSilent (.inr fails)).1 cache a' clean

end Entries

section Example

/-- A new archive on a tape that has a chunk of 511 bytes. -/
def growingArchive : Archive mediumParams :=
  ⟨writetapeStart [] 0 [] { noChunks with HT := [⟨firstByte [9], 511, 511, false, 1, 1⟩] }
    (fun _ => Vector.replicate 64 0) (Vector.replicate 64 0) none, false, 0, 0⟩

/-- A run with a cache that has an old record of this chunk. -/
def growingRun : Bsdtar :=
  ⟨false, 0, some ⟨⟨[(⟨[47]⟩, ⟨5, 511, 0, [⟨firstByte [9], 511, 511⟩], 0, [], 0, false⟩)],
    List.pairwise_singleton _ _⟩, 0, 0⟩, 10⟩

/-- A file that has grown by one byte, which cannot be read. -/
def growingFile : Entry where
  rpath := some ⟨[47]⟩
  st := ⟨5, 512, 1⟩
  size := 512
  opens := true
  header := ⟨.ok, [], 512⟩
  cachedReads := [some (List.replicate 511 9)]
  seeks := true
  reads _ := [none]
  pending := []
  sigquit := false

set_option maxRecDepth 8000 in
/-- A zero is archived for the byte that cannot be read, without a warning, and the next run takes
it from the cache. -/
theorem growingFile_silent :
    FileReadFails firstByteCrypto copyingZlib (noSigner _) growingRun growingFile growingArchive ∧
      ¬ NotSilent firstByteCrypto copyingZlib (noSigner _) growingRun growingFile growingArchive ∧
      ∃ cache a', writeEntryBackend firstByteCrypto copyingZlib (noSigner _) growingRun growingFile
          growingArchive = some (false, some cache, a') ∧
        LaterFull firstByteCrypto cache ⟨[47]⟩ growingFile.st := by
  obtain ⟨a1, skiplen, a2, started, unchanged, remaining⟩ : ∃ a1 skiplen a2,
      dataStart firstByteCrypto copyingZlib growingRun growingFile growingArchive = some a1 ∧
      writeUnchangedChunks firstByteCrypto copyingZlib growingRun growingFile a1
        ((growingFile.lookup firstByteCrypto growingRun growingArchive).map (·.1)) =
        some (skiplen, a2) ∧
      a2.entryBytesRemaining = 1 := ⟨_, _, _, rfl, rfl, rfl⟩
  have left : 0 < a2.entryBytesRemaining := by
    rw [remaining]
    exact Nat.one_pos
  have fails : FileReadFails firstByteCrypto copyingZlib (noSigner _) growingRun growingFile
      growingArchive := ⟨a1, skiplen, a2, started, unchanged, left⟩
  obtain ⟨cache, ccr, a', run, found, full⟩ : ∃ cache ccr a',
      writeEntryBackend firstByteCrypto copyingZlib (noSigner _) growingRun growingFile
        growingArchive = some (false, some cache, a') ∧
      cache.tree.lookup ⟨[47]⟩ = some ccr ∧
      (ccacheEntryLookup firstByteCrypto cache ⟨[47]⟩ growingFile.st growingArchive.tape).2.1 =
        true := ⟨_, _, _, rfl, rfl, rfl⟩
  have later : LaterFull firstByteCrypto cache ⟨[47]⟩ growingFile.st :=
    ⟨_, _, growingArchive.tape, cache, ccr, ccr, found, found, rfl, full⟩
  refine ⟨fails, ?_, cache, a', run, later⟩
  intro notSilent
  exact (notSilent (.inr fails)).1 (some cache) a' run

end Example

end Tarsnap.Tar
