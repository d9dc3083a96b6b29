import Tarsnap.Ccache.Entry

/-!
# Writing an archive entry

An entry in the pax format is a header, the data of a file and zeros up to a multiple of 512 bytes.
The format handler counts the bytes of data and of padding that are still to come: data beyond them
is cut off, and what is missing at the end of the entry is written as zeros. The data comes from the
chunkification cache if it can provide all of it, and is read from the file otherwise.
-/

namespace Tarsnap.Tar

open Tarsnap.Lib Tarsnap.Chunks Tarsnap.Chunkify Tarsnap.Multitape Tarsnap.Ccache

/-- An archive that is being written. -/
structure Archive (P : Params) where
  /-- The tape that the archive is written to. -/
  tape : Tape P
  /-- The header of an entry was written and the entry is not finished. -/
  inData : Bool
  /-- Bytes of data that are still to come. -/
  entryBytesRemaining : Nat
  /-- Bytes of padding that are still to come. -/
  entryPadding : Nat

/-- Outcome of formatting a header. -/
inductive HeaderStatus where
  /-- The header is written. -/
  | ok
  /-- The header is written, with a warning. -/
  | warn
  /-- The entry cannot be written. -/
  | failed
  /-- The archive cannot be written. -/
  | fatal
deriving DecidableEq, Repr

/-- A formatted header. -/
structure Header where
  /-- Whether there is one. -/
  status : HeaderStatus
  /-- Its bytes. -/
  bytes : List UInt8
  /-- The size of the data that follows. -/
  size : Nat

section Format

variable {P : Params} (K : Crypto) (zlib : Zlib)

/-- Write bytes to the tape; a tape that takes none is an error. -/
def compressorWrite (a : Archive P) (buff : List UInt8) : Option (Archive P) :=
  if buff = [] then some a
  else
    match writetapeWrite K zlib false a.tape buff with
    | some (_ + 1, tape) => some { a with tape }
    | _ => none

/-- Number of zeros that are written at once. -/
def nullLength : Nat := 1024

/-- The loop that writes zeros. A round writes at least one, so the length bounds the rounds. -/
def writeNullsLoop : Nat → Archive P → Nat → Option (Archive P)
  | 0, a, _ => some a
  | rounds + 1, a, padding =>
    if 0 < padding then do
      let toWrite := min padding nullLength
      let a ← compressorWrite K zlib a (List.replicate toWrite 0)
      writeNullsLoop rounds a (padding - toWrite)
    else some a

/-- Write zeros. -/
def writeNulls (a : Archive P) (padding : Nat) : Option (Archive P) :=
  writeNullsLoop K zlib padding a padding

/-- Finish the entry: what is missing is written as zeros. -/
def archiveWriteFinishEntry (a : Archive P) : Option (Archive P) := do
  let a ← (if a.inData then do
      let a ← writeNulls K zlib a (a.entryBytesRemaining + a.entryPadding)
      return { a with entryBytesRemaining := 0, entryPadding := 0 }
    else some a)
  return { a with inData := false }

/-- Write data of the entry, not more than there is still to come, and return its length. -/
def archiveWriteData (a : Archive P) (buff : List UInt8) : Option (Nat × Archive P) := do
  let s := min buff.length a.entryBytesRemaining
  let a ← compressorWrite K zlib a (buff.take s)
  return (s, { a with entryBytesRemaining := a.entryBytesRemaining - s })

/-- Data and padding of the given length were written to the tape directly. -/
def archiveWriteSkip (a : Archive P) (s : Nat) : Option (Archive P) :=
  let skiplen := min s a.entryBytesRemaining
  let padlen := min (s - skiplen) a.entryPadding
  if 0 < s - skiplen - padlen then none
  else some { a with
    entryBytesRemaining := a.entryBytesRemaining - skiplen
    entryPadding := a.entryPadding - padlen }

/-- Finish the last entry and write the header of the next one. -/
def archiveWriteHeader (a : Archive P) (header : Header) : Option (Archive P) := do
  let a ← archiveWriteFinishEntry K zlib a
  match header.status with
  | .fatal => none
  | .failed => some { a with inData := true, entryBytesRemaining := 0, entryPadding := 0 }
  | _ => do
    let a ← compressorWrite K zlib a header.bytes
    return { a with
      inData := true
      entryBytesRemaining := header.size
      entryPadding := (512 - header.size % 512) % 512 }

/-- Set the tape mode. -/
def modeSet (a : Archive P) (mode : Mode) : Option (Archive P) := do
  let tape ← writetapeSetmode K zlib a.tape mode
  return { a with tape }

/-- Finish the entry, and set the tape mode. -/
def modeDone (a : Archive P) : Option (Archive P) := do
  let a ← archiveWriteFinishEntry K zlib a
  modeSet K zlib a .finished

end Format

/-- What is pending when a block of a file has been read. -/
structure Pending where
  /-- Handling the network fails. -/
  network : Bool
  /-- The archive is to be truncated. -/
  sigquit : Bool
  /-- A checkpoint is to be created. -/
  sigusr2 : Bool

/-- Nothing is pending. -/
def Pending.none : Pending := ⟨false, false, false⟩

/-- Settings of a run. -/
structure Bsdtar where
  /-- Suppress some warnings. -/
  optionQuiet : Bool
  /-- How little memory the cache may use: trailers are not cached, or there is no cache. -/
  cachecrunch : Nat
  /-- The chunkification cache. -/
  chunkCache : Option Cache
  /-- Snapshot time. -/
  snaptime : Int

/-- A regular file that is archived, with what happens meanwhile. -/
structure Entry where
  /-- The canonical path, if there is one. -/
  rpath : Option Path
  /-- The `lstat` data. -/
  st : Stat
  /-- The size of the data. -/
  size : Nat
  /-- The file can be opened. -/
  opens : Bool
  /-- The header. -/
  header : Header
  /-- What is read when the cache looks for unchanged chunks. -/
  cachedReads : Fd
  /-- The file position can be set. -/
  seeks : Bool
  /-- What the reads of blocks of the file from a position on return, in order. -/
  reads : Nat → Fd
  /-- What is pending after each block. -/
  pending : List Pending
  /-- The archive is to be truncated when the entry is done. -/
  sigquit : Bool

section Entry

variable {P : Params} (K : Crypto) (zlib : Zlib) (rsa : RsaSigner K)

/-- Truncate the archive at the current point if a signal asks for it. -/
def truncateArchive (a : Archive P) (sigquit : Bool) : Archive P :=
  if sigquit then { a with tape := writetapeTruncate a.tape } else a

/-- Create a checkpoint if one is asked for. -/
def checkpointArchive (a : Archive P) (sigusr2 : Bool) : Option (Archive P) :=
  if sigusr2 then do
    let (_, tape) ← writetapeCheckpoint K zlib rsa a.tape
    return { a with tape }
  else some a

/-- Copy a file to the archive. The results tell whether a warning was printed and whether the
archive is to be truncated; nothing is returned on failure. -/
def writeFileData (optionQuiet : Bool) : List Pending → Fd → Archive P →
    Option (Bool × Bool × Archive P)
  | pending, some (byte :: bytes) :: reads, a =>
    let now := pending.headD .none
    if now.network then none
    else do
      let (written, a) ← archiveWriteData K zlib a (byte :: bytes)
      -- The write was truncated; the file may have grown while being archived.
      if written < (byte :: bytes).length then return (!optionQuiet, false, a)
      else if now.sigquit then return (true, true, truncateArchive a true)
      else do
        let a ← checkpointArchive K zlib rsa a now.sigusr2
        writeFileData optionQuiet pending.tail reads a
  -- The end of the file, and an error.
  | _, _, a => some (false, false, a)

/-- The lookup of an entry in the cache, if it takes place. -/
def Entry.lookup (bsdtar : Bsdtar) (entry : Entry) (a : Archive P) :
    Option (CcacheEntry × Bool × Bool) := do
  let path ← entry.rpath
  let cache ← bsdtar.chunkCache
  if 0 < entry.size ∧ bsdtar.cachecrunch < 2 then
    some (ccacheEntryLookup K cache path entry.st a.tape)
  else none

/-- Write the data of an entry from the cache. -/
def writeCached (cce : CcacheEntry) (st : Stat) (a : Archive P) : Option (Archive P) := do
  let a ← modeSet K zlib a .data
  match ccacheEntryWrite K zlib cce a.tape with
  | (.error _, _) => none
  | (.ok skiplen, tape) =>
    if (skiplen : Int) < st.size then none else archiveWriteSkip { a with tape } skiplen

/-- Write the unchanged chunks of a file, if it has been looked up, and return the position after
them. -/
def writeUnchangedChunks (bsdtar : Bsdtar) (entry : Entry) (a : Archive P) :
    Option CcacheEntry → Option (Nat × Archive P)
  | none => some (0, a)
  | some cce =>
    match ccacheEntryWritefile K zlib cce a.tape (0 < bsdtar.cachecrunch) entry.cachedReads with
    | .error _ => none
    | .ok (skiplen, tape, _) => do
      guard (entry.seeks = true)
      let a ← archiveWriteSkip { a with tape } skiplen
      return (skiplen, a)

/-- Write the data of an entry from the file. -/
def writeUncached (bsdtar : Bsdtar) (entry : Entry) (cce : Option CcacheEntry) (a : Archive P) :
    Option (Bool × Bool × Archive P) := do
  let a ← modeSet K zlib a .data
  let (skiplen, a) ← writeUnchangedChunks K zlib bsdtar entry a cce
  writeFileData K zlib rsa bsdtar.optionQuiet entry.pending (entry.reads skiplen) a

/-- Tell the cache that an entry is done. The callbacks may have changed the entry. -/
def endCacheEntry (bsdtar : Bsdtar) (entry : Entry) (cce : Option CcacheEntry) (a : Archive P) :
    Option (Option Cache × Archive P) :=
  match cce, entry.rpath with
  | some cce, some path => do
    let (cache, tape) ←
      ccacheEntryEnd (a.tape.callbackCookie.getD cce) a.tape path bsdtar.snaptime
    return (some cache, { a with tape })
  | _, _ => some (bsdtar.chunkCache, a)

/-- Finish an entry whose data was written, with what was warned of so far. -/
def entryDone (bsdtar : Bsdtar) (entry : Entry) (cce : Option CcacheEntry) (corrupt : Bool) :
    Bool × Bool × Archive P → Option (Bool × Option Cache × Archive P)
  | (warned, sigquit, a) => do
    let truncated := sigquit || entry.sigquit
    let a := truncateArchive a truncated
    let a ← (if truncated then some a else modeDone K zlib a)
    let (cache, a) ← endCacheEntry bsdtar entry cce a
    return (corrupt || decide (entry.header.status ≠ .ok) || warned || truncated, cache, a)

/-- Write the data of an entry, if there is any and the header is written. -/
def writeData (bsdtar : Bsdtar) (entry : Entry) (cce : Option CcacheEntry) (filecached : Bool)
    (a : Archive P) : Option (Bool × Bool × Archive P) :=
  if (entry.header.status = .ok ∨ entry.header.status = .warn) ∧ 0 < entry.header.size then
    match cce, filecached with
    | some cce, true => (writeCached K zlib cce entry.st a).map fun a => (false, false, a)
    | cce, _ =>
      if 0 < entry.size then writeUncached K zlib rsa bsdtar entry cce a
      else some (false, false, a)
  else some (false, false, a)

/-- Write an entry. The results tell whether a warning was printed; nothing is returned when the
program exits. -/
def writeEntryBackend (bsdtar : Bsdtar) (entry : Entry) (a : Archive P) :
    Option (Bool × Option Cache × Archive P) :=
  let found := entry.lookup K bsdtar a
  let cce := found.map (·.1)
  let filecached := found.any (·.2.1)
  let corrupt := found.any (·.2.2)
  if 0 < entry.size ∧ filecached = false ∧ entry.opens = false then
    match cce with
    | none => some (true, bsdtar.chunkCache, a)
    | some cce =>
      let (cache, tape) := ccacheEntryFree cce a.tape
      some (true, some cache, { a with tape })
  else do
    let a ← modeSet K zlib a .header
    let a ← archiveWriteHeader K zlib a entry.header
    let written ← writeData K zlib rsa bsdtar entry cce filecached a
    entryDone K zlib bsdtar entry cce corrupt written

end Entry

section Fields

variable {P : Params} {K : Crypto} {zlib : Zlib} {rsa : RsaSigner K}

/-- Writing bytes changes nothing but the tape. -/
theorem compressorWrite_tape {a a' : Archive P} {buff : List UInt8}
    (written : compressorWrite K zlib a buff = some a') : a' = { a with tape := a'.tape } := by
  unfold compressorWrite at written
  split at written
  · cases written
    rfl
  · split at written
    · cases written
      rfl
    · exact nomatch written

/-- A checkpoint changes nothing but the tape. -/
theorem checkpointArchive_tape {a a' : Archive P} {sigusr2 : Bool}
    (created : checkpointArchive K zlib rsa a sigusr2 = some a') :
    a' = { a with tape := a'.tape } := by
  unfold checkpointArchive at created
  split at created
  · obtain ⟨result, _, rest⟩ := Option.bind_eq_some_iff.mp created
    cases rest
    rfl
  · cases created
    rfl

/-- Data that is written is counted. -/
theorem archiveWriteData_remaining {a a' : Archive P} {buff : List UInt8} {written : Nat}
    (wrote : archiveWriteData K zlib a buff = some (written, a')) :
    written = min buff.length a.entryBytesRemaining ∧
      a'.entryBytesRemaining = a.entryBytesRemaining - written := by
  obtain ⟨a1, compressed, rest⟩ := Option.bind_eq_some_iff.mp wrote
  cases rest
  have fields := compressorWrite_tape compressed
  refine ⟨rfl, ?_⟩
  rw [fields]

end Fields

end Tarsnap.Tar
