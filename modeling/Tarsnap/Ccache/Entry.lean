import Tarsnap.Ccache.Cache
import Tarsnap.Multitape.Write

/-!
# Entries of the chunkification cache

When a file is archived, its record is looked up. If the record is fresh and the tape has its
chunks, the entry is written from the record. Otherwise the file is read, the chunks at its start
that have not changed are written by reference, and the tape informs the cache of the chunks and
the trailer that follow. At the end of the entry the record is kept if it is worth it.
-/

namespace Tarsnap.Ccache

open Tarsnap.Lib Tarsnap.Chunks Tarsnap.Chunkify Tarsnap.Multitape

/-- The `lstat` data of a file that the cache looks at. -/
structure Stat where
  /-- Inode number. -/
  ino : Nat
  /-- File size. -/
  size : Int
  /-- Modification time, seconds since the epoch. -/
  mtime : Int
deriving DecidableEq, Repr

/-- A cookie for higher layers to access a cache entry. -/
structure CcacheEntry where
  /-- The cache. -/
  cci : Cache
  /-- Actual cache entry. -/
  ccr : CcacheRecord
  /-- The path at which the entry is in the tree, if it is. -/
  ccrp : Option Path
  /-- The multitape layer has told us about a trailer. -/
  hittrailer : Bool
  /-- Uncompressed trailer. -/
  trailer : Option (List UInt8)
  /-- New inode number. -/
  inoNew : Nat
  /-- New file size. -/
  sizeNew : Int
  /-- New modification time. -/
  mtimeNew : Int

/-- A record with nothing in it. -/
def CcacheRecord.zero : CcacheRecord := ⟨0, 0, 0, [], 0, [], 0, false⟩

/-- The cache, with the current contents of the entry in its tree. -/
def CcacheEntry.cache (cce : CcacheEntry) : Cache :=
  match cce.ccrp with
  | none => cce.cci
  | some path => { cce.cci with tree := cce.cci.tree.update path cce.ccr }

/-- A tape whose callbacks get a cache entry, or nothing. -/
abbrev Tape (P : Params) := TapeW P (Option CcacheEntry)

section Callbacks

variable (zlib : Zlib)

/-- Add a chunk header to a cache entry, unless a trailer was written already for this file. This
can occur if an archive checkpoint occurs in the middle of an archive entry's data. -/
def callbackAddchunk (cookie : Option CcacheEntry) (ch : ChunkHeader) :
    Option (Option CcacheEntry) := do
  let cce ← cookie
  if cce.hittrailer then return cce
  else
    return some { cce with
      ccr := { cce.ccr with chp := cce.ccr.chp ++ [ch] }
      cci := { cce.cci with chunksusage := cce.cci.chunksusage + 40 } }

/-- Add a file trailer, unless a trailer was written already for this file. -/
def callbackAddtrailer (cookie : Option CcacheEntry) (buf : List UInt8) :
    Option (Option CcacheEntry) := do
  let cce ← cookie
  if cce.hittrailer then return cce
  else
    let ztrailer ← zlib.compress2 (buf.length + buf.length / 512 + 13) buf
    return some { cce with
      hittrailer := true
      ccr := { cce.ccr with ztrailer, tlen := buf.length, ztrailerMalloc := true }
      cci := { cce.cci with trailerusage := cce.cci.trailerusage + ztrailer.length } }

/-- Record that the multitape code has logged a trailer but do not cache the trailer. -/
def callbackFaketrailer (cookie : Option CcacheEntry) (_buf : List UInt8) :
    Option (Option CcacheEntry) := do
  let cce ← cookie
  return some { cce with hittrailer := true }

end Callbacks

section Lookup

variable {P : Params} {κ : Type} (K : Crypto) (zlib : Zlib)

/-- The record is the one of a file with the same inode number, size and modification time. -/
def CcacheEntry.Fresh (cce : CcacheEntry) : Prop :=
  cce.inoNew = cce.ccr.ino ∧ cce.sizeNew = cce.ccr.size ∧ cce.mtimeNew = cce.ccr.mtime

instance (cce : CcacheEntry) : Decidable cce.Fresh :=
  inferInstanceAs (Decidable (_ ∧ _ ∧ _))

/-- Count the chunks at the start that are available, and the data that they supply. -/
def availableChunks (d : TapeW P κ) : List ChunkHeader → Nat → Nat → Nat × Nat
  | [], cnum, skiplen => (cnum, skiplen)
  | ch :: rest, cnum, skiplen =>
    let lenwrit := writetapeIschunkpresent d ch
    if lenwrit = 0 then (cnum, skiplen) else availableChunks d rest (cnum + 1) (skiplen + lenwrit)

/-- Decompress the trailer of a record, unless it is corrupt. -/
def decompressTrailer (ccr : CcacheRecord) : Option (List UInt8) := do
  let trailer ← K.uncompress ccr.tlen ccr.ztrailer
  if trailer.length = ccr.tlen then some trailer else none

/-- If there is a compressed trailer but no decompressed trailer, delete the compressed one. -/
def CcacheEntry.dropTrailer (cce : CcacheEntry) : CcacheEntry :=
  if cce.trailer = none ∧ 0 < cce.ccr.tlen then
    { cce with
      cci := if cce.ccr.ztrailerMalloc then
          { cce.cci with trailerusage := cce.cci.trailerusage - cce.ccr.tzlen }
        else cce.cci
      ccr := { cce.ccr with ztrailer := [], tlen := 0 } }
  else cce

/-- Look up a file in the cache. The second result tells whether the cache can provide the archive
entry, the third one whether a warning about a corrupt trailer was printed. -/
def ccacheEntryLookup (cache : Cache) (path : Path) (sb : Stat) (d : TapeW P κ) :
    CcacheEntry × Bool × Bool :=
  let cce : CcacheEntry := {
    cci := cache
    ccr := .zero
    ccrp := none
    hittrailer := false
    trailer := none
    inoNew := sb.ino
    sizeNew := sb.size
    mtimeNew := sb.mtime }
  match cache.tree.lookup path with
  | none => (cce, decide (((0 : Nat) : Int) ≥ sb.size), false)
  | some ccr =>
    let cce := { cce with ccr, ccrp := some path }
    let (cnum, skiplen) := if cce.Fresh then availableChunks d ccr.chp 0 0 else (0, 0)
    if cce.Fresh ∧ cnum = ccr.nch ∧ 0 < ccr.tlen ∧ ((skiplen + ccr.tlen : Nat) : Int) ≥ sb.size then
      let trailer := decompressTrailer K ccr
      -- The length of the trailer counts even if the trailer did not decompress.
      (CcacheEntry.dropTrailer { cce with trailer },
        decide (((skiplen + ccr.tlen : Nat) : Int) ≥ sb.size), trailer.isNone)
    else (CcacheEntry.dropTrailer cce, decide ((skiplen : Int) ≥ sb.size), false)

/-- Why a cached entry is not written. -/
inductive WriteFault where
  /-- The cache entry is stale. -/
  | stale
  /-- A chunk is not present. -/
  | missing
  /-- The tape layer fails. -/
  | tape
deriving DecidableEq, Repr

/-- Write chunks by reference, and count their lengths. -/
def writeChunks : List ChunkHeader → Nat → TapeW P κ → Except WriteFault Nat × TapeW P κ
  | [], skiplen, d => (.ok skiplen, d)
  | ch :: rest, skiplen, d =>
    match writetapeWritechunk K zlib d ch with
    | none => (.error .tape, d)
    | some (lenwrit, d) =>
      if lenwrit = 0 then (.error .missing, d) else writeChunks rest (skiplen + lenwrit) d

/-- Write the cached archive entry to the tape, and return the length written. -/
def ccacheEntryWrite (cce : CcacheEntry) (d : TapeW P κ) : Except WriteFault Nat × TapeW P κ :=
  if ¬ cce.Fresh then (.error .stale, d)
  else
    match writeChunks K zlib cce.ccr.chp 0 d with
    | (.error fault, d) => (.error fault, d)
    | (.ok skiplen, d) =>
      match cce.trailer with
      | none => (.ok skiplen, d)
      | some trailer =>
        match writetapeWrite K zlib false d (trailer.take cce.ccr.tlen) with
        | none => (.error .tape, d)
        | some (lenwrit, d) => (.ok (skiplen + lenwrit), d)

end Lookup

section Writefile

variable {P : Params} (K : Crypto) (zlib : Zlib)

/-- The results of the calls of `read`, in order: an error, or bytes, of which a call takes as many
as it asks for. No bytes, or no further result, are an end of file. -/
abbrev Fd := List (Option (List UInt8))

/-- Read until the buffer has the given length or the file ends; nothing is returned when reading
fails. -/
def readChunk (chunklen : Nat) (chunkbuf : List UInt8) : Fd → Option (List UInt8 × Fd)
  | [] => some (chunkbuf, [])
  | result :: rest =>
    if chunklen ≤ chunkbuf.length then some (chunkbuf, result :: rest)
    else
      match result with
      | none => none
      | some [] => some (chunkbuf, rest)
      | some bytes =>
        if bytes.length ≤ chunklen - chunkbuf.length then
          readChunk chunklen (chunkbuf ++ bytes) rest
        else some (chunkbuf ++ bytes.take (chunklen - chunkbuf.length),
          some (bytes.drop (chunklen - chunkbuf.length)) :: rest)

/-- Why a file is not written. -/
inductive FileFault where
  /-- There is a trailer. -/
  | trailer
  /-- Reading the file fails; a warning is printed. -/
  | read
  /-- The tape layer fails. -/
  | tape
deriving DecidableEq, Repr

/-- Read chunk-sized blocks and write them if unchanged. The results are the number and the total
length of the chunks written. -/
def writeUnchanged {κ : Type} (sizeNew : Int) : List ChunkHeader → Nat → Nat → TapeW P κ → Fd →
    Except FileFault (Nat × Nat × TapeW P κ × Fd)
  | [], cnum, skiplen, d, fd => .ok (cnum, skiplen, d, fd)
  | ch :: rest, cnum, skiplen, d, fd =>
    let chunklen := ch.len.toNat
    if MAXCHUNK < chunklen then .ok (cnum, skiplen, d, fd)
    else if ((skiplen + chunklen : Nat) : Int) > sizeNew then .ok (cnum, skiplen, d, fd)
    else
      match readChunk chunklen [] fd with
      | none => .error .read
      | some (chunkbuf, fd) =>
        if chunkbuf.length < chunklen then .ok (cnum, skiplen, d, fd)
        else if K.hmacChunk chunkbuf ≠ ch.hash then .ok (cnum, skiplen, d, fd)
        else
          match writetapeWritechunk K zlib d ch with
          | none => .error .tape
          | some (lenwrit, d) =>
            if lenwrit = 0 then .ok (cnum, skiplen, d, fd)
            else writeUnchanged sizeNew rest (cnum + 1) (skiplen + lenwrit) d fd

/-- Write data from the file to the tape using the cache entry as a hint, and set up callbacks to
update the entry, which is from now on the cookie of the tape. The result is the length written. -/
def ccacheEntryWritefile (cce : CcacheEntry) (d : Tape P) (notrailer : Bool) (fd : Fd) :
    Except FileFault (Nat × Tape P × Fd) :=
  if 0 < cce.ccr.tlen then .error .trailer
  else do
    let (cnum, skiplen, d, fd) ← writeUnchanged K zlib cce.sizeNew cce.ccr.chp 0 0 d fd
    let cce := { cce with ccr := { cce.ccr with
      chp := cce.ccr.chp.take cnum
      ino := cce.inoNew
      size := cce.sizeNew
      mtime := cce.mtimeNew } }
    let notrailer := notrailer ∨
      (cce.cci.chunksusage * 2 < cce.cci.trailerusage ∧ cce.ccr.size < 10 * 1024 * 1024)
    let callbackTrailer := if notrailer then callbackFaketrailer else callbackAddtrailer zlib
    return (skiplen, writetapeSetcallback d callbackAddchunk callbackTrailer (some cce), fd)

end Writefile

section End

variable {P : Params}

/-- The record that is kept at the end of an entry: without chunks if it is stale, and with a
modification time before the snapshot. -/
def CcacheEntry.final (cce : CcacheEntry) (snaptime : Int) : CcacheRecord :=
  let ccr := if cce.Fresh then cce.ccr else { cce.ccr with chp := [] }
  { ccr with
    mtime := if ccr.mtime ≥ snaptime then snaptime - 1 else ccr.mtime
    age := 0 }

/-- The archive entry is ending: clean up callbacks, and insert the cache entry into the cache if it
is worth keeping and not already present. -/
def ccacheEntryEnd (cce : CcacheEntry) (d : Tape P) (path : Path) (snaptime : Int) :
    Option (Cache × Tape P) :=
  let d := writetapeSetcallback d none none none
  let cce := { cce with ccr := cce.final snaptime }
  match cce.ccrp with
  | some _ => some (cce.cache, d)
  | none =>
    if cce.ccr.nch ≠ 0 ∨ cce.ccr.tlen ≠ 0 then do
      let tree ← cce.cci.tree.insert path cce.ccr
      return ({ cce.cci with tree }, d)
    else some (cce.cache, d)

/-- Free the cache entry and cancel callbacks from the multitape layer. -/
def ccacheEntryFree (cce : CcacheEntry) (d : Tape P) : Cache × Tape P :=
  (cce.cache, writetapeSetcallback d none none none)

end End

end Tarsnap.Ccache
