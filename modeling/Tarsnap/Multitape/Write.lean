import Tarsnap.Chunkify.Chunks
import Tarsnap.Multitape.MetadataCodec
import Tarsnap.Multitape.MetaindexCodec
import Mathlib.Logic.Function.Basic

/-!
# Writing a tape

A tape is written as three streams: the headers of the entries, the headers of the chunks of file
data, and the trailers, the file data that is too short for a chunk. Each stream goes through a
chunkifier of its own, whose callback stores a chunk and appends its header to the index of the
stream. File data goes through a fourth chunkifier, whose callback divides it between the chunk
index stream and the trailer stream. The end of an entry writes the lengths of its parts.
-/

namespace Tarsnap.Multitape

open Tarsnap.Lib Tarsnap.Chunks Tarsnap.Chunkify

/-- Mean chunk size desired. -/
def MEANCHUNK : Nat := 65536

/-- Minimum size of a chunk which will be stored as a chunk rather than as a file trailer. -/
def MINCHUNK : Nat := 4096

/-- The parameters that the chunkifiers of a tape are initialized with. -/
structure TapeParams (P : Params) : Prop where
  /-- The mean chunk length. -/
  mu : P.mu = MEANCHUNK
  /-- The maximum chunk length. -/
  blen : P.blen = MAXCHUNK

/-- The return value of a failing callback, `-1` as a word. -/
def failure : Nat := 4294967295

/-- Tape mode; the numbers in the source are 0 to 3. -/
inductive Mode where
  /-- Archive entry header. -/
  | header
  /-- Archive entry data. -/
  | data
  /-- Finished archive entry. -/
  | finished
  /-- Archive trailer. -/
  | trailer
deriving DecidableEq, Repr

/-- The three streams. -/
inductive StreamName where
  /-- Header stream. -/
  | h
  /-- Chunk index stream. -/
  | c
  /-- Trailer stream. -/
  | t
deriving DecidableEq, Repr

/-- Stream parameters. -/
structure Stream (P : Params) where
  /-- Stream chunk index. -/
  index : List ChunkHeader
  /-- Chunkifier for stream. -/
  c : Chunkifier P

/-- The tape write cookie. -/
structure TapeW (P : Params) (κ : Type) where
  /-- Tape name. -/
  tapename : List UInt8
  /-- Archive creation time. -/
  ctime : Nat
  /-- Command-line arguments. -/
  argv : List (List UInt8)
  /-- Tape is truncated at current position. -/
  eof : Bool
  /-- Chunk layer write cookie. -/
  C : ChunksW
  /-- Header, chunk index and trailer streams. -/
  stream : StreamName → Stream P
  /-- Used for chunkifying individual files. -/
  cFile : Chunkifier P
  /-- Bytes written into `cFile`. -/
  cFileIn : Nat
  /-- Bytes passed out by `cFile`. -/
  cFileOut : Nat
  /-- Tape mode. -/
  mode : Mode
  /-- Pending archive header. -/
  hbuf : List UInt8
  /-- Length of chunkified file data. -/
  clen : Nat
  /-- Length of file trailer. -/
  tlen : Nat
  /-- The cookie of the callbacks to the chunkification cache. -/
  callbackCookie : κ
  /-- Called on each chunk header of file data, if set. -/
  callbackChunk : Option (κ → ChunkHeader → Option κ)
  /-- Called on each trailer, if set. -/
  callbackTrailer : Option (κ → List UInt8 → Option κ)
  /-- The chunks handed to the chunk layer so far, with their contents; no function reads them. -/
  stored : List (ChunkHeader × List UInt8)

/-- The on-disk entry header. -/
def entryheader (hlen clen tlen : Nat) : List UInt8 :=
  leEnc 4 hlen ++ (leEnc 8 clen ++ leEnc 4 tlen)

section Callbacks

variable {P : Params} {κ : Type} (K : Crypto) (zlib : Zlib)

/-- Write a chunk using the chunk layer, and return its header. -/
def storeChunk (buf : List UInt8) (C : ChunksW) : Option (ChunkHeader × ChunksW) := do
  let hash := K.hmacChunk buf
  let (C, zlen) ← chunksWriteChunk zlib C hash buf
  return (⟨hash, UInt32.ofNat buf.length, UInt32.ofNat zlen⟩, C)

/-- Handle a chunk belonging to a stream: write it, and append a chunk header to the index. -/
def handleChunk (s : StreamName) (d : TapeW P κ) (buf : List UInt8) : Nat × TapeW P κ :=
  match storeChunk K zlib buf d.C with
  | none => (failure, d)
  | some (ch, C) =>
    (0, { d with
      C
      stored := d.stored ++ [(ch, buf)]
      stream := Function.update d.stream s
        { d.stream s with index := (d.stream s).index ++ [ch] } })

/-- Handle a chunk from the header stream. -/
def callbackH (d : TapeW P κ) (buf : List UInt8) : Nat × TapeW P κ := handleChunk K zlib .h d buf

/-- Handle a chunk from the trailer stream. -/
def callbackT (d : TapeW P κ) (buf : List UInt8) : Nat × TapeW P κ := handleChunk K zlib .t d buf

/-- Handle a chunk from the chunk index stream. -/
def callbackC (d : TapeW P κ) (buf : List UInt8) : Nat × TapeW P κ := handleChunk K zlib .c d buf

/-- The callback of a stream. -/
def streamCallback : StreamName → TapeW P κ → List UInt8 → Nat × TapeW P κ
  | .h => callbackH K zlib
  | .c => callbackC K zlib
  | .t => callbackT K zlib

/-- Feed a buffer into the chunkifier of a stream. -/
def streamWrite (s : StreamName) (d : TapeW P κ) (buf : List UInt8) : Option (TapeW P κ) :=
  match chunkifyWrite (streamCallback K zlib s) (d.stream s).c d buf with
  | .ok (0, c, d) => some { d with stream := Function.update d.stream s { d.stream s with c } }
  | _ => none

/-- End the last chunk of a stream. -/
def streamEnd (s : StreamName) (d : TapeW P κ) : Option (TapeW P κ) :=
  match chunkifyEnd (streamCallback K zlib s) (d.stream s).c d with
  | (0, c, d) => some { d with stream := Function.update d.stream s { d.stream s with c } }
  | _ => none

/-- Call the trailer callback, if one exists. -/
def notifyTrailer (d : TapeW P κ) (buf : List UInt8) : Option (TapeW P κ) :=
  match d.callbackTrailer with
  | none => some d
  | some callback => do
    let callbackCookie ← callback d.callbackCookie buf
    return { d with callbackCookie }

/-- Call the chunk callback, if one exists. -/
def notifyChunk (d : TapeW P κ) (ch : ChunkHeader) : Option (TapeW P κ) :=
  match d.callbackChunk with
  | none => some d
  | some callback => do
    let callbackCookie ← callback d.callbackCookie ch
    return { d with callbackCookie }

/-- Anything under `MINCHUNK` bytes belongs in the trailer stream, and there shouldn't be any
trailer yet. -/
def fileTrailer (d : TapeW P κ) (buf : List UInt8) : Option (TapeW P κ) :=
  if d.tlen ≠ 0 then none
  else do
    let d ← streamWrite K zlib .t d buf
    notifyTrailer { d with tlen := buf.length } buf

/-- Store a chunk of file data and write its header to the chunk index stream. -/
def fileChunk (d : TapeW P κ) (buf : List UInt8) : Option (TapeW P κ) := do
  let (ch, C) ← storeChunk K zlib buf d.C
  let d ← streamWrite K zlib .c { d with C, stored := d.stored ++ [(ch, buf)] } ch.encode
  notifyChunk { d with clen := d.clen + buf.length } ch

/-- Handle a chunk from a file which is being written to the tape. -/
def callbackFile (d : TapeW P κ) (buf : List UInt8) : Nat × TapeW P κ :=
  let d := { d with cFileOut := d.cFileOut + buf.length }
  match if buf.length < MINCHUNK then fileTrailer K zlib d buf else fileChunk K zlib d buf with
  | none => (failure, d)
  | some d => (0, d)

/-- Feed a buffer into the file chunkifier. -/
def fileWrite (d : TapeW P κ) (buf : List UInt8) : Option (TapeW P κ) :=
  match chunkifyWrite (callbackFile K zlib) d.cFile d buf with
  | .ok (0, cFile, d) => some { d with cFile }
  | _ => none

/-- End the current file chunk. -/
def fileEnd (d : TapeW P κ) : Option (TapeW P κ) :=
  match chunkifyEnd (callbackFile K zlib) d.cFile d with
  | (0, cFile, d) => some { d with cFile }
  | _ => none

/-- An archive entry or trailer is ending; flush buffers into the stream. Nothing is returned when
an assertion fails: the lengths are a 32-bit word below its maximum and a nonnegative `off_t`. -/
def endentry (d : TapeW P κ) : Option (TapeW P κ) :=
  if ¬(d.hbuf.length < 4294967295 ∧ d.clen < 9223372036854775808) then none
  else do
    let hbuf := d.hbuf
    let d ← streamWrite K zlib .h { d with hbuf := [] } (entryheader hbuf.length d.clen d.tlen)
    let d ← streamWrite K zlib .h d hbuf
    return { d with clen := 0, tlen := 0 }

/-- Set the callbacks to the chunkification cache. -/
def writetapeSetcallback (d : TapeW P κ) (callbackChunk : Option (κ → ChunkHeader → Option κ))
    (callbackTrailer : Option (κ → List UInt8 → Option κ)) (callbackCookie : κ) : TapeW P κ :=
  { d with callbackChunk, callbackTrailer, callbackCookie }

/-- Write data to the tape. The failure of appending to the header buffer goes unnoticed. -/
def writetapeWrite (nomem : Bool) (d : TapeW P κ) (buffer : List UInt8) :
    Option (Nat × TapeW P κ) :=
  if d.eof then some (0, d)
  else
    let hbuf := if nomem then d.hbuf else d.hbuf ++ buffer
    match d.mode with
    | .data => do
      let d ← fileWrite K zlib d buffer
      return (buffer.length, { d with cFileIn := d.cFileIn + buffer.length })
    | .finished => some (buffer.length, { d with mode := .trailer, hbuf })
    | .trailer => some (buffer.length, { d with mode := .trailer, hbuf })
    | .header => some (buffer.length, { d with hbuf })

/-- If the specified chunk exists, return its length; otherwise, return 0. -/
def writetapeIschunkpresent (d : TapeW P κ) (ch : ChunkHeader) : Nat :=
  if chunksWriteIspresent d.C ch.hash = 0 then ch.len.toNat else 0

/-- Attempt to add a copy of a chunk that exists to the tape; return its length, or 0 if the data
must be written instead. -/
def writetapeWritechunk (d : TapeW P κ) (ch : ChunkHeader) : Option (Nat × TapeW P κ) :=
  if d.mode ≠ .data then some (0, d)
  else if d.cFileIn ≠ d.cFileOut then some (0, d)
  else
    match chunksWriteChunkref d.C ch.hash with
    | (0, C) => do
      let d ← streamWrite K zlib .c { d with C } ch.encode
      return (ch.len.toNat, { d with clen := d.clen + ch.len.toNat })
    | (_, C) => some (0, { d with C })

/-- Set the tape mode. The mode is not changed once an archive trailer was written. -/
def writetapeSetmode (d : TapeW P κ) (mode : Mode) : Option (TapeW P κ) :=
  if mode = d.mode then some d
  else do
    let d ← (if d.mode = .data then fileEnd K zlib d else some d)
    if d.mode = .trailer then none
    else do
      let d ← (if mode = .finished then endentry K zlib d else some d)
      return { d with mode }

/-- Record that the archive is being truncated at the current position. -/
def writetapeTruncate (d : TapeW P κ) : TapeW P κ := { d with eof := true }

end Callbacks

/-- An archive as it is handed to the storage layer. -/
structure StoredTape where
  /-- The name of the archive. -/
  name : List UInt8
  /-- The indexes of the three streams. -/
  tmi : TapeMetaindex
  /-- The files of the metaindex. -/
  ifiles : List ChunkFile
  /-- The metadata with the hash and length of the metaindex. -/
  tmd : TapeMetadata
  /-- The metadata file. -/
  mfile : List UInt8

/-- The suffix of the name of a partial archive. -/
def partSuffix : List UInt8 := [46, 112, 97, 114, 116]

/-- Copy the extra statistics, or set them to the copy. -/
def chunksWriteExtrastatsCopy (C : ChunksW) (direction : Nat) : ChunksW :=
  if direction = 0 then { C with statsExtraCopy := C.statsExtra }
  else { C with statsExtra := C.statsExtraCopy }

section Tape

variable {P : Params} {κ : Type} (K : Crypto) (zlib : Zlib) (rsa : RsaSigner K)

/-- Store archive metadata, counting the length of its file. -/
def multitapeMetadataPut {K : Crypto} (rsa : RsaSigner K) (C : ChunksW) (mdat : TapeMetadata) :
    Option (List UInt8 × ChunksW) := do
  let (buf, buflen) ← multitapeMetadataEnc rsa mdat
  return (buf, chunksWriteExtrastats C (UInt32.ofNat buflen))

/-- Flush the chunkifiers, and store metaindex and metadata. -/
def flushtape (d : TapeW P κ) (isapart : Bool) : Option (StoredTape × TapeW P κ) := do
  let d ← fileEnd K zlib d
  let d ← streamEnd K zlib .t d
  let d ← streamEnd K zlib .c d
  let d ← streamEnd K zlib .h d
  let name := if isapart then d.tapename ++ partSuffix else d.tapename
  let tmi : TapeMetaindex := {
    hindex := (d.stream .h).index.flatMap ChunkHeader.encode
    cindex := (d.stream .c).index.flatMap ChunkHeader.encode
    tindex := (d.stream .t).index.flatMap ChunkHeader.encode }
  let tmd : TapeMetadata := {
    name
    ctime := d.ctime
    argv := d.argv
    indexhash := ⟨Vector.replicate 32 0⟩
    indexlen := 0
    metadatalen := 0 }
  let (ifiles, C, tmd) ← multitapeMetaindexPut K d.C tmi tmd
  let (mfile, C) ← multitapeMetadataPut rsa C tmd
  return (⟨name, tmi, ifiles, tmd, mfile⟩, { d with C })

/-- Create a checkpoint in the tape, and return the partial archive that it stores. -/
def writetapeCheckpoint (d : TapeW P κ) : Option (StoredTape × TapeW P κ) := do
  let modeSaved := d.mode
  let short := modeSaved = .header ∨ modeSaved = .data
  let d ← (if short then writetapeSetmode K zlib d .finished else some d)
  let d ← (if d.mode = .trailer then endentry K zlib d else some d)
  let d := { d with C := chunksWriteExtrastatsCopy d.C 0 }
  let (part, d) ← flushtape K zlib rsa d true
  let d := { d with C := chunksWriteExtrastatsCopy d.C 1 }
  let d ← (if short then writetapeSetmode K zlib d modeSaved else some d)
  return (part, d)

/-- Close the tape, and return the archive that is stored. -/
def writetapeClose (d : TapeW P κ) : Option StoredTape := do
  let short := d.mode = .header ∨ d.mode = .data
  let d ← (if d.eof ∧ short then writetapeSetmode K zlib d .finished else some d)
  let d ← (if d.mode = .trailer then endentry K zlib d else some d)
  if (d.mode = .header ∨ d.mode = .data) ∧ d.eof = false then none
  else do
    let (tape, _) ← flushtape K zlib rsa d d.eof
    return tape

end Tape

/-- A tape in "end of entry" mode, with no data in any chunkifier. -/
def writetapeStart {P : Params} {κ : Type} (tapename : List UInt8) (ctime : Nat)
    (argv : List (List UInt8)) (C : ChunksW) (buf : StreamName → Vector UInt8 P.blen)
    (fileBuf : Vector UInt8 P.blen) (cookie : κ) : TapeW P κ where
  tapename
  ctime
  argv
  eof := false
  C
  stream := fun s => ⟨[], chunkifyStart P (buf s)⟩
  cFile := chunkifyStart P fileBuf
  cFileIn := 0
  cFileOut := 0
  mode := .finished
  hbuf := []
  clen := 0
  tlen := 0
  callbackCookie := cookie
  callbackChunk := none
  callbackTrailer := none
  stored := []

end Tarsnap.Multitape
