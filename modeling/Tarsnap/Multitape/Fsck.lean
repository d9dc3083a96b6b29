import Tarsnap.Chunks.Stats
import Tarsnap.Multitape.Iteration
import Tarsnap.Multitape.Metadata

/-!
# Checking and repairing the archives

The check reads the metadata of every archive, drops archives whose metadata or metaindex is
damaged, counts the chunks of each remaining archive, drops those whose chunks are missing or
damaged, and last deletes every chunk file that has no reference. All deletes are part of one
transaction, which is committed only when every step succeeded.
-/

namespace Tarsnap.Multitape

open Tarsnap.Lib Tarsnap.Chunks

/-- Binary search, which at least halves the list at each step. -/
def findinlistLoop (file : Hash) : Nat → List Hash → Nat
  | 0, flist => flist.length
  | fuel + 1, flist =>
    if flist.length = 0 then flist.length
    else if flist.length = 1 then
      if flist[0]? = some file then 0 else flist.length
    else
      let midpoint := flist.length / 2
      match flist[midpoint]? with
      | none => flist.length
      | some middle =>
        match memcmp file.bytes.toList middle.bytes.toList with
        | .lt =>
          let rc := findinlistLoop file fuel (flist.take midpoint)
          if rc = midpoint then flist.length else rc
        | .eq => midpoint
        | .gt =>
          let rc := findinlistLoop file fuel (flist.drop (midpoint + 1))
          if rc = flist.length - (midpoint + 1) then flist.length else rc + (midpoint + 1)

/-- Find a file in a sorted list and return its location, or the length of the list. -/
def findinlist (file : Hash) (flist : List Hash) : Nat :=
  findinlistLoop file flist.length flist

/-- What the server holds when the transaction starts. -/
structure Machine where
  /-- The contents of the files. -/
  S : Store
  /-- The names of the metadata files. -/
  mfiles : List Hash
  /-- The names of the metaindex files. -/
  ifiles : List Hash
  /-- The names of the chunk files. -/
  cfiles : List Hash

/-- What may fail during a check. -/
structure FsckFaults where
  /-- Reading a list of files fails. -/
  list : Char → Bool
  /-- Reading the metadata in a file fails. -/
  metadata : Hash → MetadataFaults
  /-- Hashing an archive name fails. -/
  name : List UInt8 → Bool
  /-- Iterating over the chunks of the archive with a metadata file fails. -/
  iter : Hash → IterFaults
  /-- Deleting a file fails. -/
  delete : Char → Hash → Bool
  /-- Preparing the table of chunks fails. -/
  start : Bool
  /-- Writing the directory fails. -/
  directory : Bool

/-- The storage layer delete cookie. -/
structure StorageD where
  /-- Whether nothing may be deleted. -/
  readonly : Bool
  /-- The files deleted in the transaction. -/
  deleted : List (Char × Hash)

/-- Delete a file as part of the transaction. -/
def storageDeleteFile (faults : FsckFaults) (SD : StorageD) (cls : Char) (name : Hash) :
    Option StorageD :=
  if SD.readonly ∨ faults.delete cls name then none
  else some { SD with deleted := SD.deleted ++ [(cls, name)] }

/-- Count a chunk of the current archive. -/
def callbackChunkref (C : ChunksS) (ch : ChunkHeader) : Int × ChunksS :=
  chunksStatsAddchunk C ch.hash ch.len ch.zlen

section Phases

variable (K : Crypto) (faults : FsckFaults)

/-- Delete the metadata and index of an archive. -/
def deletearchive (SD : StorageD) (tmd : TapeMetadata) : Option StorageD :=
  if faults.name tmd.name then none
  else do
    let hbuf := K.hmacName tmd.name
    let SD ← (fragnums tmd.indexlen).foldlM
      (fun SD fragnum => storageDeleteFile faults SD 'i'
        (multitapeMetaindexFragname K hbuf fragnum)) SD
    storageDeleteFile faults SD 'm' hbuf

/-- Parse a metadata file, and delete it if it is corrupt. -/
def phase1Step (S : Store) (state : StorageD × List TapeMetadata) (file : Hash) :
    Option (StorageD × List TapeMetadata) :=
  if (faults.metadata file).alloc then none
  else
    match multitapeMetadataGetByhash K (faults.metadata file) S file with
    | .error .error => none
    | .ok mdat => some (state.1, state.2 ++ [mdat])
    | .error .missing => none
    | .error .corrupt => do
      let SD ← storageDeleteFile faults state.1 'm' file
      return (SD, state.2)

/-- Read and parse the metadata files. -/
def phase1 (M : Machine) (SD : StorageD) : Option (StorageD × List TapeMetadata) :=
  if faults.list 'm' then none else M.mfiles.foldlM (phase1Step K faults M.S) (SD, [])

/-- Drop metadata for which a metaindex file is missing. -/
def phase2Step (ifiles : List Hash) (state : StorageD × List (Option TapeMetadata))
    (mdat : TapeMetadata) : Option (StorageD × List (Option TapeMetadata)) :=
  if faults.name mdat.name then none
  else
    let hbuf := K.hmacName mdat.name
    if (fragnums mdat.indexlen).any fun fragnum =>
        findinlist (multitapeMetaindexFragname K hbuf fragnum) ifiles = ifiles.length then do
      let SD ← storageDeleteFile faults state.1 'm' hbuf
      return (SD, state.2 ++ [none])
    else some (state.1, state.2 ++ [some mdat])

/-- The locations of the metaindex files that an archive needs. -/
def neededFiles (ifiles : List Hash) (mdat : TapeMetadata) : List Nat :=
  (fragnums mdat.indexlen).map fun fragnum =>
    findinlist (multitapeMetaindexFragname K (K.hmacName mdat.name) fragnum) ifiles

/-- Drop metadata or metaindex files without their counterparts. -/
def phase2 (M : Machine) (SD : StorageD) (mdatlist : List TapeMetadata) :
    Option (StorageD × List (Option TapeMetadata)) :=
  if faults.list 'i' then none
  else do
    let (SD, mdatlist) ← mdatlist.foldlM (phase2Step K faults M.ifiles) (SD, [])
    let neededvec := (mdatlist.filterMap id).flatMap (neededFiles K M.ifiles)
    let SD ← M.ifiles.zipIdx.foldlM (fun SD file =>
      if file.2 ∈ neededvec then some SD else storageDeleteFile faults SD 'i' file.1) SD
    return (SD, mdatlist)

/-- Read the list of chunks. -/
def phase3 (M : Machine) : Option ChunksS :=
  if faults.list 'c' ∨ faults.start then none else chunksFsckStart M.cfiles

/-- Count the chunks of an archive; keep it if they are there, delete it if one is missing or
corrupt. -/
def phase4Step (S : Store) (state : StorageD × ChunksS) :
    Option TapeMetadata → Option (StorageD × ChunksS)
  | none => some state
  | some mdat =>
    let C := chunksStatsExtrastats (chunksStatsZeroarchive state.2) mdat.metadatalen
    let (rc, it) := multitapeChunkiterTmd K S (faults.iter (K.hmacName mdat.name))
      callbackChunkref chunksStatsExtrastats mdat C
    if rc = -1 then none
    else if rc = 0 then some (state.1, chunksFsckArchiveAdd it.cookie)
    else if rc = 1 ∨ rc = 2 then do
      let SD ← deletearchive K faults state.1 mdat
      return (SD, it.cookie)
    else some (state.1, it.cookie)

/-- Verify the archives and count their chunks. -/
def phase4 (M : Machine) (SD : StorageD) (C : ChunksS) (mdatlist : List (Option TapeMetadata)) :
    Option (StorageD × ChunksS) :=
  mdatlist.foldlM (phase4Step K faults M.S) (SD, C)

/-- Delete the chunks without references. -/
def phase5 (order : SlotOrder) (SD : StorageD) (C : ChunksS) : Option StorageD :=
  (chunksFsckDeletechunks order C).foldlM (fun SD hash => storageDeleteFile faults SD 'c' hash) SD

/-- What a check commits. -/
structure FsckResult where
  /-- The files deleted on the server. -/
  deleted : List (Char × Hash)
  /-- The new directory file. -/
  directory : List UInt8

/-- Check the archives; files are deleted only when pruning. -/
def fscktape (order : SlotOrder) (M : Machine) (prune : Bool) : Option FsckResult := do
  let (SD, mdatlist) ← phase1 K faults M ⟨!prune, []⟩
  let (SD, mdatlist) ← phase2 K faults M SD mdatlist
  let C ← phase3 faults M
  let (SD, C) ← phase4 K faults M SD C mdatlist
  let SD ← phase5 faults order SD C
  if faults.directory then none else some ⟨SD.deleted, chunksFsckEnd order C⟩

end Phases

end Tarsnap.Multitape
