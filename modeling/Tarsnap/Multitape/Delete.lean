import Tarsnap.Chunks.RefRelease
import Tarsnap.Multitape.Committed

/-!
# Deleting an archive

The chunks of an archive are deleted by iterating over its chunk headers, then its metaindex and its
metadata are deleted, and the directory is written. A delete that succeeds took away exactly the
references of the archive, unless the iteration returned zero too early.
-/

namespace Tarsnap.Multitape

open Tarsnap.Lib Tarsnap.Chunks

/-- Call `chunks_delete_chunk` on a chunk header; it fails when the chunk is missing, or when its
file has to be deleted and this fails. -/
def callbackDelete (faults : FsckFaults) (C : ChunksD) (ch : ChunkHeader) : Int × ChunksD :=
  match chunksDeleteChunk C ch.hash with
  | none => (-1, C)
  | some next => if next.S ≠ C.S ∧ faults.delete 'c' ch.hash then (-1, next) else (0, next)

/-- Nothing fails. -/
def FsckFaults.none : FsckFaults where
  list := fun _ => false
  metadata := fun _ => .none
  name := fun _ => false
  iter := fun _ => .none
  delete := fun _ _ => false
  start := false
  directory := false

/-- What a delete commits. -/
structure DeleteResult where
  /-- The files deleted on the server. -/
  deleted : List (Char × Hash)
  /-- The new directory file. -/
  directory : List UInt8

section Model

variable (K : Crypto) (faults : FsckFaults)

/-- Read the metadata of an archive by its name. -/
def multitapeMetadataGetByname (S : Store) (tapename : List UInt8) :
    Except ReadError TapeMetadata :=
  if faults.name tapename then .error .error
  else multitapeMetadataGetByhash K (faults.metadata (K.hmacName tapename)) S (K.hmacName tapename)

/-- Delete the metadata file, counting its length. -/
def multitapeMetadataDelete (SD : StorageD) (C : ChunksD) (mdat : TapeMetadata) :
    Option (StorageD × ChunksD) :=
  if faults.name mdat.name then none
  else do
    let SD ← storageDeleteFile faults SD 'm' (K.hmacName mdat.name)
    return (SD, chunksDeleteExtrastats C (UInt32.ofNat mdat.metadatalen))

/-- Delete an archive: the result that is committed, or the return code. To flush the deletes, print
statistics or commit may fail too; this is a failure to write the directory. -/
def deletetape (order : SlotOrder) (S : Store) (directory : Option (List UInt8))
    (tapename : List UInt8) : Except Int DeleteResult :=
  if faults.start then .error (-1)
  else
    match chunksDeleteStart directory with
    | .error _ => .error (-1)
    | .ok C =>
      match multitapeMetadataGetByname K faults S tapename with
      | .error .missing => .error 1
      | .error _ => .error (-1)
      | .ok tmd =>
        let (rc, it) := multitapeChunkiterTmd K S (faults.iter (K.hmacName tapename))
          (callbackDelete faults) (fun C _ => C) tmd C
        if rc ≠ 0 then .error (-1)
        else
          -- The chunk files were deleted while the chunks were visited.
          match multitapeMetaindexDelete K faults ⟨false, it.cookie.S.map fun hash => ('c', hash)⟩
              it.cookie tmd with
          | none => .error (-1)
          | some (SD, C) =>
            match multitapeMetadataDelete K faults SD C tmd with
            | none => .error (-1)
            | some (SD, C) =>
              if faults.directory then .error (-1)
              else .ok ⟨SD.deleted, chunksDeleteEnd order C⟩

end Model

/-- Every cache failure that the delete of an archive reaches is harmless. -/
def DeleteSafe (K : Crypto) (faults : FsckFaults) (S : Store) (directory : Option (List UInt8))
    (tapename : List UInt8) : Prop :=
  ∀ tmd C, multitapeMetadataGetByhash K .none S (K.hmacName tapename) = .ok tmd →
    chunksDeleteStart directory = .ok C →
    ∀ failure : CacheFailure K S (faults.iter (K.hmacName tapename)) (callbackDelete faults)
      (fun C _ => C) tmd C, failure.Harmless

variable {K : Crypto} {faults : FsckFaults} {S : Store} {tmd : TapeMetadata}
  {directory : Option (List UInt8)} {tapename : List UInt8} {order : SlotOrder}

section Chunks

/-- The chunks of accepted headers are deleted in turn. -/
theorem callbackDelete_accepts {C : ChunksD} {headers : List ChunkHeader}
    (accepted : Accepts (callbackDelete faults) C headers) :
    (headers.map (·.hash)).foldlM chunksDeleteChunk C =
      some (headers.foldl (fun C ch => (callbackDelete faults C ch).2) C) := by
  induction headers generalizing C with
  | nil => rfl
  | cons ch headers ih =>
    obtain ⟨here, later⟩ := accepted
    rw [List.map_cons, List.foldlM_cons, List.foldl_cons]
    have step : chunksDeleteChunk C ch.hash = some (callbackDelete faults C ch).2 := by
      rw [callbackDelete] at here ⊢
      split at here
      · cases here
      · rename_i next deleted
        rw [deleted]
        split <;> rfl
    rw [step]
    exact ih later

/-- Headers are accepted when their chunks are there and no delete fails. -/
theorem accepts_callbackDelete (works : ∀ cls name, faults.delete cls name = false)
    {C last : ChunksD}
    {headers : List ChunkHeader}
    (run : (headers.map (·.hash)).foldlM chunksDeleteChunk C = some last) :
    Accepts (callbackDelete faults) C headers := by
  induction headers generalizing C with
  | nil => trivial
  | cons ch headers ih =>
    rw [List.map_cons, List.foldlM_cons] at run
    obtain ⟨next, deleted, rest⟩ := Option.bind_eq_some_iff.mp run
    have step : callbackDelete faults C ch = (0, next) := by
      simp [callbackDelete, deleted, works]
    rw [Accepts, step]
    exact ⟨rfl, ih rest⟩

/-- Files can still be deleted after a metaindex was deleted. -/
theorem multitapeMetaindexDelete_readonly {SD SD' : StorageD} {C C' : ChunksD}
    (deleted : multitapeMetaindexDelete K faults SD C tmd = some (SD', C')) :
    SD'.readonly = SD.readonly := by
  rw [multitapeMetaindexDelete] at deleted
  split at deleted
  · cases deleted
  refine foldlM_run (fun _ (state : StorageD × ChunksD) => state.1.readonly = SD.readonly) ?_ rfl
    deleted
  intro before fragnum later state state' _ holds step
  obtain ⟨SD1, here, same⟩ := Option.bind_eq_some_iff.mp step
  cases same
  rw [storageDeleteFile] at here
  split at here
  · cases here
  · cases here
    exact holds

/-- Deleting the extra data of an archive takes it off the statistics, and leaves the records. -/
theorem extrastats_deleted {SD SD1 SD2 : StorageD} {C C1 C2 : ChunksD}
    (metaindex : multitapeMetaindexDelete K faults SD C tmd = some (SD1, C1))
    (metadata : multitapeMetadataDelete K faults SD1 C1 tmd = some (SD2, C2)) :
    SD2.deleted = SD.deleted ++ tmd.names K ∧ C2.HT = C.HT ∧
      C2.statsExtra + tmd.extra = C.statsExtra := by
  obtain ⟨files, counted⟩ := multitapeMetaindexDelete_eq metaindex
  have stats := (metaindexAgreement K).delete_stats _ _ _ _ _ _ metaindex
  have same_table : ∀ (C : ChunksD) len, (chunksDeleteExtrastats C len).HT = C.HT := by
    intro C len
    rw [chunksDeleteExtrastats]
  have table : ∀ (nums : List Nat) (C : ChunksD), (nums.foldl (fun C fragnum =>
      chunksDeleteExtrastats C (UInt32.ofNat (fraglen tmd.indexlen fragnum))) C).HT = C.HT := by
    intro nums
    induction nums with
    | nil => exact fun _ => rfl
    | cons fragnum nums ih =>
      intro C
      rw [List.foldl_cons, ih, same_table]
  rw [multitapeMetadataDelete] at metadata
  split at metadata
  · exact nomatch metadata
  obtain ⟨SD3, deleted, same⟩ := Option.bind_eq_some_iff.mp metadata
  refine ⟨?_, ?_, ?_⟩
  · cases same
    rw [storageDeleteFile_deleted deleted, files, TapeMetadata.names, List.append_assoc]
  · cases same
    rw [same_table, counted]
    exact table _ C
  · cases same
    have cancel := ChunkStats.ofCopies_cancel (UInt32.ofNat tmd.metadatalen)
      (UInt32.ofNat tmd.metadatalen)
    rw [← stats, chunksDeleteExtrastats, chunksStatsAdd, TapeMetadata.extra,
      add_comm (fragStats _), ← add_assoc, add_assoc C1.statsExtra, cancel, add_zero]

end Chunks

section Transaction

/-- A delete that succeeds went through these steps. -/
theorem deletetape_ok {result : DeleteResult}
    (done : deletetape K faults order S directory tapename = .ok result) :
    ∃ C tmd it SD1 SD2 C1 C2, chunksDeleteStart directory = .ok C ∧
      multitapeMetadataGetByhash K .none S (K.hmacName tapename) = .ok tmd ∧
      multitapeChunkiterTmd K S (faults.iter (K.hmacName tapename)) (callbackDelete faults)
        (fun C _ => C) tmd C = (0, it) ∧
      multitapeMetaindexDelete K faults ⟨false, it.cookie.S.map fun hash => ('c', hash)⟩ it.cookie
        tmd = some (SD1, C1) ∧
      multitapeMetadataDelete K faults SD1 C1 tmd = some (SD2, C2) ∧
      result = ⟨SD2.deleted, chunksDeleteEnd order C2⟩ := by
  unfold deletetape at done
  split at done
  · cases done
  split at done
  · cases done
  rename_i C started
  split at done
  · cases done
  · cases done
  rename_i tmd read
  have stored : multitapeMetadataGetByhash K .none S (K.hmacName tapename) = .ok tmd := by
    unfold multitapeMetadataGetByname at read
    split at read
    · cases read
    · exact multitapeMetadataGetByhash_sound read
  generalize iterated : multitapeChunkiterTmd K S (faults.iter (K.hmacName tapename))
    (callbackDelete faults) (fun C _ => C) tmd C = outcome at done
  obtain ⟨rc, it⟩ := outcome
  simp only at done
  split at done
  · cases done
  rename_i zero
  rw [not_not] at zero
  subst zero
  split at done
  · cases done
  rename_i SD1 C1 metaindex
  split at done
  · cases done
  rename_i SD2 C2 metadata
  split at done
  · cases done
  cases done
  exact ⟨C, tmd, it, SD1, SD2, C1, C2, started, stored, iterated, metaindex, metadata, rfl⟩

variable {archives rest : List (List Hash)} {tape : List Hash} {loaded : Loaded}

/-- A delete that succeeds, and reaches no harmful cache failure, deletes the chunk files that only
the archive references, and its other files; the new directory counts the other archives. -/
theorem deletetape_describes (describes : Describes loaded archives)
    (read : chunksDirectoryRead false directory = .ok loaded)
    (bound : ∀ hash, copyRefs archives hash < 4294967296)
    (existing : archives.Perm (tape :: rest))
    (stored : multitapeMetadataGetByhash K .none S (K.hmacName tapename) = .ok tmd)
    (archive : StoredArchive K S tmd) (visits : (archive.headers.map (·.hash)).Perm tape)
    (safe : DeleteSafe K faults S directory tapename) {result : DeleteResult}
    (done : deletetape K faults order S directory tapename = .ok result) :
    ∃ (freed : List Hash) (after : Loaded), result.deleted = freed.map (fun hash => ('c', hash)) ++
      tmd.names K ∧ freed.Nodup ∧ (∀ hash, hash ∈ freed ↔ hash ∈ tape ∧ hash ∉ rest.flatten) ∧
      chunksDirectoryRead false (some result.directory) = .ok after ∧ Describes after rest ∧
      after.statsExtra + tmd.extra = loaded.statsExtra ∧
      ∀ ch ∈ after.HT, (ch.hash, ch.len, ch.zlen) ∈ sizes loaded.HT := by
  obtain ⟨C, tmd', it, SD1, SD2, C1, C2, started, found, iterated, metaindex, metadata, rfl⟩ :=
    deletetape_ok done
  cases stored.symm.trans found
  obtain ⟨C', last, started', none_, extra, run, final⟩ :=
    describes.deletes read bound existing visits
  cases started.symm.trans started'
  obtain ⟨complete, first, counted, accepted, outcome⟩ := multitapeChunkiterTmd_complete
    (safe tmd C found started) (by rw [iterated])
  have start : first = C := counted.symm.trans
    (@multitapeMetaindexGet_cookie _ K _ S _ tmd (· = C) (fun _ _ same => same) C rfl)
  subst start
  rw [complete.headers_unique archive] at accepted outcome
  have cookie : it.cookie = last := by
    have same := congrArg (fun outcome => outcome.2.cookie) (iterated.symm.trans outcome)
    have deleted := callbackDelete_accepts accepted
    rw [run] at deleted
    exact same.trans (Option.some.inj deleted).symm
  obtain ⟨deleted, table, stats⟩ := extrastats_deleted metaindex metadata
  have fewer : ∀ hash, copyRefs rest hash < 4294967296 := by
    intro hash
    have split := (refs_split existing visits hash).2.1
    rw [copiesLeft] at split
    have := bound hash
    omega
  obtain ⟨after, readAfter, describesAfter, extraAfter, kept⟩ :=
    final.describes fewer order C2.statsExtra
  refine ⟨it.cookie.S, after, deleted, ?_, ?_, ?_, describesAfter, ?_, kept⟩
  · rw [cookie]
    exact final.once
  · intro hash
    rw [cookie, final.files]
    simp [visits.mem_iff]
  · rw [chunksDeleteEnd, table, cookie]
    exact readAfter
  · have same : last.statsExtra = first.statsExtra := by
      refine foldlM_run (fun _ (state : ChunksD) => state.statsExtra = first.statsExtra) ?_ rfl run
      intro before hash later state state' _ holds step
      unfold chunksDeleteChunk at step
      split at step
      · cases step
      split at step
      · cases step
        exact holds
      · cases step
        exact holds
    rw [extraAfter, stats, cookie, same, extra]

/-- An archive that exists can be deleted. -/
theorem deletetape_succeeds (describes : Describes loaded archives)
    (read : chunksDirectoryRead false directory = .ok loaded)
    (bound : ∀ hash, copyRefs archives hash < 4294967296)
    (existing : archives.Perm (tape :: rest))
    (stored : multitapeMetadataGetByhash K .none S (K.hmacName tapename) = .ok tmd)
    (archive : StoredArchive K S tmd) (visits : (archive.headers.map (·.hash)).Perm tape) :
    ∃ result, deletetape K .none order S directory tapename = .ok result := by
  obtain ⟨C, last, started, _, _, run, _⟩ := describes.deletes read bound existing visits
  have counted := @multitapeMetaindexGet_cookie _ K .none S (fun C _ => C) tmd (· = C)
    (fun _ _ same => same) C rfl
  have accepted : Accepts (callbackDelete .none) C archive.headers :=
    accepts_callbackDelete (fun _ _ => rfl) run
  have iterated := archive.iterates counted accepted
  have found : multitapeMetadataGetByname K .none S tapename = .ok tmd := stored
  generalize iteration : ((⟨C, []⟩ : Iter ChunksD).extend (callbackDelete .none)
    archive.headers) = it at iterated
  obtain ⟨SD1, C1, metaindex⟩ := ((metaindexAgreement K).delete_some .none
    ⟨false, it.cookie.S.map fun hash => ('c', hash)⟩ it.cookie tmd).mpr
      ⟨rfl, fun _ _ => ⟨rfl, rfl⟩⟩
  have deletable : Deletable .none SD1 'm' (K.hmacName tmd.name) :=
    ⟨multitapeMetaindexDelete_readonly metaindex, rfl⟩
  obtain ⟨SD2, deleted⟩ := storageDeleteFile_some.mpr deletable
  have metadata : multitapeMetadataDelete K .none SD1 C1 tmd =
      some (SD2, chunksDeleteExtrastats C1 (UInt32.ofNat tmd.metadatalen)) := by
    rw [multitapeMetadataDelete, show FsckFaults.none.name tmd.name = false from rfl,
      if_neg Bool.false_ne_true, deleted]
    rfl
  have iter : FsckFaults.none.iter (K.hmacName tapename) = .none := rfl
  refine ⟨⟨SD2.deleted, chunksDeleteEnd order
    (chunksDeleteExtrastats C1 (UInt32.ofNat tmd.metadatalen))⟩, ?_⟩
  rw [deletetape, if_neg (by decide), started]
  simp only [found, iter, iterated, ne_eq, not_true_eq_false, if_false, metaindex, metadata]
  rw [if_neg (by decide)]

end Transaction

end Tarsnap.Multitape
