import Tarsnap.Chunkify.RollingExact
import Tarsnap.Multitape.Delete

/-!
# Reference counts over whole histories

An account starts empty. Archives are written over its directory, completely or up to a checkpoint,
and deleted by their names; what each transaction commits is what the next one starts from. After
any such history the directory counts the references of the archives on the server, as long as no
delete reaches a harmful cache failure and no two different chunks have the same hash.
-/

namespace Tarsnap.Multitape

open Tarsnap.Lib Tarsnap.Chunks Tarsnap.Chunkify

/-- What the transactions of an account committed. -/
structure Account where
  /-- The directory file in the cache directory. -/
  directory : Option (List UInt8)
  /-- The files on the server. -/
  S : Store
  /-- The metadata of the archives that exist. -/
  archives : List TapeMetadata

/-- Nothing was archived yet. -/
def Account.empty : Account := ⟨none, fun _ _ => none, []⟩

/-- Files are deleted from a machine. -/
def removeFiles (S : Store) (files : List (Char × Hash)) : Store := fun cls name =>
  if (cls, name) ∈ files then none else S cls name

section Model

variable (K : Crypto) (zlib : Zlib) (rsa : RsaSigner K) (contents : Hash → List UInt8)

/-- The references of the archives that exist. -/
def Account.references (account : Account) : List (List Hash) :=
  account.archives.map (archiveReferences K account.S)

/-- An archive is written: its chunks, its other files and the new directory are committed. -/
def Account.write (account : Account) (order : SlotOrder) (tape : StoredTape) (C : ChunksW) :
    Account where
  directory := chunksWriteCheckpoint order C
  S := commitArchive K (withFiles account.S (C.S.getD [])) tape
  archives := tape.metadata :: account.archives

/-- A delete is committed: an archive exists as long as its metadata does. -/
def Account.delete (account : Account) (result : DeleteResult) : Account where
  directory := some result.directory
  S := removeFiles account.S result.deleted
  archives := account.archives.filter fun tmd => ('m', K.hmacName tmd.name) ∉ result.deleted

/-- An archive is written over a directory by any calls: completely, or cut off at a checkpoint. The
tape is the one from which the directory is written. -/
inductive Written (directory : Option (List UInt8)) {P : Params} {κ : Type} :
    StoredTape → TapeW P κ → Prop
  /-- The tape was closed. -/
  | complete {C : ChunksW} {tapename : List UInt8} {ctime : Nat} {argv : List (List UInt8)}
      {buf : StreamName → Vector UInt8 P.blen} {fileBuf : Vector UInt8 P.blen} {cookie : κ}
      {parts : List (StoredTape × TapeW P κ)} {d last : TapeW P κ} {tape : StoredTape}
      (started : chunksWriteStart directory (some []) MAXCHUNK = .ok C)
      (created : Created K zlib rsa (writetapeStart tapename ctime argv C buf fileBuf cookie)
        parts d)
      (closed : writetapeClosed K zlib rsa d = some (tape, last)) : Written directory tape last
  /-- The last checkpoint is what is kept. -/
  | cut {C : ChunksW} {tapename : List UInt8} {ctime : Nat} {argv : List (List UInt8)}
      {buf : StreamName → Vector UInt8 P.blen} {fileBuf : Vector UInt8 P.blen} {cookie : κ}
      {parts : List (StoredTape × TapeW P κ)} {d last : TapeW P κ} {tape : StoredTape}
      (started : chunksWriteStart directory (some []) MAXCHUNK = .ok C)
      (created : Created K zlib rsa (writetapeStart tapename ctime argv C buf fileBuf cookie)
        (parts ++ [(tape, last)]) d) : Written directory tape last

/-- A write transaction is committed. The server refuses files that exist, the fields of the
metadata are values of their types, chunks are known by their hashes, and counters stay words. -/
inductive WriteStep (account : Account) : StoredTape → Account → Prop
  /-- The new account. -/
  | commit {P : Params} {κ : Type} {tape : StoredTape} {last : TapeW P κ} (order : SlotOrder)
      (params : TapeParams P) (written : Written K zlib rsa account.directory tape last)
      (faithful : Faithful contents last) (valid : tape.tmd.Valid)
      (distinct : (tape.metadata.names K).Nodup)
      (fresh : ∀ file ∈ tape.metadata.names K, account.S file.1 file.2 = none)
      (fits : ∀ hash, copyRefs ((account.write K order tape last.C).references K) hash <
        4294967296) :
      WriteStep account tape (account.write K order tape last.C)

/-- A condition on a delete: the account before it, what fails in it, and the name of the
archive. -/
abbrev DeleteCondition := Account → FsckFaults → List UInt8 → Prop

/-- No delete reaches a harmful cache failure. -/
def cacheSafe : DeleteCondition := fun account faults tapename =>
  DeleteSafe K faults account.S account.directory tapename

/-- The accounts of all histories from the empty one whose deletes meet a condition. -/
inductive Reachable (allowed : DeleteCondition) : Account → Prop
  /-- Nothing was archived yet. -/
  | empty : Reachable allowed Account.empty
  /-- An archive is written. -/
  | write {account next : Account} {tape : StoredTape} (reachable : Reachable allowed account)
      (step : WriteStep K zlib rsa contents account tape next) : Reachable allowed next
  /-- An archive is deleted. -/
  | delete {account : Account} {faults : FsckFaults} {order : SlotOrder} {tapename : List UInt8}
      {result : DeleteResult} (reachable : Reachable allowed account)
      (permitted : allowed account faults tapename)
      (done : deletetape K faults order account.S account.directory tapename = .ok result) :
      Reachable allowed (account.delete K result)

/-- A directory counts the archives that exist. -/
structure CountsArchives (account : Account) (loaded : Loaded) : Prop where
  /-- A referenced chunk has a record with the number of archives that reference it and the number
  of their references. -/
  counts : ∀ hash ∈ (account.references K).flatten, ∃ ch, rwhashtabRead loaded.HT hash = some ch ∧
    ch.nrefs.toNat = tapeRefs (account.references K) hash ∧
    ch.ncopies.toNat = copyRefs (account.references K) hash
  /-- Any other chunk has none. -/
  absent : ∀ hash, hash ∉ (account.references K).flatten → rwhashtabRead loaded.HT hash = none
  /-- The total statistics are summed over the references. -/
  all : loaded.statsAll = ((account.references K).flatten.map (oneCopy loaded.HT)).sum
  /-- The unique statistics are summed over the referenced chunks. -/
  unique : loaded.statsUnique = ((account.references K).flatten.dedup.map (oneCopy loaded.HT)).sum
  /-- The statistics of extra data are summed over the archives. -/
  extra : loaded.statsExtra = (account.archives.map TapeMetadata.extra).sum

/-- Two accounts have the same archives and files, and directories that are read as the same. -/
structure Restores (account restored : Account) : Prop where
  /-- The archives. -/
  archives : restored.archives = account.archives
  /-- The files. -/
  S : restored.S = account.S
  /-- The directories. -/
  directory : ∃ before after, chunksDirectoryRead false account.directory = .ok before ∧
    chunksDirectoryRead false restored.directory = .ok after ∧
    (∀ hash, rwhashtabRead after.HT hash = rwhashtabRead before.HT hash) ∧
    after.statsAll = before.statsAll ∧ after.statsUnique = before.statsUnique ∧
    after.statsExtra = before.statsExtra

/-- What reference counting guarantees of an account. -/
structure RefCounted (account : Account) : Prop where
  /-- The directory that is stored counts the archives. -/
  directory : ∃ loaded, chunksDirectoryRead false account.directory = .ok loaded ∧
    CountsArchives K account loaded
  /-- The server has the files of exactly the referenced chunks. -/
  files : ∀ hash, (account.S 'c' hash).isSome ↔ hash ∈ (account.references K).flatten
  /-- A delete transaction deletes the file of a chunk, once, exactly if it deletes the last archive
  that references it. -/
  deletes : ∀ faults order tapename result, cacheSafe K account faults tapename →
    deletetape K faults order account.S account.directory tapename = .ok result →
    ∃ before tmd after, account.archives = before ++ tmd :: after ∧
      K.hmacName tmd.name = K.hmacName tapename ∧
      (account.delete K result).archives = before ++ after ∧
      ∀ hash, result.deleted.count ('c', hash) =
        if hash ∈ archiveReferences K account.S tmd ∧
          hash ∉ ((before ++ after).map (archiveReferences K account.S)).flatten then 1 else 0
  /-- Every archive can be deleted. -/
  deletable : ∀ order, ∀ tmd ∈ account.archives,
    ∃ result, deletetape K .none order account.S account.directory tmd.name = .ok result
  /-- Deleting an archive that was just written undoes the write. -/
  undone : ∀ tape next faults order result, WriteStep K zlib rsa contents account tape next →
    cacheSafe K next faults tape.tmd.name →
    deletetape K faults order next.S next.directory tape.tmd.name = .ok result →
    Restores account (next.delete K result)

/-- The invariant of histories. -/
structure Consistent (account : Account) : Prop where
  /-- The directory describes the archives, and the chunks are read back. -/
  directory : ∃ loaded, chunksDirectoryRead false account.directory = .ok loaded ∧
    Describes loaded (account.references K) ∧
    loaded.statsExtra = (account.archives.map TapeMetadata.extra).sum ∧
    Readable K MAXCHUNK contents account.S loaded.HT
  /-- The counters are words. -/
  bound : ∀ hash, copyRefs (account.references K) hash < 4294967296
  /-- The archives are on the server. -/
  stored : ∀ tmd ∈ account.archives,
    multitapeMetadataGetByhash K .none account.S (K.hmacName tmd.name) = .ok tmd ∧
      Nonempty (StoredArchive K account.S tmd)
  /-- No two of their files have the same name. -/
  distinct : (account.archives.flatMap (TapeMetadata.names K)).Nodup
  /-- The server has the files of the referenced chunks. -/
  chunks : ∀ hash, (account.S 'c' hash).isSome ↔ hash ∈ (account.references K).flatten
  /-- The other files are those of the archives. -/
  others : ∀ cls name, cls ≠ 'c' → ((account.S cls name).isSome ↔
    (cls, name) ∈ account.archives.flatMap (TapeMetadata.names K))

end Model

variable {K : Crypto} {zlib : Zlib} {rsa : RsaSigner K} {contents : Hash → List UInt8}
  {account next : Account} {tape : StoredTape}

section Archives

variable {S S' : Store} {tmd : TapeMetadata}

/-- Metadata depends on its own file only. -/
theorem multitapeMetadataGetByhash_congr {faults : MetadataFaults} {hash : Hash}
    (same : S' 'm' hash = S 'm' hash) :
    multitapeMetadataGetByhash K faults S' hash = multitapeMetadataGetByhash K faults S hash := by
  simp only [multitapeMetadataGetByhash, storageReadFileAlloc, same]

/-- The files of an archive. -/
theorem TapeMetadata.mem_names {cls : Char} {name : Hash} : (cls, name) ∈ tmd.names K ↔
    (cls = 'i' ∧ name ∈ fragnames K tmd) ∨ (cls = 'm' ∧ name = K.hmacName tmd.name) := by
  rw [TapeMetadata.names, List.mem_append, List.mem_singleton, List.mem_map, Prod.mk.injEq]
  apply or_congr_left
  constructor
  · rintro ⟨name, inside, same⟩
    cases same
    exact ⟨rfl, inside⟩
  · rintro ⟨rfl, inside⟩
    exact ⟨name, inside, rfl⟩

/-- No file of an archive but its chunks is a chunk. -/
theorem TapeMetadata.chunk_not_mem {hash : Hash} : ('c', hash) ∉ tmd.names K := by
  rw [TapeMetadata.mem_names]
  rintro (⟨absurdity, _⟩ | ⟨absurdity, _⟩) <;> exact absurd absurdity (by decide)

/-- An archive stays while its files and the chunks that it references do. -/
theorem archive_stays (stored : multitapeMetadataGetByhash K .none S (K.hmacName tmd.name) =
    .ok tmd ∧ Nonempty (StoredArchive K S tmd))
    (files : ∀ cls name, (cls, name) ∈ tmd.names K → S' cls name = S cls name)
    (chunks : ∀ hash ∈ archiveReferences K S tmd, S' 'c' hash = S 'c' hash) :
    (multitapeMetadataGetByhash K .none S' (K.hmacName tmd.name) = .ok tmd ∧
      Nonempty (StoredArchive K S' tmd)) ∧
      archiveReferences K S' tmd = archiveReferences K S tmd := by
  obtain ⟨metadata, ⟨archive⟩⟩ := stored
  have mfile := files 'm' (K.hmacName tmd.name) (TapeMetadata.mem_names.mpr (.inr ⟨rfl, rfl⟩))
  obtain ⟨moved, same⟩ : ∃ moved : StoredArchive K S' tmd, moved.headers = archive.headers :=
    archive.moved
      (fun name inside => files 'i' name (TapeMetadata.mem_names.mpr (.inl ⟨rfl, inside⟩)))
      (fun ch member => chunks _ (archive.index_mem member))
  refine ⟨⟨(multitapeMetadataGetByhash_congr mfile).trans metadata, ⟨moved⟩⟩, ?_⟩
  rw [archiveReferences_eq moved, same, archiveReferences_eq archive]

end Archives

section Write

/-- A chunk is found among the new files or among the old ones. -/
theorem withFiles_isSome {S : Store} {files : List ChunkFile} {hash : Hash} :
    (withFiles S files 'c' hash).isSome ↔
      hash ∈ files.map Prod.fst ∨ (S 'c' hash).isSome := by
  rw [withFiles, if_pos rfl, Option.isSome_or, Bool.or_eq_true, Option.isSome_map]
  simp [List.find?_isSome]

/-- An old chunk is the same if no new file has its name. -/
theorem withFiles_old {S : Store} {files : List ChunkFile} {hash : Hash}
    (old : hash ∉ files.map Prod.fst) : withFiles S files 'c' hash = S 'c' hash := by
  have none_ : files.find? (·.1 = hash) = none := by
    rw [List.find?_eq_none]
    intro file member same
    exact old (List.mem_map.mpr ⟨file, member, by simpa using same⟩)
  rw [withFiles, if_pos rfl, none_]
  rfl

/-- Files of other classes are left alone. -/
theorem withFiles_other {S : Store} {files : List ChunkFile} {cls : Char} {name : Hash}
    (other : cls ≠ 'c') : withFiles S files cls name = S cls name := by
  rw [withFiles, if_neg other]

variable {P : Params} {κ : Type} {last : TapeW P κ} {loaded : Loaded}
  {archives : List (List Hash)} {base : Store}

/-- A write transaction starts as a session without references. -/
theorem session_start {directory : Option (List UInt8)} (describes : Describes loaded archives)
    (read : chunksDirectoryRead false directory = .ok loaded)
    (readable : Readable K MAXCHUNK contents base loaded.HT) {C : ChunksW}
    (started : chunksWriteStart directory (some []) MAXCHUNK = .ok C) :
    Session K contents base loaded.HT archives [] C ∧ C.maxlen = MAXCHUNK ∧
      C.statsExtra = loaded.statsExtra := by
  have writing := describes.writing read started
  rw [chunksWriteStart, read, ok_bind] at started
  cases started
  have same : withFiles base [] = base := by
    funext cls name
    rw [withFiles]
    split <;> rfl
  refine ⟨⟨writing, [], rfl, ?_⟩, rfl, rfl⟩
  rw [same]
  exact readable

/-- However an archive was written, its references are recorded, it was flushed, and its extra data
is counted. -/
theorem Written.recorded {directory : Option (List UInt8)} (params : TapeParams P)
    (inflates : Unpacks K zlib) (written : Written K zlib rsa directory tape last)
    (faithful : Faithful contents last) (describes : Describes loaded archives)
    (read : chunksDirectoryRead false directory = .ok loaded)
    (readable : Readable K MAXCHUNK contents base loaded.HT) :
    Recorded K contents base loaded.HT archives last ∧ Flushed rsa tape last ∧
      last.C.statsExtra = loaded.statsExtra + tape.extra := by
  cases written with
  | complete started created closed =>
    obtain ⟨session, maxlen, extra⟩ := session_start describes read readable started
    obtain ⟨calls, _⟩ := created.records params inflates
    obtain ⟨final, flushed⟩ := writetapeClosed_records params inflates closed
    have counted := (writetapeClosed_extras closed).1
    rw [created.extras.1] at counted
    refine ⟨(calls.trans final).recorded faithful (writetapeStart_recorded session maxlen), flushed,
      counted.trans ?_⟩
    rw [← extra]
    rfl
  | @cut C tapename ctime argv buf fileBuf cookie before d _ _ started created =>
    obtain ⟨session, maxlen, extra⟩ := session_start describes read readable started
    have member := List.mem_append_right before (List.mem_singleton_self (tape, last))
    obtain ⟨_, parts⟩ := created.records params inflates
    obtain ⟨calls, flushed⟩ := parts _ member
    have counted := created.extras.2.2 _ member
    refine ⟨calls.recorded faithful (writetapeStart_recorded session maxlen), flushed,
      counted.trans ?_⟩
    rw [← extra]
    rfl

/-- What a committed write adds: the archive on the server, whose references are counted over those
of the archives that were there, while these stay as they were. -/
structure Added (K : Crypto) (contents : Hash → List UInt8) (account : Account) (loaded : Loaded)
    (tape : StoredTape) (C : ChunksW) (next : Account) : Prop where
  /-- The archives. -/
  archives : next.archives = tape.metadata :: account.archives
  /-- The references of the old archives. -/
  old : account.archives.map (archiveReferences K next.S) = account.references K
  /-- The references of the new archive are counted. -/
  session : Session K contents account.S loaded.HT (account.references K)
    (archiveReferences K next.S tape.metadata) C
  /-- The length of chunks is bounded. -/
  maxlen : C.maxlen = MAXCHUNK
  /-- The counters stay words. -/
  fits : ∀ hash, copyRefs (next.references K) hash < 4294967296
  /-- No two files of the new archive have the same name. -/
  distinct : (tape.metadata.names K).Nodup
  /-- They were not there. -/
  fresh : ∀ cls name, (cls, name) ∈ tape.metadata.names K → account.S cls name = none
  /-- The extra data of the new archive is counted. -/
  extra : C.statsExtra = loaded.statsExtra + tape.metadata.extra
  /-- The directory is written from these records. -/
  directory : ∃ order, next.directory = some (chunksDirectoryWrite order C.HT C.statsExtra)
  /-- The archives are on the server. -/
  stored : ∀ tmd ∈ next.archives,
    multitapeMetadataGetByhash K .none next.S (K.hmacName tmd.name) = .ok tmd ∧
      Nonempty (StoredArchive K next.S tmd)
  /-- The chunks are the old ones and those that were written. -/
  chunks : ∃ files, C.S = some files ∧ ∀ hash, next.S 'c' hash = withFiles account.S files 'c' hash
  /-- The files of the new archive are there. -/
  names : ∀ cls name, (cls, name) ∈ tape.metadata.names K → (next.S cls name).isSome
  /-- All other files are the same. -/
  others : ∀ cls name, cls ≠ 'c' → (cls, name) ∉ tape.metadata.names K →
    next.S cls name = account.S cls name

/-- What a write adds to a consistent account. -/
theorem WriteStep.added (inflates : Unpacks K zlib) (consistent : Consistent K contents account)
    (step : WriteStep K zlib rsa contents account tape next) {loaded : Loaded}
    (read : chunksDirectoryRead false account.directory = .ok loaded) :
    ∃ C, Added K contents account loaded tape C next := by
  obtain ⟨_, again, describes, _, readable⟩ := consistent.directory
  cases read.symm.trans again
  cases step with
  | @commit P κ _ last order params written faithful valid distinct fresh fits =>
    obtain ⟨recorded, flushed, extra⟩ :=
      written.recorded params inflates faithful describes read readable
    have fragments : (fragnames K tape.metadata).Nodup :=
      (List.nodup_append.mp distinct).1.of_map _
    obtain ⟨files, stored, maxlen⟩ : ∃ files, last.C.S = some files ∧ last.C.maxlen = MAXCHUNK := by
      obtain ⟨headers, referencing, _⟩ := recorded
      obtain ⟨files, stored, _⟩ := referencing.session.readable
      exact ⟨files, stored, referencing.maxlen⟩
    obtain ⟨archive, session⟩ := flushed.committed recorded fragments stored
    have S : (account.write K order tape last.C).S =
        commitArchive K (withFiles account.S files) tape := by
      rw [Account.write, stored]
      rfl
    have chunk : ∀ hash, (account.write K order tape last.C).S 'c' hash =
        withFiles account.S files 'c' hash := by
      intro hash
      rw [S, commitArchive_chunk]
    have others : ∀ cls name, cls ≠ 'c' → (cls, name) ∉ tape.metadata.names K →
        (account.write K order tape last.C).S cls name = account.S cls name := by
      intro cls name notChunk other
      rw [S, flushed.commit_other other, withFiles_other notChunk]
    have kept : ∀ hash ∈ (account.references K).flatten,
        withFiles account.S files 'c' hash = account.S 'c' hash := by
      intro hash referenced
      obtain ⟨files', held, _, new⟩ := session.writing.files
      cases held.symm.trans stored
      exact withFiles_old fun inside => ((new hash).mp inside).2 referenced
    have stays : ∀ tmd ∈ account.archives,
        (multitapeMetadataGetByhash K .none (account.write K order tape last.C).S
          (K.hmacName tmd.name) = .ok tmd ∧
            Nonempty (StoredArchive K (account.write K order tape last.C).S tmd)) ∧
        archiveReferences K (account.write K order tape last.C).S tmd =
          archiveReferences K account.S tmd := by
      intro tmd member
      apply archive_stays (consistent.stored tmd member)
      · intro cls name inside
        have notChunk : cls ≠ 'c' := by
          rintro rfl
          exact TapeMetadata.chunk_not_mem inside
        apply others cls name notChunk
        intro both
        have there := (consistent.others cls name notChunk).mpr
          (List.mem_flatMap.mpr ⟨tmd, member, inside⟩)
        rw [fresh (cls, name) both] at there
        cases there
      · intro hash inside
        rw [chunk]
        exact kept hash (List.mem_flatten.mpr ⟨_, List.mem_map_of_mem member, inside⟩)
    refine ⟨last.C, ⟨rfl, ?_, ?_, maxlen, fits, distinct, fun cls name => fresh (cls, name), ?_,
      ⟨order, ?_⟩, ?_, ⟨files, stored, chunk⟩, ?_, others⟩⟩
    · exact List.map_congr_left fun tmd member => (stays tmd member).2
    · rw [S]
      exact session
    · rw [extra, flushed.extra]
    · rw [Account.write, chunksWriteCheckpoint, stored]
      rfl
    · intro tmd member
      rcases List.mem_cons.mp member with rfl | older
      · rw [S]
        exact ⟨flushed.metadata_get valid, archive⟩
      · exact (stays tmd older).1
    · intro cls name inside
      rw [S]
      exact flushed.commit_mem fragments inside

variable {C : ChunksW}

/-- The references after a write are those of the new archive and the old ones. -/
theorem Added.references (added : Added K contents account loaded tape C next) :
    next.references K = archiveReferences K next.S tape.metadata :: account.references K := by
  rw [Account.references, added.archives, List.map_cons, added.old]

/-- The directory after a write describes all archives, with the lengths of the records. -/
theorem Added.describes (added : Added K contents account loaded tape C next) :
    ∃ after, chunksDirectoryRead false next.directory = .ok after ∧
      Describes after (next.references K) ∧
      after.statsExtra = loaded.statsExtra + tape.metadata.extra ∧
      ∀ ch ∈ after.HT, (ch.hash, ch.len, ch.zlen) ∈ sizes C.HT := by
  obtain ⟨order, directory⟩ := added.directory
  have fits := added.fits
  rw [added.references] at fits
  obtain ⟨after, read, describes, extra, kept⟩ := added.session.writing.describes fits order
  rw [directory, added.references]
  exact ⟨after, read, describes, extra.trans added.extra, kept⟩

/-- The chunk files after a write are the old ones and those of new references. -/
theorem Added.chunk (added : Added K contents account loaded tape C next)
    (consistent : Consistent K contents account) (hash : Hash) :
    (next.S 'c' hash).isSome ↔ hash ∈ (next.references K).flatten := by
  obtain ⟨files, stored, same⟩ := added.chunks
  obtain ⟨files', held, _, new⟩ := added.session.writing.files
  cases held.symm.trans stored
  rw [same, withFiles_isSome, new, consistent.chunks, added.references, List.flatten_cons,
    List.mem_append]
  tauto

/-- A write keeps the account consistent. -/
theorem Added.consistent (added : Added K contents account loaded tape C next)
    (consistent : Consistent K contents account)
    (read : chunksDirectoryRead false account.directory = .ok loaded) :
    Consistent K contents next := by
  obtain ⟨_, again, _, extra, _⟩ := consistent.directory
  cases read.symm.trans again
  obtain ⟨after, readAfter, describes, extraAfter, kept⟩ := added.describes
  obtain ⟨files, stored, chunk⟩ := added.chunks
  have apart : ∀ file ∈ account.archives.flatMap (TapeMetadata.names K),
      file ∉ tape.metadata.names K := by
    rintro ⟨cls, name⟩ older newer
    obtain ⟨tmd, member, inside⟩ := List.mem_flatMap.mp older
    have notChunk : cls ≠ 'c' := by
      rintro rfl
      exact TapeMetadata.chunk_not_mem inside
    have there := (consistent.others cls name notChunk).mpr older
    rw [added.fresh cls name newer] at there
    cases there
  refine ⟨⟨after, readAfter, describes, ?_, ?_⟩, added.fits, added.stored, ?_,
    added.chunk consistent, ?_⟩
  · rw [extraAfter, extra, added.archives, List.map_cons, List.sum_cons, add_comm]
  · obtain ⟨files', held, readable⟩ := added.session.readable
    cases held.symm.trans stored
    rw [added.maxlen] at readable
    exact readable.congr kept fun ch _ => chunk ch.hash
  · rw [added.archives, List.flatMap_cons, List.nodup_append]
    refine ⟨added.distinct, consistent.distinct, ?_⟩
    rintro file newer other older rfl
    exact apart file older newer
  · intro cls name notChunk
    rw [added.archives, List.flatMap_cons, List.mem_append, ← consistent.others cls name notChunk]
    by_cases newer : (cls, name) ∈ tape.metadata.names K
    · simp [added.names cls name newer, newer]
    · rw [added.others cls name notChunk newer]
      simp [newer]

end Write

section Delete

variable {faults : FsckFaults} {order : SlotOrder} {tapename : List UInt8} {result : DeleteResult}
  {loaded : Loaded} {before after : List TapeMetadata} {tmd : TapeMetadata}

/-- What a delete takes away: one archive, and the chunks that no other references. -/
structure Removed (K : Crypto) (account : Account) (loaded : Loaded) (tapename : List UInt8)
    (before : List TapeMetadata) (tmd : TapeMetadata) (after : List TapeMetadata)
    (result : DeleteResult) : Prop where
  /-- The archive is one of those that exist. -/
  archives : account.archives = before ++ tmd :: after
  /-- It has this name. -/
  name : K.hmacName tmd.name = K.hmacName tapename
  /-- The files that are deleted. -/
  deleted : ∃ freed : List Hash, result.deleted = freed.map (fun hash => ('c', hash)) ++
    tmd.names K ∧ freed.Nodup ∧ ∀ hash, hash ∈ freed ↔ hash ∈ archiveReferences K account.S tmd ∧
      hash ∉ ((before ++ after).map (archiveReferences K account.S)).flatten
  /-- The new directory describes the others. -/
  directory : ∃ last, chunksDirectoryRead false (some result.directory) = .ok last ∧
    Describes last ((before ++ after).map (archiveReferences K account.S)) ∧
    last.statsExtra + tmd.extra = loaded.statsExtra ∧
    ∀ ch ∈ last.HT, (ch.hash, ch.len, ch.zlen) ∈ sizes loaded.HT

/-- Metadata that is found belongs to an archive that exists. -/
theorem Consistent.found (consistent : Consistent K contents account) {hash : Hash}
    (found : multitapeMetadataGetByhash K .none account.S hash = .ok tmd) :
    tmd ∈ account.archives := by
  have there : (account.S 'm' hash).isSome := by
    obtain ⟨mbuf, read, _⟩ := bind_eq_ok.mp found
    rw [MetadataFaults.none, storageReadFileAlloc] at read
    cases held : account.S 'm' hash with
    | none =>
      simp only [held] at read
      cases read
    | some data => rfl
  obtain ⟨other, member, inside⟩ :=
    List.mem_flatMap.mp ((consistent.others 'm' hash (by decide)).mp there)
  have same : hash = K.hmacName other.name := by
    rcases TapeMetadata.mem_names.mp inside with ⟨absurdity, _⟩ | ⟨_, same⟩
    · exact absurd absurdity (by decide)
    · exact same
  have again := (consistent.stored other member).1
  rw [← same, found] at again
  cases again
  exact member

/-- What a delete takes away from a consistent account. -/
theorem deletetape_removed (consistent : Consistent K contents account)
    (safe : cacheSafe K account faults tapename)
    (done : deletetape K faults order account.S account.directory tapename = .ok result)
    (read : chunksDirectoryRead false account.directory = .ok loaded) :
    ∃ before tmd after, Removed K account loaded tapename before tmd after result := by
  obtain ⟨_, again, describes, _, _⟩ := consistent.directory
  cases read.symm.trans again
  obtain ⟨_, tmd, _, _, _, _, _, _, found, _⟩ := deletetape_ok done
  have member := consistent.found found
  obtain ⟨_, ⟨archive⟩⟩ := consistent.stored tmd member
  obtain ⟨before, after, split⟩ := List.append_of_mem member
  have existing : (account.references K).Perm (archiveReferences K account.S tmd ::
      (before ++ after).map (archiveReferences K account.S)) := by
    rw [Account.references, split, ← List.map_cons]
    exact List.Perm.map _ List.perm_middle
  have visits : (archive.headers.map (·.hash)).Perm (archiveReferences K account.S tmd) := by
    rw [archiveReferences_eq archive]
  obtain ⟨freed, last, deleted, once, files, readLast, describesLast, extra, kept⟩ :=
    deletetape_describes describes read consistent.bound existing found archive visits safe done
  exact ⟨before, tmd, after, split, multitapeMetadataGetByhash_name found,
    ⟨freed, deleted, once, files⟩, last, readLast, describesLast, extra, kept⟩

/-- A chunk file is deleted, once, if this archive is the last one that references it. -/
theorem Removed.count (removed : Removed K account loaded tapename before tmd after result)
    (hash : Hash) : result.deleted.count ('c', hash) =
      if hash ∈ archiveReferences K account.S tmd ∧
        hash ∉ ((before ++ after).map (archiveReferences K account.S)).flatten then 1 else 0 := by
  obtain ⟨freed, deleted, once, files⟩ := removed.deleted
  have injective : Function.Injective fun hash : Hash => ('c', hash) :=
    fun left right same => congrArg Prod.snd same
  rw [deleted, List.count_append, List.count_map_of_injective _ _ injective,
    List.count_eq_zero_of_not_mem TapeMetadata.chunk_not_mem, Nat.add_zero]
  split
  · rename_i last
    exact List.count_eq_one_of_mem once ((files hash).mpr last)
  · rename_i kept
    exact List.count_eq_zero_of_not_mem fun inside => kept ((files hash).mp inside)

/-- A file that is not a chunk is deleted exactly if it belongs to the archive. -/
theorem Removed.mem_deleted (removed : Removed K account loaded tapename before tmd after result)
    {cls : Char} {name : Hash} (notChunk : cls ≠ 'c') :
    (cls, name) ∈ result.deleted ↔ (cls, name) ∈ tmd.names K := by
  obtain ⟨freed, deleted, _⟩ := removed.deleted
  rw [deleted, List.mem_append, or_iff_right]
  rintro inside
  obtain ⟨hash, _, same⟩ := List.mem_map.mp inside
  exact notChunk (congrArg Prod.fst same).symm

/-- The other archives have other files. -/
theorem Removed.apart (removed : Removed K account loaded tapename before tmd after result)
    (consistent : Consistent K contents account) :
    ((before ++ after).flatMap (TapeMetadata.names K)).Nodup ∧
      ∀ other ∈ before ++ after, ∀ file ∈ other.names K, file ∉ tmd.names K := by
  have distinct := consistent.distinct
  rw [removed.archives, (List.perm_middle.flatMap_right _).nodup_iff, List.flatMap_cons,
    List.nodup_append] at distinct
  refine ⟨distinct.2.1, ?_⟩
  intro other member file inside owned
  exact distinct.2.2 file owned file (List.mem_flatMap.mpr ⟨other, member, inside⟩) rfl

/-- The archive is gone, and the others exist. -/
theorem Removed.remaining (removed : Removed K account loaded tapename before tmd after result)
    (consistent : Consistent K contents account) :
    (account.delete K result).archives = before ++ after := by
  have metadata : ∀ other : TapeMetadata, ('m', K.hmacName other.name) ∈ other.names K :=
    fun other => TapeMetadata.mem_names.mpr (.inr ⟨rfl, rfl⟩)
  have gone : ('m', K.hmacName tmd.name) ∈ result.deleted :=
    (removed.mem_deleted (by decide)).mpr (metadata tmd)
  have stays : ∀ other ∈ before ++ after, ('m', K.hmacName other.name) ∉ result.deleted := by
    intro other member inside
    rw [removed.mem_deleted (by decide)] at inside
    exact (removed.apart consistent).2 other member _ (metadata other) inside
  have all : (before ++ after).filter (fun other => ('m', K.hmacName other.name) ∉ result.deleted) =
      before ++ after := by
    rw [List.filter_eq_self]
    intro other member
    exact decide_eq_true (stays other member)
  rw [Account.delete, removed.archives, ← all, List.filter_append, List.filter_append,
    List.filter_cons_of_neg (by simpa using gone)]

/-- A chunk that another archive references stays. -/
theorem Removed.kept (removed : Removed K account loaded tapename before tmd after result)
    {hash : Hash} (referenced : hash ∈
      ((before ++ after).map (archiveReferences K account.S)).flatten) :
    (account.delete K result).S 'c' hash = account.S 'c' hash := by
  apply if_neg
  have none_ := removed.count hash
  rw [if_neg fun both => both.2 referenced] at none_
  exact List.count_eq_zero.mp none_

/-- Files of other archives and chunks that they reference stay. -/
theorem Removed.stays (removed : Removed K account loaded tapename before tmd after result)
    (consistent : Consistent K contents account) : ∀ other ∈ before ++ after,
    (multitapeMetadataGetByhash K .none (account.delete K result).S (K.hmacName other.name) =
      .ok other ∧ Nonempty (StoredArchive K (account.delete K result).S other)) ∧
      archiveReferences K (account.delete K result).S other =
        archiveReferences K account.S other := by
  intro other member
  have existed : other ∈ account.archives := by
    rw [removed.archives]
    simp only [List.mem_append, List.mem_cons] at member ⊢
    tauto
  apply archive_stays (consistent.stored other existed)
  · intro cls name inside
    have notChunk : cls ≠ 'c' := by
      rintro rfl
      exact TapeMetadata.chunk_not_mem inside
    apply if_neg
    rw [removed.mem_deleted notChunk]
    exact (removed.apart consistent).2 other member _ inside
  · intro hash referenced
    exact removed.kept (List.mem_flatten.mpr ⟨_, List.mem_map_of_mem member, referenced⟩)

/-- The references after a delete are those of the other archives. -/
theorem Removed.references (removed : Removed K account loaded tapename before tmd after result)
    (consistent : Consistent K contents account) :
    (account.delete K result).references K =
      (before ++ after).map (archiveReferences K account.S) := by
  rw [Account.references, removed.remaining consistent]
  exact List.map_congr_left fun other member => (removed.stays consistent other member).2

/-- The references before a delete are those of the archive and of the others. -/
theorem Removed.split (removed : Removed K account loaded tapename before tmd after result) :
    (account.references K).Perm (archiveReferences K account.S tmd ::
      (before ++ after).map (archiveReferences K account.S)) := by
  rw [Account.references, removed.archives, ← List.map_cons]
  exact List.Perm.map _ List.perm_middle

/-- The chunk files after a delete are those of the references that are left. -/
theorem Removed.chunk (removed : Removed K account loaded tapename before tmd after result)
    (consistent : Consistent K contents account) (hash : Hash) :
    ((account.delete K result).S 'c' hash).isSome ↔
      hash ∈ ((before ++ after).map (archiveReferences K account.S)).flatten := by
  constructor
  · intro there
    by_contra unreferenced
    simp only [Account.delete, removeFiles] at there
    split at there
    · cases there
    rename_i kept
    rw [consistent.chunks, removed.split.flatten.mem_iff, List.flatten_cons,
      List.mem_append] at there
    have once := removed.count hash
    rw [if_pos ⟨there.resolve_right unreferenced, unreferenced⟩, List.count_eq_zero.mpr
      kept] at once
    exact absurd once (by decide)
  · intro referenced
    rw [removed.kept referenced, consistent.chunks, removed.split.flatten.mem_iff,
      List.flatten_cons]
    exact List.mem_append_right _ referenced

/-- A delete keeps the account consistent. -/
theorem Removed.consistent (removed : Removed K account loaded tapename before tmd after result)
    (consistent : Consistent K contents account)
    (read : chunksDirectoryRead false account.directory = .ok loaded) :
    Consistent K contents (account.delete K result) := by
  obtain ⟨_, again, _, extra, readable⟩ := consistent.directory
  cases read.symm.trans again
  have references := removed.references consistent
  have remaining := removed.remaining consistent
  obtain ⟨last, readLast, describes, extraLast, kept⟩ := removed.directory
  refine ⟨⟨last, readLast, ?_, ?_, ?_⟩, ?_, ?_, ?_, ?_, ?_⟩
  · rw [references]
    exact describes
  · have sum : ((before ++ tmd :: after).map TapeMetadata.extra).Perm
        ((tmd :: (before ++ after)).map TapeMetadata.extra) := List.perm_middle.map _
    rw [extra, removed.archives, sum.sum_eq, List.map_cons, List.sum_cons, add_comm tmd.extra]
      at extraLast
    rw [remaining]
    exact ChunkStats.add_right_cancel extraLast
  · refine readable.congr kept fun ch member => removed.kept ?_
    exact (describes.counts.listed ch.hash).mp (List.mem_map_of_mem member)
  · intro hash
    have bound := consistent.bound hash
    rw [copyRefs, removed.split.flatten.count_eq, List.flatten_cons, List.count_append] at bound
    rw [references, copyRefs]
    omega
  · intro other member
    rw [remaining] at member
    exact (removed.stays consistent other member).1
  · rw [remaining]
    exact (removed.apart consistent).1
  · intro hash
    rw [references]
    exact removed.chunk consistent hash
  · intro cls name notChunk
    have owned : (cls, name) ∈ result.deleted ↔ (cls, name) ∈ tmd.names K :=
      removed.mem_deleted notChunk
    have there := consistent.others cls name notChunk
    rw [removed.archives, (List.perm_middle.flatMap_right _).mem_iff, List.flatMap_cons,
      List.mem_append] at there
    rw [remaining]
    simp only [Account.delete, removeFiles]
    split
    · rename_i gone
      refine ⟨fun absurdity => absurd absurdity Bool.false_ne_true, fun inside => ?_⟩
      obtain ⟨other, member, inside⟩ := List.mem_flatMap.mp inside
      exact absurd (owned.mp gone) ((removed.apart consistent).2 other member _ inside)
    · rename_i stays
      rw [there, or_iff_right]
      exact fun inside => stays (owned.mpr inside)

end Delete

section Histories

variable {loaded : Loaded}

/-- The empty account is consistent. -/
theorem Account.empty_consistent : Consistent K contents Account.empty := by
  refine ⟨⟨⟨[], 0, 0, 0⟩, rfl, ⟨⟨List.nodup_nil, ?_, ?_, ?_, ?_, ?_⟩, rfl, rfl⟩, rfl, ?_⟩,
    ?_, ?_, List.nodup_nil, ?_, ?_⟩
  all_goals simp [Account.empty, Account.references, copyRefs, Readable]

/-- Every reachable account is consistent. -/
theorem Reachable.consistent (inflates : Unpacks K zlib)
    (reachable : Reachable K zlib rsa contents (cacheSafe K) account) :
    Consistent K contents account := by
  induction reachable with
  | empty => exact Account.empty_consistent
  | write _ step ih =>
    obtain ⟨loaded, read, _⟩ := ih.directory
    obtain ⟨C, added⟩ := step.added inflates ih read
    exact added.consistent ih read
  | delete _ safe done ih =>
    obtain ⟨loaded, read, _⟩ := ih.directory
    obtain ⟨before, tmd, after, removed⟩ := deletetape_removed ih safe done read
    exact removed.consistent ih read

/-- The directory of a consistent account counts the archives. -/
theorem Consistent.counts (consistent : Consistent K contents account)
    (describes : Describes loaded (account.references K))
    (extra : loaded.statsExtra = (account.archives.map TapeMetadata.extra).sum) :
    CountsArchives K account loaded := by
  refine ⟨?_, ?_, describes.all_eq_sum, describes.unique_eq_sum, extra⟩
  · intro hash referenced
    obtain ⟨ch, member, rfl⟩ :=
      List.mem_map.mp ((describes.counts.listed hash).mpr referenced)
    have copies := consistent.bound ch.hash
    have tapes := (tapeRefs_le_copyRefs (account.references K) ch.hash).trans_lt copies
    refine ⟨ch, rwhashtabRead_of_mem describes.counts.nodup member, ?_, ?_⟩
    · rw [describes.counts.nrefs ch member, UInt32.toNat_ofNat', Nat.mod_eq_of_lt tapes]
    · rw [describes.counts.ncopies ch member, UInt32.toNat_ofNat', Nat.mod_eq_of_lt copies]
  · intro hash unreferenced
    rw [rwhashtabRead_none, describes.counts.listed]
    exact unreferenced

/-- The archive with the name of the one that was just written is this one. -/
theorem Added.newest {C : ChunksW} {loaded' : Loaded} {before after : List TapeMetadata}
    {tmd : TapeMetadata} {result : DeleteResult} (added : Added K contents account loaded
      tape C next)
    (consistent : Consistent K contents account)
    (removed : Removed K next loaded' tape.tmd.name before tmd after result) :
    tmd = tape.metadata ∧ before ++ after = account.archives := by
  have split := removed.archives
  rw [added.archives] at split
  cases before with
  | nil =>
    obtain ⟨rfl, rfl⟩ := List.cons.inj split
    exact ⟨rfl, rfl⟩
  | cons first before =>
    obtain ⟨_, older⟩ := List.cons.inj split
    have member : tmd ∈ account.archives := by
      rw [older]
      exact List.mem_append_right _ List.mem_cons_self
    have there : (account.S 'm' (K.hmacName tmd.name)).isSome := by
      rw [consistent.others _ _ (by decide)]
      exact List.mem_flatMap.mpr ⟨tmd, member, TapeMetadata.mem_names.mpr (.inr ⟨rfl, rfl⟩)⟩
    have fresh := added.fresh 'm' (K.hmacName tape.tmd.name)
      (TapeMetadata.mem_names.mpr (.inr ⟨rfl, rfl⟩))
    rw [removed.name, fresh] at there
    cases there

/-- Deleting an archive that was just written undoes the write. -/
theorem WriteStep.undone (inflates : Unpacks K zlib) (consistent : Consistent K contents account)
    (step : WriteStep K zlib rsa contents account tape next) {faults : FsckFaults}
    {order : SlotOrder} {result : DeleteResult} (safe : cacheSafe K next faults tape.tmd.name)
    (done : deletetape K faults order next.S next.directory tape.tmd.name = .ok result) :
    Restores account (next.delete K result) := by
  obtain ⟨loaded, read, describes, extra, readable⟩ := consistent.directory
  obtain ⟨C, added⟩ := step.added inflates consistent read
  have nextConsistent := added.consistent consistent read
  obtain ⟨loaded', read', describes', extra', kept'⟩ := added.describes
  obtain ⟨before, tmd, after, removed⟩ := deletetape_removed nextConsistent safe done read'
  obtain ⟨rfl, rest⟩ := added.newest consistent removed
  have references : (before ++ after).map (archiveReferences K next.S) = account.references K := by
    rw [rest, added.old]
  refine ⟨(removed.remaining nextConsistent).trans rest, ?_, ?_⟩
  · funext cls name
    by_cases chunk : cls = 'c'
    · subst chunk
      by_cases referenced : name ∈ (account.references K).flatten
      · obtain ⟨files, stored, same⟩ := added.chunks
        obtain ⟨files', held, _, new⟩ := added.session.writing.files
        cases held.symm.trans stored
        rw [removed.kept (by rw [references]; exact referenced), same]
        exact withFiles_old fun inside => ((new name).mp inside).2 referenced
      · have gone := (removed.chunk nextConsistent name).not
        rw [references, Bool.not_eq_true, Option.isSome_eq_false_iff, Option.isNone_iff_eq_none]
          at gone
        have none_ := (consistent.chunks name).not
        rw [Bool.not_eq_true, Option.isSome_eq_false_iff, Option.isNone_iff_eq_none] at none_
        rw [gone.mpr referenced, none_.mpr referenced]
    · simp only [Account.delete, removeFiles, removed.mem_deleted chunk]
      split
      · rename_i owned
        exact (added.fresh cls name owned).symm
      · rename_i other
        exact added.others cls name chunk other
  · obtain ⟨last, readLast, describesLast, extraLast, keptLast⟩ := removed.directory
    rw [references] at describesLast
    obtain ⟨more, sizes_⟩ := added.session.writing.kept
    have old : ∀ ch ∈ loaded.HT, (ch.hash, ch.len, ch.zlen) ∈ sizes C.HT := by
      intro ch member
      rw [sizes_]
      exact List.mem_append_left _ (List.mem_map_of_mem member)
    have new : ∀ ch ∈ last.HT, (ch.hash, ch.len, ch.zlen) ∈ sizes C.HT := by
      intro ch member
      obtain ⟨record, inside, same⟩ := List.mem_map.mp (keptLast ch member)
      rw [← same]
      exact kept' record inside
    have records := describes.same_records describesLast added.session.writing.counts.nodup old new
    obtain ⟨all, unique⟩ := describes.same_stats describesLast records
    exact ⟨loaded, last, read, readLast, records, all, unique,
      ChunkStats.add_right_cancel (extraLast.trans extra')⟩

/-- Reference counts are right after every history of committed writes and deletes. -/
theorem reachable_refCounted (inflates : Unpacks K zlib)
    (reachable : Reachable K zlib rsa contents (cacheSafe K) account) :
    RefCounted K zlib rsa contents account := by
  have consistent := reachable.consistent inflates
  obtain ⟨loaded, read, describes, extra, _⟩ := consistent.directory
  refine ⟨⟨loaded, read, consistent.counts describes extra⟩, consistent.chunks, ?_, ?_, ?_⟩
  · intro faults order tapename result safe done
    obtain ⟨before, tmd, after, removed⟩ := deletetape_removed consistent safe done read
    exact ⟨before, tmd, after, removed.archives, removed.name, removed.remaining consistent,
      removed.count⟩
  · intro order tmd member
    obtain ⟨metadata, ⟨archive⟩⟩ := consistent.stored tmd member
    obtain ⟨before, after, split⟩ := List.append_of_mem member
    have existing : (account.references K).Perm (archiveReferences K account.S tmd ::
        (before ++ after).map (archiveReferences K account.S)) := by
      rw [Account.references, split, ← List.map_cons]
      exact List.Perm.map _ List.perm_middle
    exact deletetape_succeeds describes read consistent.bound existing metadata archive
      (by rw [archiveReferences_eq archive])
  · intro tape next faults order result step safe done
    exact step.undone inflates consistent safe done

end Histories

section Example

/-- A hash that is the length of a buffer and its first bytes. -/
def lengthedHash (buf : List UInt8) : Hash :=
  ⟨Vector.ofFn fun i => (UInt8.ofNat buf.length :: buf).getD i.val 0⟩

/-- Primitives with such hashes of chunks, and compressed streams of one stored block. -/
def lengthedCrypto : Crypto := { Chunks.storedCrypto with hmacChunk := lengthedHash }

/-- A signer whose signatures are zeros. -/
def lengthedSigner : RsaSigner lengthedCrypto where
  rsaSign _ := some (List.replicate 256 0)
  length := zeroSignature_length
  verifies := fun _ => rfl

/-- The first entry of an archive that has a checkpoint. -/
def firstEntry : List UInt8 := entryheader 2 0 0 ++ [1, 2]

/-- The chunk with this entry. -/
def firstChunk : ChunkHeader := ⟨lengthedHash firstEntry, 18, 30⟩

/-- The chunks of the archive: its first entry, its trailer, its chunk index and its second
entry. -/
def knownChunks : List (List UInt8) := [firstEntry, [9], firstChunk.encode, entryheader 0 18 1]

/-- The chunk that is known under a hash. -/
def knownContents (hash : Hash) : List UInt8 :=
  (knownChunks.find? fun buf => lengthedHash buf = hash).getD []

/-- A tape that is started over an empty account. -/
def firstTape : TapeW beyondParams Unit :=
  writetapeStart [97] 0 [] ⟨MAXCHUNK, [], some [], 0, 0, 0, 0, 0, 0, 0⟩
    (fun _ => Vector.replicate 261120 0) (Vector.replicate 261120 0) ()

/-- An entry with a header, a checkpoint, and an entry with the chunk and a trailer. -/
def firstRun : Option (StoredTape × TapeW beyondParams Unit) := do
  let (_, d) ← (TapeOp.setmode .header).run lengthedCrypto storedZlib lengthedSigner firstTape
  let (_, d) ← (TapeOp.write false [1, 2]).run lengthedCrypto storedZlib lengthedSigner d
  let (_, d) ← writetapeCheckpoint lengthedCrypto storedZlib lengthedSigner d
  let (_, d) ← (TapeOp.setmode .data).run lengthedCrypto storedZlib lengthedSigner d
  let (_, d) ← (TapeOp.writechunk firstChunk).run lengthedCrypto storedZlib lengthedSigner d
  let (_, d) ← (TapeOp.write false [9]).run lengthedCrypto storedZlib lengthedSigner d
  let (_, d) ← (TapeOp.setmode .finished).run lengthedCrypto storedZlib lengthedSigner d
  writetapeClosed lengthedCrypto storedZlib lengthedSigner d

/-- The account after this archive is written. -/
def firstAccount (tape : StoredTape) (last : TapeW beyondParams Unit) : Account :=
  Account.empty.write lengthedCrypto listOrder tape last.C

/-- Nothing can be noted for caching. -/
def cacheFaults : FsckFaults :=
  { FsckFaults.none with iter := fun _ => { IterFaults.none with cache := fun _ => true } }

/-- A delete of this archive in which nothing can be noted for caching, and the directory after
it. -/
def cutDelete (tape : StoredTape) (last : TapeW beyondParams Unit) :
    Option (DeleteResult × Loaded) := do
  let account := firstAccount tape last
  let result ← (deletetape lengthedCrypto cacheFaults listOrder account.S account.directory
    tape.tmd.name).toOption
  let loaded ← (chunksDirectoryRead false (some result.directory)).toOption
  return (result, loaded)

/-- How many references the archive has, by the metadata that is read. -/
def firstReferences (tape : StoredTape) (last : TapeW beyondParams Unit) : Option Nat := do
  let S := (firstAccount tape last).S
  let tmd ← (multitapeMetadataGetByhash lengthedCrypto .none S
    (lengthedCrypto.hmacName tape.tmd.name)).toOption
  return (archiveReferences lengthedCrypto S tmd).length

/-- The archive is written over an empty account. -/
theorem firstRun_written {tape : StoredTape} {last : TapeW beyondParams Unit}
    (run : firstRun = some (tape, last)) :
    Written lengthedCrypto storedZlib lengthedSigner none tape last := by
  rw [firstRun] at run
  obtain ⟨⟨_, d1⟩, header, run⟩ := Option.bind_eq_some_iff.mp run
  obtain ⟨⟨_, d2⟩, entry, run⟩ := Option.bind_eq_some_iff.mp run
  obtain ⟨⟨part, d3⟩, made, run⟩ := Option.bind_eq_some_iff.mp run
  obtain ⟨⟨_, d4⟩, data, run⟩ := Option.bind_eq_some_iff.mp run
  obtain ⟨⟨_, d5⟩, chunk, run⟩ := Option.bind_eq_some_iff.mp run
  obtain ⟨⟨_, d6⟩, trailer, run⟩ := Option.bind_eq_some_iff.mp run
  obtain ⟨⟨_, d7⟩, ended, closed⟩ := Option.bind_eq_some_iff.mp run
  obtain ⟨middle, flushed, _⟩ := writetapeCheckpoint_part made
  have opened := (Created.none.call (by simp) header).call (by simp) entry
  have calls := (((opened.checkpoint flushed made).call (by simp) data).call (by simp) chunk)
  exact .complete rfl ((calls.call (by simp) trailer).call (by simp) ended) closed

/-- The chunks that are stored are the known ones. -/
theorem firstRun_stored : ∀ result ∈ firstRun,
    ∀ piece ∈ result.2.stored, knownContents piece.1.hash = piece.2 := by decide +kernel

/-- The fields of the metadata. -/
theorem firstRun_fields : ∀ result ∈ firstRun, result.1.tmd.name = [97] ∧ result.1.tmd.argv = [] ∧
    result.1.tmd.ctime = 0 ∧ result.1.tmd.indexlen = 172 := by decide +kernel

/-- The files of the archive have two names. -/
theorem firstRun_names : ∀ result ∈ firstRun, (result.1.metadata.names lengthedCrypto).Nodup := by
  decide +kernel

/-- The archive has five references. -/
theorem firstRun_references : ∀ result ∈ firstRun, firstReferences result.1 result.2 = some 5 := by
  decide +kernel

/-- The delete takes the archive away, and leaves a record. -/
theorem firstRun_cut : ∀ result ∈ firstRun, (cutDelete result.1 result.2).any (fun cut =>
    ('m', lengthedCrypto.hmacName result.1.tmd.name) ∈ cut.1.deleted ∧ cut.2.HT ≠ []) = true := by
  decide +kernel

/-- The decompressor inverts the compressor. -/
theorem lengthedCrypto_inflates : Unpacks lengthedCrypto storedZlib := storedZlib_inverts.inverts

variable {tape : StoredTape} {last : TapeW beyondParams Unit}

/-- The archive is written. -/
theorem firstRun_isSome : firstRun.isSome := by decide +kernel

/-- Chunks are known by their hashes. -/
theorem firstRun_faithful (run : (tape, last) ∈ firstRun) : Faithful knownContents last :=
  fun ch buf inside => firstRun_stored _ run (ch, buf) inside

/-- The fields of the metadata are values of their types. -/
theorem firstRun_valid (run : (tape, last) ∈ firstRun) : tape.tmd.Valid := by
  obtain ⟨name, argv, ctime, indexlen⟩ := firstRun_fields _ run
  refine ⟨?_, ?_, ?_, ?_, ?_⟩
  · rw [name]
    decide
  · rw [argv]
    exact fun _ absurdity => absurd absurdity List.not_mem_nil
  · rw [argv]
    decide
  · rw [ctime]
    decide
  · rw [indexlen]
    decide

/-- The counters are small. -/
theorem firstRun_fits (run : (tape, last) ∈ firstRun) (hash : Hash) :
    copyRefs ((firstAccount tape last).references lengthedCrypto) hash < 4294967296 := by
  have counted := firstRun_references _ run
  rw [firstReferences] at counted
  obtain ⟨tmd, read, counted⟩ := Option.bind_eq_some_iff.mp counted
  have consistent : Consistent lengthedCrypto knownContents Account.empty :=
    Account.empty_consistent
  obtain ⟨loaded, start, describes, _, readable⟩ := consistent.directory
  obtain ⟨_, flushed, _⟩ := (firstRun_written run).recorded ⟨rfl, rfl⟩ lengthedCrypto_inflates
    (firstRun_faithful run) describes start readable
  have found : multitapeMetadataGetByhash lengthedCrypto .none (firstAccount tape last).S
      (lengthedCrypto.hmacName tape.tmd.name) = .ok tape.metadata :=
    flushed.metadata_get (firstRun_valid run)
  rw [found] at read
  cases read
  have length : (archiveReferences lengthedCrypto (firstAccount tape last).S
      tape.metadata).length = 5 := Option.some.inj counted
  have short : copyRefs ((firstAccount tape last).references lengthedCrypto) hash ≤ 5 := by
    rw [copyRefs, ← length, Account.references, firstAccount, Account.write]
    simp only [Account.empty, List.map_cons, List.map_nil, List.flatten_cons, List.flatten_nil,
      List.append_nil]
    exact List.count_le_length
  omega

/-- The archive is committed over the empty account. -/
theorem firstRun_step (run : (tape, last) ∈ firstRun) :
    WriteStep lengthedCrypto storedZlib lengthedSigner knownContents Account.empty tape
      (firstAccount tape last) := by
  have params : TapeParams beyondParams := ⟨rfl, rfl⟩
  have written := firstRun_written run
  have faithful := firstRun_faithful run
  have valid := firstRun_valid run
  have distinct := firstRun_names _ run
  have fits := firstRun_fits run
  unfold firstAccount at fits ⊢
  exact .commit listOrder params written faithful valid distinct (fun _ _ => rfl) fits

/-- A result is what is left of it. -/
theorem toOption_eq_some {ε α : Type} {result : Except ε α} {value : α} :
    result.toOption = some value ↔ result = .ok value := by
  cases result with
  | error => exact ⟨fun absurdity => (nomatch absurdity), fun absurdity => (nomatch absurdity)⟩
  | ok => rw [Except.toOption, Option.some.injEq, Except.ok.injEq]

/-- A delete that can note nothing for caching leaves a record of a chunk that no archive
references, although nothing fails otherwise. -/
theorem reachable_cut : ¬∀ (K : Crypto) (zlib : Zlib) (rsa : RsaSigner K)
    (contents : Hash → List UInt8) (account : Account), Unpacks K zlib →
    Reachable K zlib rsa contents (fun _ _ _ => True) account →
    RefCounted K zlib rsa contents account := by
  intro counted
  obtain ⟨⟨tape, last⟩, run⟩ := Option.isSome_iff_exists.mp firstRun_isSome
  have member : (tape, last) ∈ firstRun := Option.mem_def.mpr run
  have written : Reachable lengthedCrypto storedZlib lengthedSigner knownContents
      (fun _ _ _ => True) (firstAccount tape last) := Reachable.empty.write (firstRun_step member)
  obtain ⟨⟨result, loaded⟩, cut, left⟩ := (Option.any_eq_true _ _).mp (firstRun_cut _ member)
  rw [cutDelete] at cut
  obtain ⟨result', done, cut⟩ := Option.bind_eq_some_iff.mp cut
  obtain ⟨loaded', read, same⟩ := Option.bind_eq_some_iff.mp cut
  cases same
  rw [decide_eq_true_eq] at left
  have deleted := counted _ _ _ _ _ lengthedCrypto_inflates
    (written.delete trivial (toOption_eq_some.mp done))
  obtain ⟨again, readAgain, counts⟩ := deleted.directory
  cases (toOption_eq_some.mp read).symm.trans readAgain
  have archives : ((firstAccount tape last).delete lengthedCrypto result).archives = [] := by
    rw [Account.delete, firstAccount, Account.write]
    simp only [Account.empty]
    have gone : ('m', lengthedCrypto.hmacName tape.metadata.name) ∈ result.deleted := left.1
    exact List.filter_cons_of_neg (by simpa using gone)
  have none_ : (((firstAccount tape last).delete lengthedCrypto result).references
      lengthedCrypto).flatten = [] := by
    rw [Account.references, archives]
    rfl
  obtain ⟨ch, inside⟩ := List.exists_mem_of_ne_nil _ left.2
  have absent := counts.absent ch.hash (by rw [none_]; exact List.not_mem_nil)
  exact rwhashtabRead_none.mp absent (List.mem_map_of_mem inside)

/-- One archive is written and deleted again. -/
theorem reachable_refCounted_first : ∃ written deleted : Account,
    written.archives.length = 1 ∧ deleted.archives = [] ∧
    RefCounted lengthedCrypto storedZlib lengthedSigner knownContents written ∧
    RefCounted lengthedCrypto storedZlib lengthedSigner knownContents deleted := by
  obtain ⟨⟨tape, last⟩, run⟩ := Option.isSome_iff_exists.mp firstRun_isSome
  have step := firstRun_step (Option.mem_def.mpr run)
  have reachable : Reachable lengthedCrypto storedZlib lengthedSigner knownContents
      (cacheSafe lengthedCrypto) (firstAccount tape last) := Reachable.empty.write step
  have counted := reachable_refCounted lengthedCrypto_inflates reachable
  obtain ⟨result, done⟩ := counted.deletable listOrder tape.metadata List.mem_cons_self
  have safe : cacheSafe lengthedCrypto (firstAccount tape last) .none tape.metadata.name :=
    fun _ _ _ _ failure => absurd failure.uncached Bool.false_ne_true
  obtain ⟨before, tmd, after, archives, _, remaining, _⟩ :=
    counted.deletes .none listOrder tape.metadata.name result safe done
  have one : (firstAccount tape last).archives.length = 1 := rfl
  refine ⟨_, _, one, ?_, counted,
    reachable_refCounted lengthedCrypto_inflates (reachable.delete safe done)⟩
  rw [remaining, ← List.length_eq_zero_iff]
  rw [archives, List.length_append, List.length_cons] at one
  rw [List.length_append]
  omega

end Example

end Tarsnap.Multitape
