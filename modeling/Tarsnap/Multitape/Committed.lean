import Tarsnap.Multitape.ReferenceRuns
import Tarsnap.Multitape.FsckSafety
import Tarsnap.Multitape.MetaindexCodec

/-!
# Archives on the server

The references of an archive are the hashes of the chunk headers that an iteration over it visits.
When a flushed tape is committed, its archive is on the server, and the chunk layer counted exactly
its references; the archive stays the same when files of others come and go.
-/

namespace Tarsnap.Multitape

open Tarsnap.Lib Tarsnap.Chunks Tarsnap.Chunkify

/-- Nothing fails. -/
def IterFaults.none : IterFaults where
  init := false
  metaindex := .none
  ibuf := false
  cache := fun _ => false
  read := fun _ => .none

/-- What an archive adds to the statistics of extra data. -/
def TapeMetadata.extra (tmd : TapeMetadata) : ChunkStats :=
  fragStats tmd.indexlen +
    ChunkStats.ofCopies (UInt32.ofNat tmd.metadatalen) (UInt32.ofNat tmd.metadatalen) 1

section Model

variable (K : Crypto) (S : Store)

/-- The files of an archive that are not chunks. -/
def TapeMetadata.names (tmd : TapeMetadata) : List (Char × Hash) :=
  (fragnames K tmd).map (fun name => ('i', name)) ++ [('m', K.hmacName tmd.name)]

/-- The references of an archive on a machine: the hashes of the chunk headers that an iteration
without failures calls back on. -/
def archiveReferences (tmd : TapeMetadata) : List Hash :=
  (multitapeChunkiterTmd K S .none (fun _ _ => (0, ())) (fun _ _ => ()) tmd ()).2.calls.map (·.hash)

/-- The metadata of a stored archive as it is read. -/
def StoredTape.metadata (tape : StoredTape) : TapeMetadata :=
  { tape.tmd with metadatalen := tape.mfile.length }

/-- The files of a machine after the metadata and the metaindex of an archive are committed. -/
def commitArchive (tape : StoredTape) : Store :=
  Store.writeFiles
    (fun cls name =>
      if cls = 'm' ∧ name = K.hmacName tape.tmd.name then some tape.mfile else S cls name)
    tape.ifiles

end Model

variable {K : Crypto} {S S' : Store} {tmd : TapeMetadata}

section Iteration

variable {σ : Type} {func : σ → ChunkHeader → Int × σ} {extrastats : σ → Nat → σ}

/-- Stored chunks are passed when nothing fails. -/
theorem passed_none {chunk : Nat} {contents : List (ChunkHeader × List UInt8)}
    (stored : ∀ each ∈ contents, HasContents K S each) : Passed K S .none chunk contents := by
  induction contents generalizing chunk with
  | nil => trivial
  | cons first rest ih =>
    obtain ⟨ch, data⟩ := first
    obtain ⟨sized, read⟩ := stored _ List.mem_cons_self
    exact ⟨⟨sized, rfl, read⟩, ih fun each member => stored each (List.mem_cons_of_mem _ member)⟩

/-- The metaindex of a stored archive is read when nothing fails. -/
theorem StoredArchive.read (archive : StoredArchive K S tmd) (cookie : σ) :
    (multitapeMetaindexGet K .none S extrastats tmd cookie).1 = .ok archive.tmi := by
  obtain ⟨held, joined, hash, small, _⟩ := multitapeMetaindexGet_only archive.metaindex
  exact multitapeMetaindexGet_ok held joined hash small cookie

/-- An iteration over a stored archive visits its chunk headers when nothing fails and they are
accepted. -/
theorem StoredArchive.iterates (archive : StoredArchive K S tmd) {cookie start : σ}
    (counted : (multitapeMetaindexGet K .none S extrastats tmd cookie).2 = start)
    (accepted : Accepts func start archive.headers) :
    multitapeChunkiterTmd K S .none func extrastats tmd cookie =
      (0, (⟨start, []⟩ : Iter σ).extend func archive.headers) := by
  have metaindex : multitapeMetaindexGet K IterFaults.none.metaindex S extrastats tmd cookie =
      (.ok archive.tmi, start) := Prod.ext (archive.read cookie) counted
  obtain ⟨before, trailer⟩ := Accepts.append.mp accepted
  obtain ⟨header, index⟩ := Accepts.append.mp before
  have looped : cindexLoop K S .none func (chunkheaders archive.tmi.cindex) 0 []
      ((⟨start, []⟩ : Iter σ).extend func (chunkheaders archive.tmi.hindex)) =
      .ok (((⟨start, []⟩ : Iter σ).extend func (chunkheaders archive.tmi.hindex)).extend func
        (indexHeaders [] archive.contents)) := by
    apply (cindexLoop_ok (by decide)).mpr
    exact ⟨archive.contents, archive.named, passed_none archive.stored, index, rfl⟩
  have last : headerLoop func (((⟨start, []⟩ : Iter σ).extend func
      (chunkheaders archive.tmi.hindex)).extend func (indexHeaders [] archive.contents))
        (chunkheaders archive.tmi.tindex) =
      .ok ((⟨start, []⟩ : Iter σ).extend func archive.headers) := by
    rw [Iter.extend_append]
    exact headerLoop_ok.mpr ⟨trailer, (Iter.extend_append _ _ _).symm⟩
  have whole : metaindexLoop K S .none func archive.tmi ⟨start, []⟩ =
      .ok ((⟨start, []⟩ : Iter σ).extend func archive.headers) := by
    rw [metaindexLoop, headerLoop_ok.mpr ⟨header, rfl⟩, ok_bind, looped, ok_bind, last]
  rw [multitapeChunkiterTmd, if_neg (by decide), metaindex]
  simp only []
  rw [if_neg (by decide), whole]

/-- The references of a stored archive are those of its chunk headers. -/
theorem archiveReferences_eq (archive : StoredArchive K S tmd) :
    archiveReferences K S tmd = archive.headers.map (·.hash) := by
  have accepts : ∀ headers : List ChunkHeader,
      Accepts (fun (_ : Unit) (_ : ChunkHeader) => ((0 : Int), ())) () headers := by
    intro headers
    induction headers with
    | nil => trivial
    | cons ch headers ih => exact ⟨rfl, ih⟩
  rw [archiveReferences, archive.iterates rfl (accepts _), Iter.extend, List.nil_append]

end Iteration

section Moves

/-- An archive is the same on a machine with the same files of its metaindex and the same chunks of
its chunk index. -/
theorem StoredArchive.moved (archive : StoredArchive K S tmd)
    (fragments : ∀ name ∈ fragnames K tmd, S' 'i' name = S 'i' name)
    (chunks : ∀ ch ∈ chunkheaders archive.tmi.cindex, S' 'c' ch.hash = S 'c' ch.hash) :
    ∃ moved : StoredArchive K S' tmd, moved.headers = archive.headers := by
  obtain ⟨held, joined, hash, small, _⟩ := multitapeMetaindexGet_only archive.metaindex
  have same : ∀ fragnum ∈ fragnums tmd.indexlen,
      S' 'i' (multitapeMetaindexFragname K (K.hmacName tmd.name) fragnum) =
        S 'i' (multitapeMetaindexFragname K (K.hmacName tmd.name) fragnum) := by
    intro fragnum member
    exact fragments _ (List.mem_map_of_mem member)
  have metaindex : storedMetaindex K S' tmd = .ok archive.tmi := by
    apply multitapeMetaindexGet_ok _ _ hash small
    · intro fragnum member
      rw [HasFragment, same fragnum member]
      exact held fragnum member
    · rw [← joined]
      apply List.flatMap_congr
      intro fragnum member
      rw [storedFragment, storedFragment, same fragnum member]
  have stored : ∀ each ∈ archive.contents, HasContents K S' each := by
    intro each member
    have named : each.1 ∈ chunkheaders archive.tmi.cindex := by
      rw [← archive.named]
      exact List.mem_map_of_mem member
    rw [HasContents, chunksReadChunk_congr (chunks _ named)]
    exact archive.stored each member
  exact ⟨⟨archive.tmi, archive.contents, metaindex, archive.named, stored⟩, rfl⟩

/-- The chunks of the chunk index are referenced. -/
theorem StoredArchive.index_mem (archive : StoredArchive K S tmd) {ch : ChunkHeader}
    (member : ch ∈ chunkheaders archive.tmi.cindex) : ch.hash ∈ archiveReferences K S tmd := by
  rw [archiveReferences_eq archive]
  refine List.mem_map_of_mem (archive.headers_perm.mem_iff.mpr ?_)
  simp [member]

end Moves

section Commit

variable {P : Params} {κ : Type} {rsa : RsaSigner K} {contents : Hash → List UInt8}
  {base : Store} {start : Table} {archives : List (List Hash)} {tape : StoredTape} {d : TapeW P κ}

/-- The length of the file is not part of the names of the fragments. -/
theorem fragnames_metadata (tape : StoredTape) :
    fragnames K tape.metadata = fragnames K tape.tmd := rfl

/-- Nor is it used when the metaindex is read. -/
theorem storedMetaindex_metadata {tape : StoredTape} {tmi : TapeMetaindex}
    (read : storedMetaindex K S tape.tmd = .ok tmi) : storedMetaindex K S tape.metadata =
      .ok tmi := by
  obtain ⟨held, joined, hash, small, _⟩ := multitapeMetaindexGet_only read
  have present : ∀ fragnum ∈ fragnums tape.metadata.indexlen,
      HasFragment K S tape.metadata fragnum := held
  have bytes : (fragnums tape.metadata.indexlen).flatMap (storedFragment K S tape.metadata) =
      metaindexEnc tmi := joined
  have same : K.sha256 (metaindexEnc tmi) = tape.metadata.indexhash := hash
  exact multitapeMetaindexGet_ok present bytes same small ()

/-- The files of the metaindex have the names of its fragments. -/
theorem Flushed.ifiles_names (flushed : Flushed rsa tape d) :
    tape.ifiles.map Prod.fst = fragnames K tape.metadata := by
  obtain ⟨C, C', tmd, put⟩ := flushed.ifiles
  rw [fragnames_metadata]
  exact (metaindexAgreement K).put_files _ _ _ _ _ _ put

/-- What the files of an archive add to the statistics is known from its metadata. -/
theorem Flushed.extra (flushed : Flushed rsa tape d) : tape.extra = tape.metadata.extra := by
  obtain ⟨C, C', tmd, put⟩ := flushed.ifiles
  obtain ⟨_, described, written, _⟩ := multitapeMetaindexPut_cases put
  have size : tape.tmd.indexlen = (metaindexEnc tape.tmi).length := by
    rw [described]
  have sized : ∀ len : Nat, tape.tmd.indexlen = len → ∀ fragnum,
      (fragment (metaindexEnc tape.tmi) fragnum).length = fraglen tape.tmd.indexlen fragnum := by
    intro len _ fragnum
    rw [fragment_length, size]
  rw [StoredTape.extra, StoredTape.files, List.map_append, List.sum_append, TapeMetadata.extra,
    fragStats, written, List.map_map, List.map_map, List.map_singleton, List.sum_singleton]
  congr 2
  apply List.map_congr_left
  intro fragnum _
  simp only [Function.comp_apply, sized _ rfl]
  rfl

/-- Chunks are left alone. -/
theorem commitArchive_chunk (hash : Hash) : commitArchive K S tape 'c' hash = S 'c' hash := by
  rw [commitArchive, writeFiles_other _ _ _ _ (fun absurdity => absurd absurdity (by decide)),
    if_neg fun absurdity => absurd absurdity.1 (by decide)]

/-- Files of other archives are left alone. -/
theorem Flushed.commit_other (flushed : Flushed rsa tape d) {cls : Char} {name : Hash}
    (other : (cls, name) ∉ tape.metadata.names K) :
    commitArchive K S tape cls name = S cls name := by
  rw [TapeMetadata.names, List.mem_append, not_or, List.mem_singleton] at other
  rw [commitArchive, writeFiles_other, if_neg]
  · rintro ⟨rfl, rfl⟩
    exact other.2 rfl
  · rintro rfl member
    rw [flushed.ifiles_names] at member
    exact other.1 (List.mem_map_of_mem member)

/-- The files of the archive are stored. -/
theorem Flushed.commit_mem (flushed : Flushed rsa tape d)
    (distinct : (fragnames K tape.metadata).Nodup) {cls : Char} {name : Hash}
    (member : (cls, name) ∈ tape.metadata.names K) :
    (commitArchive K S tape cls name).isSome := by
  rw [TapeMetadata.names, List.mem_append, List.mem_singleton] at member
  rcases member with fragment | metadata
  · obtain ⟨name, inside, same⟩ := List.mem_map.mp fragment
    cases same
    rw [← flushed.ifiles_names] at inside distinct
    obtain ⟨file, stored, rfl⟩ := List.mem_map.mp inside
    rw [commitArchive, writeFiles_mem _ distinct stored]
    rfl
  · cases metadata
    rw [commitArchive, writeFiles_other _ _ _ _ (fun absurdity => absurd absurdity (by decide)),
      if_pos ⟨rfl, rfl⟩]
    rfl

/-- The metadata of the archive is found under its name. -/
theorem Flushed.metadata_get (flushed : Flushed rsa tape d) (valid : tape.tmd.Valid) :
    multitapeMetadataGetByhash K .none (commitArchive K S tape) (K.hmacName tape.metadata.name) =
      .ok tape.metadata := by
  obtain ⟨C, C', put⟩ := flushed.mfile
  obtain ⟨⟨buf, buflen⟩, encoded, rest⟩ := Option.bind_eq_some_iff.mp put
  cases rest
  have decoded := ((metadataCodec K).decode_encode rsa _ _ _ valid encoded).2
  have file : commitArchive K S tape 'm' (K.hmacName tape.metadata.name) = some tape.mfile := by
    rw [commitArchive, writeFiles_other _ _ _ _ (fun absurdity => absurd absurdity (by decide))]
    exact if_pos ⟨rfl, rfl⟩
  rw [multitapeMetadataGetByhash, MetadataFaults.none, storageReadFileAlloc]
  simp only [file, ok_bind, Bool.false_eq_true, if_false, decoded]
  exact if_neg (not_not_intro rfl)

/-- The archive that was committed is on the server, and the chunk layer counted its references. -/
theorem Flushed.committed (flushed : Flushed rsa tape d)
    (recorded : Recorded K contents base start archives d)
    (distinct : (fragnames K tape.metadata).Nodup) {files : List ChunkFile}
    (stored : d.C.S = some files) :
    Nonempty (StoredArchive K (commitArchive K (withFiles base files) tape) tape.metadata) ∧
      Session K contents base start archives
        (archiveReferences K (commitArchive K (withFiles base files) tape) tape.metadata) d.C := by
  obtain ⟨headers, referencing, total⟩ := recorded
  obtain ⟨C, C', tmd, put⟩ := flushed.ifiles
  rw [fragnames_metadata] at distinct
  have metaindex : storedMetaindex K (commitArchive K (withFiles base files) tape) tape.metadata =
      .ok tape.tmi := by
    apply storedMetaindex_metadata
    exact (metaindexAgreement K).get_put _ _ _ _ _ _ _ _ () put distinct
  have named : chunkheaders tape.tmi.cindex = (d.stream .c).index := by
    rw [flushed.indexes]
    exact chunkheaders_encode _
  have present : ∀ each ∈ (d.stream .c).index.map fun ch => (ch, contents ch.hash),
      HasContents K (commitArchive K (withFiles base files) tape) each := by
    intro each member
    obtain ⟨ch, indexed, rfl⟩ := List.mem_map.mp member
    obtain ⟨record, inside, same⟩ := List.mem_map.mp (referencing.sized .c ch indexed)
    simp only [Prod.mk.injEq] at same
    obtain ⟨files', held, readable⟩ := referencing.session.readable
    cases held.symm.trans stored
    have read := readable record inside
    rw [same.1, same.2.1, same.2.2, referencing.maxlen] at read
    rw [HasContents, chunksReadChunk_congr (commitArchive_chunk _)]
    exact ⟨chunksReadChunk_le read, read⟩
  let archive : StoredArchive K (commitArchive K (withFiles base files) tape) tape.metadata := {
    tmi := tape.tmi
    contents := (d.stream .c).index.map fun ch => (ch, contents ch.hash)
    metaindex
    named := by
      rw [named, List.map_map]
      exact List.map_id _
    stored := present }
  have stream : chunkheaders (archive.contents.map Prod.snd).flatten = headers := by
    have bytes : (archive.contents.map Prod.snd).flatten = (d.stream .c).total contents := by
      rw [Stream.total, flushed.empty .c, List.append_nil, indexed, List.map_map, List.flatMap]
      rfl
    rw [bytes, total, chunkheaders_encode]
  have perm := archive.headers_perm
  rw [stream] at perm
  refine ⟨⟨archive⟩, ?_⟩
  rw [archiveReferences_eq archive]
  refine referencing.session.perm ((List.Perm.map _ ?_).trans (perm.symm.map _))
  have indexes : archive.tmi = ⟨_, _, _⟩ := flushed.indexes
  rw [indexes]
  simp only [chunkheaders_encode, List.append_assoc]
  exact List.Perm.append_left _ (List.Perm.append_left _ List.perm_append_comm)

end Commit

end Tarsnap.Multitape
