import Tarsnap.Multitape.Fsck

/-!
# A check deletes no chunk of an archive that it keeps

The first two phases delete only metadata and metaindex files. In the fourth phase every archive
that is kept has its chunks marked and then referenced, provided its iteration was complete, and
references are never taken away, so the fifth phase leaves these chunks alone.
-/

namespace Tarsnap.Multitape

open Tarsnap.Lib Tarsnap.Chunks

variable {K : Crypto} {faults : FsckFaults} {M : Machine}

/-- A chunk that an archive references: one of the header index, of the chunk index, of the
decoded chunk index stream or of the trailer index. -/
def StoredArchive.References {S : Store} {tmd : TapeMetadata} (archive : StoredArchive K S tmd)
    (hash : Hash) : Prop :=
  ∃ ch ∈ chunkheaders archive.tmi.hindex ++ (chunkheaders archive.tmi.cindex ++
    chunkheaders (archive.contents.map Prod.snd).flatten) ++ chunkheaders archive.tmi.tindex,
    ch.hash = hash

/-- The chunk headers of an archive are those of its three indexes and of the decoded chunk index
stream, each exactly once. -/
theorem StoredArchive.headers_perm {S : Store} {tmd : TapeMetadata}
    (archive : StoredArchive K S tmd) :
    archive.headers.Perm (chunkheaders archive.tmi.hindex ++ (chunkheaders archive.tmi.cindex ++
      chunkheaders (archive.contents.map Prod.snd).flatten) ++
        chunkheaders archive.tmi.tindex) := by
  have index := indexHeaders_perm [] archive.contents
  rw [archive.named, leftover_of_lt (by decide), List.nil_append] at index
  exact List.Perm.append_right _ (List.Perm.append_left _ index)

/-- The headers of the three indexes come in order. -/
theorem StoredArchive.headers_index {S : Store} {tmd : TapeMetadata}
    (archive : StoredArchive K S tmd) :
    (chunkheaders archive.tmi.hindex ++ chunkheaders archive.tmi.cindex ++
      chunkheaders archive.tmi.tindex).Sublist archive.headers := by
  have index := indexHeaders_sublist_index [] archive.contents
  rw [archive.named] at index
  exact ((List.Sublist.refl _).append index).append (List.Sublist.refl _)

/-- The headers of the decoded chunk index stream come in order, between the header index and the
trailer index. -/
theorem StoredArchive.headers_stream {S : Store} {tmd : TapeMetadata}
    (archive : StoredArchive K S tmd) :
    (chunkheaders archive.tmi.hindex ++ chunkheaders (archive.contents.map Prod.snd).flatten ++
      chunkheaders archive.tmi.tindex).Sublist archive.headers := by
  have index := indexHeaders_sublist_stream [] archive.contents
  rw [leftover_of_lt (by decide), List.nil_append] at index
  exact ((List.Sublist.refl _).append index).append (List.Sublist.refl _)

/-- A referenced chunk has a chunk header. -/
theorem StoredArchive.References.mem {S : Store} {tmd : TapeMetadata}
    {archive : StoredArchive K S tmd} {hash : Hash} (references : archive.References hash) :
    ∃ ch ∈ archive.headers, ch.hash = hash := by
  obtain ⟨ch, member, same⟩ := references
  exact ⟨ch, archive.headers_perm.mem_iff.mpr member, same⟩

section Deletes

/-- A delete adds one file. -/
theorem storageDeleteFile_deleted {SD SD' : StorageD} {cls : Char} {name : Hash}
    (delete : storageDeleteFile faults SD cls name = some SD') :
    SD'.deleted = SD.deleted ++ [(cls, name)] := by
  rw [storageDeleteFile] at delete
  split at delete
  · exact nomatch delete
  · cases delete
    rfl

/-- A transaction goes on without deleting chunks. -/
structure NoChunks (before after : StorageD) : Prop where
  /-- What was deleted stays deleted. -/
  deleted : ∀ file ∈ before.deleted, file ∈ after.deleted
  /-- No chunk is deleted. -/
  chunks : ∀ hash, ('c', hash) ∈ after.deleted → ('c', hash) ∈ before.deleted

/-- Doing nothing deletes no chunk. -/
theorem NoChunks.refl (SD : StorageD) : NoChunks SD SD := ⟨fun _ same => same, fun _ same => same⟩

/-- One stretch after another. -/
theorem NoChunks.trans {first second third : StorageD} (left : NoChunks first second)
    (right : NoChunks second third) : NoChunks first third :=
  ⟨fun file member => right.deleted file (left.deleted file member),
    fun hash member => left.chunks hash (right.chunks hash member)⟩

/-- Deleting a file of another class deletes no chunk. -/
theorem NoChunks.delete {SD SD' : StorageD} {cls : Char} {name : Hash} (other : cls ≠ 'c')
    (delete : storageDeleteFile faults SD cls name = some SD') : NoChunks SD SD' := by
  have deleted := storageDeleteFile_deleted delete
  refine ⟨fun file member => deleted ▸ List.mem_append_left _ member, fun hash member => ?_⟩
  rw [deleted] at member
  rcases List.mem_append.mp member with old | new
  · exact old
  · exact absurd (congrArg Prod.fst (List.mem_singleton.mp new)).symm other

/-- A delete is recorded. -/
theorem mem_storageDeleteFile {SD SD' : StorageD} {cls : Char} {name : Hash}
    (delete : storageDeleteFile faults SD cls name = some SD') : (cls, name) ∈ SD'.deleted := by
  rw [storageDeleteFile_deleted delete]
  exact List.mem_append_right _ List.mem_cons_self

/-- Deleting an archive deletes its metadata and no chunk. -/
theorem deletearchive_spec {SD SD' : StorageD} {tmd : TapeMetadata}
    (delete : deletearchive K faults SD tmd = some SD') :
    NoChunks SD SD' ∧ ('m', K.hmacName tmd.name) ∈ SD'.deleted := by
  rw [deletearchive] at delete
  split at delete
  · exact nomatch delete
  obtain ⟨middle, fragments, metadata⟩ := Option.bind_eq_some_iff.mp delete
  have first : NoChunks SD middle := by
    refine foldlM_run (fun _ state => NoChunks SD state) ?_ (NoChunks.refl SD) fragments
    intro done fragnum rest state state' split holds step
    exact holds.trans (NoChunks.delete (by decide) step)
  exact ⟨first.trans (NoChunks.delete (by decide) metadata), mem_storageDeleteFile metadata⟩

end Deletes

section Metadata

/-- The archive of a metadata file is under way: the file is deleted, or its metadata is in the
list. -/
def Listed (K : Crypto) (S : Store) (SD : StorageD) (mdats : List TapeMetadata) (file : Hash) :
    Prop :=
  ('m', file) ∈ SD.deleted ∨
    ∃ mdat ∈ mdats, multitapeMetadataGetByhash K .none S file = .ok mdat

/-- After the first phase every archive is listed, and no chunk is deleted. -/
theorem phase1_spec {SD SD' : StorageD} {mdats : List TapeMetadata}
    (run : phase1 K faults M SD = some (SD', mdats)) :
    NoChunks SD SD' ∧ mdats.length ≤ M.mfiles.length ∧
      (∀ mdat ∈ mdats, ∃ file ∈ M.mfiles, multitapeMetadataGetByhash K .none M.S file = .ok mdat) ∧
      ∀ file ∈ M.mfiles, Listed K M.S SD' mdats file := by
  rw [phase1] at run
  split at run
  · exact nomatch run
  refine foldlM_run (fun done state => NoChunks SD state.1 ∧ state.2.length ≤ done.length ∧
    (∀ mdat ∈ state.2, ∃ file ∈ M.mfiles,
      multitapeMetadataGetByhash K .none M.S file = .ok mdat) ∧
    ∀ file ∈ done, Listed K M.S state.1 state.2 file) ?_
    ⟨NoChunks.refl SD, Nat.le_refl _, fun mdat absent => absurd absent List.not_mem_nil,
      fun file absent => absurd absent List.not_mem_nil⟩ run
  rintro done file rest ⟨SD1, mdats1⟩ ⟨SD2, mdats2⟩ split ⟨nochunks, short, owned, listed⟩ step
  have visited : file ∈ M.mfiles := by simp [split]
  rw [phase1Step] at step
  split at step
  · exact nomatch step
  split at step
  · exact nomatch step
  · rename_i mdat read
    cases step
    have stored := multitapeMetadataGetByhash_sound read
    refine ⟨nochunks, by simpa using short, fun other member => ?_, fun other member => ?_⟩
    · rcases List.mem_append.mp member with old | new
      · exact owned other old
      · exact ⟨file, visited, (List.mem_singleton.mp new) ▸ stored⟩
    rcases List.mem_append.mp member with old | new
    · rcases listed other old with deleted | ⟨owner, owned, stored⟩
      · exact .inl deleted
      · exact .inr ⟨owner, List.mem_append_left _ owned, stored⟩
    · rw [List.mem_singleton.mp new]
      exact .inr ⟨mdat, List.mem_append_right _ List.mem_cons_self, stored⟩
  · exact nomatch step
  · obtain ⟨SD3, delete, step⟩ := Option.bind_eq_some_iff.mp step
    cases step
    have here := NoChunks.delete (by decide) delete
    refine ⟨nochunks.trans here, by rw [List.length_append]; exact Nat.le_succ_of_le short,
      owned, fun other member => ?_⟩
    rcases List.mem_append.mp member with old | new
    · rcases listed other old with deleted | owned
      · exact .inl (here.deleted _ deleted)
      · exact .inr owned
    · rw [List.mem_singleton.mp new]
      exact .inl (mem_storageDeleteFile delete)

/-- After the second phase the archives whose metadata is not deleted are still in the list, and
no chunk is deleted. -/
theorem phase2_spec {SD SD' : StorageD} {mdats : List TapeMetadata}
    {mdatlist : List (Option TapeMetadata)}
    (run : phase2 K faults M SD mdats = some (SD', mdatlist)) :
    NoChunks SD SD' ∧ mdatlist.length = mdats.length ∧
      (∀ mdat, some mdat ∈ mdatlist → mdat ∈ mdats) ∧
      ∀ mdat ∈ mdats, ('m', K.hmacName mdat.name) ∈ SD'.deleted ∨ some mdat ∈ mdatlist := by
  rw [phase2] at run
  split at run
  · exact nomatch run
  obtain ⟨⟨SD1, mdatlist1⟩, first, run⟩ := Option.bind_eq_some_iff.mp run
  obtain ⟨SD2, second, run⟩ := Option.bind_eq_some_iff.mp run
  cases run
  have pass : NoChunks SD SD1 ∧ mdatlist.length = mdats.length ∧
      (∀ mdat, some mdat ∈ mdatlist → mdat ∈ mdats) ∧
      ∀ mdat ∈ mdats, ('m', K.hmacName mdat.name) ∈ SD1.deleted ∨ some mdat ∈ mdatlist := by
    refine foldlM_run (fun done state => NoChunks SD state.1 ∧ state.2.length = done.length ∧
      (∀ mdat, some mdat ∈ state.2 → mdat ∈ mdats) ∧
      ∀ mdat ∈ done, ('m', K.hmacName mdat.name) ∈ state.1.deleted ∨ some mdat ∈ state.2) ?_
      ⟨NoChunks.refl SD, rfl, fun mdat absent => absurd absent List.not_mem_nil,
        fun mdat absent => absurd absent List.not_mem_nil⟩ first
    rintro done mdat rest ⟨SD3, list3⟩ ⟨SD4, list4⟩ split ⟨nochunks, same, owned, kept⟩ step
    have visited : mdat ∈ mdats := by simp [split]
    rw [phase2Step] at step
    split at step
    · exact nomatch step
    simp only [] at step
    split at step
    · obtain ⟨SD5, delete, step⟩ := Option.bind_eq_some_iff.mp step
      cases step
      have here := NoChunks.delete (by decide) delete
      refine ⟨nochunks.trans here, by simp [same], fun other member => ?_, fun other member => ?_⟩
      · rcases List.mem_append.mp member with old | new
        · exact owned other old
        · exact absurd (List.mem_singleton.mp new) (by simp)
      rcases List.mem_append.mp member with old | new
      · rcases kept other old with deleted | owned
        · exact .inl (here.deleted _ deleted)
        · exact .inr (List.mem_append_left _ owned)
      · rw [List.mem_singleton.mp new]
        exact .inl (mem_storageDeleteFile delete)
    · cases step
      refine ⟨nochunks, by simp [same], fun other member => ?_, fun other member => ?_⟩
      · rcases List.mem_append.mp member with old | new
        · exact owned other old
        · rw [Option.some.inj (List.mem_singleton.mp new)]
          exact visited
      rcases List.mem_append.mp member with old | new
      · rcases kept other old with deleted | owned
        · exact .inl deleted
        · exact .inr (List.mem_append_left _ owned)
      · rw [List.mem_singleton.mp new]
        exact .inr (List.mem_append_right _ List.mem_cons_self)
  have rest : NoChunks SD1 SD' := by
    refine foldlM_run (fun _ state => NoChunks SD1 state) ?_ (NoChunks.refl SD1) second
    intro done file rest state state' split holds step
    split at step
    · cases step
      exact holds
    · exact holds.trans (NoChunks.delete (by decide) step)
  refine ⟨pass.1.trans rest, pass.2.1, pass.2.2.1, fun mdat member => ?_⟩
  rcases pass.2.2.2 mdat member with deleted | owned
  · exact .inl (rest.deleted _ deleted)
  · exact .inr owned

end Metadata

section Counting

/-- Counting chunks that exist marks them, and unmarks no other. -/
theorem callbackChunkref_marked {C : ChunksS} {headers : List ChunkHeader} {hash : Hash}
    (accepted : Accepts callbackChunkref C headers)
    (counted : C.Marked hash ∨ ∃ ch ∈ headers, ch.hash = hash) :
    (headers.foldl (fun C ch => (callbackChunkref C ch).2) C).Marked hash := by
  induction headers generalizing C with
  | nil =>
    rcases counted with marked | ⟨ch, absent, _⟩
    · exact marked
    · exact nomatch absent
  | cons ch headers ih =>
    obtain ⟨found, later⟩ := accepted
    refine ih later ?_
    rcases counted with marked | ⟨other, member, same⟩
    · exact .inl (Marked.chunksStatsAddchunk marked)
    · rcases List.mem_cons.mp member with here | after
      · left
        rw [← same, here]
        exact chunksStatsAddchunk_marked found
      · exact .inr ⟨other, after, same⟩

/-- Counting the chunks of an archive returns a documented code and changes no references. -/
theorem countArchive_keeps {S : Store} {iter : IterFaults} {mdat : TapeMetadata} {C : ChunksS} :
    Documented (multitapeChunkiterTmd K S iter callbackChunkref chunksStatsExtrastats mdat C).1 ∧
      (multitapeChunkiterTmd K S iter callbackChunkref chunksStatsExtrastats mdat
        C).2.cookie.nrefs = C.nrefs := by
  refine @multitapeChunkiterTmd_keeps ChunksS K S iter callbackChunkref chunksStatsExtrastats mdat
    (fun C' : ChunksS => C'.nrefs = C.nrefs) ?_ ?_ C rfl
  · intro C' ch same
    refine ⟨?_, (chunksStatsAddchunk_nrefs C' _ _ _).trans same⟩
    rcases chunksStatsAddchunk_rc C' ch.hash ch.len ch.zlen with zero | one
    · rw [callbackChunkref, zero]
      exact Documented.zero
    · rw [callbackChunkref, one]
      exact ReadError.documented .missing
  · exact fun C' len same => same

/-- Every cache failure that the check reaches is harmless. -/
def CacheSafe (K : Crypto) (faults : FsckFaults) (M : Machine) : Prop :=
  ∀ file ∈ M.mfiles, ∀ mdat, multitapeMetadataGetByhash K .none M.S file = .ok mdat →
    ∀ C : ChunksS, C.hashes = M.cfiles → ∀ failure : CacheFailure K M.S (faults.iter file)
      callbackChunkref chunksStatsExtrastats mdat C, failure.Harmless

/-- The state of the fourth phase after some archives: each is deleted, or its chunks have
references. -/
structure Verified (K : Crypto) (M : Machine) (SD0 : StorageD)
    (done : List (Option TapeMetadata)) (state : StorageD × ChunksS) : Prop where
  /-- No chunk is deleted. -/
  nochunks : NoChunks SD0 state.1
  /-- The table has the chunks of the server. -/
  hashes : state.2.hashes = M.cfiles
  /-- Each archive adds at most one reference. -/
  bounded : state.2.Bounded done.length
  /-- The archives that are not deleted are complete. -/
  kept : ∀ mdat, some mdat ∈ done → ('m', K.hmacName mdat.name) ∈ state.1.deleted ∨
    ∃ archive : StoredArchive K M.S mdat, ∀ hash, archive.References hash →
      state.2.Referenced hash

/-- The archives before stay verified when nothing but references is added. -/
theorem Verified.weaken {SD0 SD SD' : StorageD} {C C' : ChunksS}
    {done : List (Option TapeMetadata)} (verified : Verified K M SD0 done (SD, C))
    (nochunks : NoChunks SD SD') (hashes : C'.hashes = M.cfiles)
    (bounded : C'.Bounded (done.length + 1))
    (referenced : ∀ hash, C.Referenced hash → C'.Referenced hash) {last : Option TapeMetadata}
    (kept : ∀ mdat, last = some mdat → ('m', K.hmacName mdat.name) ∈ SD'.deleted ∨
      ∃ archive : StoredArchive K M.S mdat, ∀ hash, archive.References hash →
        C'.Referenced hash) :
    Verified K M SD0 (done ++ [last]) (SD', C') where
  nochunks := verified.nochunks.trans nochunks
  hashes := hashes
  bounded := by
    rw [List.length_append]
    exact bounded
  kept := by
    intro mdat member
    rcases List.mem_append.mp member with old | new
    · rcases verified.kept mdat old with deleted | ⟨archive, covered⟩
      · exact .inl (nochunks.deleted _ deleted)
      · exact .inr ⟨archive, fun hash references => referenced hash (covered hash references)⟩
    · exact kept mdat (List.mem_singleton.mp new).symm

/-- One archive of the fourth phase. -/
theorem phase4Step_verified {SD0 SD SD' : StorageD} {C C' : ChunksS}
    {done : List (Option TapeMetadata)} {last : Option TapeMetadata}
    (safe : CacheSafe K faults M) (fits : done.length + 1 < 4294967296)
    (owned : ∀ mdat, last = some mdat →
      ∃ file ∈ M.mfiles, multitapeMetadataGetByhash K .none M.S file = .ok mdat)
    (verified : Verified K M SD0 done (SD, C))
    (step : phase4Step K faults M.S (SD, C) last = some (SD', C')) :
    Verified K M SD0 (done ++ [last]) (SD', C') := by
  have wider : C.Bounded (done.length + 1) :=
    fun entry member => Nat.le_succ_of_le (verified.bounded entry member)
  cases last with
  | none =>
    cases step
    exact verified.weaken (NoChunks.refl SD) verified.hashes wider (fun _ same => same)
      (fun mdat absent => nomatch absent)
  | some mdat =>
    obtain ⟨file, listed, stored⟩ := owned mdat rfl
    have name := multitapeMetadataGetByhash_name stored
    rw [phase4Step] at step
    simp only [] at step
    generalize started : chunksStatsExtrastats (chunksStatsZeroarchive C) mdat.metadatalen = C1
      at step
    have refs1 : C1.nrefs = C.nrefs := by
      rw [← started, chunksStatsExtrastats_nrefs, chunksStatsZeroarchive_nrefs]
    have hashes1 : C1.hashes = M.cfiles := by
      rw [ChunksS.hashes_eq, refs1, ← ChunksS.hashes_eq]
      exact verified.hashes
    rw [name] at step
    obtain ⟨documented, refs2⟩ := @countArchive_keeps K M.S (faults.iter file) mdat C1
    generalize counted : multitapeChunkiterTmd K M.S (faults.iter file) callbackChunkref
      chunksStatsExtrastats mdat C1 = result at step documented refs2
    obtain ⟨rc, it⟩ := result
    simp only [] at step documented refs2
    rw [refs1] at refs2
    have hashes2 : it.cookie.hashes = M.cfiles := by
      rw [ChunksS.hashes_eq, refs2, ← ChunksS.hashes_eq]
      exact verified.hashes
    have same : ∀ hash, C.Referenced hash → it.cookie.Referenced hash := by
      intro hash referenced entry member
      exact referenced entry (refs2 ▸ member)
    have bounded2 : it.cookie.Bounded done.length := by
      intro entry member
      exact verified.bounded entry (refs2 ▸ member)
    split at step
    · exact nomatch step
    split at step
    · rename_i zero
      cases step
      have complete : (multitapeChunkiterTmd K M.S (faults.iter file) callbackChunkref
          chunksStatsExtrastats mdat C1).1 = 0 := by rw [counted]; exact zero
      obtain ⟨archive, start, _, accepted, run⟩ :=
        multitapeChunkiterTmd_complete (safe file listed mdat stored C1 hashes1) complete
      have final := congrArg (fun result => result.2.cookie) (counted.symm.trans run)
      refine verified.weaken (NoChunks.refl SD) ?_ (bounded2.archiveAdd fits)
        (fun hash referenced => (same hash referenced).archiveAdd bounded2 fits) ?_
      · rw [chunksFsckArchiveAdd_hashes]
        exact hashes2
      · intro other here
        cases here
        refine .inr ⟨archive, fun hash references => ?_⟩
        have marked := callbackChunkref_marked accepted (.inr references.mem)
        rw [show it.cookie = _ from final] at bounded2 ⊢
        exact ChunksS.Marked.archiveAdd marked bounded2 fits
    split at step
    · obtain ⟨SD1, delete, step⟩ := Option.bind_eq_some_iff.mp step
      cases step
      obtain ⟨nochunks, deleted⟩ := deletearchive_spec delete
      refine verified.weaken nochunks hashes2
        (fun entry member => Nat.le_succ_of_le (bounded2 entry member)) same ?_
      intro other here
      cases here
      exact .inl deleted
    · obtain ⟨low, high⟩ := documented
      omega

/-- The state after the fourth phase. -/
theorem phase4_verified {SD SD' : StorageD} {C C' : ChunksS}
    {mdatlist : List (Option TapeMetadata)} (safe : CacheSafe K faults M)
    (fits : mdatlist.length < 4294967296)
    (owned : ∀ mdat, some mdat ∈ mdatlist →
      ∃ file ∈ M.mfiles, multitapeMetadataGetByhash K .none M.S file = .ok mdat)
    (hashes : C.hashes = M.cfiles) (bounded : C.Bounded 0)
    (run : phase4 K faults M SD C mdatlist = some (SD', C')) :
    Verified K M SD mdatlist (SD', C') := by
  refine foldlM_run (fun done state => Verified K M SD done state) ?_
    ⟨NoChunks.refl SD, hashes, bounded, fun mdat absent => absurd absent List.not_mem_nil⟩ run
  rintro done last rest ⟨SD1, C1⟩ ⟨SD2, C2⟩ split verified step
  have short : done.length + 1 ≤ mdatlist.length := by
    rw [split, List.length_append, List.length_cons]
    omega
  refine phase4Step_verified safe (Nat.lt_of_le_of_lt short fits) (fun mdat here => ?_) verified
    step
  exact owned mdat (by rw [split, here]; simp)

end Counting

/-- The third phase starts without references. -/
theorem phase3_spec {C : ChunksS} (run : phase3 faults M = some C) :
    C.hashes = M.cfiles ∧ C.Bounded 0 := by
  rw [phase3] at run
  split at run
  · exact nomatch run
  rw [chunksFsckStart] at run
  split at run
  · cases run
    constructor
    · simp only [ChunksS.hashes, List.map_map]
      exact List.map_id _
    · intro entry member
      simp only [ChunksS.nrefs, List.map_map, List.mem_map] at member
      obtain ⟨hash, _, rfl⟩ := member
      exact Nat.le_refl 0
  · exact nomatch run

/-- The fifth phase deletes the chunks without references. -/
theorem phase5_deleted {order : SlotOrder} {SD SD' : StorageD} {C : ChunksS}
    (run : phase5 faults order SD C = some SD') {file : Char × Hash} :
    file ∈ SD'.deleted → file ∈ SD.deleted ∨
      ∃ hash ∈ chunksFsckDeletechunks order C, file = ('c', hash) := by
  refine foldlM_run (fun done (state : StorageD) => file ∈ state.deleted →
    file ∈ SD.deleted ∨ ∃ hash ∈ chunksFsckDeletechunks order C, file = ('c', hash)) ?_ .inl run
  intro done hash rest state state' split holds step member
  rw [storageDeleteFile_deleted step] at member
  rcases List.mem_append.mp member with old | new
  · exact holds old
  · exact .inr ⟨hash, by rw [split]; simp, List.mem_singleton.mp new⟩

/-- What was deleted before the fifth phase stays deleted. -/
theorem phase5_keeps {order : SlotOrder} {SD SD' : StorageD} {C : ChunksS}
    (run : phase5 faults order SD C = some SD') {file : Char × Hash}
    (deleted : file ∈ SD.deleted) : file ∈ SD'.deleted := by
  refine foldlM_run (fun _ (state : StorageD) => file ∈ state.deleted) ?_ deleted run
  intro done hash rest state state' split holds step
  rw [storageDeleteFile_deleted step]
  exact List.mem_append_left _ holds

/-- A successful check deletes no chunk that an archive which it keeps references. -/
theorem fscktape_keeps {order : SlotOrder} {prune : Bool} {result : FsckResult}
    (safe : CacheSafe K faults M) (fits : M.mfiles.length < 4294967296)
    (run : fscktape K faults order M prune = some result) {file : Hash}
    (exists_ : file ∈ M.mfiles) (kept : ('m', file) ∉ result.deleted) :
    ∃ mdat, multitapeMetadataGetByhash K .none M.S file = .ok mdat ∧
      ∃ archive : StoredArchive K M.S mdat, ∀ hash, archive.References hash →
        ('c', hash) ∉ result.deleted := by
  obtain ⟨⟨SD1, mdats⟩, first, run⟩ := Option.bind_eq_some_iff.mp run
  obtain ⟨⟨SD2, mdatlist⟩, second, run⟩ := Option.bind_eq_some_iff.mp run
  obtain ⟨C, third, run⟩ := Option.bind_eq_some_iff.mp run
  obtain ⟨⟨SD4, C4⟩, fourth, run⟩ := Option.bind_eq_some_iff.mp run
  obtain ⟨SD5, fifth, run⟩ := Option.bind_eq_some_iff.mp run
  split at run
  · exact nomatch run
  cases run
  obtain ⟨nochunks1, few, owned, listed⟩ := phase1_spec first
  obtain ⟨nochunks2, same, members, rest⟩ := phase2_spec second
  obtain ⟨hashes, bounded⟩ := phase3_spec third
  have verified := phase4_verified safe (by omega)
    (fun mdat member => owned mdat (members mdat member)) hashes bounded fourth
  have kept4 : ('m', file) ∉ SD4.deleted := fun deleted => kept (phase5_keeps fifth deleted)
  have kept2 : ('m', file) ∉ SD2.deleted :=
    fun deleted => kept4 (verified.nochunks.deleted _ deleted)
  have kept1 : ('m', file) ∉ SD1.deleted := fun deleted => kept2 (nochunks2.deleted _ deleted)
  rcases listed file exists_ with deleted | ⟨mdat, member, stored⟩
  · exact absurd deleted kept1
  have name := multitapeMetadataGetByhash_name stored
  refine ⟨mdat, stored, ?_⟩
  rcases rest mdat member with deleted | present
  · exact absurd (name ▸ deleted) kept2
  rcases verified.kept mdat present with deleted | ⟨archive, covered⟩
  · exact absurd (name ▸ deleted) kept4
  refine ⟨archive, fun hash references deleted => ?_⟩
  rcases phase5_deleted fifth deleted with before | ⟨other, chosen, equal⟩
  · have early : ('c', hash) ∈ ([] : List (Char × Hash)) :=
      nochunks1.chunks _ (nochunks2.chunks _ (verified.nochunks.chunks _ before))
    exact nomatch early
  · cases equal
    exact not_mem_chunksFsckDeletechunks order (covered hash references) chosen

/-- An iteration returns zero only when the callback was invoked on every chunk header of the
archive, in order and once per occurrence, if and only if every cache failure that it reaches is
harmless. If that is so for every archive, and there are fewer than `2 ^ 32` of them, a successful
check deletes no chunk that an archive which it keeps references. -/
theorem iteration_complete_iff (K : Crypto) :
    (∀ (σ : Type) (S : Store) (faults : IterFaults)
        (func : σ → ChunkHeader → Int × σ) (extrastats : σ → Nat → σ) (tmd : TapeMetadata)
        (cookie : σ),
      ((multitapeChunkiterTmd K S faults func extrastats tmd cookie).1 = 0 →
        Complete K S tmd (multitapeChunkiterTmd K S faults func extrastats tmd cookie).2.calls) ↔
      ∀ failure : CacheFailure K S faults func extrastats tmd cookie, failure.Harmless) ∧
    (∀ (S : Store) (tmd : TapeMetadata) (archive : StoredArchive K S tmd),
      archive.headers.Perm (chunkheaders archive.tmi.hindex ++ (chunkheaders archive.tmi.cindex ++
        chunkheaders (archive.contents.map Prod.snd).flatten) ++
          chunkheaders archive.tmi.tindex) ∧
      (chunkheaders archive.tmi.hindex ++ chunkheaders archive.tmi.cindex ++
        chunkheaders archive.tmi.tindex).Sublist archive.headers ∧
      (chunkheaders archive.tmi.hindex ++ chunkheaders (archive.contents.map Prod.snd).flatten ++
        chunkheaders archive.tmi.tindex).Sublist archive.headers) ∧
    (∀ (faults : FsckFaults) (order : SlotOrder) (M : Machine) (prune : Bool)
        (result : FsckResult),
      CacheSafe K faults M → M.mfiles.length < 4294967296 →
      fscktape K faults order M prune = some result →
      ∀ file ∈ M.mfiles, ('m', file) ∉ result.deleted →
        ∃ mdat, multitapeMetadataGetByhash K .none M.S file = .ok mdat ∧
          ∃ archive : StoredArchive K M.S mdat, ∀ hash, archive.References hash →
            ('c', hash) ∉ result.deleted) := by
  refine ⟨?_, ?_, ?_⟩
  · intro σ S faults func extrastats tmd cookie
    exact multitapeChunkiterTmd_complete_iff
  · intro S tmd archive
    exact ⟨archive.headers_perm, archive.headers_index, archive.headers_stream⟩
  · intro faults order M prune result safe fits run file listed kept
    exact fscktape_keeps safe fits run listed kept

/-- The first 32 bytes of a buffer. -/
def digest (buf : List UInt8) : Hash := ⟨Vector.ofFn fun i => buf.getD i.val 0⟩

/-- Hashes by the first or last bytes of a buffer, and no compression. -/
def plainCrypto : Crypto where
  hmacChunk buf := digest (buf.drop (buf.length - 32))
  hmacName := digest
  sha256 := digest
  rsaVerify _ _ := true
  uncompress len zbuf := if zbuf.length ≤ len then some zbuf else none

/-- The header of a chunk of file data. -/
def dataHeader : ChunkHeader := ⟨digest [], 1, 1⟩

/-- The header of the chunk of the chunk index which holds the header of the data. -/
def indexHeader : ChunkHeader :=
  ⟨plainCrypto.hmacChunk dataHeader.encode, 40, 40⟩

/-- The metaindex of an archive with one chunk of index. -/
def oneChunkIndex : List UInt8 := leEnc 4 0 ++ (leEnc 4 40 ++ indexHeader.encode ++ leEnc 4 0)

/-- The metadata of this archive. -/
def oneChunkMetadata : TapeMetadata where
  name := [97]
  ctime := 0
  argv := []
  indexhash := digest oneChunkIndex
  indexlen := 52
  metadatalen := 310

/-- A machine with this archive. -/
def oneChunkMachine : Machine where
  S cls name :=
    if cls = 'm' ∧ name = digest [97] then
      some ([97, 0] ++ leEnc 8 0 ++ leEnc 4 0 ++ (digest oneChunkIndex).bytes.toList ++
        leEnc 8 52 ++
        List.replicate 256 0)
    else if cls = 'i' ∧ name = digest [97] then some oneChunkIndex
    else if cls = 'c' ∧ name = indexHeader.hash then some dataHeader.encode
    else if cls = 'c' ∧ name = dataHeader.hash then some [0]
    else none
  mfiles := [digest [97]]
  ifiles := [digest [97]]
  cfiles := [dataHeader.hash, indexHeader.hash]

/-- Nothing fails but noting the first chunk of index for caching. -/
def uncached : IterFaults := ⟨false, .none, false, fun chunk => chunk = 0, fun _ => .none⟩

/-- A check in which only this fails. -/
def uncachedCheck : FsckFaults where
  list _ := false
  metadata _ := .none
  name _ := false
  iter _ := uncached
  delete _ _ := false
  start := false
  directory := false

/-- Tables are visited in their own order. -/
def listOrder : SlotOrder := ⟨id, fun HT => List.Perm.refl HT⟩

/-- The archive that the machine holds. -/
def oneChunkArchive : StoredArchive plainCrypto oneChunkMachine.S oneChunkMetadata where
  tmi := ⟨[], indexHeader.encode, []⟩
  contents := [(indexHeader, dataHeader.encode)]
  metaindex := by decide +kernel
  named := by decide +kernel
  stored := by
    intro chunk member
    rw [List.mem_singleton.mp member]
    exact ⟨by decide +kernel, by decide +kernel⟩

/-- Counting the chunks of this archive. -/
def uncachedIteration : Int × Iter ChunksS :=
  multitapeChunkiterTmd plainCrypto oneChunkMachine.S uncached callbackChunkref
    chunksStatsExtrastats oneChunkMetadata
    ((chunksFsckStart oneChunkMachine.cfiles).getD ⟨[], 0, 0, 0, 0, 0, 0⟩)

/-- When the only chunk of index cannot be noted for caching, the iteration returns zero without
the header of the data, and a check with this failure succeeds, keeps the archive and deletes its
data. -/
theorem uncached_iteration_truncated :
    (uncachedIteration.1 = 0 ∧
      ¬ Complete plainCrypto oneChunkMachine.S oneChunkMetadata uncachedIteration.2.calls) ∧
    ∃ result, fscktape plainCrypto uncachedCheck listOrder oneChunkMachine true = some result ∧
      digest [97] ∈ oneChunkMachine.mfiles ∧ ('m', digest [97]) ∉ result.deleted ∧
      multitapeMetadataGetByhash plainCrypto .none oneChunkMachine.S (digest [97]) =
        .ok oneChunkMetadata ∧
      oneChunkArchive.References dataHeader.hash ∧ ('c', dataHeader.hash) ∈ result.deleted := by
  constructor
  · have calls : uncachedIteration.2.calls = [indexHeader] := by decide +kernel
    refine ⟨by decide +kernel, ?_⟩
    rw [calls]
    rintro ⟨archive, same⟩
    rw [archive.headers_unique oneChunkArchive] at same
    exact absurd same (by decide +kernel)
  · have deleted : (fscktape plainCrypto uncachedCheck listOrder oneChunkMachine true).map
        (·.deleted) = some [('c', dataHeader.hash)] := by decide +kernel
    obtain ⟨result, run, files⟩ := Option.map_eq_some_iff.mp deleted
    refine ⟨result, run, List.mem_cons_self, ?_, by decide +kernel, ?_, ?_⟩
    · rw [files]
      decide +kernel
    · exact ⟨dataHeader, by decide +kernel, rfl⟩
    · rw [files]
      exact List.mem_cons_self

end Tarsnap.Multitape
