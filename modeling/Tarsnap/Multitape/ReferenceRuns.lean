import Tarsnap.Multitape.References

/-!
# Calls keep the references recorded

Whatever call is made, checkpoints included, the chunk layer counts the references of the tape
afterwards if it did before. When a tape is flushed its chunkifiers are empty, and the archive that
is stored has the indexes of the tape.
-/

namespace Tarsnap.Multitape

open Tarsnap.Lib Tarsnap.Chunks Tarsnap.Chunkify

variable {P : Params} {κ : Type} {K : Crypto} {zlib : Zlib} {rsa : RsaSigner K}
  {contents : Hash → List UInt8} {base : Store} {start : Table} {archives : List (List Hash)}
  {headers : List ChunkHeader} {d d' : TapeW P κ}

section Headers

/-- A chunk that was referenced gets its header next. -/
theorem Referencing.withHeader (referencing : Referencing K contents base start archives headers d)
    {ch : ChunkHeader} {C : ChunksW} {stored : List (ChunkHeader × List UInt8)}
    (session : Session K contents base start archives (d.references headers ++ [ch.hash]) C)
    (maxlen : C.maxlen = MAXCHUNK) (kept : ∀ size ∈ sizes d.C.HT, size ∈ sizes C.HT) :
    Referencing K contents base start archives (headers ++ [ch]) { d with C, stored } where
  session := by
    rw [references_header]
    exact session
  maxlen := maxlen
  sized := fun s header member => kept _ (referencing.sized s header member)
  room := referencing.room
  fileRoom := referencing.fileRoom

/-- The header of a chunk that was referenced goes to the chunk index stream. -/
theorem Referencing.header (params : TapeParams P) (inflates : Unpacks K zlib) {ch : ChunkHeader}
    (referencing : Referencing K contents base start archives (headers ++ [ch]) d)
    (total : (d.stream .c).total contents = headers.flatMap ChunkHeader.encode)
    (written : Multitape.streamWrite K zlib .c d ch.encode = some d')
    (faithful : Faithful contents d') : Recorded K contents base start archives d' := by
  refine ⟨headers ++ [ch], referencing.streamWrite params inflates written faithful, ?_⟩
  rw [(streamWrite_ok written).2 contents faithful, total, List.flatMap_append,
    List.flatMap_singleton]

/-- Writing to another stream than the chunk index stream. -/
theorem streamWrite_records (params : TapeParams P) (inflates : Unpacks K zlib) {s : StreamName}
    {buf : List UInt8} (other : s ≠ .c) (written : streamWrite K zlib s d buf = some d') :
    Records K contents base start archives d d' := by
  obtain ⟨only, _⟩ := streamWrite_ok written
  refine ⟨only.toGrows, ?_⟩
  rintro faithful ⟨headers, referencing, total⟩
  refine ⟨headers, referencing.streamWrite params inflates written faithful, ?_⟩
  rw [only.others .c other.symm]
  exact total

/-- Ending the last chunk of a stream. -/
theorem streamEnd_records (params : TapeParams P) (inflates : Unpacks K zlib) {s : StreamName}
    (ended : streamEnd K zlib s d = some d') : Records K contents base start archives d d' := by
  obtain ⟨only, _, same⟩ := streamEnd_ok ended
  refine ⟨only.toGrows, ?_⟩
  rintro faithful ⟨headers, referencing, total⟩
  refine ⟨headers, referencing.streamEnd params inflates ended faithful, ?_⟩
  by_cases own : .c = s
  · subst own
    rw [same contents faithful]
    exact total
  · rw [only.others .c own]
    exact total

end Headers

section FileData

/-- A trailer is written. -/
theorem fileTrailer_records (params : TapeParams P) (inflates : Unpacks K zlib)
    {buf : List UInt8} (written : fileTrailer K zlib d buf = some d') :
    Records K contents base start archives d d' := by
  unfold fileTrailer at written
  split at written
  · exact nomatch written
  obtain ⟨d1, wrote, written⟩ := Option.bind_eq_some_iff.mp written
  obtain ⟨fields, _⟩ := notifyTrailer_ok written
  refine (streamWrite_records params inflates (by decide) wrote).trans (Aside.records ?_)
  rw [fields]
  exact ⟨rfl, rfl, id, rfl, rfl, rfl, rfl, rfl⟩

/-- A chunk of file data is written. -/
theorem fileChunk_records (params : TapeParams P) (inflates : Unpacks K zlib) {buf : List UInt8}
    (sized : 1 ≤ buf.length ∧ buf.length ≤ MAXCHUNK)
    (written : fileChunk K zlib d buf = some d') :
    Records K contents base start archives d d' := by
  obtain ⟨⟨ch, C⟩, stored, written⟩ := Option.bind_eq_some_iff.mp written
  obtain ⟨d1, wrote, written⟩ := Option.bind_eq_some_iff.mp written
  obtain ⟨fields, _⟩ := notifyChunk_ok written
  have later : Records K contents base start archives d1 d' := by
    apply Aside.records
    rw [fields]
    exact ⟨rfl, rfl, id, rfl, rfl, rfl, rfl, rfl⟩
  obtain ⟨only, _⟩ := streamWrite_ok wrote
  have first : Records K contents base start archives d d1 := by
    refine ⟨⟨fun hash here => only.has hash ((storeChunk_ok stored).2.2.2 hash here),
      (List.prefix_append _ _).trans only.stored⟩, ?_⟩
    rintro faithful ⟨headers, referencing, total⟩
    have known : contents ch.hash = buf := by
      refine faithful ch buf (only.stored.subset ?_)
      exact List.mem_append_right _ (List.mem_singleton_self _)
    obtain ⟨session, maxlen, _, kept⟩ := referencing.storeChunk inflates sized known stored
    exact (referencing.withHeader session maxlen kept).header params inflates total wrote faithful
  exact first.trans later

/-- A chunk of the file chunkifier is passed on. -/
theorem callbackFile_records (params : TapeParams P) (inflates : Unpacks K zlib)
    {buf : List UInt8} (sized : 1 ≤ buf.length ∧ buf.length ≤ MAXCHUNK)
    (handled : callbackFile K zlib d buf = (0, d')) :
    Records K contents base start archives d d' := by
  unfold callbackFile at handled
  have counted : Records K contents base start archives d
      { d with cFileOut := d.cFileOut + buf.length } :=
    Aside.records ⟨rfl, rfl, id, rfl, rfl, rfl, rfl, rfl⟩
  refine counted.trans ?_
  simp only at handled
  split at handled
  · have code : failure = 0 := congrArg Prod.fst handled
    exact absurd code (by decide)
  rename_i d1 result
  cases handled
  split at result
  · exact fileTrailer_records params inflates result
  · exact fileChunk_records params inflates sized result

/-- Chunks of the file chunkifier are passed on. -/
theorem callbackFiles_records (params : TapeParams P) (inflates : Unpacks K zlib)
    {chunks : List (List UInt8)}
    (sized : ∀ chunk ∈ chunks, 1 ≤ chunk.length ∧ chunk.length ≤ MAXCHUNK)
    (handled : chunks.foldlM (accept (callbackFile K zlib)) d = some d') :
    Records K contents base start archives d d' := by
  induction chunks generalizing d with
  | nil =>
    cases handled
    exact Records.refl _
  | cons chunk chunks ih =>
    rw [List.foldlM_cons] at handled
    obtain ⟨d1, first, later⟩ := Option.bind_eq_some_iff.mp handled
    unfold accept at first
    split at first
    · rename_i succeeded
      cases first
      refine Records.trans ?_
        (ih (fun other member => sized other (List.mem_cons_of_mem _ member)) later)
      exact callbackFile_records params inflates (sized chunk List.mem_cons_self)
        (Prod.ext succeeded rfl)
    · exact nomatch first

/-- File data is written. -/
theorem fileWrite_records (params : TapeParams P) (inflates : Unpacks K zlib) {buf : List UInt8}
    (written : fileWrite K zlib d buf = some d') :
    Records K contents base start archives d d' := by
  unfold fileWrite at written
  split at written
  · rename_i c d1 chunkified
    cases written
    obtain ⟨chunks, fed, accepted⟩ := chunkifyWrite_ok _ chunkified
    have lengths := feed_lengths fed
    rw [params.blen] at lengths
    have passed : Records K contents base start archives d d1 :=
      callbackFiles_records params inflates lengths accepted
    refine passed.trans (Aside.records ⟨rfl, rfl, fun room => ?_, rfl, rfl, rfl, rfl, rfl⟩)
    rw [(fileSteps_of_accept accepted).cFile] at room
    exact feed_room fed room
  · exact nomatch written

/-- The file chunk is ended. -/
theorem fileEnd_records (params : TapeParams P) (inflates : Unpacks K zlib)
    (ended : fileEnd K zlib d = some d') : Records K contents base start archives d d' := by
  refine ⟨(grows_kept d).ended _ _ ended (Grows.refl d), ?_⟩
  rintro faithful ⟨headers, referencing, total⟩
  unfold fileEnd at ended
  split at ended
  · rename_i c d1 chunkified
    cases ended
    obtain ⟨accepted, last⟩ := chunkifyEnd_ok _ chunkified
    have lengths := lastChunk_lengths referencing.fileRoom
    rw [params.blen] at lengths
    have passed : Records K contents base start archives d d1 :=
      callbackFiles_records params inflates lengths accepted
    have room : c.k ≤ P.blen := by
      rw [last]
      split
      · exact referencing.fileRoom
      · exact Nat.zero_le _
    have aside : Aside d1 { d1 with cFile := c } :=
      ⟨rfl, rfl, fun _ => room, rfl, rfl, rfl, rfl, rfl⟩
    exact (passed.trans aside.records).recorded faithful ⟨headers, referencing, total⟩
  · cases ended

end FileData

section Calls

/-- An entry ends. -/
theorem endentry_records (params : TapeParams P) (inflates : Unpacks K zlib)
    (ended : endentry K zlib d = some d') : Records K contents base start archives d d' := by
  unfold endentry at ended
  split at ended
  · exact nomatch ended
  obtain ⟨d1, first, ended⟩ := Option.bind_eq_some_iff.mp ended
  obtain ⟨d2, second, ended⟩ := Option.bind_eq_some_iff.mp ended
  cases ended
  have emptied : Aside d { d with hbuf := [] } := ⟨rfl, rfl, id, rfl, rfl, rfl, rfl, rfl⟩
  have reset : Aside d2 { d2 with clen := 0, tlen := 0 } := ⟨rfl, rfl, id, rfl, rfl, rfl, rfl, rfl⟩
  exact emptied.records.trans ((streamWrite_records params inflates (by decide) first).trans
    ((streamWrite_records params inflates (by decide) second).trans reset.records))

/-- The mode is set. -/
theorem writetapeSetmode_records (params : TapeParams P) (inflates : Unpacks K zlib) {mode : Mode}
    (set : writetapeSetmode K zlib d mode = some d') :
    Records K contents base start archives d d' := by
  unfold writetapeSetmode at set
  split at set
  · cases set
    exact Records.refl _
  obtain ⟨d1, first, set⟩ := Option.bind_eq_some_iff.mp set
  split at set
  · exact nomatch set
  obtain ⟨d2, second, set⟩ := Option.bind_eq_some_iff.mp set
  cases set
  have one : Records K contents base start archives d d1 := by
    split at first
    · exact fileEnd_records params inflates first
    · cases first
      exact Records.refl _
  have two : Records K contents base start archives d1 d2 := by
    split at second
    · exact endentry_records params inflates second
    · cases second
      exact Records.refl _
  have moded : Aside d2 { d2 with mode } := ⟨rfl, rfl, id, rfl, rfl, rfl, rfl, rfl⟩
  exact one.trans (two.trans moded.records)

/-- Bytes are written. -/
theorem writetapeWrite_records (params : TapeParams P) (inflates : Unpacks K zlib) {nomem : Bool}
    {buffer : List UInt8} {lenwrit : Nat}
    (written : writetapeWrite K zlib nomem d buffer = some (lenwrit, d')) :
    Records K contents base start archives d d' := by
  rcases writetapeWrite_cases written with ⟨_, _, rfl⟩ | ⟨_, _, _, d1, wrote, rfl⟩ |
    ⟨_, _, _, mode, _, _, rfl⟩
  · exact Records.refl _
  · refine (fileWrite_records params inflates wrote).trans (Aside.records ?_)
    exact ⟨rfl, rfl, id, rfl, rfl, rfl, rfl, rfl⟩
  · exact Aside.records ⟨rfl, rfl, id, rfl, rfl, rfl, rfl, rfl⟩

/-- A chunk is referenced. -/
theorem writetapeWritechunk_records (params : TapeParams P) (inflates : Unpacks K zlib)
    {ch : ChunkHeader} {lenwrit : Nat}
    (written : writetapeWritechunk K zlib d ch = some (lenwrit, d')) :
    Records K contents base start archives d d' := by
  unfold writetapeWritechunk at written
  split at written
  · cases written
    exact Records.refl _
  split at written
  · cases written
    exact Records.refl _
  split at written
  · rename_i C referenced
    obtain ⟨d1, wrote, written⟩ := Option.bind_eq_some_iff.mp written
    cases written
    obtain ⟨only, _⟩ := streamWrite_ok wrote
    have present : ∀ hash, HasChunk d.C hash → HasChunk C hash := by
      intro hash here
      unfold chunksWriteChunkref at referenced
      split at referenced
      · cases referenced
        exact hasChunk_reference.mpr here
      · cases referenced
    have first : Records K contents base start archives d d1 := by
      refine ⟨⟨fun hash here => only.has hash (present hash here), only.stored⟩, ?_⟩
      rintro faithful ⟨headers, referencing, total⟩
      obtain ⟨session, maxlen, same⟩ := referencing.session.chunkref referenced
      have kept : ∀ size ∈ sizes d.C.HT, size ∈ sizes C.HT := by
        rw [same]
        exact fun _ inside => inside
      exact (referencing.withHeader session (maxlen.trans referencing.maxlen) kept).header params
        inflates total wrote faithful
    have counted : Aside d1 { d1 with clen := d1.clen + ch.len.toNat } :=
      ⟨rfl, rfl, id, rfl, rfl, rfl, rfl, rfl⟩
    exact first.trans counted.records
  · rename_i rc C nonzero missing
    cases written
    unfold chunksWriteChunkref at missing
    split at missing
    · cases missing
      exact absurd rfl nonzero
    · cases missing
      exact Records.refl _

end Calls

section Flushes

/-- An archive that was stored when the tape was flushed. -/
structure Flushed {K : Crypto} (rsa : RsaSigner K) (tape : StoredTape) (d : TapeW P κ) : Prop where
  /-- The chunkifiers of the streams are empty. -/
  empty : ∀ s, (d.stream s).c.bytes = []
  /-- The archive has the indexes of the tape. -/
  indexes : tape.tmi = ⟨(d.stream .h).index.flatMap ChunkHeader.encode,
    (d.stream .c).index.flatMap ChunkHeader.encode, (d.stream .t).index.flatMap ChunkHeader.encode⟩
  /-- The files of the metaindex were stored. -/
  ifiles : ∃ C C' tmd, multitapeMetaindexPut K C tape.tmi tmd = some (tape.ifiles, C', tape.tmd)
  /-- The metadata file was stored. -/
  mfile : ∃ C C', multitapeMetadataPut rsa C tape.tmd = some (tape.mfile, C')
  /-- The metadata has the name. -/
  name : tape.tmd.name = tape.name
  /-- The length of the file is not noted in it. -/
  metadatalen : tape.tmd.metadatalen = 0

/-- Counting extra data leaves the rest of the chunk layer alone. -/
theorem extrastats_aside (lengths : Nat → UInt32) (fragnums : List Nat) (C : ChunksW) :
    let C' := fragnums.foldl (fun C fragnum => chunksWriteExtrastats C (lengths fragnum)) C
    C'.maxlen = C.maxlen ∧ C'.HT = C.HT ∧ C'.S = C.S ∧ C'.statsTotal = C.statsTotal ∧
      C'.statsUnique = C.statsUnique := by
  induction fragnums generalizing C with
  | nil => exact ⟨rfl, rfl, rfl, rfl, rfl⟩
  | cons fragnum rest ih => exact ih (chunksWriteExtrastats C (lengths fragnum))

/-- The tape is flushed, and its archive is stored. -/
theorem flushtape_records (params : TapeParams P) (inflates : Unpacks K zlib) {isapart : Bool}
    {tape : StoredTape} (flushed : flushtape K zlib rsa d isapart = some (tape, d')) :
    Records K contents base start archives d d' ∧ Flushed rsa tape d' := by
  obtain ⟨d1, one, flushed⟩ := Option.bind_eq_some_iff.mp flushed
  obtain ⟨d2, two, flushed⟩ := Option.bind_eq_some_iff.mp flushed
  obtain ⟨d3, three, flushed⟩ := Option.bind_eq_some_iff.mp flushed
  obtain ⟨d4, four, flushed⟩ := Option.bind_eq_some_iff.mp flushed
  obtain ⟨⟨ifiles, C1, tmd⟩, metaindex, flushed⟩ := Option.bind_eq_some_iff.mp flushed
  obtain ⟨⟨mfile, C2⟩, metadata, flushed⟩ := Option.bind_eq_some_iff.mp flushed
  cases flushed
  obtain ⟨⟨buf, buflen⟩, _, counted⟩ := Option.bind_eq_some_iff.mp metadata
  obtain ⟨_, described, _, extra⟩ := multitapeMetaindexPut_cases metaindex
  obtain ⟨maxlen, table, files, total, unique⟩ := extrastats_aside
    (fun fragnum => UInt32.ofNat (fraglen tmd.indexlen fragnum)) (fragnums tmd.indexlen) d4.C
  rw [← extra] at maxlen table files total unique
  have streams : Records K contents base start archives d d4 :=
    (fileEnd_records params inflates one).trans ((streamEnd_records params inflates two).trans
      ((streamEnd_records params inflates three).trans (streamEnd_records params inflates four)))
  have aside : Aside d4 { d4 with C := C2 } := by
    cases counted
    exact ⟨rfl, rfl, id, maxlen, table, files, total, unique⟩
  obtain ⟨_, empty2, _⟩ := streamEnd_ok two
  obtain ⟨only3, empty3, _⟩ := streamEnd_ok three
  obtain ⟨only4, empty4, _⟩ := streamEnd_ok four
  refine ⟨streams.trans aside.records, ?_, rfl, ⟨_, _, _, metaindex⟩, ⟨_, _, metadata⟩, ?_, ?_⟩
  · intro s
    cases s with
    | h => exact empty4
    | c =>
      show (d4.stream .c).c.bytes = []
      rw [only4.others .c (by decide)]
      exact empty3
    | t =>
      show (d4.stream .t).c.bytes = []
      rw [only4.others .t (by decide), only3.others .t (by decide)]
      exact empty2
  · rw [described]
  · rw [described]

/-- The mode is set if a condition holds. -/
theorem setmode_if_records (params : TapeParams P) (inflates : Unpacks K zlib) {short : Prop}
    [Decidable short] {mode : Mode}
    (set : (if short then writetapeSetmode K zlib d mode else some d) = some d') :
    Records K contents base start archives d d' := by
  split at set
  · exact writetapeSetmode_records params inflates set
  · cases set
    exact Records.refl _

/-- An archive trailer ends if there is one. -/
theorem endentry_if_records (params : TapeParams P) (inflates : Unpacks K zlib) {trailer : Prop}
    [Decidable trailer] (ended : (if trailer then endentry K zlib d else some d) = some d') :
    Records K contents base start archives d d' := by
  split at ended
  · exact endentry_records params inflates ended
  · cases ended
    exact Records.refl _

/-- Copying statistics of extra data. -/
theorem extrastatsCopy_records (direction : Nat) : Records K contents base start archives d
    { d with C := chunksWriteExtrastatsCopy d.C direction } := by
  apply Aside.records
  unfold chunksWriteExtrastatsCopy
  split <;> exact ⟨rfl, rfl, id, rfl, rfl, rfl, rfl, rfl⟩

/-- A checkpoint stores a partial archive. -/
theorem writetapePart_records (params : TapeParams P) (inflates : Unpacks K zlib)
    {part : StoredTape} (flushed : writetapePart K zlib rsa d = some (part, d')) :
    Records K contents base start archives d d' ∧ Flushed rsa part d' := by
  unfold writetapePart at flushed
  obtain ⟨d1, first, flushed⟩ := Option.bind_eq_some_iff.mp flushed
  obtain ⟨d2, second, flushed⟩ := Option.bind_eq_some_iff.mp flushed
  obtain ⟨last, stored⟩ := @flushtape_records P κ K zlib rsa contents base start archives _ _ params
    inflates _ _ flushed
  refine ⟨?_, stored⟩
  exact (setmode_if_records params inflates first).trans
    ((endentry_if_records params inflates second).trans ((extrastatsCopy_records 0).trans last))

/-- A checkpoint is created. -/
theorem writetapeCheckpoint_records (params : TapeParams P) (inflates : Unpacks K zlib)
    {part : StoredTape} (created : writetapeCheckpoint K zlib rsa d = some (part, d')) :
    Records K contents base start archives d d' := by
  unfold writetapeCheckpoint at created
  simp only at created
  obtain ⟨d1, first, created⟩ := Option.bind_eq_some_iff.mp created
  obtain ⟨d2, second, created⟩ := Option.bind_eq_some_iff.mp created
  obtain ⟨⟨tape, d3⟩, flushed, created⟩ := Option.bind_eq_some_iff.mp created
  obtain ⟨d4, last, created⟩ := Option.bind_eq_some_iff.mp created
  cases created
  obtain ⟨middle, _⟩ := @flushtape_records P κ K zlib rsa contents base start archives _ _ params
    inflates _ _ flushed
  have before : Records K contents base start archives d d3 :=
    (setmode_if_records params inflates first).trans
      ((endentry_if_records params inflates second).trans ((extrastatsCopy_records 0).trans middle))
  exact before.trans ((extrastatsCopy_records 1).trans (setmode_if_records params inflates last))

/-- The tape is closed, and its archive is stored. -/
theorem writetapeClosed_records (params : TapeParams P) (inflates : Unpacks K zlib)
    {tape : StoredTape} (closed : writetapeClosed K zlib rsa d = some (tape, d')) :
    Records K contents base start archives d d' ∧ Flushed rsa tape d' := by
  unfold writetapeClosed at closed
  obtain ⟨d1, first, closed⟩ := Option.bind_eq_some_iff.mp closed
  obtain ⟨d2, second, closed⟩ := Option.bind_eq_some_iff.mp closed
  split at closed
  · exact nomatch closed
  obtain ⟨last, stored⟩ := @flushtape_records P κ K zlib rsa contents base start archives _ _ params
    inflates _ _ closed
  refine ⟨?_, stored⟩
  exact (setmode_if_records params inflates first).trans
    ((endentry_if_records params inflates second).trans last)

end Flushes

section Runs

/-- Every call keeps the references recorded. -/
theorem TapeOp.run_records (params : TapeParams P) (inflates : Unpacks K zlib) {op : TapeOp}
    {more : List Piece} (made : op.run K zlib rsa d = some (more, d')) :
    Records K contents base start archives d d' := by
  cases op with
  | write nomem buffer =>
    obtain ⟨⟨lenwrit, d1⟩, written, rest⟩ := Option.bind_eq_some_iff.mp made
    cases rest
    exact writetapeWrite_records params inflates written
  | writechunk ch =>
    obtain ⟨⟨lenwrit, d1⟩, written, rest⟩ := Option.bind_eq_some_iff.mp made
    cases rest
    exact writetapeWritechunk_records params inflates written
  | setmode mode =>
    obtain ⟨d1, set, rest⟩ := Option.bind_eq_some_iff.mp made
    cases rest
    exact writetapeSetmode_records params inflates set
  | checkpoint =>
    obtain ⟨⟨part, d1⟩, created, rest⟩ := Option.bind_eq_some_iff.mp made
    cases rest
    exact writetapeCheckpoint_records params inflates created
  | truncate =>
    cases made
    exact Aside.records ⟨rfl, rfl, id, rfl, rfl, rfl, rfl, rfl⟩

variable {first : TapeW P κ} {parts : List (StoredTape × TapeW P κ)}

/-- Any calls and checkpoints keep the references recorded, and each checkpoint stored an archive
whose references are recorded. -/
theorem Created.records (params : TapeParams P) (inflates : Unpacks K zlib)
    (created : Created K zlib rsa first parts d) :
    Records K contents base start archives first d ∧
      ∀ part ∈ parts, Records K contents base start archives first part.2 ∧
        Flushed rsa part.1 part.2 := by
  induction created with
  | none => exact ⟨Records.refl _, fun part absent => absurd absent List.not_mem_nil⟩
  | call before other made ih =>
    exact ⟨ih.1.trans (TapeOp.run_records params inflates made), ih.2⟩
  | setcallback before callbackChunk callbackTrailer callbackCookie ih =>
    exact ⟨ih.1.trans (Aside.records ⟨rfl, rfl, id, rfl, rfl, rfl, rfl, rfl⟩), ih.2⟩
  | checkpoint before flushed made ih =>
    refine ⟨ih.1.trans (writetapeCheckpoint_records params inflates made), ?_⟩
    intro other member
    rcases List.mem_append.mp member with older | newest
    · exact ih.2 other older
    · rw [List.mem_singleton.mp newest]
      obtain ⟨last, stored⟩ := @writetapePart_records P κ K zlib rsa contents base start
        archives _ _
        params inflates _ flushed
      exact ⟨ih.1.trans last, stored⟩

/-- A tape that is started has no references. -/
theorem writetapeStart_recorded {tapename : List UInt8} {ctime : Nat} {argv : List (List UInt8)}
    {C : ChunksW} {buf : StreamName → Vector UInt8 P.blen} {fileBuf : Vector UInt8 P.blen}
    {cookie : κ} (session : Session K contents base start archives [] C)
    (maxlen : C.maxlen = MAXCHUNK) : Recorded K contents base start archives
      (writetapeStart tapename ctime argv C buf fileBuf cookie) := by
  refine ⟨[], ⟨session, maxlen, ?_, fun _ => Nat.zero_le _, Nat.zero_le _⟩, ?_⟩
  · intro s ch member
    exact absurd member List.not_mem_nil
  · exact chunkifyStart_bytes (buf .c)

end Runs

end Tarsnap.Multitape
