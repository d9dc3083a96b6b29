import Tarsnap.Chunks.Session
import Tarsnap.Multitape.CheckpointStats

/-!
# The references of a tape

A tape references the chunks in its three indexes and those whose headers are in its chunk index
stream. Every call of the tape writer hands the chunk layer exactly these references, and the sizes
in the headers of stored chunks are those of their records.
-/

namespace Tarsnap.Multitape

open Tarsnap.Lib Tarsnap.Chunks Tarsnap.Chunkify

variable {P : Params} {κ : Type}

/-- The references of a tape whose chunk index stream holds the given headers. -/
def TapeW.references (d : TapeW P κ) (headers : List ChunkHeader) : List Hash :=
  ((d.stream .h).index ++ (d.stream .c).index ++ (d.stream .t).index ++ headers).map (·.hash)

/-- A tape is written over a machine whose chunks are read back, and the chunk layer counts its
references. -/
structure Referencing (K : Crypto) (contents : Hash → List UInt8) (base : Store) (start : Table)
    (archives : List (List Hash)) (headers : List ChunkHeader) (d : TapeW P κ) : Prop where
  /-- The chunk layer counts the references. -/
  session : Session K contents base start archives (d.references headers) d.C
  /-- The length of chunks is bounded. -/
  maxlen : d.C.maxlen = MAXCHUNK
  /-- Headers in an index have the lengths of their records. -/
  sized : ∀ s, ∀ ch ∈ (d.stream s).index, (ch.hash, ch.len, ch.zlen) ∈ sizes d.C.HT
  /-- What a chunkifier of a stream holds fits its buffer. -/
  room : ∀ s, (d.stream s).c.k ≤ P.blen
  /-- What the file chunkifier holds fits its buffer. -/
  fileRoom : d.cFile.k ≤ P.blen

/-- The chunk layer counts the references of the tape, for the headers in its chunk index stream. -/
def Recorded (K : Crypto) (contents : Hash → List UInt8) (base : Store) (start : Table)
    (archives : List (List Hash)) (d : TapeW P κ) : Prop :=
  ∃ headers, Referencing K contents base start archives headers d ∧
    (d.stream .c).total contents = headers.flatMap ChunkHeader.encode

/-- A change that keeps the references recorded, as long as chunks are found under their hashes. -/
structure Records (K : Crypto) (contents : Hash → List UInt8) (base : Store) (start : Table)
    (archives : List (List Hash)) (d d' : TapeW P κ) : Prop extends Grows d d' where
  /-- The references are still recorded. -/
  recorded : Faithful contents d' → Recorded K contents base start archives d →
    Recorded K contents base start archives d'

variable {K : Crypto} {zlib : Zlib} {rsa : RsaSigner K} {contents : Hash → List UInt8}
  {base : Store}
  {start : Table} {archives : List (List Hash)} {headers : List ChunkHeader} {d d' : TapeW P κ}

section Changes

/-- No change. -/
theorem Records.refl (d : TapeW P κ) : Records K contents base start archives d d :=
  ⟨Grows.refl d, fun _ recorded => recorded⟩

/-- Two changes. -/
theorem Records.trans {d'' : TapeW P κ} (first : Records K contents base start archives d d')
    (second : Records K contents base start archives d' d'') :
    Records K contents base start archives d d'' where
  toGrows := first.toGrows.trans second.toGrows
  recorded := fun faithful recorded =>
    second.recorded faithful (first.recorded (faithful.earlier second.toGrows) recorded)

/-- A change that leaves the chunk layer alone but for other statistics, and the streams. -/
structure Aside (d d' : TapeW P κ) : Prop where
  /-- What was stored is the same. -/
  stored : d'.stored = d.stored
  /-- The streams are the same. -/
  stream : d'.stream = d.stream
  /-- What the file chunkifier holds fits its buffer if it did. -/
  file : d.cFile.k ≤ P.blen → d'.cFile.k ≤ P.blen
  /-- The maximum length is the same. -/
  maxlen : d'.C.maxlen = d.C.maxlen
  /-- The records are the same. -/
  table : d'.C.HT = d.C.HT
  /-- The files are the same. -/
  files : d'.C.S = d.C.S
  /-- The statistics with multiplicity are the same. -/
  total : d'.C.statsTotal = d.C.statsTotal
  /-- The statistics without multiplicity are the same. -/
  unique : d'.C.statsUnique = d.C.statsUnique

/-- Such a change records nothing. -/
theorem Aside.referencing (aside : Aside d d')
    (referencing : Referencing K contents base start archives headers d) :
    Referencing K contents base start archives headers d' where
  session := by
    rw [TapeW.references, aside.stream]
    exact referencing.session.congr aside.maxlen aside.table aside.files aside.total aside.unique
  maxlen := aside.maxlen.trans referencing.maxlen
  sized := by
    rw [aside.stream, aside.table]
    exact referencing.sized
  room := by
    rw [aside.stream]
    exact referencing.room
  fileRoom := aside.file referencing.fileRoom

/-- Such a change keeps the references recorded. -/
theorem Aside.records (aside : Aside d d') : Records K contents base start archives d d' := by
  refine ⟨⟨?_, ?_⟩, ?_⟩
  · intro hash here
    rw [HasChunk, aside.table]
    exact here
  · rw [aside.stored]
  · rintro _ ⟨headers, referencing, total⟩
    refine ⟨headers, aside.referencing referencing, ?_⟩
    rw [aside.stream]
    exact total

end Changes

section Streams

/-- The references of a tape with one more header in an index. -/
theorem references_update (d : TapeW P κ) (s : StreamName) (ch : ChunkHeader) (C : ChunksW)
    (stored : List (ChunkHeader × List UInt8)) :
    (d.references headers ++ [ch.hash]).Perm (TapeW.references { d with
      C, stored
      stream := Function.update d.stream s
        { d.stream s with index := (d.stream s).index ++ [ch] } } headers) := by
  rw [List.perm_iff_count]
  intro hash
  cases s <;>
    simp only [TapeW.references, Function.update, List.map_append, List.map_cons, List.map_nil,
      List.count_append, List.count_cons, List.count_nil, reduceCtorEq, dite_true, dite_false] <;>
    omega

/-- The references of a tape with one more header in its chunk index stream. -/
theorem references_header (d : TapeW P κ) (ch : ChunkHeader) :
    d.references (headers ++ [ch]) = d.references headers ++ [ch.hash] := by
  simp [TapeW.references]

/-- A stored chunk is referenced, and its header has the lengths of its record. -/
theorem Referencing.storeChunk (referencing : Referencing K contents base start archives headers d)
    (inflates : Unpacks K zlib) {buf : List UInt8} {C : ChunksW} {ch : ChunkHeader}
    (sized : 1 ≤ buf.length ∧ buf.length ≤ MAXCHUNK) (known : contents ch.hash = buf)
    (stored : storeChunk K zlib buf d.C = some (ch, C)) :
    Session K contents base start archives (d.references headers ++ [ch.hash]) C ∧
      C.maxlen = MAXCHUNK ∧ (ch.hash, ch.len, ch.zlen) ∈ sizes C.HT ∧
      ∀ size ∈ sizes d.C.HT, size ∈ sizes C.HT := by
  obtain ⟨⟨C1, zlen⟩, written, rest⟩ := Option.bind_eq_some_iff.mp stored
  cases rest
  have maxlen := referencing.maxlen
  have limit : d.C.zbuflen ≤ storageFileLimit := by
    rw [ChunksW.zbuflen, maxlen]
    decide
  have nonempty : buf ≠ [] := List.length_pos_iff.mp sized.1
  obtain ⟨session, same, record, kept⟩ := referencing.session.chunk inflates limit nonempty
    (by rw [maxlen]; exact sized.2) known written
  exact ⟨session, same.trans maxlen, record, kept⟩

/-- A handled chunk of a stream is referenced. -/
theorem Referencing.handleChunk {s : StreamName} {buf : List UInt8}
    (referencing : Referencing K contents base start archives headers d)
    (inflates : Unpacks K zlib) (sized : 1 ≤ buf.length ∧ buf.length ≤ MAXCHUNK)
    (handled : handleChunk K zlib s d buf = (0, d')) (faithful : Faithful contents d') :
    Referencing K contents base start archives headers d' := by
  unfold Multitape.handleChunk at handled
  split at handled
  · have code : failure = 0 := congrArg Prod.fst handled
    exact absurd code (by decide)
  rename_i ch C stored
  cases handled
  have known : contents ch.hash = buf :=
    faithful ch buf (List.mem_append_right _ (List.mem_singleton_self _))
  obtain ⟨session, maxlen, record, kept⟩ := referencing.storeChunk inflates sized known stored
  refine ⟨session.perm (references_update d s ch C _), maxlen, ?_, ?_, referencing.fileRoom⟩
  · intro other header member
    by_cases own : other = s
    · subst own
      simp only [Function.update_self] at member
      rcases List.mem_append.mp member with old | new
      · exact kept _ (referencing.sized other header old)
      · rw [List.mem_singleton.mp new]
        exact record
    · simp only [Function.update_of_ne own] at member
      exact kept _ (referencing.sized other header member)
  · intro other
    by_cases own : other = s
    · subst own
      simp only [Function.update_self]
      exact referencing.room other
    · simp only [Function.update_of_ne own]
      exact referencing.room other

/-- Handled chunks of a stream are referenced. -/
theorem Referencing.handleChunks {s : StreamName} {chunks : List (List UInt8)}
    (referencing : Referencing K contents base start archives headers d)
    (inflates : Unpacks K zlib)
    (sized : ∀ chunk ∈ chunks, 1 ≤ chunk.length ∧ chunk.length ≤ MAXCHUNK)
    (handled : chunks.foldlM (accept (Multitape.handleChunk K zlib s)) d = some d')
    (faithful : Faithful contents d') :
    Referencing K contents base start archives headers d' := by
  induction chunks generalizing d with
  | nil =>
    cases handled
    exact referencing
  | cons chunk chunks ih =>
    rw [List.foldlM_cons] at handled
    obtain ⟨d1, first, later⟩ := Option.bind_eq_some_iff.mp handled
    unfold accept at first
    split at first
    · rename_i succeeded
      cases first
      have grows := (handleChunks_ok later).1.toGrows
      refine ih ?_ (fun other member => sized other (List.mem_cons_of_mem _ member)) later
      exact referencing.handleChunk inflates (sized chunk List.mem_cons_self)
        (Prod.ext succeeded rfl) (faithful.earlier grows)
    · exact nomatch first

/-- The chunkifier of a stream may hold other data. -/
theorem Referencing.chunkifier (referencing : Referencing K contents base start archives headers d)
    (s : StreamName) {c : Chunkifier P} (room : c.k ≤ P.blen) :
    Referencing K contents base start archives headers
      { d with stream := Function.update d.stream s { d.stream s with c } } := by
  have index : ∀ other, ((Function.update d.stream s { d.stream s with c }) other).index =
      (d.stream other).index := by
    intro other
    by_cases own : other = s
    · rw [own, Function.update_self]
    · rw [Function.update_of_ne own]
  refine ⟨?_, referencing.maxlen, ?_, ?_, referencing.fileRoom⟩
  · have same : TapeW.references
        { d with stream := Function.update d.stream s { d.stream s with c } } headers =
          d.references headers := by
      simp only [TapeW.references, index]
    rw [same]
    exact referencing.session
  · intro other ch member
    rw [index] at member
    exact referencing.sized other ch member
  · intro other
    by_cases own : other = s
    · simp only [own, Function.update_self]
      exact room
    · simp only [Function.update_of_ne own]
      exact referencing.room other

/-- The chunks of a buffer that is written to a stream are referenced. -/
theorem Referencing.streamWrite (params : TapeParams P) {s : StreamName} {buf : List UInt8}
    (referencing : Referencing K contents base start archives headers d)
    (inflates : Unpacks K zlib) (written : streamWrite K zlib s d buf = some d')
    (faithful : Faithful contents d') :
    Referencing K contents base start archives headers d' := by
  unfold Multitape.streamWrite at written
  rw [streamCallback_eq] at written
  split at written
  · rename_i c d1 chunkified
    cases written
    obtain ⟨before, fed, accepted⟩ := chunkifyWrite_ok _ chunkified
    have lengths := feed_lengths fed
    rw [params.blen] at lengths
    exact (referencing.handleChunks inflates lengths accepted faithful).chunkifier s
      (feed_room fed (referencing.room s))
  · exact nomatch written

/-- The last chunk of a stream is referenced. -/
theorem Referencing.streamEnd (params : TapeParams P) {s : StreamName}
    (referencing : Referencing K contents base start archives headers d)
    (inflates : Unpacks K zlib) (ended : streamEnd K zlib s d = some d')
    (faithful : Faithful contents d') :
    Referencing K contents base start archives headers d' := by
  unfold Multitape.streamEnd at ended
  rw [streamCallback_eq] at ended
  split at ended
  · rename_i c d1 chunkified
    cases ended
    obtain ⟨accepted, last⟩ := chunkifyEnd_ok _ chunkified
    have lengths := lastChunk_lengths (referencing.room s)
    rw [params.blen] at lengths
    have room : c.k ≤ P.blen := by
      rw [last]
      split
      · exact referencing.room s
      · exact Nat.zero_le _
    exact (referencing.handleChunks inflates lengths accepted faithful).chunkifier s room
  · cases ended

end Streams

end Tarsnap.Multitape
