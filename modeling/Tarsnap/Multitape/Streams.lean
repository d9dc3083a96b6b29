import Tarsnap.Chunks.Counts
import Tarsnap.Multitape.Write

/-!
# What the writer does to the streams

A buffer that is written to a stream is appended to what the stream stands for: the contents of
the chunks in its index and the bytes that its chunkifier holds. Nothing else of the tape changes
but the chunk layer, which keeps every chunk that it has.
-/

namespace Tarsnap.Multitape

open Tarsnap.Lib Tarsnap.Chunks Tarsnap.Chunkify

variable {P : Params} {κ : Type}

/-- The chunk layer has a chunk with this hash. -/
def HasChunk (C : ChunksW) (hash : Hash) : Prop := (rwhashtabRead C.HT hash).isSome = true

/-- The chunk layer has a chunk if its table lists the hash. -/
theorem hasChunk_iff {C : ChunksW} {hash : Hash} :
    HasChunk C hash ↔ hash ∈ C.HT.map (·.hash) := by
  have listed := @rwhashtabRead_none C.HT hash
  rw [HasChunk, Option.isSome_iff_ne_none, ne_eq, listed, not_not]

/-- A referenced chunk stays, and so do the others. -/
theorem hasChunk_reference {C : ChunksW} {hash other : Hash} {ch : ChunkData} :
    HasChunk (C.reference hash ch) other ↔ HasChunk C other := by
  have hashes : (C.reference hash ch).HT.map (·.hash) = C.HT.map (·.hash) :=
    updateRecord_hashes fun _ => rfl
  rw [hasChunk_iff, hasChunk_iff, hashes]

/-- A chunk that is written is there, and so are the others. -/
theorem chunksWriteChunk_has {zlib : Zlib} {C C' : ChunksW} {hash : Hash} {buf : List UInt8}
    {zlen : Nat} (written : chunksWriteChunk zlib C hash buf = some (C', zlen)) :
    HasChunk C' hash ∧ ∀ other, HasChunk C other → HasChunk C' other := by
  unfold chunksWriteChunk at written
  split at written
  · exact nomatch written
  split at written
  · rename_i ch found
    cases written
    have here : HasChunk C hash := by rw [HasChunk, found]; rfl
    exact ⟨hasChunk_reference.mpr here, fun other old => hasChunk_reference.mpr old⟩
  · obtain ⟨zbuf, _, rest⟩ := Option.bind_eq_some_iff.mp written
    obtain ⟨padlen, _, rest⟩ := Option.bind_eq_some_iff.mp rest
    obtain ⟨S, _, rest⟩ := Option.bind_eq_some_iff.mp rest
    cases rest
    constructor
    · apply hasChunk_iff.mpr
      simp
    · intro other old
      have listed := hasChunk_iff.mp old
      apply hasChunk_iff.mpr
      rw [List.map_append]
      exact List.mem_append_left _ listed

/-- The header of a stored chunk names its contents. -/
theorem storeChunk_ok {K : Crypto} {zlib : Zlib} {buf : List UInt8} {C C' : ChunksW}
    {ch : ChunkHeader} (stored : storeChunk K zlib buf C = some (ch, C')) :
    ch.hash = K.hmacChunk buf ∧ ch.len = UInt32.ofNat buf.length ∧ HasChunk C' ch.hash ∧
      ∀ other, HasChunk C other → HasChunk C' other := by
  obtain ⟨⟨C1, zlen⟩, written, rest⟩ := Option.bind_eq_some_iff.mp stored
  cases rest
  have has := chunksWriteChunk_has written
  exact ⟨rfl, rfl, has.1, has.2⟩

section Growth

/-- The later tape has every chunk that the earlier one has, and remembers what was stored. -/
structure Grows (d d' : TapeW P κ) : Prop where
  /-- Chunks stay. -/
  has : ∀ hash, HasChunk d.C hash → HasChunk d'.C hash
  /-- What was stored is remembered. -/
  stored : d.stored <+: d'.stored

/-- A tape grows into itself. -/
theorem Grows.refl (d : TapeW P κ) : Grows d d := ⟨fun _ here => here, List.prefix_refl _⟩

/-- Growth in two steps. -/
theorem Grows.trans {d d' d'' : TapeW P κ} (first : Grows d d') (second : Grows d' d'') :
    Grows d d'' where
  has := fun hash here => second.has hash (first.has hash here)
  stored := first.stored.trans second.stored

/-- Writing to a stream changes nothing but this stream and the chunk layer. -/
structure OnlyStream (s : StreamName) (d d' : TapeW P κ) : Prop extends Grows d d' where
  /-- The other fields are the same. -/
  rest : d' = { d with C := d'.C, stream := d'.stream, stored := d'.stored }
  /-- The other streams are the same. -/
  others : ∀ other, other ≠ s → d'.stream other = d.stream other

/-- Writing nothing. -/
theorem OnlyStream.refl (s : StreamName) (d : TapeW P κ) : OnlyStream s d d :=
  ⟨Grows.refl d, rfl, fun _ _ => rfl⟩

/-- Writing twice. -/
theorem OnlyStream.trans {s : StreamName} {d d' d'' : TapeW P κ} (first : OnlyStream s d d')
    (second : OnlyStream s d' d'') : OnlyStream s d d'' where
  toGrows := first.toGrows.trans second.toGrows
  rest := by
    have here := second.rest
    rw [first.rest] at here
    exact here
  others := fun other apart => (second.others other apart).trans (first.others other apart)

/-- A stream other than the one written to is the same. -/
theorem OnlyStream.chunkifier {s : StreamName} {d : TapeW P κ} (c : Chunkifier P) :
    OnlyStream s d
      { d with stream := Function.update d.stream s { d.stream s with c } } :=
  ⟨⟨fun _ here => here, List.prefix_refl _⟩, rfl,
    fun _ apart => Function.update_of_ne apart _ _⟩

end Growth

section Contents

variable (contents : Hash → List UInt8)

/-- What the chunks of an index hold. -/
def indexed (index : List ChunkHeader) : List UInt8 := index.flatMap fun ch => contents ch.hash

/-- What a stream stands for. -/
def Stream.total (s : Stream P) : List UInt8 := indexed contents s.index ++ s.c.bytes

/-- The contents of every stored chunk are found under its hash. -/
def Faithful (d : TapeW P κ) : Prop := ∀ ch buf, (ch, buf) ∈ d.stored → contents ch.hash = buf

variable {contents}

/-- Indexes one after the other. -/
theorem indexed_append (left right : List ChunkHeader) :
    indexed contents (left ++ right) = indexed contents left ++ indexed contents right :=
  List.flatMap_append

/-- What is found for a tape was found before. -/
theorem Faithful.earlier {d d' : TapeW P κ} (faithful : Faithful contents d')
    (grows : Grows d d') : Faithful contents d :=
  fun ch buf member => faithful ch buf (grows.stored.subset member)

end Contents

section Streams

variable {K : Crypto} {zlib : Zlib} {s : StreamName} {d d' : TapeW P κ}

/-- The callback of each stream handles a chunk of this stream. -/
theorem streamCallback_eq (s : StreamName) :
    streamCallback (P := P) (κ := κ) K zlib s = handleChunk K zlib s := by
  cases s <;> rfl

/-- A handled chunk is stored, and its header is appended to the index. -/
theorem handleChunk_ok {buf : List UInt8} (handled : handleChunk K zlib s d buf = (0, d')) :
    OnlyStream s d d' ∧ ∃ ch : ChunkHeader, ch.hash = K.hmacChunk buf ∧
      (d'.stream s).index = (d.stream s).index ++ [ch] ∧ (ch, buf) ∈ d'.stored := by
  unfold handleChunk at handled
  split at handled
  · have code : failure = 0 := congrArg Prod.fst handled
    exact absurd code (by decide)
  rename_i ch C stored
  obtain ⟨hash, _, _, others⟩ := storeChunk_ok stored
  cases handled
  refine ⟨⟨⟨others, List.prefix_append _ _⟩, rfl, ?_⟩, ch, hash, ?_, ?_⟩
  · intro other apart
    exact Function.update_of_ne apart _ _
  · simp only [Function.update_self]
  · simp

/-- Chunks that are handled one after the other are all stored, and their headers are appended to
the index. -/
theorem handleChunks_ok {chunks : List (List UInt8)}
    (handled : chunks.foldlM (accept (handleChunk K zlib s)) d = some d') :
    OnlyStream s d d' ∧ ∃ headers : List ChunkHeader,
      (d'.stream s).index = (d.stream s).index ++ headers ∧
      ∀ contents, Faithful contents d' → indexed contents headers = chunks.flatten := by
  refine foldlM_run (fun done (state : TapeW P κ) => OnlyStream s d state ∧
    ∃ headers : List ChunkHeader, (state.stream s).index = (d.stream s).index ++ headers ∧
      ∀ contents, Faithful contents state → indexed contents headers = done.flatten)
    ?_ ⟨OnlyStream.refl s d, [], by rw [List.append_nil], fun _ _ => rfl⟩ handled
  intro done chunk rest state state' _ holds step
  obtain ⟨only, headers, index, holding⟩ := holds
  unfold accept at step
  split at step
  · rename_i succeeded
    cases step
    obtain ⟨one, ch, _, appended, stored⟩ := handleChunk_ok (Prod.ext succeeded rfl)
    refine ⟨only.trans one, headers ++ [ch], ?_, ?_⟩
    · rw [appended, index, List.append_assoc]
    · intro contents faithful
      rw [indexed_append, holding contents (faithful.earlier one.toGrows), List.flatten_append]
      simp [indexed, faithful ch chunk stored]
  · exact nomatch step

/-- A buffer that is written is appended to what the stream stands for. -/
theorem streamWrite_ok {buf : List UInt8} (written : streamWrite K zlib s d buf = some d') :
    OnlyStream s d d' ∧ ∀ contents, Faithful contents d' →
      (d'.stream s).total contents = (d.stream s).total contents ++ buf := by
  unfold streamWrite at written
  rw [streamCallback_eq] at written
  split at written
  · rename_i c d1 chunkified
    cases written
    obtain ⟨before, fed, accepted⟩ := chunkifyWrite_ok _ chunkified
    obtain ⟨only, headers, index, holding⟩ := handleChunks_ok accepted
    refine ⟨only.trans (OnlyStream.chunkifier c), ?_⟩
    intro contents faithful
    have flattened := feed_flatten fed
    simp only [Function.update_self, Stream.total]
    rw [index, indexed_append, holding contents faithful, List.append_assoc, flattened,
      List.append_assoc]
  · exact nomatch written

/-- Ending the last chunk of a stream moves its bytes to the index. -/
theorem streamEnd_ok (ended : streamEnd K zlib s d = some d') :
    OnlyStream s d d' ∧ (d'.stream s).c.bytes = [] ∧ ∀ contents, Faithful contents d' →
      (d'.stream s).total contents = (d.stream s).total contents := by
  unfold streamEnd at ended
  rw [streamCallback_eq] at ended
  split at ended
  · rename_i c d1 chunkified
    cases ended
    obtain ⟨accepted, last⟩ := chunkifyEnd_ok _ chunkified
    obtain ⟨only, headers, index, holding⟩ := handleChunks_ok accepted
    have empty : c.bytes = [] := by
      rw [last]
      split
      · rename_i none
        simp [Chunkifier.bytes, none]
      · exact chunkifyStart_bytes _
    refine ⟨only.trans (OnlyStream.chunkifier c), ?_, ?_⟩
    · simp only [Function.update_self]
      exact empty
    · intro contents faithful
      simp only [Function.update_self, Stream.total]
      rw [index, indexed_append, holding contents faithful, lastChunk_flatten, empty,
        List.append_nil]
  · cases ended

end Streams

end Tarsnap.Multitape
