import Tarsnap.Multitape.Metaindex

/-!
# Iterating over the chunks of an archive

The iterator calls back on the chunk headers of the header index, on those of the chunk index
and, as the chunks named there are read one after another, on the headers that their contents
complete, and last on those of the trailer index. A failing step leaves the iteration with the
value that the return code has then.
-/

namespace Tarsnap.Multitape

open Tarsnap.Lib Tarsnap.Chunks

/-- What may fail during an iteration. -/
structure IterFaults where
  /-- Obtaining a chunk layer read cookie fails. -/
  init : Bool
  /-- Reading the metaindex fails. -/
  metaindex : MetaindexFaults
  /-- Allocating the buffer for chunks of index fails. -/
  ibuf : Bool
  /-- Noting that a chunk of the chunk index is to be cached fails. -/
  cache : Nat → Bool
  /-- Reading a chunk of the chunk index fails. -/
  read : Nat → ChunkFaults

/-- The callback's cookie, and the chunk headers that it was called on. -/
structure Iter (σ : Type) where
  /-- Cookie. -/
  cookie : σ
  /-- Chunk headers so far, in order. -/
  calls : List ChunkHeader

section Iteration

variable {σ : Type} (K : Crypto) (S : Store) (faults : IterFaults)
  (func : σ → ChunkHeader → Int × σ)

/-- Call the callback on a chunk header; leave the iteration unless it returns zero. -/
def callFunc (it : Iter σ) (ch : ChunkHeader) : Except (Int × Iter σ) (Iter σ) :=
  let (rc, cookie) := func it.cookie ch
  let it : Iter σ := ⟨cookie, it.calls ++ [ch]⟩
  if rc ≠ 0 then .error (rc, it) else .ok it

/-- Call the callback on chunk headers in order. -/
def headerLoop (it : Iter σ) (headers : List ChunkHeader) : Except (Int × Iter σ) (Iter σ) :=
  headers.foldlM (callFunc func) it

/-- Go through the chunk index from the given chunk on, with the data that the chunks before it
left in the buffer. -/
def cindexLoop : List ChunkHeader → Nat → List UInt8 → Iter σ → Except (Int × Iter σ) (Iter σ)
  | [], _, _, it => .ok it
  | ch :: rest, chunk, ibuf, it => do
    let it ← callFunc func it ch
    if MAXCHUNK < ch.len.toNat then .error (2, it)
    -- The return code is the zero that the callback returned.
    else if faults.cache chunk then .error (0, it)
    else
      match chunksReadChunk K MAXCHUNK (faults.read chunk) S ch.hash ch.len.toNat
          ch.zlen.toNat with
      | .error failure => .error (failure.rc, it)
      | .ok data =>
        let it ← headerLoop func it (chunkheaders (ibuf ++ data))
        cindexLoop rest (chunk + 1) (leftover (ibuf ++ data)) it

/-- Go through the three stream indexes. -/
def metaindexLoop (tmi : TapeMetaindex) (it : Iter σ) : Except (Int × Iter σ) (Iter σ) := do
  let it ← headerLoop func it (chunkheaders tmi.hindex)
  let it ← cindexLoop K S faults func (chunkheaders tmi.cindex) 0 [] it
  headerLoop func it (chunkheaders tmi.tindex)

/-- Call the callback on each chunk header of an archive; the lengths of the metaindex fragments
are counted by the given function. -/
def multitapeChunkiterTmd (extrastats : σ → Nat → σ) (tmd : TapeMetadata) (cookie : σ) :
    Int × Iter σ :=
  if faults.init then (-1, ⟨cookie, []⟩)
  else
    match multitapeMetaindexGet K faults.metaindex S extrastats tmd cookie with
    | (.error failure, cookie) => (failure.rc, ⟨cookie, []⟩)
    | (.ok tmi, cookie) =>
      if faults.ibuf then (-1, ⟨cookie, []⟩)
      else
        match metaindexLoop K S faults func tmi ⟨cookie, []⟩ with
        | .error (rc, it) => (rc, it)
        | .ok it => (0, it)

end Iteration

/-- The chunk headers that the chunk index leads to: each of its own headers, with the contents
of the chunk, then the headers that these contents complete. -/
def indexHeaders : List UInt8 → List (ChunkHeader × List UInt8) → List ChunkHeader
  | _, [] => []
  | done, (ch, data) :: rest =>
    ch :: (chunkheaders (done ++ data)).drop (chunkheaders done).length ++
      indexHeaders (done ++ data) rest

/-- The chunk headers of an archive, given the contents of the chunks of its chunk index. -/
def archiveHeaders (tmi : TapeMetaindex) (contents : List (ChunkHeader × List UInt8)) :
    List ChunkHeader :=
  chunkheaders tmi.hindex ++ indexHeaders [] contents ++ chunkheaders tmi.tindex

/-- The store holds the given contents for a chunk of the chunk index. -/
def HasContents (K : Crypto) (S : Store) (chunk : ChunkHeader × List UInt8) : Prop :=
  chunk.1.len.toNat ≤ MAXCHUNK ∧
    chunksReadChunk K MAXCHUNK .none S chunk.1.hash chunk.1.len.toNat chunk.1.zlen.toNat =
      .ok chunk.2

/-- The metaindex and the chunk index contents of an archive, as the store holds them. -/
structure StoredArchive (K : Crypto) (S : Store) (tmd : TapeMetadata) where
  /-- The metaindex. -/
  tmi : TapeMetaindex
  /-- The chunks of the chunk index and their contents. -/
  contents : List (ChunkHeader × List UInt8)
  /-- The metaindex is the stored one. -/
  metaindex : storedMetaindex K S tmd = .ok tmi
  /-- The chunks are those that the chunk index names. -/
  named : contents.map Prod.fst = chunkheaders tmi.cindex
  /-- The contents are the stored ones. -/
  stored : ∀ chunk ∈ contents, HasContents K S chunk

/-- The chunk headers of a stored archive. -/
def StoredArchive.headers {K : Crypto} {S : Store} {tmd : TapeMetadata}
    (archive : StoredArchive K S tmd) : List ChunkHeader :=
  archiveHeaders archive.tmi archive.contents

/-- The callback was invoked, in order and once per occurrence, on every chunk header of the
archive. -/
def Complete (K : Crypto) (S : Store) (tmd : TapeMetadata) (calls : List ChunkHeader) : Prop :=
  ∃ archive : StoredArchive K S tmd, calls = archive.headers

section Headers

/-- The headers of a longer buffer start with those of the shorter one. -/
theorem drop_chunkheaders (done data : List UInt8) :
    (chunkheaders (done ++ data)).drop (chunkheaders done).length =
      chunkheaders (leftover done ++ data) := by
  rw [chunkheaders_append, List.drop_left]

/-- The chunk headers that the chunk index leads to, in terms of what is left in the buffer. -/
theorem indexHeaders_leftover (done : List UInt8) (contents : List (ChunkHeader × List UInt8)) :
    indexHeaders done contents = indexHeaders (leftover done) contents := by
  have short : chunkheaders (leftover done) = [] := chunkheaders_of_lt (leftover_length done)
  induction contents generalizing done with
  | nil => rfl
  | cons chunk rest ih =>
    obtain ⟨ch, data⟩ := chunk
    have later := ih (done ++ data) (chunkheaders_of_lt (leftover_length _))
    have later' := ih (leftover done ++ data) (chunkheaders_of_lt (leftover_length _))
    rw [indexHeaders, indexHeaders, drop_chunkheaders, short, List.length_nil, List.drop_zero,
      later, later', leftover_append]

/-- The chunk headers that the chunk index leads to are its own headers and the headers of the
decoded stream, each exactly once. -/
theorem indexHeaders_perm (done : List UInt8) (contents : List (ChunkHeader × List UInt8)) :
    (indexHeaders done contents).Perm (contents.map Prod.fst ++
      chunkheaders (leftover done ++ (contents.map Prod.snd).flatten)) := by
  induction contents generalizing done with
  | nil =>
    rw [List.map_nil, List.map_nil, List.flatten_nil, List.append_nil,
      chunkheaders_of_lt (leftover_length done)]
    exact List.Perm.refl _
  | cons chunk rest ih =>
    obtain ⟨ch, data⟩ := chunk
    have stream : chunkheaders (leftover done ++ (data ++ (rest.map Prod.snd).flatten)) =
        chunkheaders (leftover done ++ data) ++
          chunkheaders (leftover (done ++ data) ++ (rest.map Prod.snd).flatten) := by
      rw [← List.append_assoc, chunkheaders_append, ← leftover_append]
    rw [indexHeaders, drop_chunkheaders, List.map_cons, List.map_cons, List.flatten_cons, stream,
      List.cons_append, List.cons_append]
    refine List.Perm.cons ch ?_
    calc chunkheaders (leftover done ++ data) ++ indexHeaders (done ++ data) rest
      _ |>.Perm (chunkheaders (leftover done ++ data) ++ (rest.map Prod.fst ++
          chunkheaders (leftover (done ++ data) ++ (rest.map Prod.snd).flatten))) :=
        List.Perm.append_left _ (ih _)
      _ |>.Perm _ := List.perm_append_comm_assoc _ _ _

/-- The headers of the chunk index come in order. -/
theorem indexHeaders_sublist_index (done : List UInt8)
    (contents : List (ChunkHeader × List UInt8)) :
    (contents.map Prod.fst).Sublist (indexHeaders done contents) := by
  induction contents generalizing done with
  | nil => exact List.Sublist.refl _
  | cons chunk rest ih =>
    rw [List.map_cons, indexHeaders, List.cons_append]
    exact ((ih _).trans (List.sublist_append_right _ _)).cons_cons _

/-- The headers of the decoded stream come in order. -/
theorem indexHeaders_sublist_stream (done : List UInt8)
    (contents : List (ChunkHeader × List UInt8)) :
    (chunkheaders (leftover done ++ (contents.map Prod.snd).flatten)).Sublist
      (indexHeaders done contents) := by
  induction contents generalizing done with
  | nil =>
    rw [List.map_nil, List.flatten_nil, List.append_nil,
      chunkheaders_of_lt (leftover_length done)]
    exact List.nil_sublist _
  | cons chunk rest ih =>
    obtain ⟨ch, data⟩ := chunk
    rw [List.map_cons, List.flatten_cons, ← List.append_assoc, chunkheaders_append,
      ← leftover_append, indexHeaders, drop_chunkheaders, List.cons_append]
    exact ((List.Sublist.refl _).append (ih _)).cons _

/-- One more chunk of the chunk index. -/
theorem indexHeaders_append (done : List UInt8) (before after : List (ChunkHeader × List UInt8)) :
    indexHeaders done (before ++ after) =
      indexHeaders done before ++
        indexHeaders (done ++ (before.map Prod.snd).flatten) after := by
  induction before generalizing done with
  | nil =>
    rw [List.nil_append, indexHeaders, List.map_nil, List.flatten_nil, List.append_nil,
      List.nil_append]
  | cons chunk rest ih =>
    obtain ⟨ch, data⟩ := chunk
    rw [List.cons_append, indexHeaders, indexHeaders, ih, List.map_cons, List.flatten_cons,
      ← List.append_assoc done, List.append_assoc (_ :: _)]

end Headers

end Tarsnap.Multitape
