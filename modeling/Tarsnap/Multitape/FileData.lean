import Tarsnap.Multitape.Streams

/-!
# What the writer does with file data

A chunk of file data goes to the chunk index stream, as its header, or to the trailer stream, if
it is short; the callback that is set learns of it. A chunk that the chunk layer has can also be
written by its header alone, as long as the file chunkifier holds nothing back.
-/

namespace Tarsnap.Multitape

open Tarsnap.Lib Tarsnap.Chunks Tarsnap.Chunkify

variable {P : Params} {κ : Type} {K : Crypto} {zlib : Zlib} {d d' : TapeW P κ}

section Reference

/-- A chunk header was written to the chunk index stream without data. -/
structure Referenced (ch : ChunkHeader) (d d' : TapeW P κ) : Prop extends Grows d d' where
  /-- The other fields are the same. -/
  rest : d' = { d with
    C := d'.C, stream := d'.stream, stored := d'.stored, clen := d.clen + ch.len.toNat }
  /-- The other streams are the same. -/
  others : ∀ other, other ≠ .c → d'.stream other = d.stream other
  /-- The header is appended to the chunk index stream. -/
  total : ∀ contents, Faithful contents d' →
    (d'.stream .c).total contents = (d.stream .c).total contents ++ ch.encode

/-- A chunk is written by its header if and only if the tape is in data mode, holds nothing back
and has the chunk. -/
theorem writetapeWritechunk_cases {ch : ChunkHeader} {lenwrit : Nat}
    (written : writetapeWritechunk K zlib d ch = some (lenwrit, d')) :
    (d.mode = .data ∧ d.cFileIn = d.cFileOut ∧ HasChunk d.C ch.hash ∧ lenwrit = ch.len.toNat ∧
      Referenced ch d d') ∨
    (¬(d.mode = .data ∧ d.cFileIn = d.cFileOut ∧ HasChunk d.C ch.hash) ∧ lenwrit = 0 ∧
      d' = d) := by
  unfold writetapeWritechunk at written
  split at written
  · rename_i mode
    cases written
    exact .inr ⟨fun ready => mode ready.1, rfl, rfl⟩
  rename_i mode
  split at written
  · rename_i held
    cases written
    exact .inr ⟨fun ready => held ready.2.1, rfl, rfl⟩
  rename_i held
  cases found : rwhashtabRead d.C.HT ch.hash with
  | none =>
    simp only [chunksWriteChunkref, found] at written
    cases written
    refine .inr ⟨fun ready => ?_, rfl, rfl⟩
    have has := ready.2.2
    rw [HasChunk, found] at has
    cases has
  | some record =>
    simp only [chunksWriteChunkref, found] at written
    obtain ⟨d1, wrote, rest⟩ := Option.bind_eq_some_iff.mp written
    cases rest
    obtain ⟨only, total⟩ := streamWrite_ok wrote
    have has : HasChunk d.C ch.hash := by rw [HasChunk, found]; rfl
    left
    refine ⟨not_not.mp mode, not_not.mp held, has, rfl, ⟨⟨?_, only.stored⟩, ?_, ?_, total⟩⟩
    · intro hash here
      exact only.has hash (hasChunk_reference.mpr here)
    · have fields := only.rest
      rw [fields]
    · exact only.others

/-- The length of a present chunk is the one in its header. -/
theorem writetapeIschunkpresent_eq (d : TapeW P κ) (ch : ChunkHeader) :
    writetapeIschunkpresent d ch ≠ 0 ↔ HasChunk d.C ch.hash ∧ ch.len.toNat ≠ 0 := by
  unfold writetapeIschunkpresent chunksWriteIspresent HasChunk
  by_cases here : (rwhashtabRead d.C.HT ch.hash).isSome = true
  · simp [here]
  · simp [here]

end Reference

section Chunks

/-- The trailer of an entry was written. -/
structure FileTrailer (buf : List UInt8) (d d' : TapeW P κ) : Prop where
  /-- The trailer is short. -/
  short : buf.length < MINCHUNK
  /-- There was no trailer yet. -/
  first : d.tlen = 0
  /-- The length of the trailer is noted. -/
  tlen : d'.tlen = buf.length
  /-- The length of the chunks is the same. -/
  clen : d'.clen = d.clen
  /-- The other streams are the same. -/
  others : ∀ other, other ≠ .t → d'.stream other = d.stream other
  /-- The trailer is appended to the trailer stream. -/
  total : ∀ contents, Faithful contents d' →
    (d'.stream .t).total contents = (d.stream .t).total contents ++ buf
  /-- The callback learns of the trailer. -/
  told : ∀ callback, d.callbackTrailer = some callback →
    callback d.callbackCookie buf = some d'.callbackCookie
  /-- Without a callback the cookie is the same. -/
  untold : d.callbackTrailer = none → d'.callbackCookie = d.callbackCookie

/-- A chunk of file data was written. -/
structure FileChunk (K : Crypto) (buf : List UInt8) (ch : ChunkHeader) (d d' : TapeW P κ) :
    Prop where
  /-- The chunk is not short. -/
  long : MINCHUNK ≤ buf.length
  /-- The header has the hash of the chunk. -/
  hash : ch.hash = K.hmacChunk buf
  /-- The header has the length of the chunk. -/
  len : ch.len = UInt32.ofNat buf.length
  /-- The chunk is stored. -/
  stored : (ch, buf) ∈ d'.stored
  /-- The chunk layer has the chunk. -/
  present : HasChunk d'.C ch.hash
  /-- The length of the trailer is the same. -/
  tlen : d'.tlen = d.tlen
  /-- The length of the chunk is counted. -/
  clen : d'.clen = d.clen + buf.length
  /-- The other streams are the same. -/
  others : ∀ other, other ≠ .c → d'.stream other = d.stream other
  /-- The header is appended to the chunk index stream. -/
  total : ∀ contents, Faithful contents d' →
    (d'.stream .c).total contents = (d.stream .c).total contents ++ ch.encode
  /-- The callback learns of the header. -/
  told : ∀ callback, d.callbackChunk = some callback →
    callback d.callbackCookie ch = some d'.callbackCookie
  /-- Without a callback the cookie is the same. -/
  untold : d.callbackChunk = none → d'.callbackCookie = d.callbackCookie

/-- The file chunkifier passed on some data. -/
structure FileStep (K : Crypto) (buf : List UInt8) (d d' : TapeW P κ) : Prop
    extends Grows d d' where
  /-- The other fields are the same. -/
  rest : d' = { d with
    C := d'.C, stream := d'.stream, stored := d'.stored, cFileOut := d.cFileOut + buf.length,
    clen := d'.clen, tlen := d'.tlen, callbackCookie := d'.callbackCookie }
  /-- The data is a trailer or a chunk. -/
  kind : FileTrailer buf d d' ∨ ∃ ch, FileChunk K buf ch d d'

/-- The trailer callback changes nothing but its cookie. -/
theorem notifyTrailer_ok {buf : List UInt8} (notified : notifyTrailer d buf = some d') :
    d' = { d with callbackCookie := d'.callbackCookie } ∧
      (∀ callback, d.callbackTrailer = some callback →
        callback d.callbackCookie buf = some d'.callbackCookie) ∧
      (d.callbackTrailer = none → d'.callbackCookie = d.callbackCookie) := by
  unfold notifyTrailer at notified
  split at notified
  · rename_i unset
    cases notified
    refine ⟨rfl, ?_, fun _ => rfl⟩
    intro callback set
    rw [unset] at set
    cases set
  · rename_i callback set
    obtain ⟨cookie, called, rest⟩ := Option.bind_eq_some_iff.mp notified
    cases rest
    refine ⟨rfl, ?_, ?_⟩
    · intro other same
      rw [set] at same
      cases same
      exact called
    · intro unset
      rw [set] at unset
      cases unset

/-- The chunk callback changes nothing but its cookie. -/
theorem notifyChunk_ok {ch : ChunkHeader} (notified : notifyChunk d ch = some d') :
    d' = { d with callbackCookie := d'.callbackCookie } ∧
      (∀ callback, d.callbackChunk = some callback →
        callback d.callbackCookie ch = some d'.callbackCookie) ∧
      (d.callbackChunk = none → d'.callbackCookie = d.callbackCookie) := by
  unfold notifyChunk at notified
  split at notified
  · rename_i unset
    cases notified
    refine ⟨rfl, ?_, fun _ => rfl⟩
    intro callback set
    rw [unset] at set
    cases set
  · rename_i callback set
    obtain ⟨cookie, called, rest⟩ := Option.bind_eq_some_iff.mp notified
    cases rest
    refine ⟨rfl, ?_, ?_⟩
    · intro other same
      rw [set] at same
      cases same
      exact called
    · intro unset
      rw [set] at unset
      cases unset

/-- A chunk that the file chunkifier passes on is a trailer or a chunk of the entry. -/
theorem callbackFile_ok {buf : List UInt8} (handled : callbackFile K zlib d buf = (0, d')) :
    FileStep K buf d d' := by
  unfold callbackFile at handled
  by_cases short : buf.length < MINCHUNK
  · simp only [short, if_true] at handled
    split at handled
    · have code : failure = 0 := congrArg Prod.fst handled
      exact absurd code (by decide)
    rename_i d1 result
    cases handled
    unfold fileTrailer at result
    split at result
    · exact nomatch result
    rename_i first
    obtain ⟨d2, wrote, result⟩ := Option.bind_eq_some_iff.mp result
    obtain ⟨only, total⟩ := streamWrite_ok wrote
    obtain ⟨fields, told, untold⟩ := notifyTrailer_ok result
    have others := only.others
    have grows := only.toGrows
    have before := only.rest
    rw [before] at told untold
    refine ⟨⟨?_, ?_⟩, ?_, .inl ⟨short, not_not.mp first, ?_, ?_, ?_, ?_, told, untold⟩⟩
    · intro hash here
      rw [fields]
      exact grows.has hash here
    · rw [fields]
      exact grows.stored
    · rw [fields, before]
    · rw [fields]
    · rw [fields, before]
    · intro other apart
      rw [fields]
      exact others other apart
    · intro contents faithful
      rw [fields] at faithful ⊢
      exact total contents faithful
  · simp only [short, if_false] at handled
    split at handled
    · have code : failure = 0 := congrArg Prod.fst handled
      exact absurd code (by decide)
    rename_i d1 result
    cases handled
    obtain ⟨⟨ch, C⟩, stored, result⟩ := Option.bind_eq_some_iff.mp result
    obtain ⟨d2, wrote, result⟩ := Option.bind_eq_some_iff.mp result
    obtain ⟨hash, len, here, others⟩ := storeChunk_ok stored
    obtain ⟨only, total⟩ := streamWrite_ok wrote
    obtain ⟨fields, told, untold⟩ := notifyChunk_ok result
    have before := only.rest
    rw [before] at told untold
    have remembered : d.stored ++ [(ch, buf)] <+: d2.stored := only.stored
    refine ⟨⟨?_, ?_⟩, ?_, .inr ⟨ch, Nat.le_of_not_lt short, hash, len, ?_, ?_, ?_, ?_, ?_, ?_, told,
      untold⟩⟩
    · intro other old
      rw [fields]
      exact only.has other (others other old)
    · rw [fields]
      exact (List.prefix_append _ _).trans remembered
    · rw [fields, before]
    · rw [fields]
      exact remembered.subset (List.mem_append_right _ List.mem_cons_self)
    · rw [fields]
      exact only.has _ here
    · rw [fields, before]
    · rw [fields, before]
    · intro other apart
      rw [fields]
      exact only.others other apart
    · intro contents faithful
      rw [fields] at faithful ⊢
      exact total contents faithful

end Chunks

end Tarsnap.Multitape
