import Tarsnap.Multitape.Streams

/-!
# Reading a tape

The data of a stream is that of the chunks that its index names; the index of the chunk stream is
itself the data of a stream. The header stream has the header of each entry, with the lengths of its
parts before it; the chunks and the trailer of the entry are taken from the other two streams. What
is under a hash in the chunk layer is given.
-/

namespace Tarsnap.Multitape

open Tarsnap.Lib Tarsnap.Chunks Tarsnap.Chunkify

variable (contents : Hash → List UInt8)

/-- Read a stream until there are no more chunks in its index, which has whole headers only. -/
def streamRead (index : List UInt8) : Option (List UInt8) :=
  if index.length % 40 ≠ 0 then none else some (indexed contents (chunkheaders index))

/-- Read the data of entries until there is no more entry header. -/
def readEntries (h c t : List UInt8) : Option (List UInt8) :=
  if h.length = 0 then some []
  else if h.length < 16 then none
  else
    let hlen := leDec (h.take 4)
    let clen := leDec ((h.drop 4).take 8)
    let tlen := leDec ((h.drop 12).take 4)
    if (h.drop 16).length < hlen ∨ c.length < clen ∨ t.length < tlen then none
    else do
      let rest ← readEntries ((h.drop 16).drop hlen) (c.drop clen) (t.drop tlen)
      return (h.drop 16).take hlen ++ c.take clen ++ t.take tlen ++ rest
termination_by h.length
decreasing_by
  rw [List.length_drop, List.length_drop]
  omega

/-- Read an archive. -/
def readtape (tape : StoredTape) : Option (List UInt8) := do
  let h ← streamRead contents tape.tmi.hindex
  let ci ← streamRead contents tape.tmi.cindex
  let c ← streamRead contents ci
  let t ← streamRead contents tape.tmi.tindex
  readEntries h c t

/-- An entry of an archive. -/
structure TapeEntry where
  /-- The header. -/
  header : List UInt8
  /-- The chunks. -/
  chunks : List ChunkHeader
  /-- The trailer. -/
  trailer : List UInt8

namespace TapeEntry

/-- The data of an entry. -/
def bytes (e : TapeEntry) : List UInt8 := e.header ++ (indexed contents e.chunks ++ e.trailer)

/-- What the header stream has for an entry. -/
def encode (e : TapeEntry) : List UInt8 :=
  entryheader e.header.length (indexed contents e.chunks).length e.trailer.length ++ e.header

/-- The lengths of the parts fit their fields. -/
structure Fits (e : TapeEntry) : Prop where
  /-- The length of the header. -/
  header : e.header.length < 4294967295
  /-- The length of the chunks. -/
  chunks : (indexed contents e.chunks).length < 9223372036854775808
  /-- The length of the trailer. -/
  trailer : e.trailer.length < MINCHUNK

end TapeEntry

section Entries

variable {contents}

/-- An entry header takes 16 bytes. -/
@[simp] theorem entryheader_length (hlen clen tlen : Nat) :
    (entryheader hlen clen tlen).length = 16 := by
  simp [entryheader]

/-- The lengths are read back from an entry header. -/
theorem entryheader_decode {hlen clen tlen : Nat} (header : hlen < 4294967295)
    (chunks : clen < 9223372036854775808) (trailer : tlen < MINCHUNK) (rest : List UInt8) :
    leDec ((entryheader hlen clen tlen ++ rest).take 4) = hlen ∧
      leDec (((entryheader hlen clen tlen ++ rest).drop 4).take 8) = clen ∧
      leDec (((entryheader hlen clen tlen ++ rest).drop 12).take 4) = tlen := by
  have short : tlen < 256 ^ 4 := Nat.lt_trans trailer (by decide)
  have split : entryheader hlen clen tlen ++ rest =
      leEnc 4 hlen ++ (leEnc 8 clen ++ (leEnc 4 tlen ++ rest)) := by
    simp only [entryheader, List.append_assoc]
  refine ⟨?_, ?_, ?_⟩
  · rw [split, List.take_left' (by simp), leDec_leEnc,
      Nat.mod_eq_of_lt (Nat.lt_trans header (by decide))]
  · rw [split, List.drop_left' (by simp), List.take_left' (by simp),
      leDec_leEnc,
      Nat.mod_eq_of_lt (Nat.lt_trans chunks (by decide))]
  · rw [split, ← List.append_assoc, List.drop_left' (by simp), List.take_left' (by simp),
      leDec_leEnc, Nat.mod_eq_of_lt short]

/-- Entries are read back from what the streams have for them. -/
theorem readEntries_entries {entries : List TapeEntry} (fits : ∀ e ∈ entries, e.Fits contents) :
    readEntries (entries.flatMap (TapeEntry.encode contents))
        (indexed contents (entries.flatMap TapeEntry.chunks))
        (entries.flatMap TapeEntry.trailer) =
      some (entries.flatMap (TapeEntry.bytes contents)) := by
  induction entries with
  | nil =>
    rw [readEntries]
    rfl
  | cons e entries ih =>
    have here := fits e List.mem_cons_self
    have rest := ih fun other member => fits other (List.mem_cons_of_mem e member)
    simp only [List.flatMap_cons, indexed_append]
    generalize entries.flatMap (TapeEntry.encode contents) = h at rest
    generalize indexed contents (entries.flatMap TapeEntry.chunks) = c at rest
    generalize entries.flatMap TapeEntry.trailer = t at rest
    obtain ⟨hlen, clen, tlen⟩ :=
      entryheader_decode here.header here.chunks here.trailer (e.header ++ h)
    rw [readEntries, TapeEntry.encode, List.append_assoc]
    simp only [hlen, clen, tlen]
    have later : (entryheader e.header.length (indexed contents e.chunks).length
        e.trailer.length ++ (e.header ++ h)).drop 16 = e.header ++ h := List.drop_left' (by simp)
    rw [if_neg (by simp), if_neg (by simp), later, if_neg (by simp), List.drop_left, List.drop_left,
      List.drop_left, rest, List.take_left, List.take_left, List.take_left]
    simp only [TapeEntry.bytes, List.append_assoc]
    rfl

/-- A stream is read back from its index. -/
theorem streamRead_index (headers : List ChunkHeader) :
    streamRead contents (headers.flatMap ChunkHeader.encode) = some (indexed contents headers) := by
  have whole : (headers.flatMap ChunkHeader.encode).length % 40 = 0 := by
    induction headers with
    | nil => rfl
    | cons ch headers ih =>
      rw [List.flatMap_cons, List.length_append, ChunkHeader.encode_length]
      omega
  rw [streamRead, if_neg (not_not.mpr whole), chunkheaders_encode]

end Entries

end Tarsnap.Multitape
