import Tarsnap.Multitape.Format
import Tarsnap.Chunks.Read

/-!
# Archive metadata and metaindexes

The metadata of an archive gives the hash and length of its metaindex. The metaindex is stored
in fragments and holds the indexes of the header, chunk index and trailer streams, each after
its length. What is read in spite of failures is what is read without failures.
-/

namespace Tarsnap.Multitape

open Tarsnap.Lib Tarsnap.Chunks

/-- Archive metadata. -/
structure TapeMetadata where
  /-- Name of the archive, without its final NUL. -/
  name : List UInt8
  /-- Creation time. -/
  ctime : Nat
  /-- Command line. -/
  argv : List (List UInt8)
  /-- Hash of the metaindex. -/
  indexhash : Hash
  /-- Length of the metaindex. -/
  indexlen : Nat
  /-- Length of the metadata file. -/
  metadatalen : Nat
deriving DecidableEq

/-- Unpacked archive metaindex. -/
structure TapeMetaindex where
  /-- Header stream index. -/
  hindex : List UInt8
  /-- Chunk index stream index. -/
  cindex : List UInt8
  /-- Trailer stream index. -/
  tindex : List UInt8
deriving DecidableEq

/-- The name of the file that holds a part of the index of the metadata with the given file
name. -/
def multitapeMetaindexFragname (K : Crypto) (namehash : Hash) (fragnum : Nat) : Hash :=
  K.sha256 (namehash.bytes.toList ++ leEnc 4 fragnum)

/-- The fragment numbers from the given one on, while the fragment starts below the length. -/
def fragnumsFrom (indexlen : Nat) : Nat → Nat → List Nat
  | 0, _ => []
  | fuel + 1, fragnum =>
    if fragnum * MAXIFRAG < indexlen then fragnum :: fragnumsFrom indexlen fuel (fragnum + 1)
    else []

/-- The fragment numbers of an index; there are no more of them than bytes. -/
def fragnums (indexlen : Nat) : List Nat := fragnumsFrom indexlen indexlen 0

/-- The length of a fragment of an index. -/
def fraglen (indexlen fragnum : Nat) : Nat :=
  if indexlen - fragnum * MAXIFRAG > MAXIFRAG then MAXIFRAG else indexlen - fragnum * MAXIFRAG

/-- A fragment is at most as long as the source allows. -/
theorem fraglen_le (indexlen fragnum : Nat) : fraglen indexlen fragnum ≤ MAXIFRAG := by
  unfold fraglen
  split <;> omega

/-- What may fail while a metaindex is read. -/
structure MetaindexFaults where
  /-- Hashing the archive name fails. -/
  name : Bool
  /-- Allocating the index fails. -/
  alloc : Bool
  /-- Reading a fragment fails. -/
  read : Nat → Option ReadError
  /-- Hashing the index fails. -/
  sha256 : Bool
  /-- Allocating the header index fails. -/
  hindex : Bool
  /-- Allocating the chunk index fails. -/
  cindex : Bool
  /-- Allocating the trailer index fails. -/
  tindex : Bool

/-- Nothing fails. -/
def MetaindexFaults.none : MetaindexFaults where
  name := false
  alloc := false
  read := fun _ => .none
  sha256 := false
  hindex := false
  cindex := false
  tindex := false

/-- Extract a stream index into a new buffer, and what follows it. -/
def takeIndex (malloc : Bool) (buf : List UInt8) :
    Except ReadError (List UInt8 × List UInt8) :=
  if buf.length < 4 then .error .corrupt
  else
    let indexlen := leDec (buf.take 4)
    let buf := buf.drop 4
    if buf.length < indexlen then .error .corrupt
    else if malloc ∧ 0 < indexlen then .error .error
    else .ok (buf.take indexlen, buf.drop indexlen)

/-- Parse a metaindex. -/
def metaindexParse (faults : MetaindexFaults) (buf : List UInt8) :
    Except ReadError TapeMetaindex := do
  let (hindex, buf) ← takeIndex faults.hindex buf
  let (cindex, buf) ← takeIndex faults.cindex buf
  let (tindex, buf) ← takeIndex faults.tindex buf
  if buf.length ≠ 0 then .error .corrupt
  else .ok { hindex, cindex, tindex }

section Fragments

variable {σ : Type} (K : Crypto) (faults : MetaindexFaults) (S : Store)
  (extrastats : σ → Nat → σ) (mdat : TapeMetadata)

/-- Read a fragment of the index behind the ones before it, and count its length. -/
def readFragment (state : List UInt8 × σ) (fragnum : Nat) :
    Except (ReadError × σ) (List UInt8 × σ) :=
  let fraghash := multitapeMetaindexFragname K (K.hmacName mdat.name) fragnum
  let fraglen := fraglen mdat.indexlen fragnum
  match storageReadFile (faults.read fragnum) S fraglen 'i' fraghash with
  | .error failure => .error (failure, state.2)
  | .ok data => .ok (state.1 ++ data, extrastats state.2 fraglen)

/-- Read and parse the metaindex of an archive, counting the fragments in the given cookie. -/
def multitapeMetaindexGet (C : σ) : Except ReadError TapeMetaindex × σ :=
  if faults.name then (.error .error, C)
  else if faults.alloc then (.error .error, C)
  else
    match (fragnums mdat.indexlen).foldlM (readFragment K faults S extrastats mdat) ([], C) with
    | .error (failure, C) => (.error failure, C)
    | .ok (mbuf, C) =>
      if faults.sha256 then (.error .error, C)
      else if K.sha256 mbuf ≠ mdat.indexhash then (.error .corrupt, C)
      else (metaindexParse faults mbuf, C)

end Fragments

/-- An index that is extracted in spite of failures is the one in the buffer. -/
theorem takeIndex_sound {malloc : Bool} {buf : List UInt8} {parts : List UInt8 × List UInt8}
    (taken : takeIndex malloc buf = .ok parts) : takeIndex false buf = .ok parts := by
  unfold takeIndex at taken ⊢
  split at taken
  · exact nomatch taken
  rename_i long
  rw [if_neg long]
  simp only [] at taken ⊢
  split at taken
  · exact nomatch taken
  rename_i fits
  split at taken
  · exact nomatch taken
  rw [if_neg fits, if_neg (fun fault => Bool.false_ne_true fault.1)]
  exact taken

/-- A metaindex that is parsed in spite of failures is the one in the buffer. -/
theorem metaindexParse_sound {faults : MetaindexFaults} {buf : List UInt8} {mind : TapeMetaindex}
    (parsed : metaindexParse faults buf = .ok mind) : metaindexParse .none buf = .ok mind := by
  obtain ⟨⟨hindex, buf1⟩, header, parsed⟩ := bind_eq_ok.mp parsed
  obtain ⟨⟨cindex, buf2⟩, chunk, parsed⟩ := bind_eq_ok.mp parsed
  obtain ⟨⟨tindex, buf3⟩, trailer, parsed⟩ := bind_eq_ok.mp parsed
  refine bind_eq_ok.mpr ⟨_, takeIndex_sound header, ?_⟩
  refine bind_eq_ok.mpr ⟨_, takeIndex_sound chunk, ?_⟩
  exact bind_eq_ok.mpr ⟨_, takeIndex_sound trailer, parsed⟩

/-- Fragments that are read in spite of failures are the ones in the store, and the cookie does
not matter. -/
theorem readFragments_sound {σ τ : Type} {K : Crypto} {faults : MetaindexFaults} {S : Store}
    {extrastats : σ → Nat → σ} {mdat : TapeMetadata} (extrastats' : τ → Nat → τ) (C' : τ)
    {nums : List Nat} {mbuf mbuf' : List UInt8} {C final : σ}
    (read : nums.foldlM (readFragment K faults S extrastats mdat) (mbuf, C) = .ok (mbuf', final)) :
    ∃ final', nums.foldlM (readFragment K .none S extrastats' mdat) (mbuf, C') =
      .ok (mbuf', final') := by
  induction nums generalizing mbuf C C' with
  | nil =>
    cases read
    exact ⟨C', rfl⟩
  | cons fragnum nums ih =>
    rw [List.foldlM_cons] at read
    obtain ⟨⟨mbuf1, C1⟩, here, rest⟩ := bind_eq_ok.mp read
    rw [readFragment] at here
    simp only [] at here
    split at here
    · exact nomatch here
    rename_i data fetched
    cases here
    obtain ⟨final', later⟩ :=
      ih (extrastats' C' (fraglen mdat.indexlen fragnum)) rest
    refine ⟨final', ?_⟩
    rw [List.foldlM_cons]
    refine bind_eq_ok.mpr ⟨_, ?_, later⟩
    rw [readFragment]
    simp only [MetaindexFaults.none, (storageReadFile_sound fetched).1]

/-- The metaindex that the store holds for an archive. -/
def storedMetaindex (K : Crypto) (S : Store) (mdat : TapeMetadata) :
    Except ReadError TapeMetaindex :=
  (multitapeMetaindexGet K .none S (fun (_ : Unit) _ => ()) mdat ()).1

/-- A metaindex that is read in spite of failures is the one in the store. -/
theorem multitapeMetaindexGet_sound {σ : Type} {K : Crypto} {faults : MetaindexFaults} {S : Store}
    {extrastats : σ → Nat → σ} {mdat : TapeMetadata} {C : σ} {mind : TapeMetaindex}
    (read : (multitapeMetaindexGet K faults S extrastats mdat C).1 = .ok mind) :
    storedMetaindex K S mdat = .ok mind := by
  rw [multitapeMetaindexGet] at read
  split at read
  · exact nomatch read
  split at read
  · exact nomatch read
  split at read
  · exact nomatch read
  rename_i mbuf final fetched
  split at read
  · exact nomatch read
  split at read
  · exact nomatch read
  rename_i same
  obtain ⟨final', again⟩ := readFragments_sound (fun (_ : Unit) _ => ()) () fetched
  have fragments : (fragnums mdat.indexlen).foldlM
      (readFragment K .none S (fun (_ : Unit) _ => ()) mdat) ([], ()) = .ok (mbuf, final') := again
  rw [storedMetaindex, multitapeMetaindexGet, if_neg (by decide), if_neg (by decide), fragments]
  simp only []
  rw [if_neg (by decide), if_neg same]
  exact metaindexParse_sound read

/-- Reading a metaindex keeps what each count of a fragment keeps. -/
theorem multitapeMetaindexGet_cookie {σ : Type} {K : Crypto} {faults : MetaindexFaults} {S : Store}
    {extrastats : σ → Nat → σ} {mdat : TapeMetadata} {P : σ → Prop}
    (count : ∀ C len, P C → P (extrastats C len)) {C : σ} (holds : P C) :
    P (multitapeMetaindexGet K faults S extrastats mdat C).2 := by
  have fragments : ∀ (nums : List Nat) (mbuf : List UInt8) (C : σ), P C →
      match nums.foldlM (readFragment K faults S extrastats mdat) (mbuf, C) with
      | .error (_, C) => P C
      | .ok (_, C) => P C := by
    intro nums
    induction nums with
    | nil => exact fun _ _ holds => holds
    | cons fragnum nums ih =>
      intro mbuf C holds
      rw [List.foldlM_cons]
      cases here : readFragment K faults S extrastats mdat (mbuf, C) fragnum with
      | error result =>
        rw [readFragment] at here
        split at here
        · cases here
          exact holds
        · exact nomatch here
      | ok next =>
        rw [readFragment] at here
        split at here
        · exact nomatch here
        · cases here
          exact ih _ _ (count _ _ holds)
  have read := fragments (fragnums mdat.indexlen) [] C holds
  rw [multitapeMetaindexGet]
  split
  · exact holds
  split
  · exact holds
  split
  · rename_i failed
    rw [failed] at read
    exact read
  · rename_i fetched
    rw [fetched] at read
    split
    · exact read
    split
    · exact read
    · exact read

end Tarsnap.Multitape
