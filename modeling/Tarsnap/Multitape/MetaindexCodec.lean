import Tarsnap.Lib.Prefix
import Tarsnap.Chunks.Write
import Tarsnap.Chunks.Delete
import Tarsnap.Multitape.Fsck

/-!
# Storing, reading and deleting metaindexes

A metaindex is encoded as three indexes, each after its length, and stored in fragments. Reading
joins the fragments and takes the indexes apart again. Storing, reading and both ways of deleting
go through the same fragments: the same names in the same order, counted with the same lengths.
-/

namespace Tarsnap.Multitape

open Tarsnap.Lib Tarsnap.Chunks

/-- The encoded metaindex. -/
def metaindexEnc (mind : TapeMetaindex) : List UInt8 :=
  (leEnc 4 mind.hindex.length ++ mind.hindex) ++ ((leEnc 4 mind.cindex.length ++ mind.cindex) ++
    (leEnc 4 mind.tindex.length ++ mind.tindex))

/-- The bytes of a fragment of the encoded metaindex. -/
def fragment (buf : List UInt8) (fragnum : Nat) : List UInt8 :=
  (buf.drop (fragnum * MAXIFRAG)).take (fraglen buf.length fragnum)

/-- The files that hold the fragments of the index of some metadata. -/
def fragnames (K : Crypto) (mdat : TapeMetadata) : List Hash :=
  (fragnums mdat.indexlen).map (multitapeMetaindexFragname K (K.hmacName mdat.name))

/-- Store a fragment, and count its length. -/
def writeFragment (K : Crypto) (mdat : TapeMetadata) (buf : List UInt8)
    (state : List ChunkFile × ChunksW) (fragnum : Nat) : List ChunkFile × ChunksW :=
  (state.1 ++ [(multitapeMetaindexFragname K (K.hmacName mdat.name) fragnum, fragment buf fragnum)],
    chunksWriteExtrastats state.2 (UInt32.ofNat (fraglen buf.length fragnum)))

/-- Store a metaindex in files of class `i`, counting them in the given cookie, and note its hash
and length in the metadata. -/
def multitapeMetaindexPut (K : Crypto) (C : ChunksW) (mind : TapeMetaindex) (mdat : TapeMetadata) :
    Option (List ChunkFile × ChunksW × TapeMetadata) :=
  if 4294967295 < mind.hindex.length ∨ 4294967295 < mind.cindex.length ∨
      4294967295 < mind.tindex.length then none
  else
    let buf := metaindexEnc mind
    let (S, C) := (fragnums buf.length).foldl (writeFragment K mdat buf) ([], C)
    some (S, C, { mdat with indexhash := K.sha256 buf, indexlen := buf.length })

/-- Delete the metaindex of an archive, counting the lengths of its files. -/
def multitapeMetaindexDelete (K : Crypto) (faults : FsckFaults) (S : StorageD) (C : ChunksD)
    (mdat : TapeMetadata) : Option (StorageD × ChunksD) :=
  if faults.name mdat.name then none
  else
    let hbuf := K.hmacName mdat.name
    (fragnums mdat.indexlen).foldlM (fun (state : StorageD × ChunksD) fragnum => do
      let S ← storageDeleteFile faults state.1 'i' (multitapeMetaindexFragname K hbuf fragnum)
      return (S, chunksDeleteExtrastats state.2 (UInt32.ofNat (fraglen mdat.indexlen fragnum))))
      (S, C)

/-- The files of class `i` are stored in the order in which they were written. -/
def Store.writeFiles (S : Store) (files : List ChunkFile) : Store :=
  files.foldl (fun S file cls name => if cls = 'i' ∧ name = file.1 then some file.2 else S cls name)
    S

/-- What the fragments of an index add to the statistics of extra data. -/
def fragStats (indexlen : Nat) : ChunkStats :=
  ((fragnums indexlen).map fun fragnum =>
    ChunkStats.ofCopies (UInt32.ofNat (fraglen indexlen fragnum))
      (UInt32.ofNat (fraglen indexlen fragnum)) 1).sum

section Fragments

/-- The fragments from one on make up the buffer from its start on. -/
theorem flatMap_fragnumsFrom (buf : List UInt8) (fuel fragnum : Nat)
    (enough : buf.length ≤ fragnum * MAXIFRAG + fuel * MAXIFRAG) :
    (fragnumsFrom buf.length fuel fragnum).flatMap (fragment buf) =
      buf.drop (fragnum * MAXIFRAG) := by
  induction fuel generalizing fragnum with
  | zero =>
    rw [fragnumsFrom, List.flatMap_nil, List.drop_eq_nil_of_le (by omega)]
  | succ fuel ih =>
    have later : (fragnum + 1) * MAXIFRAG = fragnum * MAXIFRAG + MAXIFRAG := Nat.succ_mul _ _
    rw [fragnumsFrom]
    split
    · rename_i inside
      have rest := ih (fragnum + 1) (by rw [Nat.succ_mul] at enough; omega)
      rw [List.flatMap_cons, rest, later, ← List.drop_drop, fragment, fraglen]
      split
      · exact List.take_append_drop _ _
      · rename_i short
        have last : (buf.drop (fragnum * MAXIFRAG)).length ≤ MAXIFRAG := by
          rw [List.length_drop]
          omega
        rw [List.drop_eq_nil_of_le last, List.append_nil, List.take_of_length_le]
        rw [List.length_drop]
    · rw [List.flatMap_nil, List.drop_eq_nil_of_le (by omega)]

/-- The fragments make up the buffer. -/
theorem flatMap_fragnums (buf : List UInt8) :
    (fragnums buf.length).flatMap (fragment buf) = buf := by
  have size : 0 < MAXIFRAG := by decide
  have all := flatMap_fragnumsFrom buf buf.length 0 (by
    rw [Nat.zero_mul, Nat.zero_add]
    exact Nat.le_mul_of_pos_right _ size)
  rwa [Nat.zero_mul, List.drop_zero] at all

/-- A fragment has the length that the loops compute. -/
theorem fragment_length (buf : List UInt8) (fragnum : Nat) :
    (fragment buf fragnum).length = fraglen buf.length fragnum := by
  rw [fragment, List.length_take, List.length_drop, fraglen]
  split <;> omega

/-- Pieces of the lengths of the fragments have the length of the index together. -/
theorem flatMap_pieces_length (pieces : Nat → List UInt8) (indexlen : Nat)
    (sized : ∀ fragnum ∈ fragnums indexlen, (pieces fragnum).length = fraglen indexlen fragnum) :
    ((fragnums indexlen).flatMap pieces).length = indexlen := by
  have whole := congrArg List.length (flatMap_fragnums (List.replicate indexlen 0))
  rw [List.length_replicate, List.length_flatMap] at whole
  rw [List.length_flatMap, List.map_congr_left sized]
  simp only [fragment_length, List.length_replicate] at whole
  exact whole

end Fragments

section Parse

/-- An index after its length is read exactly. -/
theorem takeIndex_exact :
    Exact (fun index : List UInt8 => index.length < 4294967296)
      (fun index => leEnc 4 index.length ++ index) (takeIndex false) where
  reads := by
    intro index rest small
    have length : leDec (leEnc 4 index.length) = index.length := by
      rw [leDec_leEnc, Nat.mod_eq_of_lt (by omega)]
    rw [takeIndex, List.append_assoc, if_neg (by rw [List.length_append, leEnc_length]; omega),
      List.take_left' (leEnc_length 4 _), List.drop_left' (leEnc_length 4 _), length]
    simp only []
    rw [if_neg (by rw [List.length_append]; omega), if_neg (fun fault => nomatch fault.1),
      List.take_left' rfl, List.drop_left' rfl]
  sound := by
    intro buf index rest read
    rw [takeIndex] at read
    split at read
    · exact nomatch read
    rename_i long
    simp only [] at read
    split at read
    · exact nomatch read
    rename_i fits
    rw [if_neg (fun fault => nomatch fault.1)] at read
    cases read
    have four : (buf.take 4).length = 4 := by
      rw [List.length_take]
      omega
    have bound := leDec_lt (buf.take 4)
    have encoded := leEnc_leDec (buf.take 4)
    have length : ((buf.drop 4).take (leDec (buf.take 4))).length = leDec (buf.take 4) := by
      rw [List.length_take]
      omega
    rw [four] at bound encoded
    refine ⟨by rw [length]; exact bound, ?_⟩
    rw [length, encoded, List.append_assoc, List.take_append_drop, List.take_append_drop]

/-- The lengths of the indexes are words. -/
structure TapeMetaindex.Small (mind : TapeMetaindex) : Prop where
  /-- Of the header stream index. -/
  hindex : mind.hindex.length < 4294967296
  /-- Of the chunk index stream index. -/
  cindex : mind.cindex.length < 4294967296
  /-- Of the trailer stream index. -/
  tindex : mind.tindex.length < 4294967296

/-- A buffer is parsed exactly when it is an encoded metaindex. -/
theorem metaindexParse_iff {buf : List UInt8} {mind : TapeMetaindex} :
    metaindexParse .none buf = .ok mind ↔ mind.Small ∧ buf = metaindexEnc mind := by
  constructor
  · intro parsed
    obtain ⟨⟨hindex, afterHindex⟩, readHindex, parsed⟩ := bind_eq_ok.mp parsed
    obtain ⟨⟨cindex, afterCindex⟩, readCindex, parsed⟩ := bind_eq_ok.mp parsed
    obtain ⟨⟨tindex, rest⟩, readTindex, parsed⟩ := bind_eq_ok.mp parsed
    obtain ⟨smallHindex, hindexBytes⟩ := takeIndex_exact.sound readHindex
    obtain ⟨smallCindex, cindexBytes⟩ := takeIndex_exact.sound readCindex
    obtain ⟨smallTindex, tindexBytes⟩ := takeIndex_exact.sound readTindex
    simp only [] at cindexBytes tindexBytes parsed
    split at parsed
    · exact nomatch parsed
    rename_i ended
    cases parsed
    have noRest : rest = [] := List.eq_nil_of_length_eq_zero (Decidable.not_not.mp ended)
    refine ⟨⟨smallHindex, smallCindex, smallTindex⟩, ?_⟩
    rw [hindexBytes, cindexBytes, tindexBytes, noRest, List.append_nil, metaindexEnc]
  · rintro ⟨small, rfl⟩
    have hindex := takeIndex_exact.reads ((leEnc 4 mind.cindex.length ++ mind.cindex) ++
      (leEnc 4 mind.tindex.length ++ mind.tindex)) small.hindex
    have cindex := takeIndex_exact.reads (leEnc 4 mind.tindex.length ++ mind.tindex) small.cindex
    have tindex := takeIndex_exact.reads [] small.tindex
    rw [List.append_nil] at tindex
    rw [metaindexParse, metaindexEnc, MetaindexFaults.none, hindex, ok_bind]
    simp only []
    rw [cindex, ok_bind]
    simp only []
    rw [tindex, ok_bind]
    rfl

end Parse

section Get

variable {σ : Type} {K : Crypto} {faults : MetaindexFaults} {S : Store}
  {extrastats : σ → Nat → σ} {mdat : TapeMetadata}

/-- The contents that the store holds for a fragment. -/
def storedFragment (K : Crypto) (S : Store) (mdat : TapeMetadata) (fragnum : Nat) : List UInt8 :=
  (S 'i' (multitapeMetaindexFragname K (K.hmacName mdat.name) fragnum)).getD []

/-- The store holds a fragment of the length that the loops compute. -/
def HasFragment (K : Crypto) (S : Store) (mdat : TapeMetadata) (fragnum : Nat) : Prop :=
  ∃ data, S 'i' (multitapeMetaindexFragname K (K.hmacName mdat.name) fragnum) = some data ∧
    data.length = fraglen mdat.indexlen fragnum

/-- Fragments that are read are in the store; each is appended and counted. -/
theorem readFragments_eq {nums : List Nat} {mbuf mbuf' : List UInt8} {C C' : σ}
    (read : nums.foldlM (readFragment K faults S extrastats mdat) (mbuf, C) = .ok (mbuf', C')) :
    (∀ fragnum ∈ nums, HasFragment K S mdat fragnum) ∧
      mbuf' = mbuf ++ nums.flatMap (storedFragment K S mdat) ∧
      C' = nums.foldl (fun C fragnum => extrastats C (fraglen mdat.indexlen fragnum)) C := by
  induction nums generalizing mbuf C with
  | nil =>
    cases read
    exact ⟨fun _ member => absurd member List.not_mem_nil, (List.append_nil _).symm, rfl⟩
  | cons fragnum nums ih =>
    rw [List.foldlM_cons] at read
    obtain ⟨⟨mbuf1, C1⟩, here, rest⟩ := bind_eq_ok.mp read
    rw [readFragment] at here
    simp only [] at here
    split at here
    · cases here
    rename_i data fetched
    cases here
    obtain ⟨sound, length⟩ := storageReadFile_sound fetched
    have held : S 'i' (multitapeMetaindexFragname K (K.hmacName mdat.name) fragnum) =
        some data := by
      rw [storageReadFile] at sound
      split at sound
      · cases sound
      split at sound
      · cases sound
      · rename_i contents present
        split at sound
        · cases sound
          exact present
        · cases sound
    obtain ⟨others, bytes, count⟩ := ih rest
    refine ⟨?_, ?_, count⟩
    · intro other member
      rcases List.mem_cons.mp member with rfl | member
      · exact ⟨data, held, length⟩
      · exact others other member
    · rw [bytes, List.flatMap_cons, storedFragment, held, Option.getD_some, List.append_assoc]

/-- Fragments that are in the store are read when nothing fails. -/
theorem readFragments_ok {nums : List Nat} (held : ∀ fragnum ∈ nums, HasFragment K S mdat fragnum)
    (mbuf : List UInt8) (C : σ) :
    nums.foldlM (readFragment K .none S extrastats mdat) (mbuf, C) =
      .ok (mbuf ++ nums.flatMap (storedFragment K S mdat),
        nums.foldl (fun C fragnum => extrastats C (fraglen mdat.indexlen fragnum)) C) := by
  induction nums generalizing mbuf C with
  | nil => rw [List.flatMap_nil, List.append_nil]; rfl
  | cons fragnum nums ih =>
    obtain ⟨data, present, length⟩ := held fragnum List.mem_cons_self
    have here : readFragment K .none S extrastats mdat (mbuf, C) fragnum =
        .ok (mbuf ++ data, extrastats C (fraglen mdat.indexlen fragnum)) := by
      have small : ¬ storageFileLimit < fraglen mdat.indexlen fragnum := by
        have bound : fraglen mdat.indexlen fragnum ≤ 261120 := fraglen_le mdat.indexlen fragnum
        unfold storageFileLimit
        omega
      rw [readFragment]
      simp only [MetaindexFaults.none, storageReadFile, small, present, length, if_true, if_false]
    rw [List.foldlM_cons, here, ok_bind,
      ih (fun other member => held other (List.mem_cons_of_mem _ member)), List.flatMap_cons,
      storedFragment, present, Option.getD_some, List.append_assoc, List.foldl_cons]

/-- A metaindex is read when the store holds its fragments. -/
theorem multitapeMetaindexGet_ok {mind : TapeMetaindex}
    (held : ∀ fragnum ∈ fragnums mdat.indexlen, HasFragment K S mdat fragnum)
    (joined : (fragnums mdat.indexlen).flatMap (storedFragment K S mdat) = metaindexEnc mind)
    (hash : K.sha256 (metaindexEnc mind) = mdat.indexhash) (small : mind.Small) (C : σ) :
    (multitapeMetaindexGet K .none S extrastats mdat C).1 = .ok mind := by
  have read := @readFragments_ok σ K S extrastats mdat _ held [] C
  rw [List.nil_append, joined] at read
  rw [multitapeMetaindexGet, if_neg (by decide), if_neg (by decide), read]
  simp only []
  rw [if_neg (by decide), if_neg (not_not_intro hash)]
  exact metaindexParse_iff.mpr ⟨small, rfl⟩

/-- A metaindex that is read is the fragments that the store holds, each counted once. -/
theorem multitapeMetaindexGet_only {mind : TapeMetaindex} {C : σ}
    (read : (multitapeMetaindexGet K faults S extrastats mdat C).1 = .ok mind) :
    (∀ fragnum ∈ fragnums mdat.indexlen, HasFragment K S mdat fragnum) ∧
      (fragnums mdat.indexlen).flatMap (storedFragment K S mdat) = metaindexEnc mind ∧
      K.sha256 (metaindexEnc mind) = mdat.indexhash ∧ mind.Small ∧
      (multitapeMetaindexGet K faults S extrastats mdat C).2 = (fragnums mdat.indexlen).foldl
        (fun C fragnum => extrastats C (fraglen mdat.indexlen fragnum)) C := by
  rw [multitapeMetaindexGet] at read ⊢
  split at read
  · cases read
  split at read
  · cases read
  rename_i alloc
  rw [if_neg ‹_›, if_neg alloc]
  split at read
  · cases read
  rename_i mbuf final fetched
  obtain ⟨held, joined, counted⟩ := readFragments_eq fetched
  split at read
  · cases read
  rename_i sha256
  rw [if_neg sha256]
  split at read
  · cases read
  rename_i same
  obtain ⟨small, bytes⟩ := metaindexParse_iff.mp (metaindexParse_sound read)
  rw [List.nil_append] at joined
  refine ⟨held, joined.symm.trans bytes, ?_, small, ?_⟩
  · rw [← bytes]
    exact Decidable.not_not.mp same
  · rw [if_neg same, counted]

end Get

section Put

variable {K : Crypto}

/-- The files that are written, and what they add to the statistics. -/
theorem writeFragments_eq (K : Crypto) (mdat : TapeMetadata) (buf : List UInt8) (nums : List Nat)
    (S : List ChunkFile) (C : ChunksW) :
    (nums.foldl (writeFragment K mdat buf) (S, C)).1 = S ++ nums.map (fun fragnum =>
        (multitapeMetaindexFragname K (K.hmacName mdat.name) fragnum, fragment buf fragnum)) ∧
      (nums.foldl (writeFragment K mdat buf) (S, C)).2 = nums.foldl (fun C fragnum =>
        chunksWriteExtrastats C (UInt32.ofNat (fraglen buf.length fragnum))) C := by
  induction nums generalizing S C with
  | nil => exact ⟨(List.append_nil S).symm, rfl⟩
  | cons fragnum nums ih =>
    obtain ⟨files, count⟩ := ih (writeFragment K mdat buf (S, C) fragnum).1
      (writeFragment K mdat buf (S, C) fragnum).2
    rw [List.foldl_cons, List.foldl_cons, List.map_cons]
    refine ⟨files.trans ?_, count⟩
    rw [writeFragment, List.append_assoc, List.singleton_append]

/-- What is written when the indexes are small enough. -/
theorem multitapeMetaindexPut_cases {C C' : ChunksW} {mind : TapeMetaindex}
    {mdat mdat' : TapeMetadata} {files : List ChunkFile}
    (put : multitapeMetaindexPut K C mind mdat = some (files, C', mdat')) :
    mind.Small ∧
      mdat' = { mdat with
        indexhash := K.sha256 (metaindexEnc mind), indexlen := (metaindexEnc mind).length } ∧
      files = (fragnums mdat'.indexlen).map (fun fragnum =>
        (multitapeMetaindexFragname K (K.hmacName mdat'.name) fragnum,
          fragment (metaindexEnc mind) fragnum)) ∧
      C' = (fragnums mdat'.indexlen).foldl (fun C fragnum =>
        chunksWriteExtrastats C (UInt32.ofNat (fraglen mdat'.indexlen fragnum))) C := by
  rw [multitapeMetaindexPut] at put
  split at put
  · exact nomatch put
  rename_i fits
  obtain ⟨written, counted⟩ := writeFragments_eq K mdat (metaindexEnc mind)
    (fragnums (metaindexEnc mind).length) [] C
  rw [List.nil_append] at written
  cases put
  exact ⟨⟨by omega, by omega, by omega⟩, rfl, written, counted⟩

/-- Files of other names and classes are left alone. -/
theorem writeFiles_other (S : Store) (files : List ChunkFile) (cls : Char) (name : Hash)
    (other : cls = 'i' → name ∉ files.map Prod.fst) :
    Store.writeFiles S files cls name = S cls name := by
  induction files generalizing S with
  | nil => rfl
  | cons file files ih =>
    have later : cls = 'i' → name ∉ files.map Prod.fst := fun same member =>
      other same (List.mem_cons_of_mem _ member)
    have here : ¬(cls = 'i' ∧ name = file.1) := fun same =>
      other same.1 (List.mem_cons.mpr (.inl same.2))
    rw [Store.writeFiles, List.foldl_cons]
    exact (ih _ later).trans (if_neg here)

/-- Files under different names are all in the store. -/
theorem writeFiles_mem (S : Store) {files : List ChunkFile} (distinct : (files.map Prod.fst).Nodup)
    {file : ChunkFile} (member : file ∈ files) :
    Store.writeFiles S files 'i' file.1 = some file.2 := by
  induction files generalizing S with
  | nil => exact absurd member List.not_mem_nil
  | cons first files ih =>
    obtain ⟨fresh, distinct⟩ := List.nodup_cons.mp distinct
    rw [Store.writeFiles, List.foldl_cons]
    rcases List.mem_cons.mp member with rfl | member
    · exact (writeFiles_other _ files 'i' file.1 fun _ => fresh).trans (if_pos ⟨rfl, rfl⟩)
    · exact ih _ distinct member

end Put

section Statistics

/-- Counting fragments one after the other adds their sum. -/
theorem foldl_extrastats {σ : Type} (field : σ → ChunkStats) (count : σ → Nat → σ)
    (sign : Int) (len : Nat → UInt32)
    (one : ∀ C fragnum, field (count C fragnum) =
      field C + ChunkStats.ofCopies (len fragnum) (len fragnum) sign) (nums : List Nat) (C : σ) :
    field (nums.foldl count C) = field C +
      (nums.map fun fragnum => ChunkStats.ofCopies (len fragnum) (len fragnum) sign).sum := by
  induction nums generalizing C with
  | nil => rw [List.foldl_nil, List.map_nil, List.sum_nil, add_zero]
  | cons fragnum nums ih =>
    rw [List.foldl_cons, ih, one, List.map_cons, List.sum_cons, add_assoc]

/-- What is taken away again leaves nothing. -/
theorem sum_copies_cancel (len : Nat → UInt32) (nums : List Nat) :
    (nums.map fun fragnum => ChunkStats.ofCopies (len fragnum) (len fragnum) (-1)).sum +
      (nums.map fun fragnum => ChunkStats.ofCopies (len fragnum) (len fragnum) 1).sum = 0 := by
  induction nums with
  | nil => rfl
  | cons fragnum nums ih =>
    rw [List.map_cons, List.map_cons, List.sum_cons, List.sum_cons, add_add_add_comm,
      ChunkStats.ofCopies_cancel, ih, add_zero]

/-- Storing counts the fragments. -/
theorem writeExtrastats_sum (nums : List Nat) (len : Nat → Nat) (C : ChunksW) :
    (nums.foldl (fun C fragnum => chunksWriteExtrastats C (UInt32.ofNat (len fragnum)))
      C).statsExtra =
      C.statsExtra + (nums.map fun fragnum =>
        ChunkStats.ofCopies (UInt32.ofNat (len fragnum)) (UInt32.ofNat (len fragnum)) 1).sum :=
  foldl_extrastats (·.statsExtra) _ 1 (fun fragnum => UInt32.ofNat (len fragnum))
    (fun _ _ => rfl) nums C

/-- Reading in a check counts the fragments in the current archive. -/
theorem statsExtrastats_sum (nums : List Nat) (len : Nat → Nat) (C : ChunksS) :
    (nums.foldl (fun C fragnum => chunksStatsExtrastats C (len fragnum)) C).statsTapee =
      C.statsTapee + (nums.map fun fragnum =>
        ChunkStats.ofCopies (UInt32.ofNat (len fragnum)) (UInt32.ofNat (len fragnum)) 1).sum :=
  foldl_extrastats (·.statsTapee) _ 1 (fun fragnum => UInt32.ofNat (len fragnum))
    (fun _ _ => rfl) nums C

end Statistics

section Delete

variable {K : Crypto} {faults : FsckFaults}

/-- Deleting files one after the other deletes them in this order. -/
theorem deleteFiles_deleted {cls : Char} {name : Nat → Hash} {nums : List Nat} {SD SD' : StorageD}
    (run : nums.foldlM (fun SD fragnum => storageDeleteFile faults SD cls (name fragnum)) SD =
      some SD') :
    SD'.deleted = SD.deleted ++ nums.map fun fragnum => (cls, name fragnum) := by
  induction nums generalizing SD with
  | nil =>
    cases run
    exact (List.append_nil _).symm
  | cons fragnum nums ih =>
    rw [List.foldlM_cons] at run
    obtain ⟨next, here, later⟩ := Option.bind_eq_some_iff.mp run
    rw [storageDeleteFile] at here
    split at here
    · exact nomatch here
    cases here
    rw [ih later, List.map_cons, List.append_assoc, List.singleton_append]

/-- Deleting a metaindex deletes its fragments, and takes their lengths off the statistics. -/
theorem multitapeMetaindexDelete_eq {SD SD' : StorageD} {C C' : ChunksD} {mdat : TapeMetadata}
    (run : multitapeMetaindexDelete K faults SD C mdat = some (SD', C')) :
    SD'.deleted = SD.deleted ++ (fragnames K mdat).map (fun name => ('i', name)) ∧
      C' = (fragnums mdat.indexlen).foldl (fun C fragnum =>
        chunksDeleteExtrastats C (UInt32.ofNat (fraglen mdat.indexlen fragnum))) C := by
  rw [multitapeMetaindexDelete] at run
  split at run
  · exact nomatch run
  rw [fragnames, List.map_map]
  generalize fragnums mdat.indexlen = nums at run ⊢
  induction nums generalizing SD C with
  | nil =>
    cases run
    exact ⟨(List.append_nil _).symm, rfl⟩
  | cons fragnum nums ih =>
    rw [List.foldlM_cons] at run
    obtain ⟨next, here, later⟩ := Option.bind_eq_some_iff.mp run
    obtain ⟨SD1, deleted, same⟩ := Option.bind_eq_some_iff.mp here
    rw [storageDeleteFile] at deleted
    split at deleted
    · exact nomatch deleted
    cases deleted
    cases same
    obtain ⟨files, count⟩ := ih later
    rw [files, List.map_cons, List.append_assoc, List.singleton_append, List.foldl_cons]
    exact ⟨rfl, count⟩

/-- Deleting an archive in a check deletes the same fragments, and the metadata. -/
theorem deletearchive_deleted {SD SD' : StorageD} {mdat : TapeMetadata}
    (run : deletearchive K faults SD mdat = some SD') :
    SD'.deleted = SD.deleted ++ (fragnames K mdat).map (fun name => ('i', name)) ++
      [('m', K.hmacName mdat.name)] := by
  rw [deletearchive] at run
  split at run
  · exact nomatch run
  obtain ⟨SD1, fragments, metadata⟩ := Option.bind_eq_some_iff.mp run
  rw [storageDeleteFile] at metadata
  split at metadata
  · exact nomatch metadata
  cases metadata
  rw [deleteFiles_deleted fragments, fragnames, List.map_map]
  rfl

/-- A file may be deleted, and deleting it does not fail. -/
def Deletable (faults : FsckFaults) (SD : StorageD) (cls : Char) (name : Hash) : Prop :=
  SD.readonly = false ∧ faults.delete cls name = false

/-- A file is deleted unless this is not allowed or fails; more can be deleted afterwards if and
only if it could be before. -/
theorem storageDeleteFile_some {SD : StorageD} {cls : Char} {name : Hash} :
    (∃ SD', storageDeleteFile faults SD cls name = some SD') ↔ Deletable faults SD cls name := by
  rw [storageDeleteFile, Deletable]
  constructor
  · rintro ⟨SD', deleted⟩
    split at deleted
    · cases deleted
    · rename_i allowed
      simpa [not_or] using allowed
  · rintro ⟨writable, sound⟩
    rw [writable, sound]
    exact ⟨_, if_neg (by simp)⟩

/-- Deleting a file does not change whether others can be deleted. -/
theorem storageDeleteFile_deletable {SD SD' : StorageD} {cls cls' : Char} {name name' : Hash}
    (deleted : storageDeleteFile faults SD cls name = some SD') :
    Deletable faults SD' cls' name' ↔ Deletable faults SD cls' name' := by
  rw [storageDeleteFile] at deleted
  split at deleted
  · cases deleted
  · cases deleted
    exact Iff.rfl

/-- A loop that deletes one file in each step succeeds if and only if each of the files can be
deleted, and does not change whether others can be. -/
theorem deleteLoop_some {σ : Type} (faults : FsckFaults) (view : σ → StorageD)
    (name : Nat → Hash) (step : σ → Nat → Option σ)
    (one : ∀ state fragnum, (∃ next, step state fragnum = some next) ↔
      Deletable faults (view state) 'i' (name fragnum))
    (keeps : ∀ state fragnum next cls other, step state fragnum = some next →
      (Deletable faults (view next) cls other ↔ Deletable faults (view state) cls other))
    (nums : List Nat) (state : σ) :
    ((∃ last, nums.foldlM step state = some last) ↔
      ∀ fragnum ∈ nums, Deletable faults (view state) 'i' (name fragnum)) ∧
    ∀ last cls other, nums.foldlM step state = some last →
      (Deletable faults (view last) cls other ↔ Deletable faults (view state) cls other) := by
  induction nums generalizing state with
  | nil =>
    refine ⟨⟨fun _ fragnum absurdity => absurd absurdity List.not_mem_nil, fun _ => ⟨state, rfl⟩⟩,
      fun last cls other run => ?_⟩
    cases run
    exact Iff.rfl
  | cons fragnum nums ih =>
    rw [List.foldlM_cons, List.forall_mem_cons, ← one]
    cases here : step state fragnum with
    | none => simp
    | some next =>
      obtain ⟨rest, later⟩ := ih next
      have same := fun cls other => keeps state fragnum next cls other here
      rw [Option.bind_eq_bind, Option.bind_some, rest]
      constructor
      · simp only [same]
        exact ⟨fun all => ⟨⟨next, rfl⟩, all⟩, fun all => all.2⟩
      · intro last cls other run
        exact (later last cls other run).trans (same cls other)

/-- A metaindex is deleted if and only if hashing the name does not fail and each of its files can
be deleted. -/
theorem multitapeMetaindexDelete_some {SD : StorageD} {C : ChunksD} {mdat : TapeMetadata} :
    (∃ SD' C', multitapeMetaindexDelete K faults SD C mdat = some (SD', C')) ↔
      faults.name mdat.name = false ∧
        ∀ name ∈ fragnames K mdat, Deletable faults SD 'i' name := by
  rw [multitapeMetaindexDelete, fragnames, List.forall_mem_map]
  cases faults.name mdat.name with
  | true => simp
  | false =>
    have loop := deleteLoop_some faults Prod.fst
      (multitapeMetaindexFragname K (K.hmacName mdat.name))
      (fun (state : StorageD × ChunksD) fragnum => do
        let S ← storageDeleteFile faults state.1 'i'
          (multitapeMetaindexFragname K (K.hmacName mdat.name) fragnum)
        return (S, chunksDeleteExtrastats state.2 (UInt32.ofNat (fraglen mdat.indexlen fragnum))))
      (fun state fragnum => by
        rw [← storageDeleteFile_some]
        constructor
        · rintro ⟨next, here⟩
          obtain ⟨SD', deleted, _⟩ := Option.bind_eq_some_iff.mp here
          exact ⟨SD', deleted⟩
        · rintro ⟨SD', deleted⟩
          exact ⟨_, Option.bind_eq_some_iff.mpr ⟨SD', deleted, rfl⟩⟩)
      (fun state fragnum next cls other here => by
        obtain ⟨SD', deleted, same⟩ := Option.bind_eq_some_iff.mp here
        cases same
        exact storageDeleteFile_deletable deleted)
      (fragnums mdat.indexlen) (SD, C)
    rw [if_neg Bool.false_ne_true, ← loop.1, Prod.exists]
    simp

/-- A check deletes an archive if and only if hashing the name does not fail and each of its files
can be deleted. -/
theorem deletearchive_some {SD : StorageD} {mdat : TapeMetadata} :
    (∃ SD', deletearchive K faults SD mdat = some SD') ↔ faults.name mdat.name = false ∧
      (∀ name ∈ fragnames K mdat, Deletable faults SD 'i' name) ∧
      Deletable faults SD 'm' (K.hmacName mdat.name) := by
  rw [deletearchive, fragnames, List.forall_mem_map]
  cases faults.name mdat.name with
  | true => simp
  | false =>
    obtain ⟨some, keeps⟩ := deleteLoop_some faults id
      (multitapeMetaindexFragname K (K.hmacName mdat.name))
      (fun SD fragnum => storageDeleteFile faults SD 'i'
        (multitapeMetaindexFragname K (K.hmacName mdat.name) fragnum))
      (fun SD fragnum => storageDeleteFile_some)
      (fun SD fragnum next cls other here => storageDeleteFile_deletable here)
      (fragnums mdat.indexlen) SD
    rw [if_neg Bool.false_ne_true]
    constructor
    · rintro ⟨SD', run⟩
      obtain ⟨last, fragments, metadata⟩ := Option.bind_eq_some_iff.mp run
      refine ⟨rfl, some.mp ⟨last, fragments⟩, ?_⟩
      exact (keeps last _ _ fragments).mp (storageDeleteFile_some.mp ⟨SD', metadata⟩)
    · rintro ⟨_, fragments, metadata⟩
      obtain ⟨last, run⟩ := some.mpr fragments
      obtain ⟨SD', deleted⟩ := storageDeleteFile_some.mpr ((keeps last _ _ run).mpr metadata)
      exact ⟨SD', Option.bind_eq_some_iff.mpr ⟨last, run, deleted⟩⟩

end Delete

/-- Storing, reading and deleting metaindexes agree on their fragments. -/
structure MetaindexAgreement (K : Crypto) : Prop where
  /-- A metaindex is stored unless the length of an index is not a word. -/
  put_some : ∀ (C : ChunksW) (mind : TapeMetaindex) (mdat : TapeMetadata),
    (multitapeMetaindexPut K C mind mdat).isSome ↔ mind.Small
  /-- What was stored is read back, unless the names of two of its files collide. -/
  get_put : ∀ {σ : Type} (extrastats : σ → Nat → σ) (S : Store) (C C' : ChunksW)
    (mind : TapeMetaindex) (mdat mdat' : TapeMetadata) (files : List ChunkFile) (cookie : σ),
    multitapeMetaindexPut K C mind mdat = some (files, C', mdat') → (fragnames K mdat').Nodup →
      (multitapeMetaindexGet K .none (Store.writeFiles S files) extrastats mdat' cookie).1 =
        .ok mind
  /-- What is read has the recorded length and hash, and is three indexes after their lengths. -/
  get_only : ∀ {σ : Type} (faults : MetaindexFaults) (extrastats : σ → Nat → σ) (S : Store)
    (mind : TapeMetaindex) (mdat : TapeMetadata) (cookie : σ),
    (multitapeMetaindexGet K faults S extrastats mdat cookie).1 = .ok mind →
      (fragnums mdat.indexlen).flatMap (storedFragment K S mdat) = metaindexEnc mind ∧
        (metaindexEnc mind).length = mdat.indexlen ∧
        K.sha256 (metaindexEnc mind) = mdat.indexhash ∧ mind.Small
  /-- The files that storing writes. -/
  put_files : ∀ (C C' : ChunksW) (mind : TapeMetaindex) (mdat mdat' : TapeMetadata)
    (files : List ChunkFile), multitapeMetaindexPut K C mind mdat = some (files, C', mdat') →
      files.map Prod.fst = fragnames K mdat'
  /-- An archive's index is deleted if and only if hashing the name does not fail and each of these
  files can be deleted. -/
  delete_some : ∀ (faults : FsckFaults) (SD : StorageD) (C : ChunksD) (mdat : TapeMetadata),
    (∃ SD' C', multitapeMetaindexDelete K faults SD C mdat = some (SD', C')) ↔
      faults.name mdat.name = false ∧ ∀ name ∈ fragnames K mdat, Deletable faults SD 'i' name
  /-- Deleting an archive deletes these files. -/
  delete_files : ∀ (faults : FsckFaults) (SD SD' : StorageD) (C C' : ChunksD)
    (mdat : TapeMetadata), multitapeMetaindexDelete K faults SD C mdat = some (SD', C') →
      SD'.deleted = SD.deleted ++ (fragnames K mdat).map (fun name => ('i', name))
  /-- A check deletes an archive if and only if hashing the name does not fail and each of these
  files and the metadata can be deleted. -/
  deletearchive_some : ∀ (faults : FsckFaults) (SD : StorageD) (mdat : TapeMetadata),
    (∃ SD', deletearchive K faults SD mdat = some SD') ↔ faults.name mdat.name = false ∧
      (∀ name ∈ fragnames K mdat, Deletable faults SD 'i' name) ∧
      Deletable faults SD 'm' (K.hmacName mdat.name)
  /-- A check that deletes an archive deletes these files and the metadata. -/
  deletearchive_files : ∀ (faults : FsckFaults) (SD SD' : StorageD) (mdat : TapeMetadata),
    deletearchive K faults SD mdat = some SD' →
      SD'.deleted = SD.deleted ++ (fragnames K mdat).map (fun name => ('i', name)) ++
        [('m', K.hmacName mdat.name)]
  /-- What storing adds to the statistics of extra data. -/
  put_stats : ∀ (C C' : ChunksW) (mind : TapeMetaindex) (mdat mdat' : TapeMetadata)
    (files : List ChunkFile), multitapeMetaindexPut K C mind mdat = some (files, C', mdat') →
      C'.statsExtra = C.statsExtra + fragStats mdat'.indexlen
  /-- A check adds the same to the statistics of the archive. -/
  get_stats : ∀ (faults : MetaindexFaults) (S : Store) (C : ChunksS) (mind : TapeMetaindex)
    (mdat : TapeMetadata),
    (multitapeMetaindexGet K faults S chunksStatsExtrastats mdat C).1 = .ok mind →
      (multitapeMetaindexGet K faults S chunksStatsExtrastats mdat C).2.statsTapee =
        C.statsTapee + fragStats mdat.indexlen
  /-- Deleting takes the same away. -/
  delete_stats : ∀ (faults : FsckFaults) (SD SD' : StorageD) (C C' : ChunksD)
    (mdat : TapeMetadata), multitapeMetaindexDelete K faults SD C mdat = some (SD', C') →
      C'.statsExtra + fragStats mdat.indexlen = C.statsExtra

/-- The four loops over the fragments of a metaindex agree. -/
theorem metaindexAgreement (K : Crypto) : MetaindexAgreement K where
  put_some := by
    intro C mind mdat
    rw [multitapeMetaindexPut]
    split
    · rename_i large
      refine ⟨fun some => absurd some Bool.false_ne_true, fun small => ?_⟩
      have := small.hindex
      have := small.cindex
      have := small.tindex
      omega
    · rename_i fits
      exact ⟨fun _ => ⟨by omega, by omega, by omega⟩, fun _ => rfl⟩
  get_put := by
    intro σ extrastats S C C' mind mdat mdat' files cookie put distinct
    obtain ⟨small, described, written, _⟩ := multitapeMetaindexPut_cases put
    have names : files.map Prod.fst = fragnames K mdat' := by
      rw [written, List.map_map]
      rfl
    have size : mdat'.indexlen = (metaindexEnc mind).length := by
      rw [described]
    have held : ∀ fragnum ∈ fragnums mdat'.indexlen,
        Store.writeFiles S files 'i'
          (multitapeMetaindexFragname K (K.hmacName mdat'.name) fragnum) =
            some (fragment (metaindexEnc mind) fragnum) := by
      intro fragnum member
      have file : (multitapeMetaindexFragname K (K.hmacName mdat'.name) fragnum,
          fragment (metaindexEnc mind) fragnum) ∈ files := by
        rw [written]
        exact List.mem_map.mpr ⟨fragnum, member, rfl⟩
      exact writeFiles_mem S (by rw [names]; exact distinct) file
    apply multitapeMetaindexGet_ok
    · intro fragnum member
      exact ⟨_, held fragnum member, by rw [fragment_length, size]⟩
    · have same : (fragnums mdat'.indexlen).map (storedFragment K (Store.writeFiles S files) mdat')
        = (fragnums mdat'.indexlen).map (fragment (metaindexEnc mind)) := by
        apply List.map_congr_left
        intro fragnum member
        rw [storedFragment, held fragnum member, Option.getD_some]
      rw [List.flatMap_def, same, ← List.flatMap_def, size, flatMap_fragnums]
    · rw [described]
    · exact small
  get_only := by
    intro σ faults extrastats S mind mdat cookie read
    obtain ⟨held, joined, hash, small, _⟩ := multitapeMetaindexGet_only read
    refine ⟨joined, ?_, hash, small⟩
    rw [← joined]
    apply flatMap_pieces_length
    intro fragnum member
    obtain ⟨data, present, length⟩ := held fragnum member
    rw [storedFragment, present, Option.getD_some, length]
  put_files := by
    intro C C' mind mdat mdat' files put
    obtain ⟨_, _, written, _⟩ := multitapeMetaindexPut_cases put
    rw [written, List.map_map]
    rfl
  delete_some := fun _ _ _ _ => multitapeMetaindexDelete_some
  delete_files := fun _ _ _ _ _ _ run => (multitapeMetaindexDelete_eq run).1
  deletearchive_some := fun _ _ _ => Multitape.deletearchive_some
  deletearchive_files := fun _ _ _ _ run => deletearchive_deleted run
  put_stats := by
    intro C C' mind mdat mdat' files put
    obtain ⟨_, _, _, counted⟩ := multitapeMetaindexPut_cases put
    rw [counted, writeExtrastats_sum]
    rfl
  get_stats := by
    intro faults S C mind mdat read
    obtain ⟨_, _, _, _, counted⟩ := multitapeMetaindexGet_only read
    rw [counted, statsExtrastats_sum]
    rfl
  delete_stats := by
    intro faults SD SD' C C' mdat run
    have counted := foldl_extrastats (·.statsExtra)
      (fun C fragnum => chunksDeleteExtrastats C (UInt32.ofNat (fraglen mdat.indexlen fragnum)))
      (-1) (fun fragnum => UInt32.ofNat (fraglen mdat.indexlen fragnum)) (fun _ _ => rfl)
      (fragnums mdat.indexlen) C
    rw [(multitapeMetaindexDelete_eq run).2, counted, add_assoc, fragStats, sum_copies_cancel,
      add_zero]

end Tarsnap.Multitape
