import Tarsnap.Ccache.Write
import Tarsnap.Ccache.Read

/-!
# The cache file is read back

The last-path buffer holds the path that was written last, a NUL and whatever longer paths left
behind. A path without a NUL shares the same prefix with the buffer as with that path, and since
paths come in order it is never a prefix of it. So each path is rebuilt from the one before it, the
records are inserted in order, and each takes its own data from the rest of the file.
-/

namespace Tarsnap.Ccache

open Tarsnap.Lib Tarsnap.Chunks Tarsnap.Multitape

/-- The fields of a record are values of their types, and it has a compressed trailer when it has a
trailer. -/
structure CcacheRecord.Valid (ccr : CcacheRecord) : Prop where
  /-- The inode number is a 64-bit word. -/
  ino : ccr.ino < 18446744073709551616
  /-- The size is not negative. -/
  size : 0 ≤ ccr.size ∧ ccr.size < 9223372036854775808
  /-- The modification time is a signed 64-bit word. -/
  mtime : -9223372036854775808 ≤ ccr.mtime ∧ ccr.mtime < 9223372036854775808
  /-- The length of the trailer is a 32-bit word. -/
  tlen : ccr.tlen < 4294967296
  /-- The length of the deflated trailer is a 32-bit word. -/
  tzlen : ccr.tzlen < 4294967296
  /-- The age is an `int`. -/
  age : -2147483648 ≤ ccr.age
  /-- There is no deflated trailer without a trailer. -/
  trailer : ccr.tlen = 0 ↔ ccr.ztrailer = []

/-- A path is a string and not empty. -/
structure Path.Valid (path : Path) : Prop where
  /-- There is a byte. -/
  nonempty : path.bytes ≠ []
  /-- No byte is a NUL. -/
  clean : 0 ∉ path.bytes

/-- The paths and records of a cache are valid. -/
def Cache.Valid (C : Cache) : Prop :=
  ∀ entry ∈ C.tree.entries, entry.1.Valid ∧ entry.2.Valid

/-- The entries that are written. -/
def keptEntries (entries : List (Path × CcacheRecord)) : List (Path × CcacheRecord) :=
  entries.filter fun entry => !skiprecord entry.2

/-- A record as it is read back. -/
def CcacheRecord.aged (ccr : CcacheRecord) : CcacheRecord :=
  { ccr with age := ccr.age + 1, ztrailerMalloc := false }

section Prefix

/-- A shared prefix is shared. -/
theorem sharedPrefix_take (s other : List UInt8) :
    s.take (sharedPrefix s other) = other.take (sharedPrefix s other) := by
  induction s generalizing other with
  | nil =>
    cases other with
    | nil => rfl
    | cons byte other => rfl
  | cons byte s ih =>
    cases other with
    | nil => rfl
    | cons first other =>
      rw [sharedPrefix]
      split
      · rfl
      · rename_i same
        rw [List.take_succ_cons, List.take_succ_cons, ih, Decidable.not_not.mp same]

/-- A shared prefix is no longer than either string. -/
theorem sharedPrefix_le (s other : List UInt8) :
    sharedPrefix s other ≤ s.length ∧ sharedPrefix s other ≤ other.length := by
  induction s generalizing other with
  | nil =>
    cases other with
    | nil => exact ⟨Nat.le_refl _, Nat.le_refl _⟩
    | cons byte other => exact ⟨Nat.le_refl _, Nat.zero_le _⟩
  | cons byte s ih =>
    cases other with
    | nil => exact ⟨Nat.zero_le _, Nat.le_refl _⟩
    | cons first other =>
      rw [sharedPrefix, List.length_cons, List.length_cons]
      split
      · exact ⟨Nat.zero_le _, Nat.zero_le _⟩
      · have := ih other
        omega

/-- What follows a NUL is not shared with a string without one. -/
theorem sharedPrefix_terminated {s : List UInt8} (clean : 0 ∉ s) (other stale : List UInt8) :
    sharedPrefix s (other ++ 0 :: stale) = sharedPrefix s other := by
  induction s generalizing other with
  | nil =>
    cases other with
    | nil => rfl
    | cons first other => rfl
  | cons byte s ih =>
    have tail : 0 ∉ s := fun member => clean (List.mem_cons_of_mem _ member)
    cases other with
    | nil =>
      have nonzero : byte ≠ 0 := fun zero => clean (zero ▸ List.mem_cons_self)
      rw [List.nil_append, sharedPrefix, if_pos nonzero]
      rfl
    | cons first other =>
      rw [List.cons_append, sharedPrefix, sharedPrefix, ih tail]

/-- A path that comes after another one is not a prefix of it. -/
theorem sharedPrefix_lt {previous path : Path} (later : previous < path) :
    sharedPrefix path.bytes previous.bytes < path.bytes.length := by
  have bound := (sharedPrefix_le path.bytes previous.bytes).1
  by_contra whole
  have all : sharedPrefix path.bytes previous.bytes = path.bytes.length := by omega
  have taken := sharedPrefix_take path.bytes previous.bytes
  rw [all, List.take_length] at taken
  have isPrefix : path.values <+: previous.values := by
    refine ⟨(previous.bytes.drop path.bytes.length).map UInt8.toNat, ?_⟩
    rw [Path.values, Path.values, ← List.map_append]
    congr 1
    calc path.bytes ++ previous.bytes.drop path.bytes.length
      _ = previous.bytes.take path.bytes.length ++ previous.bytes.drop path.bytes.length := by
        rw [← taken]
      _ = previous.bytes := List.take_append_drop _ _
  have values : previous.values < path.values := later
  exact List.IsPrefix.le isPrefix values

end Prefix

section Buffer

/-- The last-path buffer is empty before the first path, and then holds the last path and a NUL. -/
def Remembers (sbuf previous : List UInt8) : Prop :=
  (sbuf = [] ∧ previous = []) ∨ ∃ stale, sbuf = previous ++ 0 :: stale

/-- The prefix shared with the buffer is the one shared with the last path. -/
theorem Remembers.sharedPrefix {sbuf previous s : List UInt8} (holds : Remembers sbuf previous)
    (clean : 0 ∉ s) : sharedPrefix s sbuf = sharedPrefix s previous := by
  rcases holds with ⟨rfl, rfl⟩ | ⟨stale, rfl⟩
  · rfl
  · exact sharedPrefix_terminated clean previous stale

/-- The buffer then holds the path that was written. -/
theorem rememberPath_remembers (sbuf s : List UInt8) :
    Remembers (rememberPath sbuf s (sharedPrefix s sbuf)) s := by
  rw [rememberPath]
  split
  · exact .inr ⟨[], rfl⟩
  · refine .inr ⟨sbuf.drop (s.length + 1), ?_⟩
    rw [← sharedPrefix_take, List.take_append_drop, List.append_assoc, List.singleton_append]

end Buffer

section Records

/-- The records and path suffixes of entries after the given path. -/
def recordBytes : List UInt8 → List (Path × CcacheRecord) → List UInt8
  | _, [] => []
  | previous, (path, ccr) :: rest =>
    let plen := sharedPrefix path.bytes previous
    recordExternal ccr plen (path.bytes.length - plen) ++ path.bytes.drop plen ++
      recordBytes path.bytes rest

/-- The chunk headers and trailers of entries. -/
def dataBytes (entries : List (Path × CcacheRecord)) : List UInt8 :=
  entries.flatMap fun entry => recordData entry.2

/-- The contents of the cache file. -/
def cacheFile (C : Cache) : List UInt8 :=
  leEnc 4 (keptEntries C.tree.entries).length ++ recordBytes [] (keptEntries C.tree.entries) ++
    dataBytes (keptEntries C.tree.entries)

/-- The number of records, the lengths of paths and the length of the file are not too large. -/
structure Cache.Fits (C : Cache) : Prop where
  /-- The number of records is a 32-bit word. -/
  records : (keptEntries C.tree.entries).length < 4294967296
  /-- The lengths of paths are 32-bit words. -/
  paths : ∀ entry ∈ keptEntries C.tree.entries, entry.1.bytes.length < 4294967296
  /-- The length of the file is an `off_t`. -/
  file : (cacheFile C).length < 9223372036854775808

/-- The entries come after the given path. -/
def After (previous : List UInt8) (entries : List (Path × CcacheRecord)) : Prop :=
  previous = [] ∨ ∀ entry ∈ entries, (⟨previous⟩ : Path) < entry.1

/-- The first entry after a path leaves some suffix to write. -/
theorem suffix_pos {previous : List UInt8} {path : Path} {ccr : CcacheRecord}
    {entries : List (Path × CcacheRecord)} (after : After previous ((path, ccr) :: entries))
    (valid : path.Valid) : sharedPrefix path.bytes previous < path.bytes.length := by
  rcases after with rfl | after
  · have none := (sharedPrefix_le path.bytes []).2
    have some := List.length_pos_of_ne_nil valid.nonempty
    rw [List.length_nil] at none
    omega
  · exact sharedPrefix_lt (after (path, ccr) List.mem_cons_self)

/-- The entries after an entry come after its path. -/
theorem Increasing.after {path : Path} {ccr : CcacheRecord} {entries : List (Path × CcacheRecord)}
    (sorted : Increasing ((path, ccr) :: entries)) : After path.bytes entries :=
  .inr (List.pairwise_cons.mp sorted).1

/-- A record is written unless its path is too long. -/
theorem callbackWriteRec_ok {W : CcacheWrite} {previous : List UInt8} {path : Path}
    {ccr : CcacheRecord} (holds : Remembers W.sbuf previous) (kept : skiprecord ccr = false)
    (clean : path.Valid) (valid : ccr.Valid)
    (suffix : sharedPrefix path.bytes previous < path.bytes.length) :
    callbackWriteRec W path ccr = if path.bytes.length < 4294967296 then
      some {
        sbuf := rememberPath W.sbuf path.bytes (sharedPrefix path.bytes W.sbuf)
        f := W.f ++ (recordExternal ccr (sharedPrefix path.bytes previous)
          (path.bytes.length - sharedPrefix path.bytes previous) ++
            path.bytes.drop (sharedPrefix path.bytes previous)) } else none := by
  have shared := holds.sharedPrefix clean.clean
  have size := valid.size.1
  rw [callbackWriteRec]
  simp only [kept]
  rw [if_neg (by decide)]
  by_cases short : path.bytes.length < 4294967296
  · rw [if_neg (by omega), shared, if_neg (by omega), if_pos short, List.append_assoc]
  · rw [if_pos (by omega), if_neg short]

/-- The records are written one after the other. -/
theorem writeRecs_eq {entries : List (Path × CcacheRecord)} {W : CcacheWrite}
    {previous : List UInt8} (holds : Remembers W.sbuf previous) (after : After previous entries)
    (sorted : Increasing entries) (valid : ∀ entry ∈ entries, entry.1.Valid ∧ entry.2.Valid) :
    (entries.foldlM (fun W entry => callbackWriteRec W entry.1 entry.2) W).map CcacheWrite.f =
      if ∀ entry ∈ keptEntries entries, entry.1.bytes.length < 4294967296 then
        some (W.f ++ recordBytes previous (keptEntries entries)) else none := by
  induction entries generalizing W previous with
  | nil =>
    rw [keptEntries, List.filter_nil, recordBytes, List.append_nil,
      if_pos fun _ member => absurd member List.not_mem_nil]
    rfl
  | cons entry entries ih =>
    obtain ⟨path, ccr⟩ := entry
    obtain ⟨above, below⟩ := List.pairwise_cons.mp sorted
    have rest : ∀ entry ∈ entries, entry.1.Valid ∧ entry.2.Valid :=
      fun entry member => valid entry (List.mem_cons_of_mem _ member)
    rw [List.foldlM_cons]
    cases skip : skiprecord ccr with
    | true =>
      have kept : keptEntries ((path, ccr) :: entries) = keptEntries entries := by
        rw [keptEntries, List.filter_cons_of_neg (by simp [skip])]
        rfl
      have left : callbackWriteRec W path ccr = some W := by
        rw [callbackWriteRec]
        simp only [skip]
        rw [if_pos trivial]
      have remaining : After previous entries := by
        rcases after with rfl | after
        · exact .inl rfl
        · exact .inr fun entry member => after entry (List.mem_cons_of_mem _ member)
      simp only [left, kept]
      exact ih holds remaining below rest
    | false =>
      obtain ⟨clean, good⟩ := valid _ List.mem_cons_self
      have kept : keptEntries ((path, ccr) :: entries) = (path, ccr) :: keptEntries entries := by
        rw [keptEntries, List.filter_cons_of_pos (by simp [skip])]
        rfl
      have written := callbackWriteRec_ok holds skip clean good (suffix_pos after clean)
      simp only [written, kept, List.forall_mem_cons]
      by_cases short : path.bytes.length < 4294967296
      · rw [if_pos short, Option.bind_eq_bind, Option.bind_some,
          ih (rememberPath_remembers W.sbuf path.bytes) (Increasing.after sorted) below rest]
        simp only [short, true_and, recordBytes, List.append_assoc]
      · rw [if_neg short, if_neg fun all => short all.1]
        rfl

/-- The data of the kept entries is written in order. -/
theorem writeData_eq (entries : List (Path × CcacheRecord)) (f : List UInt8) :
    entries.foldl (fun f entry => callbackWriteData f entry.2) f =
      f ++ dataBytes (keptEntries entries) := by
  induction entries generalizing f with
  | nil => exact (List.append_nil f).symm
  | cons entry entries ih =>
    rw [List.foldl_cons, ih, callbackWriteData, keptEntries, keptEntries, dataBytes, dataBytes]
    cases skip : skiprecord entry.2 with
    | true => rw [if_pos rfl, List.filter_cons_of_neg (by simp [skip])]
    | false =>
      rw [if_neg (by decide), List.filter_cons_of_pos (by simp [skip]), List.flatMap_cons,
        List.append_assoc]

/-- What is written is the cache file, unless it is too large. -/
theorem ccacheWrite_eq_some {C : Cache} (valid : C.Valid) {file : List UInt8} :
    ccacheWrite C = some file ↔ C.Fits ∧ file = cacheFile C := by
  have count : (C.tree.entries.countP fun entry => !skiprecord entry.2) =
      (keptEntries C.tree.entries).length := List.countP_eq_length_filter
  have records := writeRecs_eq
    (show Remembers (⟨[], leEnc 4 (keptEntries C.tree.entries).length⟩ : CcacheWrite).sbuf [] from
      .inl ⟨rfl, rfl⟩) (.inl rfl) C.tree.increasing valid
  rw [ccacheWrite, count]
  simp only []
  by_cases few : (keptEntries C.tree.entries).length < 4294967296
  · rw [if_neg (by omega)]
    by_cases short : ∀ entry ∈ keptEntries C.tree.entries, entry.1.bytes.length < 4294967296
    · rw [if_pos short] at records
      obtain ⟨W, run, bytes⟩ := Option.map_eq_some_iff.mp records
      rw [run, Option.bind_eq_bind, Option.bind_some, writeData_eq, bytes]
      change (if 9223372036854775807 < (cacheFile C).length then none else some (cacheFile C)) =
        some file ↔ _
      split
      · rename_i long
        refine ⟨fun absurdity => (nomatch absurdity), fun fits => ?_⟩
        have := fits.1.file
        omega
      · rename_i small
        constructor
        · intro same
          exact ⟨⟨few, short, by omega⟩, (Option.some.inj same).symm⟩
        · intro fits
          rw [fits.2]
    · rw [if_neg short] at records
      rw [Option.map_eq_none_iff.mp records]
      exact ⟨fun absurdity => (nomatch absurdity), fun fits => absurd fits.1.paths short⟩
  · rw [if_pos (by omega)]
    exact ⟨fun absurdity => (nomatch absurdity), fun fits => absurd fits.1.records few⟩

end Records

section Decode

/-- A field after other fields. -/
theorem fieldAt_skip {first offset : Nat} (value : Nat) (rest : List UInt8) (width : Nat)
    (after : first ≤ offset) :
    fieldAt (leEnc first value ++ rest) offset width = fieldAt rest (offset - first) width := by
  rw [fieldAt, fieldAt, List.drop_append, List.drop_eq_nil_of_le
    (by rw [leEnc_length]; exact after),
    leEnc_length, List.nil_append]

/-- The first field. -/
theorem fieldAt_first {width value : Nat} (rest : List UInt8) (small : value < 256 ^ width) :
    fieldAt (leEnc width value ++ rest) 0 width = value := by
  rw [fieldAt, List.drop_zero, List.take_left' (leEnc_length width value), leDec_leEnc,
    Nat.mod_eq_of_lt small]

/-- The last field. -/
theorem fieldAt_last {width value : Nat} (small : value < 256 ^ width) :
    fieldAt (leEnc width value) 0 width = value := by
  have read := fieldAt_first [] small
  rwa [List.append_nil] at read

/-- A signed 64-bit word is read back. -/
theorem int64_word64 {value : Int} (range : -9223372036854775808 ≤ value ∧
    value < 9223372036854775808) : int64 (word64 value) = value := by
  rw [int64, word64]
  split <;> omega

/-- A signed 32-bit word is read back. -/
theorem int32_word32 {value : Int} (range : -2147483648 ≤ value ∧ value < 2147483648) :
    int32 (word32 value) = value := by
  rw [int32, word32]
  split <;> omega

/-- The word of a signed integer is a 64-bit word. -/
theorem word64_lt (value : Int) : word64 value < 256 ^ 8 := by
  rw [word64]
  omega

/-- The word of a signed integer is a 32-bit word. -/
theorem word32_lt (value : Int) : word32 value < 256 ^ 4 := by
  rw [word32]
  omega

/-- An on-disk record takes 52 bytes. -/
theorem recordExternal_length (ccr : CcacheRecord) (plen suffixlen : Nat) :
    (recordExternal ccr plen suffixlen).length = 52 := by
  simp only [recordExternal, List.length_append, leEnc_length]

/-- The fields of a record as they are read back before its data. -/
def CcacheRecord.head (ccr : CcacheRecord) : RecordHead where
  ino := ccr.ino
  size := ccr.size
  mtime := ccr.mtime
  nch := ccr.nch
  tlen := ccr.tlen
  tzlen := ccr.tzlen
  age := ccr.age + 1

/-- A record that is kept. -/
theorem skiprecord_eq_false {ccr : CcacheRecord} (kept : skiprecord ccr = false) :
    ¬(ccr.nch = 0 ∧ ccr.tlen = 0) ∧ ccr.age ≤ 10 ∧ 0 ≤ ccr.mtime := by
  have none := of_decide_eq_false kept
  simp only [MAXAGE] at none
  omega

/-- An on-disk record is decoded. -/
theorem decodeRecord_recordExternal {ccr : CcacheRecord} (kept : skiprecord ccr = false)
    (valid : ccr.Valid) (few : ccr.nch < 256 ^ 8) (plen suffixlen : Nat) :
    decodeRecord (recordExternal ccr plen suffixlen) = ccr.head := by
  have age := (skiprecord_eq_false kept).2.1
  have young := valid.age
  have size := valid.size
  rw [decodeRecord, recordExternal, CcacheRecord.head]
  simp only [fieldAt_skip, Nat.reduceLeDiff, Nat.reduceSub, Nat.le_refl]
  rw [fieldAt_first _ valid.ino, fieldAt_first _ (word64_lt _), fieldAt_first _ (word64_lt _),
    fieldAt_first _ few, fieldAt_first _ valid.tlen, fieldAt_first _ valid.tzlen,
    fieldAt_last (word32_lt _), int64_word64 ⟨by omega, size.2⟩, int64_word64 valid.mtime,
    int32_word32 ⟨by omega, by omega⟩]

/-- The lengths of the prefix and the suffix are read back. -/
theorem fieldAt_path (ccr : CcacheRecord) {plen suffixlen : Nat} (smallPrefix : plen < 256 ^ 4)
    (smallSuffix : suffixlen < 256 ^ 4) :
    fieldAt (recordExternal ccr plen suffixlen) 40 4 = plen ∧
      fieldAt (recordExternal ccr plen suffixlen) 44 4 = suffixlen := by
  rw [recordExternal]
  simp only [fieldAt_skip, Nat.reduceLeDiff, Nat.reduceSub, Nat.le_refl]
  exact ⟨fieldAt_first _ smallPrefix, fieldAt_first _ smallSuffix⟩

/-- Bytes at the front of a file are read. -/
theorem fread_append {bytes : List UInt8} (some : bytes ≠ []) (rest : List UInt8) :
    fread bytes.length (bytes ++ rest) = .some (bytes, rest) := by
  have length := List.length_pos_of_ne_nil some
  rw [fread, if_neg (by rw [List.length_append]; omega), List.take_left' rfl, List.drop_left' rfl]

/-- The data of a record takes the lengths of its chunk headers and its trailer. -/
theorem recordData_length (ccr : CcacheRecord) :
    (recordData ccr).length = ccr.nch * 40 + ccr.tzlen := by
  have headers : (ccr.chp.flatMap ChunkHeader.encode).length = ccr.nch * 40 := by
    rw [List.length_flatMap, CcacheRecord.nch]
    simp only [ChunkHeader.encode_length, List.map_const', List.sum_replicate_nat]
  rw [recordData, List.length_append, headers, CcacheRecord.tzlen]

/-- A record that was written is read, and its path rebuilt. -/
theorem readRec_ok {previous rest : List UInt8} {path : Path} {ccr : CcacheRecord} {datalen : Nat}
    (kept : skiprecord ccr = false) (valid : ccr.Valid)
    (suffix : sharedPrefix path.bytes previous < path.bytes.length)
    (short : path.bytes.length < 4294967296)
    (fits : datalen + (recordData ccr).length < 9223372036854775808) :
    readRec ⟨recordExternal ccr (sharedPrefix path.bytes previous)
        (path.bytes.length - sharedPrefix path.bytes previous) ++
          path.bytes.drop (sharedPrefix path.bytes previous) ++ rest, previous, datalen⟩ =
      some (ccr.head, ⟨rest, path.bytes, datalen + (recordData ccr).length⟩) := by
  have bounds := sharedPrefix_le path.bytes previous
  have size := recordData_length ccr
  obtain ⟨worth, _, _⟩ := skiprecord_eq_false kept
  have trailer : ccr.tlen = 0 ↔ ccr.tzlen = 0 := by
    rw [valid.trailer, CcacheRecord.tzlen, List.length_eq_zero_iff]
  have accepted : ¬((sharedPrefix path.bytes previous = 0 ∧
      path.bytes.length - sharedPrefix path.bytes previous = 0) ∨
        18446744073709551615 / 40 < ccr.head.nch ∨ (ccr.head.nch = 0 ∧ ccr.head.tlen = 0) ∨
        (ccr.head.tlen = 0 ∧ ccr.head.tzlen ≠ 0) ∨ (ccr.head.tlen ≠ 0 ∧ ccr.head.tzlen = 0) ∨
        ccr.head.age = 2147483647) := by
    simp only [CcacheRecord.head]
    omega
  have trailerFits : ¬18446744073709551616 ≤ datalen + ccr.head.tzlen := by
    simp only [CcacheRecord.head]
    omega
  have headersFit : ¬18446744073709551616 ≤ datalen + ccr.head.tzlen + ccr.head.nch * 40 := by
    simp only [CcacheRecord.head]
    omega
  have total : datalen + ccr.head.tzlen + ccr.head.nch * 40 = datalen +
    (recordData ccr).length := by
    simp only [CcacheRecord.head]
    omega
  have external : fread 52 (recordExternal ccr (sharedPrefix path.bytes previous)
        (path.bytes.length - sharedPrefix path.bytes previous) ++
          (path.bytes.drop (sharedPrefix path.bytes previous) ++ rest)) =
      some (recordExternal ccr (sharedPrefix path.bytes previous)
        (path.bytes.length - sharedPrefix path.bytes previous),
          path.bytes.drop (sharedPrefix path.bytes previous) ++ rest) := by
    have length := recordExternal_length ccr (sharedPrefix path.bytes previous)
      (path.bytes.length - sharedPrefix path.bytes previous)
    have some : recordExternal ccr (sharedPrefix path.bytes previous)
        (path.bytes.length - sharedPrefix path.bytes previous) ≠ [] := by
      intro empty
      rw [empty] at length
      exact nomatch length
    have read := fread_append some (path.bytes.drop (sharedPrefix path.bytes previous) ++ rest)
    rwa [length] at read
  have decoded := decodeRecord_recordExternal kept valid (by omega)
    (sharedPrefix path.bytes previous) (path.bytes.length - sharedPrefix path.bytes previous)
  obtain ⟨prefixlen, suffixlen⟩ := fieldAt_path ccr
    (show sharedPrefix path.bytes previous < 256 ^ 4 by omega)
    (show path.bytes.length - sharedPrefix path.bytes previous < 256 ^ 4 by omega)
  have tail : fread (path.bytes.length - sharedPrefix path.bytes previous)
      (path.bytes.drop (sharedPrefix path.bytes previous) ++ rest) =
        some (path.bytes.drop (sharedPrefix path.bytes previous), rest) := by
    have some : path.bytes.drop (sharedPrefix path.bytes previous) ≠ [] := by
      intro empty
      have length := congrArg List.length empty
      rw [List.length_drop, List.length_nil] at length
      omega
    have read := fread_append some rest
    rwa [List.length_drop] at read
  rw [readRec, List.append_assoc, external, Option.bind_eq_bind, Option.bind_some]
  simp only [decoded, prefixlen, suffixlen]
  rw [if_neg accepted, if_neg (by omega), tail, Option.bind_some]
  simp only []
  rw [if_neg trailerFits, if_neg headersFit, ← sharedPrefix_take, List.take_append_drop, total]

end Decode

section Entries

/-- Memory used by the chunks of entries. -/
def chunksUsage (entries : List (Path × CcacheRecord)) : Nat :=
  (entries.map fun entry => entry.2.nch * 40).sum

/-- Memory used by the trailers of entries. -/
def trailerUsage (entries : List (Path × CcacheRecord)) : Nat :=
  (entries.map fun entry => entry.2.tzlen).sum

/-- Records that were written are read and inserted one after the other. -/
theorem readRecs_ok {entries : List (Path × CcacheRecord)} {previous data : List UInt8}
    {datalen : Nat} {C : Heads} (kept : ∀ entry ∈ entries, skiprecord entry.2 = false)
    (valid : ∀ entry ∈ entries, entry.1.Valid ∧ entry.2.Valid) (sorted : Increasing entries)
    (after : After previous entries)
    (larger : ∀ old ∈ C.tree.entries, ∀ entry ∈ entries, old.1 < entry.1)
    (short : ∀ entry ∈ entries, entry.1.bytes.length < 4294967296)
    (fits : datalen + (dataBytes entries).length < 9223372036854775808) :
    ∃ (s : List UInt8) (tree : SortedMap Path RecordHead),
      readRecs entries.length ⟨recordBytes previous entries ++ data, previous, datalen⟩ C =
          some (⟨data, s, datalen + (dataBytes entries).length⟩,
            ⟨tree, C.chunksusage + chunksUsage entries, C.trailerusage + trailerUsage entries⟩) ∧
        tree.entries = C.tree.entries ++ entries.map fun entry => (entry.1, entry.2.head) := by
  induction entries generalizing previous datalen C with
  | nil => exact ⟨previous, C.tree, rfl, (List.append_nil _).symm⟩
  | cons entry entries ih =>
    obtain ⟨path, ccr⟩ := entry
    obtain ⟨above, below⟩ := List.pairwise_cons.mp sorted
    obtain ⟨clean, good⟩ := valid _ List.mem_cons_self
    have size : (dataBytes ((path, ccr) :: entries)).length =
        (recordData ccr).length + (dataBytes entries).length := by
      rw [dataBytes, List.flatMap_cons, List.length_append, dataBytes]
    have first := @readRec_ok previous (recordBytes path.bytes entries ++ data) path ccr datalen
      (kept _ List.mem_cons_self) good (suffix_pos after clean) (short _ List.mem_cons_self)
      (by omega)
    obtain ⟨grown, inserted, appended⟩ := @SortedMap.insert_last _ _ _ C.tree path ccr.head
      fun old member => larger old member _ List.mem_cons_self
    have beyond : ∀ old ∈ grown.entries, ∀ entry ∈ entries, old.1 < entry.1 := by
      intro old member entry later
      rw [appended] at member
      rcases List.mem_append.mp member with member | member
      · exact larger old member entry (List.mem_cons_of_mem _ later)
      · rw [List.mem_singleton.mp member]
        exact above entry later
    obtain ⟨s, tree, rest, all⟩ := @ih path.bytes (datalen + (recordData ccr).length)
      ⟨grown, C.chunksusage + ccr.head.nch * 40, C.trailerusage + ccr.head.tzlen⟩
      (fun entry member => kept entry (List.mem_cons_of_mem _ member))
      (fun entry member => valid entry (List.mem_cons_of_mem _ member)) below
      (Increasing.after sorted) beyond
      (fun entry member => short entry (List.mem_cons_of_mem _ member)) (by omega)
    refine ⟨s, tree, ?_, ?_⟩
    · rw [List.length_cons, readRecs, recordBytes, List.append_assoc, first, Option.bind_eq_bind,
        Option.bind_some]
      simp only []
      rw [show (⟨path.bytes⟩ : Path) = path from rfl, inserted, Option.bind_eq_bind,
        Option.bind_some, rest, size,
        chunksUsage, chunksUsage, trailerUsage, trailerUsage, List.map_cons, List.map_cons,
        List.sum_cons, List.sum_cons, CcacheRecord.head]
      simp only [Nat.add_assoc]
    · rw [all, appended, List.append_assoc, List.map_cons, List.singleton_append]

/-- Each record takes its own data. -/
theorem readData_ok (entries : List (Path × CcacheRecord)) (rest : List UInt8) :
    readData (dataBytes entries ++ rest) (entries.map fun entry => (entry.1, entry.2.head)) =
      entries.map fun entry => (entry.1, entry.2.aged) := by
  induction entries with
  | nil => rfl
  | cons entry entries ih =>
    obtain ⟨path, ccr⟩ := entry
    have size := recordData_length ccr
    have headers : (ccr.chp.flatMap ChunkHeader.encode).length = ccr.head.nch * 40 := by
      have whole := size
      rw [recordData, List.length_append, CcacheRecord.tzlen] at whole
      rw [CcacheRecord.head]
      simp only []
      omega
    have split : dataBytes ((path, ccr) :: entries) ++ rest =
        ccr.chp.flatMap ChunkHeader.encode ++ (ccr.ztrailer ++ (dataBytes entries ++ rest)) := by
      rw [dataBytes, List.flatMap_cons, recordData, dataBytes, List.append_assoc, List.append_assoc]
    have trailer : ccr.ztrailer.length = ccr.head.tzlen := rfl
    rw [List.map_cons, readData, callbackReadData, split, List.take_left' headers,
      List.drop_left' headers, List.take_left' trailer, ← List.drop_drop,
      List.drop_left' headers, List.drop_left' trailer, ih, List.map_cons, chunkheaders_encode]
    rfl

/-- The kept entries. -/
theorem keptEntries_mem {entries : List (Path × CcacheRecord)} {entry : Path × CcacheRecord}
    (member : entry ∈ keptEntries entries) : entry ∈ entries ∧ skiprecord entry.2 = false := by
  obtain ⟨here, kept⟩ := List.mem_filter.mp member
  exact ⟨here, by simpa using kept⟩

end Entries

/-- Reading a cache file that was written yields exactly the records that are kept, one cycle
older. -/
theorem ccacheRead_kept {C : Cache} (valid : C.Valid) {file : List UInt8}
    (written : ccacheWrite C = some file) : ∃ C', ccacheRead (some file) = some C' ∧
      C'.tree.entries = (keptEntries C.tree.entries).map (fun entry => (entry.1, entry.2.aged)) ∧
      C'.chunksusage = chunksUsage (keptEntries C.tree.entries) ∧
      C'.trailerusage = trailerUsage (keptEntries C.tree.entries) := by
  obtain ⟨fits, rfl⟩ := (ccacheWrite_eq_some valid).mp written
  have size := fits.file
  rw [cacheFile, List.length_append, List.length_append] at size
  obtain ⟨s, tree, records, all⟩ := @readRecs_ok (keptEntries C.tree.entries) []
    (dataBytes (keptEntries C.tree.entries)) 0 ⟨.empty, 0, 0⟩
    (fun entry member => (keptEntries_mem member).2)
    (fun entry member => valid entry (keptEntries_mem member).1)
    (C.tree.increasing.filter _) (.inl rfl)
    (fun old member => absurd member List.not_mem_nil) fits.paths (by omega)
  have count : fread 4 (cacheFile C) = some (leEnc 4 (keptEntries C.tree.entries).length,
      recordBytes [] (keptEntries C.tree.entries) ++ dataBytes (keptEntries C.tree.entries)) := by
    rw [cacheFile, List.append_assoc]
    exact fread_append (show leEnc 4 _ ≠ [] from List.cons_ne_nil _ _) _
  have N : leDec (leEnc 4 (keptEntries C.tree.entries).length) =
      (keptEntries C.tree.entries).length := by
    have few := fits.records
    rw [leDec_leEnc]
    omega
  rw [Nat.zero_add, Nat.zero_add, Nat.zero_add] at records
  have none : (SortedMap.empty : SortedMap Path RecordHead).entries = [] := rfl
  simp only [none, List.nil_append] at all
  have data := readData_ok (keptEntries C.tree.entries) []
  rw [List.append_nil] at data
  refine ⟨⟨⟨readData (dataBytes (keptEntries C.tree.entries)) tree.entries,
    readData_increasing _ tree.increasing⟩, chunksUsage (keptEntries C.tree.entries),
    trailerUsage (keptEntries C.tree.entries)⟩, ?_, ?_, rfl, rfl⟩
  · rw [ccacheRead, count, Option.bind_eq_bind, Option.bind_some]
    simp only []
    rw [N, records, Option.bind_eq_bind, Option.bind_some]
    simp only []
    rw [if_neg (not_not_intro rfl)]
  · simp only []
    rw [all, data]

/-- The cache file of a cache with valid paths and records can be written when it is not too large,
and reading it yields exactly the records that are kept, one cycle older. -/
theorem ccacheRead_ccacheWrite {C : Cache} (valid : C.Valid) :
    ((∃ file, ccacheWrite C = some file) ↔ C.Fits) ∧
      ∀ file, ccacheWrite C = some file → ∃ C', ccacheRead (some file) = some C' ∧
        C'.tree.entries = (keptEntries C.tree.entries).map (fun entry => (entry.1, entry.2.aged)) ∧
        C'.chunksusage = chunksUsage (keptEntries C.tree.entries) ∧
        C'.trailerusage = trailerUsage (keptEntries C.tree.entries) := by
  constructor
  · constructor
    · rintro ⟨file, written⟩
      exact ((ccacheWrite_eq_some valid).mp written).1
    · intro fits
      exact ⟨cacheFile C, (ccacheWrite_eq_some valid).mpr ⟨fits, rfl⟩⟩
  · exact fun file written => ccacheRead_kept valid written

/-- A record of a file with one chunk. -/
def oneChunk (age : Int) : CcacheRecord where
  ino := 7
  size := 5000
  mtime := 100
  chp := [⟨⟨Vector.replicate 32 1⟩, 5000, 600⟩]
  tlen := 0
  ztrailer := []
  age
  ztrailerMalloc := false

/-- A cache with two files, of which the second was not used for a long time. -/
def twoFiles : Cache where
  tree := ⟨[(⟨[47, 97]⟩, oneChunk 2), (⟨[47, 97, 98]⟩, oneChunk 11)],
    List.pairwise_pair.mpr (by decide)⟩
  chunksusage := 80
  trailerusage := 0

/-- The first of two files is read back. -/
theorem twoFiles_roundTrip : ∃ file C', ccacheWrite twoFiles = some file ∧
    ccacheRead (some file) = some C' ∧ C'.tree.entries = [(⟨[47, 97]⟩, oneChunk 3)] := by
  have record : (oneChunk 2).Valid ∧ (oneChunk 11).Valid :=
    ⟨⟨by decide, by decide, by decide, by decide, by decide, by decide, by decide⟩,
      ⟨by decide, by decide, by decide, by decide, by decide, by decide, by decide⟩⟩
  have valid : twoFiles.Valid := by
    intro entry member
    rcases List.mem_cons.mp member with rfl | member
    · exact ⟨⟨by decide, by decide⟩, record.1⟩
    · rw [List.mem_singleton.mp member]
      exact ⟨⟨by decide, by decide⟩, record.2⟩
  have fits : twoFiles.Fits :=
    ⟨by decide +kernel, by decide +kernel, by decide +kernel⟩
  obtain ⟨file, written⟩ := (ccacheRead_ccacheWrite valid).1.mpr fits
  obtain ⟨C', read, entries, _⟩ := (ccacheRead_ccacheWrite valid).2 file written
  exact ⟨file, C', written, read, entries.trans (by decide +kernel)⟩

end Tarsnap.Ccache
