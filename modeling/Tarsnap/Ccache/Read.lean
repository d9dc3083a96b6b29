import Tarsnap.Ccache.Cache

/-!
# Reading the chunkification cache

The records are read first, each path from the path before it and a suffix, and inserted into the
tree. The rest of the file must have exactly the length that the records add up to. The tree is
then visited in its order and each record takes its chunk headers and trailer from that rest.
-/

namespace Tarsnap.Ccache

open Tarsnap.Lib Tarsnap.Chunks Tarsnap.Multitape

/-- The signed integer of a 64-bit word. -/
def int64 (value : Nat) : Int :=
  if value < 9223372036854775808 then value else value - 18446744073709551616

/-- The signed integer of a 32-bit word. -/
def int32 (value : Nat) : Int := if value < 2147483648 then value else value - 4294967296

/-- The fields of a record that are known before its data is read. -/
structure RecordHead where
  /-- Inode number. -/
  ino : Nat
  /-- File size. -/
  size : Int
  /-- Modification time. -/
  mtime : Int
  /-- Number of chunks. -/
  nch : Nat
  /-- Length of the trailer. -/
  tlen : Nat
  /-- Length of the deflated trailer. -/
  tzlen : Nat
  /-- Age. -/
  age : Int

/-- The state while records are read. -/
structure CcacheRead where
  /-- What is left of the file. -/
  f : List UInt8
  /-- The path of the last record. -/
  s : List UInt8
  /-- Sum of chunk header and trailer lengths. -/
  datalen : Nat

/-- Read some bytes from the file; nothing can be read when no byte is asked for. -/
def fread (len : Nat) (f : List UInt8) : Option (List UInt8 × List UInt8) :=
  if len = 0 ∨ f.length < len then none else some (f.take len, f.drop len)

/-- The field of the given width at the given offset of an on-disk record. -/
def fieldAt (ccre : List UInt8) (offset width : Nat) : Nat := leDec ((ccre.drop offset).take width)

/-- Decode a record. -/
def decodeRecord (ccre : List UInt8) : RecordHead where
  ino := fieldAt ccre 0 8
  size := int64 (fieldAt ccre 8 8)
  mtime := int64 (fieldAt ccre 16 8)
  nch := fieldAt ccre 24 8
  tlen := fieldAt ccre 32 4
  tzlen := fieldAt ccre 36 4
  age := int32 (fieldAt ccre 48 4)

/-- Read a cache record and its path. -/
def readRec (R : CcacheRead) : Option (RecordHead × CcacheRead) := do
  let (ccre, f) ← fread 52 R.f
  let ccr := decodeRecord ccre
  let prefixlen := fieldAt ccre 40 4
  let suffixlen := fieldAt ccre 44 4
  if (prefixlen = 0 ∧ suffixlen = 0) ∨ 18446744073709551615 / 40 < ccr.nch ∨
      (ccr.nch = 0 ∧ ccr.tlen = 0) ∨ (ccr.tlen = 0 ∧ ccr.tzlen ≠ 0) ∨
      (ccr.tlen ≠ 0 ∧ ccr.tzlen = 0) ∨ ccr.age = 2147483647 then none
  else if R.s.length < prefixlen then none
  else do
    let (suffix, f) ← fread suffixlen f
    let datalen := R.datalen + ccr.tzlen
    if 18446744073709551616 ≤ datalen then none
    else
      let datalen := datalen + ccr.nch * 40
      if 18446744073709551616 ≤ datalen then none
      else some (ccr, ⟨f, R.s.take prefixlen ++ suffix, datalen⟩)

/-- The tree of records without their data, and the memory that their data will use. -/
structure Heads where
  /-- Tree of records. -/
  tree : SortedMap Path RecordHead
  /-- Memory used by chunks. -/
  chunksusage : Nat
  /-- Memory used by trailers. -/
  trailerusage : Nat

/-- Read the given number of records and insert them into the tree. -/
def readRecs : Nat → CcacheRead → Heads → Option (CcacheRead × Heads)
  | 0, R, C => some (R, C)
  | count + 1, R, C => do
    let (ccr, R) ← readRec R
    let tree ← C.tree.insert ⟨R.s⟩ ccr
    readRecs count R ⟨tree, C.chunksusage + ccr.nch * 40, C.trailerusage + ccr.tzlen⟩

/-- A record with the chunk headers and the trailer that the data starts with. -/
def callbackReadData (data : List UInt8) (ccr : RecordHead) : CcacheRecord where
  ino := ccr.ino
  size := ccr.size
  mtime := ccr.mtime
  chp := chunkheaders (data.take (ccr.nch * 40))
  tlen := ccr.tlen
  ztrailer := (data.drop (ccr.nch * 40)).take ccr.tzlen
  age := ccr.age
  ztrailerMalloc := false

/-- Read chunk headers and trailers in the order of the tree. -/
def readData : List UInt8 → List (Path × RecordHead) → List (Path × CcacheRecord)
  | _, [] => []
  | data, (path, ccr) :: rest =>
    (path, callbackReadData data ccr) :: readData (data.drop (ccr.nch * 40 + ccr.tzlen)) rest

/-- Reading data changes no path. -/
theorem readData_paths (data : List UInt8) (entries : List (Path × RecordHead)) :
    (readData data entries).map Prod.fst = entries.map Prod.fst := by
  induction entries generalizing data with
  | nil => rfl
  | cons entry rest ih => rw [readData, List.map_cons, List.map_cons, ih]

/-- Reading data keeps the paths in order. -/
theorem readData_increasing (data : List UInt8) {entries : List (Path × RecordHead)}
    (sorted : Increasing entries) : Increasing (readData data entries) := by
  have keys : ((readData data entries).map Prod.fst).Pairwise (· < ·) := by
    rw [readData_paths]
    exact List.pairwise_map.mpr sorted
  exact List.pairwise_map.mp keys

/-- Read the cache from the cache file, if there is one. -/
def ccacheRead : Option (List UInt8) → Option Cache
  | none => some .empty
  | some file => do
    let (N, f) ← fread 4 file
    let (R, C) ← readRecs (leDec N) ⟨f, [], 0⟩ ⟨.empty, 0, 0⟩
    if R.f.length ≠ R.datalen then none
    else some {
      tree := ⟨readData R.f C.tree.entries, readData_increasing R.f C.tree.increasing⟩
      chunksusage := C.chunksusage
      trailerusage := C.trailerusage }

end Tarsnap.Ccache
