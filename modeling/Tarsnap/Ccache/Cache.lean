import Tarsnap.Lib.SortedMap
import Tarsnap.Multitape.Format
import Mathlib.Data.List.Lex

/-!
# The chunkification cache

The cache maps absolute paths to records. A record holds the `lstat` data of a file, the chunks
that its archive entry was stored as, and perhaps the bytes after the last chunk, compressed. The
tree visits the paths in lexicographical order.
-/

namespace Tarsnap.Ccache

open Tarsnap.Lib Tarsnap.Chunks Tarsnap.Multitape

/-- Maximum number of times that the cache is written without accessing a record before the record
is removed from it. -/
def MAXAGE : Int := 10

/-- A path, as a key of the tree. -/
@[ext] structure Path where
  /-- The bytes of the path, without a final NUL. -/
  bytes : List UInt8
deriving DecidableEq

/-- The bytes of a path by their values. -/
def Path.values (path : Path) : List Nat := path.bytes.map UInt8.toNat

/-- The values determine the path. -/
theorem Path.values_injective : Function.Injective Path.values := by
  intro left right same
  exact Path.ext (List.map_injective_iff.mpr (fun _ _ => UInt8.toNat_inj.mp) same)

/-- Paths are in lexicographical order. -/
instance : LinearOrder Path := LinearOrder.lift' Path.values Path.values_injective

/-- A record of the cache. -/
@[ext] structure CcacheRecord where
  /-- Inode number. -/
  ino : Nat
  /-- File size. -/
  size : Int
  /-- Modification time, seconds since the epoch. -/
  mtime : Int
  /-- The chunks. -/
  chp : List ChunkHeader
  /-- Length of the trailer, the data after the chunks. -/
  tlen : Nat
  /-- The deflated trailer. -/
  ztrailer : List UInt8
  /-- Age of the record in read and write cycles. -/
  age : Int
  /-- The deflated trailer was allocated by a callback. -/
  ztrailerMalloc : Bool
deriving DecidableEq

/-- Number of chunks. -/
def CcacheRecord.nch (ccr : CcacheRecord) : Nat := ccr.chp.length

/-- Length of the deflated trailer. -/
def CcacheRecord.tzlen (ccr : CcacheRecord) : Nat := ccr.ztrailer.length

/-- The cache. -/
structure Cache where
  /-- Tree of records. -/
  tree : SortedMap Path CcacheRecord
  /-- Memory used by chunks. -/
  chunksusage : Nat
  /-- Memory used by trailers. -/
  trailerusage : Nat

/-- The cache when there is nothing on disk. -/
def Cache.empty : Cache := ⟨.empty, 0, 0⟩

end Tarsnap.Ccache
