import Tarsnap.Ccache.Cache

/-!
# Writing the chunkification cache

The file starts with the number of records. A record gives its path as the length of the prefix it
shares with the path written before it, and the rest. The chunk headers and trailers of all records
follow in the same order. Records that are not worth keeping are left out everywhere.
-/

namespace Tarsnap.Ccache

open Tarsnap.Lib Tarsnap.Chunks Tarsnap.Multitape

/-- The 64-bit word of a signed integer. -/
def word64 (value : Int) : Nat := (value % 18446744073709551616).toNat

/-- The 32-bit word of a signed integer. -/
def word32 (value : Int) : Nat := (value % 4294967296).toNat

/-- Should we skip this record? -/
def skiprecord (ccr : CcacheRecord) : Bool :=
  (ccr.nch = 0 ∧ ccr.tlen = 0) ∨ ccr.age > MAXAGE ∨ ccr.mtime < 0

/-- The on-disk data structure, of 52 bytes. -/
def recordExternal (ccr : CcacheRecord) (plen suffixlen : Nat) : List UInt8 :=
  leEnc 8 ccr.ino ++ (leEnc 8 (word64 ccr.size) ++ (leEnc 8 (word64 ccr.mtime) ++
    (leEnc 8 ccr.nch ++ (leEnc 4 ccr.tlen ++ (leEnc 4 ccr.tzlen ++ (leEnc 4 plen ++
      (leEnc 4 suffixlen ++ leEnc 4 (word32 (ccr.age + 1)))))))))

/-- Figure out how much prefix is shared with the contents of the last-path buffer. -/
def sharedPrefix : List UInt8 → List UInt8 → Nat
  | byte :: s, other :: sbuf => if byte ≠ other then 0 else sharedPrefix s sbuf + 1
  | _, _ => 0

/-- The last-path buffer and the file being written. -/
structure CcacheWrite where
  /-- Contents of the last-path buffer, as long as the buffer. -/
  sbuf : List UInt8
  /-- The file so far. -/
  f : List UInt8

/-- Enlarge the last-path buffer if needed, and copy the path that was written into it. -/
def rememberPath (sbuf s : List UInt8) (plen : Nat) : List UInt8 :=
  if sbuf.length < s.length + 1 then s ++ [0]
  else sbuf.take plen ++ s.drop plen ++ [0] ++ sbuf.drop (s.length + 1)

/-- Write a record and path suffix; an empty suffix cannot be written. -/
def callbackWriteRec (W : CcacheWrite) (path : Path) (ccr : CcacheRecord) : Option CcacheWrite :=
  let s := path.bytes
  if skiprecord ccr then some W
  else if ¬(s.length ≤ 4294967295 ∧ 0 ≤ ccr.size) then none
  else
    let plen := sharedPrefix s W.sbuf
    if s.length - plen = 0 then none
    else some {
      sbuf := rememberPath W.sbuf s plen
      f := W.f ++ recordExternal ccr plen (s.length - plen) ++ s.drop plen }

/-- The chunk headers and the compressed trailer of a record. -/
def recordData (ccr : CcacheRecord) : List UInt8 :=
  ccr.chp.flatMap ChunkHeader.encode ++ ccr.ztrailer

/-- Write chunk headers and compressed trailer. -/
def callbackWriteData (f : List UInt8) (ccr : CcacheRecord) : List UInt8 :=
  if skiprecord ccr then f else f ++ recordData ccr

/-- The contents of the cache file; its length is an `off_t`. -/
def ccacheWrite (C : Cache) : Option (List UInt8) := do
  let N := C.tree.entries.countP fun entry => !skiprecord entry.2
  if 4294967295 < N then none
  else do
    let W ← C.tree.entries.foldlM (fun W entry => callbackWriteRec W entry.1 entry.2)
      ⟨[], leEnc 4 N⟩
    let f := C.tree.entries.foldl (fun f entry => callbackWriteData f entry.2) W.f
    if 9223372036854775807 < f.length then none else some f

end Tarsnap.Ccache
