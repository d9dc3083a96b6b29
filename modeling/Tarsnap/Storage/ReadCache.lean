import Tarsnap.Lib.DoublyLinked
import Tarsnap.Storage.Responses

/-!
# The cache of files that are read

Files that will be read again are named to the cache. Its table has an entry for each of them, and a
doubly linked list holds the entries from the most to the least recently used one. Data that is read
is copied into the entry of the file. When the cache is over its limit, entries at the end of the
list are taken out and their data is freed; they stay in the table.
-/

namespace Tarsnap.Storage

open Tarsnap.Lib Tarsnap.Netpacket

/-- The class and the name of a file. An entry is found by them, and they stand for its address. -/
abbrev ClassName := UInt8 × Bytes32

/-- An entry of the cache. -/
structure ReadFileCached where
  /-- The data, if it is cached. -/
  buf : Option (List UInt8)
  /-- Length of the data. -/
  buflen : Nat
  /-- Less recently used. -/
  nextLru : Option ClassName
  /-- More recently used. -/
  nextMru : Option ClassName
  /-- Whether the entry is in the queue. -/
  inqueue : Bool
deriving DecidableEq

/-- The cache, and what of the address space it holds. -/
structure StorageReadCache where
  /-- Hash table of entries. -/
  ht : ClassName → Option ReadFileCached
  /-- Most recently used. -/
  mru : Option ClassName
  /-- Least recently used entry that is not evicted. -/
  lru : Option ClassName
  /-- Length of the cached data. -/
  sz : Nat
  /-- Limit. -/
  maxsz : Nat
  /-- Bytes of buffers that are allocated. -/
  held : Nat

/-- Number of values of a size. -/
def sizeModulus : Nat := 18446744073709551616

/-- An empty cache. -/
def storageReadCacheInit : StorageReadCache := ⟨fun _ => none, none, none, 0, sizeModulus - 1, 0⟩

namespace StorageReadCache

/-- Write to an entry through a pointer, which must point to one. -/
def write (cache : StorageReadCache) (CF : ClassName) (change : ReadFileCached → ReadFileCached) :
    Option StorageReadCache :=
  (cache.ht CF).map fun entry =>
    { cache with ht := Function.update cache.ht CF (some (change entry)) }

/-- Set what is less recently used than an entry, or what is most recently used. -/
def setNextLru (cache : StorageReadCache) (mru value : Option ClassName) :
    Option StorageReadCache :=
  match mru with
  | some mru => cache.write mru fun other => { other with nextLru := value }
  | none => some { cache with mru := value }

/-- Set what is more recently used than an entry, or what is least recently used. -/
def setNextMru (cache : StorageReadCache) (lru value : Option ClassName) :
    Option StorageReadCache :=
  match lru with
  | some lru => cache.write lru fun other => { other with nextMru := value }
  | none => some { cache with lru := value }

/-- Make an entry more recently used than another one, if there is one. -/
def linkMru (cache : StorageReadCache) (lru : Option ClassName) (CF : ClassName) :
    Option StorageReadCache :=
  match lru with
  | some lru => cache.write lru fun other => { other with nextMru := some CF }
  | none => some cache

/-- Allocate a buffer: memory is granted only as long as the address space has room. -/
def malloc (cache : StorageReadCache) (size : Nat) (granted : Bool) : Option StorageReadCache :=
  if granted ∧ cache.held + size < sizeModulus then some { cache with held := cache.held + size }
  else none

end StorageReadCache

/-- Remove an entry from its current position in the queue. -/
def cacheLruRemove (cache : StorageReadCache) (CF : ClassName) : Option StorageReadCache := do
  let entry ← cache.ht CF
  -- Sanity check: We should be in the queue.
  if entry.inqueue = false then none
  else
    let cache ← cache.setNextLru entry.nextMru entry.nextLru
    let entry ← cache.ht CF
    let cache ← cache.setNextMru entry.nextLru entry.nextMru
    let cache ← cache.write CF fun entry => { entry with inqueue := false }
    let entry ← cache.ht CF
    let cache := { cache with sz := (cache.sz + (sizeModulus - entry.buflen)) % sizeModulus }
    cache.write CF fun entry => { entry with nextMru := none, nextLru := none }

/-- Record an entry as the most recently used one. -/
def cacheLruAdd (cache : StorageReadCache) (CF : ClassName) : Option StorageReadCache := do
  let entry ← cache.ht CF
  -- Sanity check: We should not be in the queue yet.
  if entry.inqueue then none
  else
    let cache ← cache.write CF fun entry => { entry with nextMru := none, nextLru := cache.mru }
    let entry ← cache.ht CF
    let cache ← cache.linkMru entry.nextLru CF
    let cache := if cache.lru = none then { cache with lru := some CF } else cache
    let cache := { cache with mru := some CF }
    let cache ← cache.write CF fun entry => { entry with inqueue := true }
    let entry ← cache.ht CF
    return { cache with sz := (cache.sz + entry.buflen) % sizeModulus }

/-- Prune the cache down to size, in as many rounds as there is fuel for. -/
def cachePrune : Nat → StorageReadCache → Option StorageReadCache
  | fuel, cache =>
    if cache.sz ≤ cache.maxsz then some cache
    else
      match fuel with
      | 0 => none
      | fuel + 1 => do
        let CF ← cache.lru
        let cache ← cacheLruRemove cache CF
        let entry ← cache.ht CF
        let cache := { cache with held := cache.held - entry.buf.elim 0 List.length }
        let cache ← cache.write CF fun entry => { entry with buf := none, buflen := 0 }
        cachePrune fuel cache

/-- Name a file to the cache. No data is stored yet. The result says whether memory was allocated
for a new entry. -/
def storageReadCacheAddName (fuel : Nat) (cache : StorageReadCache) (classname : ClassName)
    (granted : Bool) : Option (StorageReadCache × Bool) := do
  let cache ← cachePrune fuel cache
  match cache.ht classname with
  | some entry =>
    let cache ← if entry.inqueue then cacheLruRemove cache classname else some cache
    return (← cacheLruAdd cache classname, true)
  | none =>
    if granted = false then return (cache, false)
    else
      let entry : ReadFileCached := ⟨none, 0, none, none, false⟩
      let cache := { cache with ht := Function.update cache.ht classname (some entry) }
      return (← cacheLruAdd cache classname, true)

/-- Set a limit on the cache. -/
def storageReadCacheSetLimit (cache : StorageReadCache) (size : Nat) : StorageReadCache :=
  { cache with maxsz := size }

/-- Add data to the cache if the file has been named to it. -/
def storageReadCacheAddData (cache : StorageReadCache) (classname : ClassName) (buf : List UInt8)
    (granted : Bool) : StorageReadCache :=
  match cache.ht classname with
  | none => cache
  | some entry =>
    if entry.inqueue = false then cache
    else if entry.buf.isSome then cache
    else
      match cache.malloc buf.length granted with
      | none => cache
      | some cache =>
        { cache with
          ht := Function.update cache.ht classname
            (some { entry with buf := some buf, buflen := buf.length })
          sz := (cache.sz + buf.length) % sizeModulus }

/-- Look for a file in the cache: its data and its length. -/
def storageReadCacheFind (cache : StorageReadCache) (classname : ClassName) :
    Option (List UInt8) × Nat :=
  match cache.ht classname with
  | some entry => (entry.buf, entry.buflen)
  | none => (none, 0)

/-- What a read gives: a status and, if that is zero, the contents of the file. -/
abbrev ReadStatus : Type := Int × Option (List UInt8)

/-- What becomes of a request to read a file. -/
structure Reply where
  /-- Whether the request could be sent and a packet was received. -/
  statusOk : Bool
  /-- Type of the packet. -/
  packettype : UInt8
  /-- The packet. -/
  packetbuf : List UInt8

section Reads

variable (K : Keys) (decrypt : List UInt8 → Decrypted)

/-- Handle the response to reading a file. Without a buffer one is allocated before the file is
decrypted, unless there is no memory for it. -/
def readFileResponse (C : ReadRequest) (malloc : Bool) (reply : Reply) : Except Reject Response :=
  callbackReadFileResponse K reply.statusOk reply.packettype reply.packetbuf
    (if C.buflen = none ∧ malloc = false then fun _ => .error else decrypt) C

/-- Ask the server for a file, and add what it sends to the cache. -/
def storageReadFileCallback (cache : StorageReadCache) (C : ReadRequest) (malloc granted : Bool)
    (reply : Reply) : ReadStatus × StorageReadCache :=
  -- Sanity-check file size if a buffer was provided.
  if C.buflen.any (262144 - STORAGE_FILE_OVERHEAD < ·) then ((-1, none), cache)
  else
    match readFileResponse K decrypt C malloc reply with
    | .ok (.file sc (some buf)) =>
      ((sc, some buf), storageReadCacheAddData cache (C.cls, C.name) buf granted)
    | .ok (.file sc none) => ((sc, none), cache)
    | _ => ((-1, none), cache)

/-- Read a file into a buffer. -/
def storageReadFile (cache : StorageReadCache) (classname : ClassName) (buflen : Nat)
    (granted : Bool) (reply : Reply) : ReadStatus × StorageReadCache :=
  match storageReadCacheFind cache classname with
  | (some cachedBuf, cachedBuflen) =>
    if buflen ≠ cachedBuflen then ((2, none), cache)
    else ((0, some (cachedBuf.take buflen)), cache)
  | (none, _) =>
    storageReadFileCallback K decrypt cache ⟨classname.1, classname.2, some buflen⟩ true granted
      reply

/-- Allocate a buffer and read a file into it. -/
def storageReadFileAlloc (cache : StorageReadCache) (classname : ClassName)
    (malloc granted : Bool) (reply : Reply) : ReadStatus × StorageReadCache :=
  match storageReadCacheFind cache classname with
  | (some cachedBuf, cachedBuflen) =>
    if malloc = false then ((-1, none), cache)
    else ((0, some (cachedBuf.take cachedBuflen)), cache)
  | (none, _) =>
    storageReadFileCallback K decrypt cache ⟨classname.1, classname.2, none⟩ malloc granted reply

/-- The calls that use the cache. The flags say whether memory is granted for a result and for the
cache, and the reply is what a request to the server gets, if one is made. -/
inductive ReadCall where
  /-- Name a file to the cache. -/
  | addName (classname : ClassName) (granted : Bool)
  /-- Set a limit on the cache. -/
  | setLimit (size : Nat)
  /-- Read a file into a buffer. -/
  | read (classname : ClassName) (buflen : Nat) (granted : Bool) (reply : Reply)
  /-- Allocate a buffer and read a file into it. -/
  | readAlloc (classname : ClassName) (malloc granted : Bool) (reply : Reply)
  /-- Read a file without looking for it in the cache. -/
  | readCallback (C : ReadRequest) (malloc granted : Bool) (reply : Reply)

/-- What a call gives, if it does not fail an assertion. -/
def ReadCall.run (fuel : Nat) (cache : StorageReadCache) :
    ReadCall → Option (ReadStatus × StorageReadCache)
  | .addName classname granted => do
    let (cache, added) ← storageReadCacheAddName fuel cache classname granted
    return ((if added then 0 else -1, none), cache)
  | .setLimit size => some ((0, none), storageReadCacheSetLimit cache size)
  | .read classname buflen granted reply =>
    some (storageReadFile K decrypt cache classname buflen granted reply)
  | .readAlloc classname malloc granted reply =>
    some (storageReadFileAlloc K decrypt cache classname malloc granted reply)
  | .readCallback C malloc granted reply =>
    some (storageReadFileCallback K decrypt cache C malloc granted reply)

/-- What calls give one after the other. -/
def ReadCall.runs (fuel : Nat) (cache : StorageReadCache) :
    List ReadCall → Option (List ReadStatus × StorageReadCache)
  | [] => some ([], cache)
  | call :: calls => do
    let (result, cache) ← call.run K decrypt fuel cache
    let (results, cache) ← runs fuel cache calls
    return (result :: results, cache)

end Reads

end Tarsnap.Storage
