import Mathlib.Data.List.Infix
import Tarsnap.Storage.ReadCache

/-!
# What the cache of files is for

The cache is a queue of files, from the most to the least recently named one, with the data of some
of them. A file that is named moves to the front. Before that the queue is cut to its longest front
part whose data is within the limit. Data that is read of a file in the queue is kept, and a read of
a file whose data is kept asks nobody.
-/

namespace Tarsnap.Storage

open Tarsnap.Netpacket

section Keep

variable {ι : Type} {length length' : ι → Nat} {limit : Nat} {queue before front : List ι}
  {last : ι}

/-- The longest front part of a queue that is within a limit. -/
def keep (length : ι → Nat) : Nat → List ι → List ι
  | _, [] => []
  | limit, first :: rest =>
    if length first ≤ limit then first :: keep length (limit - length first) rest else []

/-- It is a front part. -/
theorem keep_front : keep length limit queue <+: queue := by
  induction queue generalizing limit with
  | nil => exact List.prefix_rfl
  | cons first rest ih =>
    rw [keep]
    split
    · exact List.prefix_cons_inj _ |>.mpr ih
    · exact List.nil_prefix

/-- It is within the limit. -/
theorem keep_within : ((keep length limit queue).map length).sum ≤ limit := by
  induction queue generalizing limit with
  | nil => exact Nat.zero_le _
  | cons first rest ih =>
    rw [keep]
    split
    · rename_i fits
      have within := @ih (limit - length first)
      rw [List.map_cons, List.sum_cons]
      omega
    · exact Nat.zero_le _

/-- No longer front part is within the limit. -/
theorem keep_longest (short : front <+: queue) (within : (front.map length).sum ≤ limit) :
    front <+: keep length limit queue := by
  induction queue generalizing limit front with
  | nil =>
    rw [List.prefix_nil.mp short]
    exact List.nil_prefix
  | cons first rest ih =>
    cases front with
    | nil => exact List.nil_prefix
    | cons head tail =>
      obtain ⟨rfl, shorter⟩ := List.cons_prefix_cons.mp short
      rw [List.map_cons, List.sum_cons] at within
      rw [keep, if_pos (by omega)]
      exact (List.prefix_cons_inj _).mpr (ih shorter (by omega))

/-- A front part within the limit that no longer one is, is the one that is kept. -/
theorem keep_eq (short : front <+: queue) (within : (front.map length).sum ≤ limit)
    (longest : ∀ other, other <+: queue → (other.map length).sum ≤ limit → other <+: front) :
    keep length limit queue = front := by
  have shorter := longest _ keep_front keep_within
  exact shorter.eq_of_length_le (keep_longest short within).length_le

/-- A queue within the limit is kept. -/
theorem keep_self (within : (queue.map length).sum ≤ limit) : keep length limit queue = queue :=
  keep_eq List.prefix_rfl within fun _ short _ => short

/-- Of a queue over the limit the last file is not kept. -/
theorem keep_concat (outside : limit < ((before ++ [last]).map length).sum) :
    keep length limit (before ++ [last]) = keep length limit before := by
  refine keep_eq (keep_front.trans (List.prefix_append _ _)) keep_within fun other short
    within => ?_
  refine keep_longest ?_ within
  rcases List.prefix_concat_iff.mp short with rfl | short
  · omega
  · exact short

/-- Only the lengths of the files in the queue matter. -/
theorem keep_congr (same : ∀ one ∈ queue, length' one = length one) :
    keep length' limit queue = keep length limit queue := by
  induction queue generalizing limit with
  | nil => rfl
  | cons first rest ih =>
    rw [keep, keep, same first List.mem_cons_self,
      ih fun one member => same one (List.mem_cons_of_mem _ member)]

end Keep

/-- What a read gives without a cache. -/
def uncached (K : Keys) (decrypt : List UInt8 → Decrypted) (C : ReadRequest) (malloc : Bool)
    (reply : Reply) : ReadStatus :=
  (storageReadFileCallback K decrypt storageReadCacheInit C malloc false reply).1

/-- The queue of files and what is kept of them. -/
structure Lru where
  /-- The files, from the most to the least recently named one. -/
  queue : List ClassName
  /-- The data that is kept. -/
  data : ClassName → Option (List UInt8)
  /-- Whether a file was ever named. -/
  named : ClassName → Bool
  /-- Limit. -/
  limit : Nat

namespace Lru

/-- Nothing is named. -/
def empty : Lru := ⟨[], fun _ => none, fun _ => false, sizeModulus - 1⟩

/-- The length of what is kept of a file. -/
def length (L : Lru) (classname : ClassName) : Nat := (L.data classname).elim 0 List.length

/-- The length of all that is kept. -/
def size (L : Lru) : Nat := (L.queue.map L.length).sum

/-- Keep only the front part of the queue that is within the limit. -/
def prune (L : Lru) : Lru :=
  let queue := keep L.length L.limit L.queue
  { L with
    queue
    data := fun classname => if classname ∈ queue then L.data classname else none }

/-- Prune, and put a file at the front. For one that was never named memory is needed. -/
def addName (L : Lru) (classname : ClassName) (granted : Bool) : Lru × Bool :=
  if L.named classname ∨ granted then
    ({ L.prune with
      queue := classname :: L.prune.queue.erase classname
      named := Function.update L.named classname true }, true)
  else (L.prune, false)

/-- A file that was named, or for which there is memory, comes to the front. -/
theorem addName_front {L : Lru} {classname : ClassName} {granted : Bool}
    (known : L.prune.named classname = true ∨ granted = true) :
    L.addName classname granted = ({ L.prune with
      queue := classname :: L.prune.queue.erase classname
      named := Function.update L.prune.named classname true }, true) := if_pos known

/-- Without memory a file that was never named is not added. -/
theorem addName_refused {L : Lru} {classname : ClassName}
    (unknown : L.prune.named classname = false) : L.addName classname false = (L.prune, false) := by
  have refused : ¬(L.named classname = true ∨ false = true) := by
    rintro (known | absurdity)
    · exact absurd (known.symm.trans unknown) (by decide)
    · cases absurdity
  exact if_neg refused

/-- Keep the data of a file in the queue, if there is none yet and there is memory for it. -/
def addData (L : Lru) (classname : ClassName) (buf : List UInt8) (granted : Bool) : Lru :=
  if classname ∈ L.queue ∧ L.data classname = none ∧ granted ∧
      L.size + buf.length < sizeModulus then
    { L with data := Function.update L.data classname (some buf) }
  else L

variable (K : Keys) (decrypt : List UInt8 → Decrypted)

/-- Ask the server, and keep what it sends. -/
def fetch (L : Lru) (C : ReadRequest) (malloc granted : Bool) (reply : Reply) :
    ReadStatus × Lru :=
  (uncached K decrypt C malloc reply, (uncached K decrypt C malloc reply).2.elim L fun buf =>
    L.addData (C.cls, C.name) buf granted)

/-- What a call does. -/
def step (L : Lru) : ReadCall → ReadStatus × Lru
  | .addName classname granted =>
    ((if (L.addName classname granted).2 then 0 else -1, none), (L.addName classname granted).1)
  | .setLimit size => ((0, none), { L with limit := size })
  | .read classname buflen granted reply =>
    match L.data classname with
    | some buf => (if buflen = buf.length then (0, some buf) else (2, none), L)
    | none => L.fetch K decrypt ⟨classname.1, classname.2, some buflen⟩ true granted reply
  | .readAlloc classname malloc granted reply =>
    match L.data classname with
    | some buf => (if malloc then (0, some buf) else (-1, none), L)
    | none => L.fetch K decrypt ⟨classname.1, classname.2, none⟩ malloc granted reply
  | .readCallback C malloc granted reply => L.fetch K decrypt C malloc granted reply

/-- What calls do one after the other. -/
def runs (L : Lru) : List ReadCall → List ReadStatus × Lru
  | [] => ([], L)
  | call :: calls =>
    ((L.step K decrypt call).1 :: (runs (L.step K decrypt call).2 calls).1,
      (runs (L.step K decrypt call).2 calls).2)

end Lru

end Tarsnap.Storage
