import Tarsnap.Lib.OpenAddressing
import Mathlib.Data.Nat.Bitwise

/-!
# The hash table

A hash table keeps pointers to records in a table whose size is a power of two, and doubles the
table before an insertion once three quarters of it are filled. Keys are hashed with a prefix that
is drawn once for each table; whatever the hash is, the first eight bytes of it say where the search
for a key starts. A search has no end of its own, so it has no result here if no slot ends it.
-/

namespace Tarsnap.Datastruct

open Tarsnap.Lib

section Table

/-- The keys of records, and the first eight bytes of the hash of a key. -/
structure Hashing (κ ρ : Type) where
  /-- The key in a record. -/
  key : ρ → κ
  /-- The number that the hash of a key starts with. -/
  hash : κ → Nat

/-- A hash table. -/
structure Rwhashtab (ρ : Type) where
  /-- Size of table. -/
  cursize : Nat
  /-- It is a power of 2. -/
  power : ∃ bits, cursize = 2 ^ bits
  /-- Number of entries. -/
  numentries : Nat
  /-- Table of records. -/
  ht : Fin cursize → Option ρ

variable {κ ρ : Type}

/-- The largest size. -/
def SIZE_MAX : Nat := 18446744073709551615

/-- A table is not empty. -/
theorem Rwhashtab.positive (H : Rwhashtab ρ) : 0 < H.cursize := by
  obtain ⟨bits, power⟩ := H.power
  rw [power]
  exact Nat.two_pow_pos bits

/-- A slot by the low bits of a number. -/
def maskSlot {size : Nat} (positive : 0 < size) (value : Nat) : Fin size :=
  ⟨value &&& (size - 1), Nat.lt_of_le_of_lt Nat.and_le_right (Nat.sub_lt positive Nat.one_pos)⟩

/-- Where the search for a key starts and how it goes on. -/
def addressing (S : Hashing κ ρ) {size : Nat} (positive : 0 < size) :
    Addressing (Fin size) κ ρ where
  next htpos := maskSlot positive (htpos.val + 1)
  home key := maskSlot positive (S.hash key)
  key := S.key

variable [DecidableEq κ] (S : Hashing κ ρ)

/-- Search for a record; each of the slots is visited at most once before the search would repeat
itself. -/
def rwhashtabSearch {size : Nat} (positive : 0 < size) (ht : Fin size → Option ρ) (key : κ) :
    Option (Fin size) :=
  (addressing S positive).search size ht key

/-- Create an empty table. -/
def rwhashtabInit : Rwhashtab ρ := ⟨4, ⟨2, rfl⟩, 0, fun _ => none⟩

/-- The number of entries in a table. -/
def rwhashtabGetsize (H : Rwhashtab ρ) : Nat := H.numentries

/-- Copy what is in one slot of the old table into the new one. -/
def rehash {oldsize newsize : Nat} (positive : 0 < newsize) (htold : Fin oldsize → Option ρ)
    (ht : Fin newsize → Option ρ) (htposold : Fin oldsize) : Option (Fin newsize → Option ρ) :=
  match htold htposold with
  | none => some ht
  | some rec =>
    (rwhashtabSearch S positive ht (S.key rec)).map fun htposnew =>
      Function.update ht htposnew (some rec)

/-- Twice a power of two is one. -/
theorem power_double {size : Nat} (power : ∃ bits, size = 2 ^ bits) :
    ∃ bits, size * 2 = 2 ^ bits := by
  obtain ⟨bits, rfl⟩ := power
  exact ⟨bits + 1, (pow_succ 2 bits).symm⟩

/-- Enlarge a table by a factor of 2, and rehash. -/
def rwhashtabEnlarge (H : Rwhashtab ρ) (malloc : Bool) : Option (Int × Rwhashtab ρ) :=
  if SIZE_MAX / 8 < H.cursize * 2 then some (-1, H)
  else if malloc = false then some (-1, H)
  else
    ((List.finRange H.cursize).foldlM (rehash S (Nat.mul_pos H.positive Nat.two_pos) H.ht)
      fun _ => none).map fun ht =>
        (0, ⟨H.cursize * 2, power_double H.power, H.numentries, ht⟩)

/-- Put a record where the search for its key ends, unless there is one already. -/
def insertFound (H : Rwhashtab ρ) (rec : ρ) : Option (Int × Rwhashtab ρ) :=
  (rwhashtabSearch S H.positive H.ht (S.key rec)).map fun htpos =>
    if (H.ht htpos).isSome then (1, H)
    else (0, { H with
      ht := Function.update H.ht htpos (some rec), numentries := H.numentries + 1 })

/-- A table has to be enlarged before an insertion. -/
def Rwhashtab.full (H : Rwhashtab ρ) : Prop :=
  H.cursize - H.cursize >>> 2 ≤ H.numentries

instance (H : Rwhashtab ρ) : Decidable H.full := inferInstanceAs (Decidable (_ ≤ _))

/-- Insert a record. -/
def rwhashtabInsert (H : Rwhashtab ρ) (rec : ρ) (malloc : Bool) : Option (Int × Rwhashtab ρ) :=
  if H.full then
    (rwhashtabEnlarge S H malloc).bind fun enlarged =>
      if enlarged.1 ≠ 0 then some enlarged else insertFound S enlarged.2 rec
  else insertFound S H rec

/-- The record with a key, if there is one. -/
def rwhashtabRead (H : Rwhashtab ρ) (key : κ) : Option (Option ρ) :=
  (rwhashtabSearch S H.positive H.ht key).map H.ht

/-- Call a function on records, until it returns something other than zero. -/
def foreachSlot {σ : Type} {size : Nat} (func : σ → ρ → Int × σ) (ht : Fin size → Option ρ) :
    List (Fin size) → σ → Int × σ
  | [], cookie => (0, cookie)
  | htpos :: later, cookie =>
    match ht htpos with
    | none => foreachSlot func ht later cookie
    | some rec =>
      if (func cookie rec).1 ≠ 0 then func cookie rec
      else foreachSlot func ht later (func cookie rec).2

/-- Call a function on each record of a table. -/
def rwhashtabForeach {σ : Type} (H : Rwhashtab ρ) (func : σ → ρ → Int × σ) (cookie : σ) :
    Int × σ :=
  foreachSlot func H.ht (List.finRange H.cursize) cookie

end Table

end Tarsnap.Datastruct
