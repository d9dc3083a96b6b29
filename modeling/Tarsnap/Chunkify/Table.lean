import Tarsnap.Chunkify.SquareRoot

/-!
# The hash table of a chunk

A slot of the hash table is untouched, marked with the negated table size, or holds the byte
count at which it was last filled; no two touched slots were filled at the same count. While
the byte count stays a table size below the word size an untouched slot looks old, so the live
entries and tombstones are fewer than the slots, and both probing loops find a free slot.
-/

namespace Tarsnap.Chunkify

open Tarsnap.Lib

variable {P : Params}

/-- The byte count that marks an untouched slot, `- htlen`. -/
def Params.untouched (P : Params) : Nat := sub32 0 P.htlen

/-- Every slot is untouched or was filled at its own byte count, not after the given one. -/
structure Table (ht : Vector (Nat × Nat) P.htlen) (k : Nat) : Prop where
  /-- A slot is untouched or was filled at a byte count of this chunk. -/
  filled : ∀ slot : Fin P.htlen, (ht.get slot).1 = P.untouched ∨ 1 ≤ (ht.get slot).1 ∧
    (ht.get slot).1 ≤ k
  /-- Two slots filled at one byte count are the same. -/
  distinct : ∀ left right : Fin P.htlen, (ht.get left).1 ≠ P.untouched →
    (ht.get left).1 = (ht.get right).1 → left = right

/-- The mark of untouched slots, without wraparound. -/
theorem Params.untouched_eq (P : Params) : P.untouched = 4294967296 - P.htlen := by
  have := P.htlen_pos
  have := P.htlen_le
  unfold untouched sub32
  omega

/-- A started chunk has untouched slots only. -/
theorem chunkifyStart_get (buf : Vector UInt8 P.blen) (slot : Fin P.htlen) :
    ((chunkifyStart P buf).ht.get slot).1 = P.untouched :=
  congrArg Prod.fst (Vector.getElem_replicate slot.isLt)

/-- A started chunk has an untouched table. -/
theorem chunkifyStart_table (buf : Vector UInt8 P.blen) : Table (chunkifyStart P buf).ht 0 where
  filled slot := .inl (chunkifyStart_get buf slot)
  distinct left _ touched := absurd (chunkifyStart_get buf left) touched

/-- A table stays one as bytes are counted. -/
theorem Table.mono {ht : Vector (Nat × Nat) P.htlen} {k later : Nat} (table : Table ht k)
    (le : k ≤ later) : Table ht later where
  filled slot := (table.filled slot).imp_right fun ⟨low, high⟩ => ⟨low, high.trans le⟩
  distinct := table.distinct

/-- Reading a slot after one is written. -/
theorem get_set {α : Type} {size : Nat} (slots : Vector α size) (htpos slot : Fin size)
    (value : α) : (slots.set htpos value).get slot = if htpos = slot then value else slots.get
      slot := by
  by_cases here : htpos = slot
  · subst here
    rw [if_pos rfl]
    exact Vector.getElem_set_self htpos.isLt
  · have apart : htpos.val ≠ slot.val := fun same => here (Fin.ext same)
    rw [if_neg here]
    exact Vector.getElem_set_ne htpos.isLt slot.isLt apart

/-- Filling a slot at a new byte count keeps the counts distinct. -/
theorem Table.set {ht : Vector (Nat × Nat) P.htlen} {k : Nat} (table : Table ht k)
    (htpos : Fin P.htlen) (value : Nat) :
    Table (ht.set htpos (k + 1, value) htpos.isLt) (k + 1) where
  filled slot := by
    rw [get_set]
    split
    · exact .inr ⟨Nat.le_add_left _ _, le_refl _⟩
    · exact (table.mono (Nat.le_succ k)).filled slot
  distinct left right touched same := by
    have old : ∀ slot : Fin P.htlen, k + 1 ≠ P.untouched → (ht.get slot).1 ≠ k + 1 := by
      intro slot apart
      rcases table.filled slot with untouched | ⟨_, high⟩ <;> omega
    rw [get_set] at touched same
    rw [get_set] at same
    by_cases leftHere : htpos = left <;> by_cases rightHere : htpos = right
    · exact leftHere.symm.trans rightHere
    · rw [if_pos leftHere] at touched same
      rw [if_neg rightHere] at same
      exact absurd same.symm (old right touched)
    · rw [if_neg leftHere] at touched same
      rw [if_pos rightHere] at same
      exact absurd same (old left (by rw [same] at touched; exact touched))
    · rw [if_neg leftHere] at touched same
      rw [if_neg rightHere] at same
      exact table.distinct left right touched same

/-- The square root never exceeds a quarter of the table. -/
theorem SquareRoot.quarter {c : Chunkifier P} (root : SquareRoot c) (room : c.k ≤ P.blen) :
    2 * c.r < P.htlen := by
  obtain ⟨passes, _, size, reach⟩ := P.htlen_eq
  have large : 1 ≤ 2 ^ passes := Nat.one_le_two_pow
  have table : P.htlen = 8 * 2 ^ passes := by rw [size, pow_add]; ring
  by_contra full
  have above := root.above (by omega)
  have bound : c.r - 1 < 2 * 2 ^ passes := by
    by_contra wide
    have square : (2 * 2 ^ passes) ^ 2 ≤ (c.r - 1) ^ 2 := Nat.pow_le_pow_left (by omega) 2
    have fourth : (2 * 2 ^ passes) ^ 2 = 4 * 4 ^ passes := by
      rw [mul_pow, ← pow_mul, mul_comm passes 2, pow_mul]
      norm_num
    have := P.mu_lt_blen
    omega
  omega

/-- The age of an entry counts the bytes since it was filled. -/
theorem age_eq {c : Chunkifier P} {entry : Nat × Nat} (word : c.k < 4294967296)
    (before : entry.1 < c.k) : c.age entry = c.k - entry.1 - 1 := by
  unfold Chunkifier.age sub32
  omega

/-- While the byte count is a table size below the word size, an untouched slot is old. -/
theorem age_untouched {c : Chunkifier P} {entry : Nat × Nat} (positive : 0 < c.k)
    (low : c.k + P.htlen ≤ 4294967296) (untouched : entry.1 = P.untouched) :
    c.age entry = c.k + P.htlen - 1 := by
  have := P.htlen_pos
  unfold Chunkifier.age sub32
  rw [untouched, P.untouched_eq]
  omega

/-- A young entry was filled by a byte of this chunk, as many bytes ago as its age says. -/
theorem age_young {c : Chunkifier P} {entry : Nat × Nat} (root : SquareRoot c)
    (room : c.k ≤ P.blen) (positive : 0 < c.k) (low : c.k + P.htlen ≤ 4294967296)
    (filled : entry.1 = P.untouched ∨ 1 ≤ entry.1 ∧ entry.1 ≤ c.k - 1)
    (young : c.age entry < 2 * c.r) :
    entry.1 ≠ P.untouched ∧ entry.1 + c.age entry + 1 = c.k := by
  have quarter := root.quarter room
  have size := P.htlen_pos
  have fresh : entry.1 ≠ P.untouched := by
    intro untouched
    rw [age_untouched positive low untouched] at young
    omega
  obtain ⟨_, high⟩ := filled.resolve_left fresh
  have age : c.age entry = c.k - entry.1 - 1 := age_eq (by omega) (by omega)
  exact ⟨fresh, by omega⟩

/-- Some slot is neither live nor a tombstone. -/
theorem exists_old_slot {c : Chunkifier P} (root : SquareRoot c) (room : c.k ≤ P.blen)
    (positive : 0 < c.k) (low : c.k + P.htlen ≤ 4294967296) (table : Table c.ht (c.k - 1)) :
    ∃ slot, 2 * c.r ≤ c.age (c.ht.get slot) := by
  obtain ⟨slot, free⟩ := exists_free_slot (root.quarter room)
    (fun slot => c.age (c.ht.get slot) < 2 * c.r) (fun slot => c.age (c.ht.get slot))
    (fun _ young => young) (by
      intro left right leftYoung rightYoung same
      obtain ⟨touched, leftAge⟩ :=
        age_young root room positive low (table.filled left) leftYoung
      obtain ⟨_, rightAge⟩ := age_young root room positive low (table.filled right) rightYoung
      exact table.distinct left right touched (by omega))
  exact ⟨slot, Nat.le_of_not_lt free⟩

/-- The lookup loop ends at an old slot at the latest. -/
theorem lookup_ok {c : Chunkifier P} {old : Fin P.htlen} (free : 2 * c.r ≤ c.age (c.ht.get old)) :
    ∃ found, lookup c = .ok found := by
  have answers : (lookupTest c old).isSome := by
    unfold lookupTest
    simp only [ge_iff_le, free, if_true]
    split <;> rfl
  have covers := cyclicNext_covers P.htlen
  rw [← P.next_eq] at covers
  obtain ⟨found, probed⟩ := Option.isSome_iff_exists.mp (probe_isSome covers answers (P.slot c.yka))
  exact ⟨found, by rw [lookup, probed]⟩

/-- The insertion loop ends at an old slot at the latest. -/
theorem insert_ok {c : Chunkifier P} {old : Fin P.htlen} (free : c.r ≤ c.age (c.ht.get old))
    (queued : Nat) : ∃ htpos, probe P.next (insertTest c) P.htlen (P.slot queued) = some htpos := by
  have answers : (insertTest c old).isSome := by
    rw [insertTest, if_pos free]
    rfl
  have covers := cyclicNext_covers P.htlen
  rw [← P.next_eq] at covers
  exact Option.isSome_iff_exists.mp (probe_isSome covers answers (P.slot queued))

/-- What a chunkifier maintains between bytes. -/
structure Valid (c : Chunkifier P) : Prop where
  /-- There is room for another byte. -/
  room : c.k < P.blen
  /-- The square root fields are balanced. -/
  root : SquareRoot c
  /-- The table was filled by bytes of this chunk. -/
  table : Table c.ht c.k

/-- A started chunk is valid. -/
theorem chunkifyStart_valid (buf : Vector UInt8 P.blen) : Valid (chunkifyStart P buf) where
  room := Nat.lt_of_le_of_lt (Nat.zero_le _) P.mu_lt_blen
  root := chunkifyStart_squareRoot buf
  table := chunkifyStart_table buf

/-- Searching cannot fail while the byte count is a table size below the word size. -/
theorem searchAndQueue_ok {c : Chunkifier P} (root : SquareRoot c) (room : c.k ≤ P.blen)
    (positive : 0 < c.k) (low : c.k + P.htlen ≤ 4294967296) (table : Table c.ht (c.k - 1)) :
    ∃ out ended, searchAndQueue c = .ok (out, ended) ∧ Table out.ht c.k := by
  obtain ⟨old, free⟩ := exists_old_slot root room positive low table
  obtain ⟨found, search⟩ := lookup_ok free
  have step : c.k - 1 + 1 = c.k := Nat.sub_add_cancel positive
  cases found with
  | true => exact ⟨c, true, by rw [searchAndQueue, search]; rfl, table.mono (Nat.sub_le _ _)⟩
  | false =>
    obtain ⟨htpos, probed⟩ := insert_ok (show c.r ≤ c.age (c.ht.get old) by omega)
      (c.b.get c.queueSlot)
    refine ⟨_, false, by rw [searchAndQueue, search, ok_bind, insert, probed]; rfl, ?_⟩
    have filled := table.set htpos (c.b.get c.queueSlot)
    rwa [step] at filled

/-- Adding a byte to a valid chunkifier cannot fail when the byte fills the chunk or its count
stays a table size below the word size, and leaves a valid chunkifier or ends the chunk. -/
theorem addByte_ok {c : Chunkifier P} (valid : Valid c)
    (low : c.k + 1 < P.blen → c.k + 1 + P.htlen ≤ 4294967296) (byte : UInt8) :
    ∃ added ended, addByte c byte = .ok (added, ended) ∧ (ended = false → Valid added) := by
  obtain ⟨stored, store⟩ := storeByte_ok valid.root valid.room byte
  have root := (storeByte_squareRoot valid.root store).1
  obtain ⟨room, count, _⟩ := storeByte_bytes store
  have table : Table stored.ht c.k := by
    rw [(storeByte_frame store).1]
    exact valid.table
  by_cases full : stored.k = P.blen
  · exact ⟨stored, true, by rw [addByte, store, ok_bind, if_pos full]; rfl, by simp⟩
  · by_cases short : stored.r = 0
    · refine ⟨stored, false, by rw [addByte, store, ok_bind, if_neg full, if_pos short]; rfl, ?_⟩
      exact fun _ => ⟨by omega, root, table.mono (by omega)⟩
    · have rolledRoot : SquareRoot (roll stored byte) :=
        ⟨root.balance, root.positive, root.above⟩
      have rolledTable : Table (roll stored byte).ht ((roll stored byte).k - 1) := by
        have before : (roll stored byte).k - 1 = c.k := by
          change stored.k - 1 = c.k
          omega
        rw [before]
        exact table
      obtain ⟨out, ended, search, kept⟩ := searchAndQueue_ok rolledRoot
        (show stored.k ≤ P.blen by omega) (show 0 < stored.k by omega)
        (show stored.k + P.htlen ≤ 4294967296 by omega) rolledTable
      obtain ⟨outCount, outR, outRs, _⟩ := searchAndQueue_frame search
      refine ⟨out, ended, by rw [addByte, store, ok_bind, if_neg full, if_neg short, search], ?_⟩
      intro _
      refine ⟨?_, ⟨?_, ?_, ?_⟩, ?_⟩
      · rw [outCount]; change stored.k < P.blen; omega
      · rw [outRs, outCount, outR]; exact rolledRoot.balance
      · rw [outRs]; exact rolledRoot.positive
      · rw [outCount, outR]; exact rolledRoot.above
      · rw [outCount]; exact kept

/-- Feeding a valid chunkifier cannot fail when the longest chunk stays a table size below the
word size. -/
theorem feed_ok {c : Chunkifier P} (valid : Valid c) (low : P.blen + P.htlen ≤ 4294967297)
    (input : List UInt8) : ∃ before last, feed c input = .ok (before, last) ∧ Valid last := by
  induction input generalizing c with
  | nil => exact ⟨[], c, rfl, valid⟩
  | cons byte rest ih =>
    obtain ⟨added, ended, add, next⟩ := addByte_ok valid (by omega) byte
    cases ended with
    | false =>
      obtain ⟨before, last, fed, kept⟩ := ih (next rfl)
      exact ⟨before, last, by rw [feed_cons, add]; exact fed, kept⟩
    | true =>
      obtain ⟨before, last, fed, kept⟩ := ih (chunkifyStart_valid added.buf)
      exact ⟨added.bytes :: before, last, by rw [feed_cons, add]; simp [fed], kept⟩

end Tarsnap.Chunkify
