import Tarsnap.Chunks.Write
import Tarsnap.Chunks.Delete
import Mathlib.Algebra.BigOperators.Group.List.Basic
import Mathlib.Algebra.BigOperators.Group.Finset.Basic
import Mathlib.Data.List.Perm.Basic

/-!
# Tables that count references

An archive is the list of the hashes it references, with repeats. The number of archives that
reference a hash and the number of references with multiplicity are what a chunk record counts.
A table counts given references when its records carry these numbers modulo the word size,
mark the current tape and are listed once; this is kept by every update of one record and by
storing and reading back the directory.
-/

namespace Tarsnap.Chunks

open Tarsnap.Lib

/-- The number of archives that reference a hash. -/
def tapeRefs (archives : List (List Hash)) (hash : Hash) : Nat := archives.countP (hash ∈ ·)

/-- The number of references to a hash, counted with multiplicity. -/
def copyRefs (archives : List (List Hash)) (hash : Hash) : Nat := archives.flatten.count hash

/-- An archive references a hash when it has a copy of it. -/
theorem tapeRefs_eq_zero (archives : List (List Hash)) (hash : Hash) :
    tapeRefs archives hash = 0 ↔ hash ∉ archives.flatten := by
  rw [tapeRefs, List.countP_eq_zero]
  simp [List.mem_flatten]

/-- No archive references a hash exactly when there is no copy of it. -/
theorem copyRefs_eq_zero (archives : List (List Hash)) (hash : Hash) :
    copyRefs archives hash = 0 ↔ hash ∉ archives.flatten :=
  List.count_eq_zero

/-- A hash has at least as many copies as archives. -/
theorem tapeRefs_le_copyRefs (archives : List (List Hash)) (hash : Hash) :
    tapeRefs archives hash ≤ copyRefs archives hash := by
  induction archives with
  | nil => exact Nat.le_refl 0
  | cons tape archives ih =>
    unfold tapeRefs copyRefs at ih ⊢
    rw [List.countP_cons, List.flatten_cons, List.count_append]
    by_cases member : hash ∈ tape
    · have := List.count_pos_iff.mpr member
      simp only [member, decide_true, if_true]
      omega
    · simp only [member, decide_false, Bool.false_eq_true, if_false]
      omega

/-- Statistics of the records of a table, each with the given number of copies. -/
def tableStats (HT : Table) (copies : Hash → Nat) : ChunkStats :=
  (HT.map fun ch => ChunkStats.ofCopies ch.len ch.zlen (copies ch.hash)).sum

/-- The records of a table carry the given numbers. -/
structure Counts (HT : Table) (refs copies : Hash → Nat) (current listed : Hash → Prop) :
    Prop where
  /-- Every hash has at most one record. -/
  nodup : (HT.map (·.hash)).Nodup
  /-- The hashes with a record. -/
  listed : ∀ hash, hash ∈ HT.map (·.hash) ↔ listed hash
  /-- The records count the tapes. -/
  nrefs : ∀ ch ∈ HT, ch.nrefs = UInt32.ofNat (refs ch.hash)
  /-- The records count the copies. -/
  ncopies : ∀ ch ∈ HT, ch.ncopies = UInt32.ofNat (copies ch.hash)
  /-- The flag marks the chunks of the current tape. -/
  ctape : ∀ ch ∈ HT, ch.ctape = true ↔ current ch.hash
  /-- The records can be stored. -/
  storable : ∀ ch ∈ HT, ch.Storable

section Lookup

/-- A record that is read is in the table under its hash. -/
theorem rwhashtabRead_some {HT : Table} {hash : Hash} {ch : ChunkData}
    (found : rwhashtabRead HT hash = some ch) : ch ∈ HT ∧ ch.hash = hash := by
  have same := List.find?_some found
  exact ⟨List.mem_of_find?_eq_some found, by simpa using same⟩

/-- A hash without a record is not listed. -/
theorem rwhashtabRead_none {HT : Table} {hash : Hash} :
    rwhashtabRead HT hash = none ↔ hash ∉ HT.map (·.hash) := by
  simp [rwhashtabRead, List.find?_eq_none]

/-- In a table without repeated hashes every record is the one read for its hash. -/
theorem rwhashtabRead_of_mem {HT : Table} {ch : ChunkData} (nodup : (HT.map (·.hash)).Nodup)
    (member : ch ∈ HT) : rwhashtabRead HT ch.hash = some ch := by
  induction HT with
  | nil => cases member
  | cons first HT ih =>
    rw [List.map_cons, List.nodup_cons] at nodup
    rw [rwhashtabRead, List.find?_cons]
    rcases List.mem_cons.mp member with rfl | member
    · simp
    · have apart : first.hash ≠ ch.hash := fun same =>
        nodup.1 (same ▸ List.mem_map_of_mem member)
      simp only [apart, decide_false]
      exact ih nodup.2 member

/-- A changed record is the old one or, for the given hash, its change. -/
theorem mem_updateRecord {HT : Table} {hash : Hash} {change : ChunkData → ChunkData}
    {ch : ChunkData} : ch ∈ updateRecord HT hash change ↔
      ∃ old ∈ HT, (if old.hash = hash then change old else old) = ch :=
  List.mem_map

/-- Changes that keep the hash keep the hashes of the table. -/
theorem updateRecord_hashes {HT : Table} {hash : Hash} {change : ChunkData → ChunkData}
    (keeps : ∀ ch, (change ch).hash = ch.hash) :
    (updateRecord HT hash change).map (·.hash) = HT.map (·.hash) := by
  rw [updateRecord, List.map_map]
  apply List.map_congr_left
  intro ch _
  by_cases here : ch.hash = hash <;> simp [here, keeps]

/-- The hashes and lengths of a table's records. -/
def sizes (HT : Table) : List (Hash × UInt32 × UInt32) :=
  HT.map fun ch => (ch.hash, ch.len, ch.zlen)

/-- Changes that keep hash and lengths keep the sizes. -/
theorem sizes_update {HT : Table} {hash : Hash} {change : ChunkData → ChunkData}
    (keeps : ∀ ch, (change ch).hash = ch.hash ∧ (change ch).len = ch.len ∧
      (change ch).zlen = ch.zlen) : sizes (updateRecord HT hash change) = sizes HT := by
  rw [sizes, sizes, updateRecord, List.map_map]
  apply List.map_congr_left
  intro ch _
  obtain ⟨sameHash, sameLen, sameZlen⟩ := keeps ch
  by_cases here : ch.hash = hash
  · simp [here, sameHash, sameLen, sameZlen]
  · simp [here]

/-- In a table without repeated hashes a hash has one size. -/
theorem sizes_unique {HT : Table} (nodup : (HT.map (·.hash)).Nodup) {left right : ChunkData}
    (hl : (left.hash, left.len, left.zlen) ∈ sizes HT)
    (hr : (right.hash, right.len, right.zlen) ∈ sizes HT) (same : left.hash = right.hash) :
    left.len = right.len ∧ left.zlen = right.zlen := by
  obtain ⟨first, firstIn, firstSame⟩ := List.mem_map.mp hl
  obtain ⟨second, secondIn, secondSame⟩ := List.mem_map.mp hr
  simp only [Prod.mk.injEq] at firstSame secondSame
  obtain ⟨firstHash, firstLen, firstZlen⟩ := firstSame
  obtain ⟨secondHash, secondLen, secondZlen⟩ := secondSame
  have one := rwhashtabRead_of_mem nodup firstIn
  have two := rwhashtabRead_of_mem nodup secondIn
  rw [firstHash, same, ← secondHash, two] at one
  cases one
  exact ⟨firstLen.symm.trans secondLen, firstZlen.symm.trans secondZlen⟩

end Lookup

section Statistics

/-- Changes that keep hash and lengths keep the statistics. -/
theorem tableStats_update {HT : Table} {hash : Hash} {change : ChunkData → ChunkData}
    (keeps : ∀ ch, (change ch).hash = ch.hash ∧ (change ch).len = ch.len ∧
      (change ch).zlen = ch.zlen) (copies : Hash → Nat) :
    tableStats (updateRecord HT hash change) copies = tableStats HT copies := by
  rw [tableStats, tableStats, updateRecord, List.map_map]
  congr 1
  apply List.map_congr_left
  intro ch _
  obtain ⟨sameHash, sameLen, sameZlen⟩ := keeps ch
  by_cases here : ch.hash = hash
  · simp [here, sameHash, sameLen, sameZlen]
  · simp [here]

/-- Statistics depend only on the copies of listed hashes. -/
theorem tableStats_congr {HT : Table} {copies copies' : Hash → Nat}
    (same : ∀ ch ∈ HT, copies ch.hash = copies' ch.hash) :
    tableStats HT copies = tableStats HT copies' := by
  rw [tableStats, tableStats]
  congr 1
  apply List.map_congr_left
  intro ch member
  rw [same ch member]

/-- Changing the number of copies of one chunk changes the statistics by the difference. -/
theorem tableStats_change {HT : Table} (copies copies' : Hash → Nat) {ch : ChunkData}
    (nodup : (HT.map (·.hash)).Nodup) (member : ch ∈ HT)
    (same : ∀ hash, hash ≠ ch.hash → copies' hash = copies hash) (change : Int)
    (moved : (copies' ch.hash : Int) = copies ch.hash + change) :
    tableStats HT copies' = chunksStatsAdd (tableStats HT copies) ch.len ch.zlen change := by
  induction HT with
  | nil => cases member
  | cons first HT ih =>
    rw [List.map_cons, List.nodup_cons] at nodup
    have head : ∀ copies, tableStats (first :: HT) copies =
        ChunkStats.ofCopies first.len first.zlen (copies first.hash) + tableStats HT copies :=
      fun copies => List.sum_cons
    rw [head, head, chunksStatsAdd]
    rcases List.mem_cons.mp member with rfl | member
    · have rest : tableStats HT copies' = tableStats HT copies := by
        apply tableStats_congr
        intro other inside
        exact same _ fun equal => nodup.1 (equal ▸ List.mem_map_of_mem inside)
      rw [rest, moved, ← ChunkStats.ofCopies_add, add_right_comm]
    · have apart : first.hash ≠ ch.hash := fun equal =>
        nodup.1 (equal ▸ List.mem_map_of_mem member)
      rw [ih nodup.2 member, same _ apart, chunksStatsAdd, add_assoc]

/-- The statistics of one copy of a chunk, by its record. -/
def oneCopy (HT : Table) (hash : Hash) : ChunkStats :=
  match rwhashtabRead HT hash with
  | some ch => ChunkStats.ofCopies ch.len ch.zlen 1
  | none => 0

/-- Statistics by records are statistics by references: when the references of a list are
exactly the listed hashes, counting records with multiplicity is counting references. -/
theorem tableStats_eq_sum {HT : Table} (nodup : (HT.map (·.hash)).Nodup) (refs : List Hash)
    (listed : ∀ hash, hash ∈ HT.map (·.hash) ↔ hash ∈ refs) :
    tableStats HT (refs.count ·) = (refs.map (oneCopy HT)).sum := by
  have keys : refs.toFinset = (HT.map (·.hash)).toFinset := by
    ext hash
    rw [List.mem_toFinset, List.mem_toFinset, listed]
  rw [Finset.sum_list_map_count, keys, List.sum_toFinset _ nodup, List.map_map, tableStats]
  congr 1
  apply List.map_congr_left
  intro ch member
  simp only [Function.comp_apply, oneCopy, rwhashtabRead_of_mem nodup member]
  exact (ChunkStats.nsmul_ofCopies _ _ _).symm

end Statistics

section Update

variable {HT : Table} {refs copies refs' copies' : Hash → Nat}
  {current current' listed : Hash → Prop}

/-- Changing one record to carry new numbers, while the numbers of other hashes stay. -/
theorem Counts.update (counts : Counts HT refs copies current listed) {ch : ChunkData}
    (member : ch ∈ HT) {change : ChunkData → ChunkData}
    (keeps : ∀ ch, (change ch).hash = ch.hash ∧ (change ch).len = ch.len ∧
      (change ch).zlen = ch.zlen)
    (nrefs : (change ch).nrefs = UInt32.ofNat (refs' ch.hash))
    (ncopies : (change ch).ncopies = UInt32.ofNat (copies' ch.hash))
    (ctape : (change ch).ctape = true ↔ current' ch.hash)
    (others : ∀ hash, hash ≠ ch.hash → refs' hash = refs hash ∧ copies' hash = copies hash ∧
      (current' hash ↔ current hash)) :
    Counts (updateRecord HT ch.hash change) refs' copies' current' listed := by
  have cases_ : ∀ new ∈ updateRecord HT ch.hash change,
      new = change ch ∨ new ∈ HT ∧ new.hash ≠ ch.hash := by
    intro new inside
    obtain ⟨old, oldMember, rfl⟩ := mem_updateRecord.mp inside
    by_cases here : old.hash = ch.hash
    · have same : old = ch := by
        have first := rwhashtabRead_of_mem counts.nodup oldMember
        rw [here, rwhashtabRead_of_mem counts.nodup member] at first
        exact (Option.some.inj first).symm
      left
      rw [if_pos here, same]
    · right
      rw [if_neg here]
      exact ⟨oldMember, here⟩
  obtain ⟨hash, len, zlen⟩ := keeps ch
  refine ⟨?_, ?_, ?_, ?_, ?_, ?_⟩
  · rw [updateRecord_hashes fun ch => (keeps ch).1]
    exact counts.nodup
  · rw [updateRecord_hashes fun ch => (keeps ch).1]
    exact counts.listed
  · intro new inside
    rcases cases_ new inside with rfl | ⟨old, apart⟩
    · rw [nrefs, hash]
    · rw [counts.nrefs new old, (others _ apart).1]
  · intro new inside
    rcases cases_ new inside with rfl | ⟨old, apart⟩
    · rw [ncopies, hash]
    · rw [counts.ncopies new old, (others _ apart).2.1]
  · intro new inside
    rcases cases_ new inside with rfl | ⟨old, apart⟩
    · rw [ctape, hash]
    · rw [counts.ctape new old, (others _ apart).2.2]
  · intro new inside
    rcases cases_ new inside with rfl | ⟨old, _⟩
    · obtain ⟨lenStorable, zlenStorable, flags⟩ := counts.storable ch member
      exact ⟨by rw [len]; exact lenStorable, by rw [zlen]; exact zlenStorable,
        by rw [zlen]; exact flags⟩
    · exact counts.storable new old

/-- The numbers matter only for listed hashes. -/
theorem Counts.congr (counts : Counts HT refs copies current listed)
    (same : ∀ hash, refs' hash = refs hash ∧ copies' hash = copies hash ∧
      (current' hash ↔ current hash)) {listed' : Hash → Prop}
    (list : ∀ hash, listed' hash ↔ listed hash) : Counts HT refs' copies' current' listed' where
  nodup := counts.nodup
  listed hash := (counts.listed hash).trans (list hash).symm
  nrefs ch member := by rw [counts.nrefs ch member, (same _).1]
  ncopies ch member := by rw [counts.ncopies ch member, (same _).2.1]
  ctape ch member := (counts.ctape ch member).trans (same _).2.2.symm
  storable := counts.storable

end Update

section Reload

variable {HT : Table} {refs copies : Hash → Nat} {current listed : Hash → Prop}

/-- Adding up statistics in a loop is summing them. -/
theorem foldl_chunksStatsAdd (HT : Table) (copies : ChunkData → Int) (stats : ChunkStats) :
    HT.foldl (fun stats p => chunksStatsAdd stats p.len p.zlen (copies p)) stats =
      stats + (HT.map fun p => ChunkStats.ofCopies p.len p.zlen (copies p)).sum := by
  induction HT generalizing stats with
  | nil => simp
  | cons ch HT ih => rw [List.foldl_cons, ih, List.map_cons, List.sum_cons, chunksStatsAdd,
      add_assoc]

/-- A count below the word size is zero when its word is. -/
theorem ofNat_ne_zero {count : Nat} (bound : count < 4294967296) :
    UInt32.ofNat count ≠ 0 ↔ count ≠ 0 := by
  have value : (UInt32.ofNat count).toNat = count := by
    rw [UInt32.toNat_ofNat']
    omega
  constructor
  · rintro nonzero rfl
    exact nonzero rfl
  · intro nonzero zero
    rw [zero] at value
    exact nonzero value.symm

/-- Storing a table that counts references and reading it back yields a table that counts the
same, without the hashes that no archive references and with no current tape. -/
theorem Counts.reload (counts : Counts HT refs copies current listed)
    (bound : ∀ hash, refs hash ≤ copies hash ∧ copies hash < 4294967296) (order : SlotOrder)
    (statsExtra : ChunkStats) (mustexist : Bool) :
    ∃ loaded, chunksDirectoryRead mustexist (some (chunksDirectoryWrite order HT statsExtra)) =
        .ok loaded ∧
      Counts loaded.HT refs copies (fun _ => False) (fun hash => listed hash ∧ refs hash ≠ 0) ∧
      loaded.statsAll = tableStats loaded.HT copies ∧
      loaded.statsUnique = tableStats loaded.HT (fun _ => 1) ∧
      loaded.statsExtra = statsExtra ∧
      ∀ ch ∈ loaded.HT, (ch.hash, ch.len, ch.zlen) ∈ sizes HT := by
  obtain ⟨loaded, read, table, unique, all, extra⟩ :=
    chunksDirectoryRead_write order HT statsExtra mustexist counts.storable counts.nodup
  have perm : loaded.HT.Perm ((HT.filter (·.nrefs ≠ 0)).map ChunkData.clear) := by
    rw [table]
    exact ((order.perm HT).filter _).map _
  have members : ∀ ch ∈ loaded.HT, ∃ old ∈ HT, old.nrefs ≠ 0 ∧ ch = old.clear := by
    intro ch member
    obtain ⟨old, inside, rfl⟩ := List.mem_map.mp (perm.mem_iff.mp member)
    obtain ⟨inTable, nonzero⟩ := List.mem_filter.mp inside
    exact ⟨old, inTable, by simpa using nonzero, rfl⟩
  have hashes : (loaded.HT.map (·.hash)).Perm ((HT.filter (·.nrefs ≠ 0)).map (·.hash)) := by
    have mapped := perm.map (fun ch : ChunkData => ch.hash)
    rwa [List.map_map] at mapped
  have kept : Counts loaded.HT refs copies (fun _ => False)
      (fun hash => listed hash ∧ refs hash ≠ 0) := by
    refine ⟨?_, ?_, ?_, ?_, ?_, ?_⟩
    · exact hashes.nodup_iff.mpr (counts.nodup.sublist (List.filter_sublist.map _))
    · intro hash
      rw [hashes.mem_iff, List.mem_map, ← counts.listed hash, List.mem_map]
      constructor
      · rintro ⟨ch, inside, rfl⟩
        obtain ⟨inTable, nonzero⟩ := List.mem_filter.mp inside
        refine ⟨⟨ch, inTable, rfl⟩, ?_⟩
        rw [← ofNat_ne_zero (by have := bound ch.hash; omega), ← counts.nrefs ch inTable]
        simpa using nonzero
      · rintro ⟨⟨ch, inTable, rfl⟩, nonzero⟩
        refine ⟨ch, List.mem_filter.mpr ⟨inTable, ?_⟩, rfl⟩
        rw [← ofNat_ne_zero (by have := bound ch.hash; omega), ← counts.nrefs ch inTable] at nonzero
        simpa using nonzero
    · intro ch member
      obtain ⟨old, inTable, _, rfl⟩ := members ch member
      exact counts.nrefs old inTable
    · intro ch member
      obtain ⟨old, inTable, _, rfl⟩ := members ch member
      exact counts.ncopies old inTable
    · intro ch member
      obtain ⟨old, _, _, rfl⟩ := members ch member
      simp [ChunkData.clear]
    · intro ch member
      obtain ⟨old, inTable, _, rfl⟩ := members ch member
      obtain ⟨len, zlen, flags⟩ := counts.storable old inTable
      exact ⟨len, zlen, flags⟩
  refine ⟨loaded, read, kept, ?_, ?_, extra, ?_⟩
  · rw [all, foldl_chunksStatsAdd, zero_add, tableStats]
    congr 1
    apply List.map_congr_left
    intro ch member
    rw [kept.ncopies ch member, UInt32.toNat_ofNat', Nat.mod_eq_of_lt (bound ch.hash).2]
  · rw [unique, foldl_chunksStatsAdd, zero_add]
    rfl
  · intro ch member
    obtain ⟨old, inTable, _, rfl⟩ := members ch member
    exact List.mem_map.mpr ⟨old, inTable, rfl⟩

end Reload

end Tarsnap.Chunks
