import Tarsnap.Chunks.RefCount

/-!
# Reference counts while an archive is deleted

A delete visits every reference of one archive and takes it away again. What is left counts the
other archives, the files that are deleted are those of the chunks that none of them references, and
a directory is restored when the archive that was written over it is deleted.
-/

namespace Tarsnap.Chunks

open Tarsnap.Lib

section Delete

variable {base : Table} {rest : List (List Hash)}

/-- Tapes that use a chunk while one archive is deleted: the others, and the one being deleted
until its first reference is visited. -/
def tapesLeft (rest : List (List Hash)) (done left : List Hash) (hash : Hash) : Nat :=
  tapeRefs rest hash + if hash ∈ left ∧ hash ∉ done then 1 else 0

/-- Copies of a chunk while one archive is deleted. -/
def copiesLeft (rest : List (List Hash)) (left : List Hash) (hash : Hash) : Nat :=
  copyRefs rest hash + left.count hash

/-- What holds while an archive is deleted, with the references visited and those left. -/
structure Deleting (base : Table) (rest : List (List Hash)) (done left : List Hash)
    (C : ChunksD) : Prop where
  /-- The table counts the other archives and what is left of this one. -/
  counts : Counts C.HT (tapesLeft rest done left) (copiesLeft rest left) (· ∈ done)
    (fun hash => hash ∈ rest.flatten ∨ hash ∈ done ∨ hash ∈ left)
  /-- The total statistics count every reference left. -/
  total : C.statsTotal = tableStats C.HT (copiesLeft rest left)
  /-- The unique statistics count every chunk that a tape still uses. -/
  unique : C.statsUnique =
    tableStats C.HT (fun hash => if tapesLeft rest done left hash = 0 then 0 else 1)
  /-- Every file is deleted once. -/
  once : C.S.Nodup
  /-- The files deleted are those of the visited chunks that no other archive uses. -/
  files : ∀ hash, hash ∈ C.S ↔ hash ∈ done ∧ hash ∉ rest.flatten
  /-- The chunks keep their lengths. -/
  kept : sizes C.HT = sizes base

/-- Dereferencing keeps hash and lengths. -/
theorem dereference_keeps (ch : ChunkData) :
    ch.dereference.hash = ch.hash ∧ ch.dereference.len = ch.len ∧
      ch.dereference.zlen = ch.zlen :=
  ⟨rfl, rfl, rfl⟩

/-- Taking one from a word takes one from the count. -/
theorem ofNat_succ_sub (count : Nat) : UInt32.ofNat (count + 1) - 1 = UInt32.ofNat count := by
  rw [UInt32.ofNat_add]
  exact UInt32.add_sub_cancel _ _

/-- Visiting a reference changes nothing for the tapes that use other chunks. -/
theorem tapesLeft_cons_of_ne {done left : List Hash} {hash other : Hash} (apart : other ≠ hash) :
    tapesLeft rest (hash :: done) left other = tapesLeft rest done (hash :: left) other := by
  simp [tapesLeft, apart]

/-- Once a reference was visited, only the other tapes use the chunk. -/
theorem tapesLeft_of_mem {done left : List Hash} {hash : Hash} (visited : hash ∈ done) :
    tapesLeft rest done left hash = tapeRefs rest hash := by
  simp [tapesLeft, visited]

/-- Until its first reference is visited, the tape being deleted uses the chunk. -/
theorem tapesLeft_of_not_mem {done left : List Hash} {hash : Hash} (fresh : hash ∉ done) :
    tapesLeft rest done (hash :: left) hash = tapeRefs rest hash + 1 := by
  simp [tapesLeft, fresh]

/-- Visiting a reference changes nothing for the copies of other chunks. -/
theorem copiesLeft_cons_of_ne {left : List Hash} {hash other : Hash} (apart : other ≠ hash) :
    copiesLeft rest left other = copiesLeft rest (hash :: left) other := by
  simp [copiesLeft, Ne.symm apart]

/-- Visiting a reference takes one copy away. -/
theorem copiesLeft_cons_self (left : List Hash) (hash : Hash) :
    copiesLeft rest (hash :: left) hash = copiesLeft rest left hash + 1 := by
  simp [copiesLeft]
  omega

section Visit

variable {C : ChunksD} {done left : List Hash} {ch : ChunkData}

/-- Dereferencing a chunk keeps the table counting what is left. -/
theorem Deleting.countsAfter (deleting : Deleting base rest done (ch.hash :: left) C)
    (member : ch ∈ C.HT) : Counts (updateRecord C.HT ch.hash ChunkData.dereference)
      (tapesLeft rest (ch.hash :: done) left) (copiesLeft rest left) (· ∈ ch.hash :: done)
      (fun hash => hash ∈ rest.flatten ∨ hash ∈ done ∨ hash ∈ ch.hash :: left) := by
  have current := deleting.counts.ctape ch member
  have nrefs := deleting.counts.nrefs ch member
  apply deleting.counts.update member dereference_keeps
  · rw [tapesLeft_of_mem List.mem_cons_self]
    by_cases visited : ch.hash ∈ done
    · simp [ChunkData.dereference, current.mpr visited, nrefs, tapesLeft, visited]
    · have flag : ch.ctape = false := by
        rw [← Bool.not_eq_true, current]
        exact visited
      simp [ChunkData.dereference, flag, nrefs, tapesLeft, visited]
  · simp [ChunkData.dereference, deleting.counts.ncopies ch member, copiesLeft_cons_self]
  · simp [ChunkData.dereference]
  · intro hash apart
    exact ⟨tapesLeft_cons_of_ne apart, copiesLeft_cons_of_ne apart, by simp [apart]⟩

/-- The total statistics after a reference was visited. -/
theorem Deleting.totalAfter (deleting : Deleting base rest done (ch.hash :: left) C)
    (member : ch ∈ C.HT) : chunksStatsAdd C.statsTotal ch.len ch.zlen (-1) =
      tableStats (updateRecord C.HT ch.hash ChunkData.dereference) (copiesLeft rest left) := by
  rw [tableStats_update dereference_keeps, deleting.total]
  exact (tableStats_change _ _ deleting.counts.nodup member
    (fun _ apart => copiesLeft_cons_of_ne apart) (-1)
    (by rw [copiesLeft_cons_self]; omega)).symm

/-- The source sees that nothing uses the chunk any more exactly when this is so. -/
theorem Deleting.freed (deleting : Deleting base rest done (ch.hash :: left) C)
    (member : ch ∈ C.HT) (bound : tapeRefs rest ch.hash < 4294967295) :
    ch.ctape = false ∧ ch.nrefs - 1 = 0 ↔ ch.hash ∉ done ∧ tapeRefs rest ch.hash = 0 := by
  rw [← Bool.not_eq_true, deleting.counts.ctape ch member]
  apply and_congr_right
  intro fresh
  have one : ch.nrefs - 1 = UInt32.ofNat (tapeRefs rest ch.hash) := by
    rw [deleting.counts.nrefs ch member, tapesLeft_of_not_mem fresh, ofNat_succ_sub]
  rw [one, ← not_iff_not]
  exact ofNat_ne_zero (by omega)

/-- The unique statistics after the last use of a chunk was visited. -/
theorem Deleting.uniqueFreed (deleting : Deleting base rest done (ch.hash :: left) C)
    (member : ch ∈ C.HT) (fresh : ch.hash ∉ done) (free : tapeRefs rest ch.hash = 0) :
    chunksStatsAdd C.statsUnique ch.len ch.zlen (-1) =
      tableStats (updateRecord C.HT ch.hash ChunkData.dereference)
        (fun hash => if tapesLeft rest (ch.hash :: done) left hash = 0 then 0 else 1) := by
  rw [tableStats_update dereference_keeps, deleting.unique]
  refine (tableStats_change _ _ deleting.counts.nodup member (fun hash apart => ?_) (-1) ?_).symm
  · rw [tapesLeft_cons_of_ne apart]
  · rw [tapesLeft_of_mem List.mem_cons_self, tapesLeft_of_not_mem fresh, free]
    rfl

/-- The unique statistics are the same if the chunk was visited before or is used by others. -/
theorem Deleting.uniqueKept (deleting : Deleting base rest done (ch.hash :: left) C)
    (used : ch.hash ∉ done → tapeRefs rest ch.hash ≠ 0) :
    C.statsUnique = tableStats (updateRecord C.HT ch.hash ChunkData.dereference)
      (fun hash => if tapesLeft rest (ch.hash :: done) left hash = 0 then 0 else 1) := by
  rw [tableStats_update dereference_keeps, deleting.unique]
  congr 1
  funext hash
  by_cases here : hash = ch.hash
  · rw [here, tapesLeft_of_mem List.mem_cons_self]
    by_cases visited : ch.hash ∈ done
    · rw [tapesLeft_of_mem visited]
    · rw [tapesLeft_of_not_mem visited, if_neg (Nat.succ_ne_zero _), if_neg (used visited)]
  · rw [tapesLeft_cons_of_ne here]

/-- Visiting a reference keeps the counts and never misses the chunk. -/
theorem chunksDeleteChunk_deleting {hash : Hash}
    (deleting : Deleting base rest done (hash :: left) C)
    (bound : tapeRefs rest hash < 4294967295) :
    ∃ next, chunksDeleteChunk C hash = some next ∧
      Deleting base rest (hash :: done) left next := by
  obtain ⟨ch, member, rfl⟩ : ∃ ch ∈ C.HT, ch.hash = hash := by
    have listed := (deleting.counts.listed hash).mpr (.inr (.inr List.mem_cons_self))
    exact List.mem_map.mp listed
  have listed : ∀ hash, (hash ∈ rest.flatten ∨ hash ∈ ch.hash :: done ∨ hash ∈ left) ↔
      hash ∈ rest.flatten ∨ hash ∈ done ∨ hash ∈ ch.hash :: left := by
    intro hash
    simp only [List.mem_cons]
    tauto
  have counts := (deleting.countsAfter member).congr (fun _ => ⟨rfl, rfl, Iff.rfl⟩) listed
  have total := deleting.totalAfter member
  have kept : sizes (updateRecord C.HT ch.hash ChunkData.dereference) = sizes base :=
    (sizes_update dereference_keeps).trans deleting.kept
  have freed := deleting.freed member bound
  rw [chunksDeleteChunk, rwhashtabRead_of_mem deleting.counts.nodup member]
  by_cases last : ch.ctape = false ∧ ch.nrefs - 1 = 0
  · obtain ⟨fresh, free⟩ := freed.mp last
    refine ⟨_, if_pos last, counts, total, deleting.uniqueFreed member fresh free, ?_, ?_, kept⟩
    · rw [List.nodup_append]
      refine ⟨deleting.once, by simp, ?_⟩
      intro hash inside other single
      rw [List.mem_singleton.mp single]
      rintro rfl
      exact fresh ((deleting.files _).mp inside).1
    · intro hash
      rw [List.mem_append, List.mem_singleton, deleting.files, List.mem_cons]
      constructor
      · rintro (⟨visited, unused⟩ | rfl)
        · exact ⟨.inr visited, unused⟩
        · exact ⟨.inl rfl, (tapeRefs_eq_zero rest ch.hash).mp free⟩
      · rintro ⟨rfl | visited, unused⟩
        · exact .inr rfl
        · exact .inl ⟨visited, unused⟩
  · have used : ch.hash ∉ done → tapeRefs rest ch.hash ≠ 0 :=
      fun fresh free => last (freed.mpr ⟨fresh, free⟩)
    refine ⟨_, if_neg last, counts, total, deleting.uniqueKept used, deleting.once, ?_, kept⟩
    intro hash
    rw [deleting.files, List.mem_cons]
    constructor
    · rintro ⟨visited, unused⟩
      exact ⟨.inr visited, unused⟩
    · rintro ⟨rfl | visited, unused⟩
      · refine ⟨?_, unused⟩
        by_contra fresh
        exact used fresh ((tapeRefs_eq_zero _ _).mpr unused)
      · exact ⟨visited, unused⟩

end Visit

/-- Visiting all references keeps the counts. -/
theorem foldlM_deleting {C : ChunksD} {done left : List Hash}
    (deleting : Deleting base rest done left C)
    (bound : ∀ hash ∈ left, tapeRefs rest hash < 4294967295) :
    ∃ last, left.foldlM chunksDeleteChunk C = some last ∧
      Deleting base rest (left.reverse ++ done) [] last := by
  induction left generalizing C done with
  | nil => exact ⟨C, rfl, deleting⟩
  | cons hash left ih =>
    obtain ⟨next, step, kept⟩ :=
      chunksDeleteChunk_deleting deleting (bound hash List.mem_cons_self)
    obtain ⟨last, run, final⟩ := ih kept fun other member =>
      bound other (List.mem_cons_of_mem _ member)
    refine ⟨last, by rw [List.foldlM_cons, step]; exact run, ?_⟩
    rw [List.reverse_cons, List.append_assoc]
    exact final

end Delete

section Directories

variable {archives rest : List (List Hash)} {tape visited done : List Hash} {base : Table}
  {loaded : Loaded} {directory : Option (List UInt8)}

/-- Splitting off an archive and visiting it in any order splits the counts. -/
theorem refs_split (existing : archives.Perm (tape :: rest)) (visits : visited.Perm tape)
    (hash : Hash) : tapesLeft rest [] visited hash = tapeRefs archives hash ∧
      copiesLeft rest visited hash = copyRefs archives hash ∧
      (hash ∈ archives.flatten ↔ hash ∈ rest.flatten ∨ hash ∈ visited) := by
  refine ⟨?_, ?_, ?_⟩
  · rw [tapesLeft, tapeRefs, tapeRefs, existing.countP_eq, List.countP_cons]
    simp [visits.mem_iff]
  · rw [copiesLeft, copyRefs, copyRefs, existing.flatten.count_eq, List.flatten_cons,
      List.count_append, visits.count_eq, Nat.add_comm]
  · rw [existing.flatten.mem_iff, List.flatten_cons, List.mem_append, visits.mem_iff, or_comm]

/-- A delete transaction starts with the counts of its directory. -/
theorem Describes.deleting (describes : Describes loaded archives)
    (existing : archives.Perm (tape :: rest)) (visits : visited.Perm tape)
    (read : chunksDirectoryRead false directory = .ok loaded) {C : ChunksD}
    (start : chunksDeleteStart directory = .ok C) : Deleting loaded.HT rest [] visited C := by
  rw [chunksDeleteStart, read, ok_bind] at start
  cases start
  have split := refs_split existing visits
  refine ⟨?_, ?_, ?_, List.nodup_nil, by simp, rfl⟩
  · apply describes.counts.congr
    · exact fun hash => ⟨(split hash).1, (split hash).2.1, by simp⟩
    · intro hash
      rw [(split hash).2.2]
      simp
  · exact describes.all.trans (tableStats_congr fun ch _ => (split ch.hash).2.1.symm)
  · refine describes.unique.trans (tableStats_congr fun ch member => ?_)
    have referenced := (describes.counts.listed ch.hash).mp (List.mem_map_of_mem member)
    have used : tapesLeft rest [] visited ch.hash ≠ 0 := by
      rw [(split ch.hash).1]
      exact fun none_ => (tapeRefs_eq_zero _ _).mp none_ referenced
    rw [if_neg used]

/-- When every reference was visited, the directory that is written counts the other archives. -/
theorem Deleting.describes {last : ChunksD} (final : Deleting base rest done [] last)
    (bound : ∀ hash, copyRefs rest hash < 4294967296) (order : SlotOrder)
    (statsExtra : ChunkStats) :
    ∃ after, chunksDirectoryRead false (some (chunksDirectoryWrite order last.HT statsExtra)) =
        .ok after ∧ Describes after rest ∧ after.statsExtra = statsExtra ∧
      ∀ ch ∈ after.HT, (ch.hash, ch.len, ch.zlen) ∈ sizes base := by
  have refs : ∀ hash, tapesLeft rest done [] hash = tapeRefs rest hash := by
    simp [tapesLeft]
  have copies : ∀ hash, copiesLeft rest [] hash = copyRefs rest hash := by
    simp [copiesLeft]
  obtain ⟨after, read, counts, all, unique, extra, kept⟩ := final.counts.reload
    (fun hash => by
      rw [refs, copies]
      exact ⟨tapeRefs_le_copyRefs _ _, bound hash⟩)
    order statsExtra false
  refine ⟨after, read, ⟨?_, ?_, unique⟩, extra, ?_⟩
  · apply counts.congr
    · exact fun hash => ⟨(refs hash).symm, (copies hash).symm, Iff.rfl⟩
    · intro hash
      rw [refs]
      have used := tapeRefs_eq_zero rest hash
      simp only [List.not_mem_nil, or_false]
      tauto
  · rw [all]
    exact tableStats_congr fun ch _ => copies ch.hash
  · rw [final.kept] at kept
    exact kept

/-- Every archive that exists can be deleted, whatever order its references are visited in. -/
theorem Describes.deletes (describes : Describes loaded archives)
    (read : chunksDirectoryRead false directory = .ok loaded)
    (bound : ∀ hash, copyRefs archives hash < 4294967296)
    (existing : archives.Perm (tape :: rest)) (visits : visited.Perm tape) :
    ∃ C last, chunksDeleteStart directory = .ok C ∧ C.S = [] ∧ C.statsExtra = loaded.statsExtra ∧
      visited.foldlM chunksDeleteChunk C = some last ∧
      Deleting loaded.HT rest (visited.reverse ++ []) [] last := by
  have split := refs_split existing visits
  obtain ⟨C, start, none_, extra⟩ : ∃ C, chunksDeleteStart directory = .ok C ∧ C.S = [] ∧
      C.statsExtra = loaded.statsExtra := ⟨_, by rw [chunksDeleteStart, read]; rfl, rfl, rfl⟩
  have small : ∀ hash ∈ visited, tapeRefs rest hash < 4294967295 := by
    intro hash member
    have one : tapeRefs archives hash = tapeRefs rest hash + 1 := by
      rw [← (split hash).1]
      simp [tapesLeft, member]
    have := tapeRefs_le_copyRefs archives hash
    have := bound hash
    omega
  obtain ⟨last, run, final⟩ :=
    foldlM_deleting (describes.deleting existing visits read start) small
  exact ⟨C, last, start, none_, extra, run, final⟩

/-- The statistics with multiplicity are summed over all references. -/
theorem Describes.all_eq_sum (describes : Describes loaded archives) :
    loaded.statsAll = (archives.flatten.map (oneCopy loaded.HT)).sum :=
  describes.all.trans
    (tableStats_eq_sum describes.counts.nodup archives.flatten describes.counts.listed)

/-- The statistics without multiplicity are summed over all referenced chunks. -/
theorem Describes.unique_eq_sum (describes : Describes loaded archives) :
    loaded.statsUnique = (archives.flatten.dedup.map (oneCopy loaded.HT)).sum := by
  rw [← tableStats_eq_sum describes.counts.nodup archives.flatten.dedup fun hash => by
    rw [describes.counts.listed, List.mem_dedup]]
  refine describes.unique.trans (tableStats_congr fun ch member => ?_)
  have referenced := (describes.counts.listed ch.hash).mp (List.mem_map_of_mem member)
  exact (List.count_eq_one_of_mem (List.nodup_dedup _) (List.mem_dedup.mpr referenced)).symm

/-- Two directories that describe the same archives and agree on lengths have the same
records. -/
theorem Describes.same_records {after : Loaded} (describes : Describes loaded archives)
    (describesAfter : Describes after archives) {HT : Table} (nodup : (HT.map (·.hash)).Nodup)
    (old : ∀ ch ∈ loaded.HT, (ch.hash, ch.len, ch.zlen) ∈ sizes HT)
    (new : ∀ ch ∈ after.HT, (ch.hash, ch.len, ch.zlen) ∈ sizes HT) (hash : Hash) :
    rwhashtabRead after.HT hash = rwhashtabRead loaded.HT hash := by
  cases before : rwhashtabRead loaded.HT hash with
  | none =>
    rw [rwhashtabRead_none, describes.counts.listed] at before
    rw [rwhashtabRead_none, describesAfter.counts.listed]
    exact before
  | some ch =>
    obtain ⟨member, rfl⟩ := rwhashtabRead_some before
    obtain ⟨ch', member', same⟩ : ∃ ch' ∈ after.HT, ch'.hash = ch.hash := by
      have referenced := (describes.counts.listed ch.hash).mp (List.mem_map_of_mem member)
      exact List.mem_map.mp ((describesAfter.counts.listed ch.hash).mpr referenced)
    have equal : ch' = ch := by
      obtain ⟨len, zlen⟩ := sizes_unique nodup (new ch' member') (old ch member) same
      have flags : ch'.ctape = ch.ctape := by
        rw [Bool.eq_iff_iff, describesAfter.counts.ctape ch' member',
          describes.counts.ctape ch member]
      exact ChunkData.ext same len zlen flags
        (by rw [describesAfter.counts.nrefs ch' member', describes.counts.nrefs ch member, same])
        (by rw [describesAfter.counts.ncopies ch' member', describes.counts.ncopies ch member,
          same])
    rw [← same, rwhashtabRead_of_mem describesAfter.counts.nodup member', equal]

/-- Directories that have the same records for the same references have the same statistics. -/
theorem Describes.same_stats {after : Loaded}
    (describes : Describes loaded archives) (describesAfter : Describes after archives)
    (same : ∀ hash, rwhashtabRead after.HT hash = rwhashtabRead loaded.HT hash) :
    after.statsAll = loaded.statsAll ∧ after.statsUnique = loaded.statsUnique := by
  have copies : oneCopy after.HT = oneCopy loaded.HT := by
    funext hash
    rw [oneCopy, oneCopy, same]
  rw [describesAfter.all_eq_sum, describes.all_eq_sum, describesAfter.unique_eq_sum,
    describes.unique_eq_sum, copies]
  exact ⟨rfl, rfl⟩

end Directories

end Tarsnap.Chunks
