import Tarsnap.Datastruct.Rwhashtab

/-!
# The hash table is a finite map

Whatever the hash function is, and whichever allocations fail, at most three quarters of the table
are filled, so that each search ends; this also holds for the searches of a table that is being
rehashed. A record that is inserted is found from then on, the first one if several have the same
key.
-/

namespace Tarsnap.Datastruct

open Tarsnap.Lib

section Searches

variable {κ ρ : Type} [DecidableEq κ] {S : Hashing κ ρ}

omit [DecidableEq κ] in
/-- A search visits each slot of a table. -/
theorem addressing_covers (S : Hashing κ ρ) {size : Nat} (positive : 0 < size)
    (power : ∃ bits, size = 2 ^ bits) : Covers (addressing S positive).next size := by
  have cyclic : (addressing S positive).next = cyclicNext := by
    funext slot
    apply Fin.ext
    obtain ⟨bits, rfl⟩ := power
    exact Nat.and_two_pow_sub_one_eq_mod _ bits
  rw [cyclic]
  exact cyclicNext_covers size

omit [DecidableEq κ] in
/-- The records of a sound table have different keys. -/
theorem keys_nodup {size : Nat} {positive : 0 < size} {ht : Fin size → Option ρ}
    (sound : (addressing S positive).Sound size ht) : ((records ht).map S.key).Nodup := by
  unfold records
  rw [List.map_filterMap]
  refine List.Nodup.filterMap ?_ (List.nodup_finRange size)
  intro p q key first second
  obtain ⟨r, left, rfl⟩ := Option.map_eq_some_iff.mp first
  obtain ⟨s, right, same⟩ := Option.map_eq_some_iff.mp second
  exact sound.distinct left right same.symm

/-- A record with a new key is put into an empty slot. -/
theorem put_record {size : Nat} {positive : 0 < size} {ht : Fin size → Option ρ}
    (power : ∃ bits, size = 2 ^ bits) (sound : (addressing S positive).Sound size ht)
    (fewer : (records ht).length < size) (rec : ρ) :
    ∃ slot, rwhashtabSearch S positive ht (S.key rec) = some slot ∧
      ((∃ found, ht slot = some found ∧ S.key found = S.key rec) ∨
        ht slot = none ∧ (∀ found ∈ records ht, S.key found ≠ S.key rec) ∧
          (addressing S positive).Sound size (Function.update ht slot (some rec)) ∧
          (records (Function.update ht slot (some rec))).Perm (rec :: records ht)) := by
  obtain ⟨free, empty⟩ := exists_empty fewer
  obtain ⟨slot, ends⟩ :=
    Addressing.search_ends (addressing_covers S positive power) empty (S.key rec)
  refine ⟨slot, ends, ?_⟩
  cases here : ht slot with
  | some found => exact .inl ⟨found, rfl, (Addressing.search_eq_some ends).2 found here⟩
  | none =>
    refine .inr ⟨rfl, ?_, sound.put ends here, records_put here rec⟩
    intro found member
    obtain ⟨p, present⟩ := mem_records.mp member
    exact sound.absent ends here p found present

/-- Rehashing the records of some slots. -/
theorem rehash_slots {oldsize newsize : Nat} (positive : 0 < newsize)
    (power : ∃ bits, newsize = 2 ^ bits) (htold : Fin oldsize → Option ρ)
    (slots : List (Fin oldsize)) {ht : Fin newsize → Option ρ}
    (sound : (addressing S positive).Sound newsize ht)
    (distinct : ((records ht ++ slots.filterMap htold).map S.key).Nodup)
    (fewer : (records ht).length + (slots.filterMap htold).length < newsize) :
    ∃ ht', slots.foldlM (rehash S positive htold) ht = some ht' ∧
      (addressing S positive).Sound newsize ht' ∧
      (records ht').Perm (records ht ++ slots.filterMap htold) := by
  induction slots generalizing ht with
  | nil => exact ⟨ht, rfl, sound, by rw [List.filterMap_nil, List.append_nil]⟩
  | cons slot slots ih =>
    rw [List.foldlM_cons]
    cases here : htold slot with
    | none =>
      rw [List.filterMap_cons_none here] at distinct fewer ⊢
      obtain ⟨ht', loop, result⟩ := ih sound distinct fewer
      refine ⟨ht', ?_, result⟩
      unfold rehash at loop ⊢
      rw [here]
      exact loop
    | some rec =>
      rw [List.filterMap_cons_some here] at distinct fewer ⊢
      rw [List.length_cons] at fewer
      obtain ⟨place, ends, found | ⟨_, _, sound', more⟩⟩ := put_record power sound (by omega) rec
      · obtain ⟨found, present, same⟩ := found
        rw [List.map_append, List.nodup_append] at distinct
        have member := List.mem_map_of_mem (f := S.key) (mem_records.mpr ⟨place, present⟩)
        have clash := distinct.2.2 _ member (S.key rec) List.mem_cons_self
        exact absurd same clash
      · have moved : (records (Function.update ht place (some rec)) ++
            slots.filterMap htold).Perm (records ht ++ rec :: slots.filterMap htold) :=
          (more.append_right _).trans List.perm_middle.symm
        obtain ⟨ht', loop, result, all⟩ := ih sound'
          ((moved.map S.key).nodup_iff.mpr distinct)
          (by rw [more.length_eq, List.length_cons]; omega)
        refine ⟨ht', ?_, result, all.trans moved⟩
        have first : rehash S positive htold ht slot =
            some (Function.update ht place (some rec)) := by
          unfold rehash
          rw [here]
          simp only [ends, Option.map_some]
        rw [first]
        exact loop

end Searches

section Calls

variable {κ ρ : Type} [DecidableEq κ] {S : Hashing κ ρ} {H : Rwhashtab ρ}

/-- What holds of a table between calls. -/
structure Valid (S : Hashing κ ρ) (H : Rwhashtab ρ) : Prop where
  /-- Searches find the records. -/
  sound : (addressing S H.positive).Sound H.cursize H.ht
  /-- The entries are counted. -/
  count : H.numentries = (records H.ht).length
  /-- At most three quarters of the table are filled. -/
  room : 4 * H.numentries ≤ 3 * H.cursize
  /-- The table is not smaller than it was at first. -/
  large : 4 ≤ H.cursize

/-- A table that is not smaller than it was at first has four equal parts. -/
theorem quarters (large : 4 ≤ H.cursize) : ∃ part, H.cursize = 4 * part ∧ H.cursize >>> 2 =
    part := by
  obtain ⟨bits, power⟩ := H.power
  have two : 2 ≤ bits := by
    by_contra few
    have small : bits = 0 ∨ bits = 1 := by omega
    rcases small with rfl | rfl <;> omega
  obtain ⟨rest, rfl⟩ := Nat.exists_eq_add_of_le two
  refine ⟨2 ^ rest, power.trans (pow_add 2 2 rest), ?_⟩
  rw [power, pow_add, Nat.shiftRight_eq_div_pow]
  exact Nat.mul_div_cancel_left _ (by decide)

omit [DecidableEq κ] in
/-- A table has an empty slot. -/
theorem Valid.fewer (valid : Valid S H) : (records H.ht).length < H.cursize := by
  have count := valid.count
  have room := valid.room
  have large := valid.large
  omega

/-- Each search ends. -/
theorem Valid.search (valid : Valid S H) (key : κ) :
    ∃ slot, rwhashtabSearch S H.positive H.ht key = some slot := by
  obtain ⟨free, empty⟩ := exists_empty valid.fewer
  exact Addressing.search_ends (addressing_covers S H.positive H.power) empty key

omit [DecidableEq κ] in
/-- An empty table is valid. -/
theorem rwhashtabInit_valid : Valid S (rwhashtabInit : Rwhashtab ρ) where
  sound := Addressing.sound_empty
  count := (congrArg List.length records_empty).symm
  room := Nat.zero_le _
  large := Nat.le_refl 4

/-- A table cannot be enlarged. -/
def Stuck (H : Rwhashtab ρ) (malloc : Bool) : Prop :=
  SIZE_MAX / 8 < H.cursize * 2 ∨ malloc = false

/-- A table that cannot be enlarged stays as it is. -/
theorem rwhashtabEnlarge_stuck {malloc : Bool} (stuck : Stuck H malloc) :
    rwhashtabEnlarge S H malloc = some (-1, H) := by
  unfold rwhashtabEnlarge
  rcases stuck with large | none
  · rw [if_pos large]
  · rw [if_pos none, ite_self]

/-- A table that is enlarged has the same records, and place for more. -/
theorem rwhashtabEnlarge_spec (valid : Valid S H) {malloc : Bool} (able : ¬ Stuck H malloc) :
    ∃ H', rwhashtabEnlarge S H malloc = some (0, H') ∧ Valid S H' ∧ ¬ H'.full ∧
      (records H'.ht).Perm (records H.ht) := by
  unfold Stuck at able
  push Not at able
  have count := valid.count
  have room := valid.room
  have large := valid.large
  have distinct := keys_nodup valid.sound
  obtain ⟨ht, loop, sound, all⟩ := rehash_slots (S := S) (Nat.mul_pos H.positive Nat.two_pos)
    (power_double H.power) H.ht (List.finRange H.cursize) Addressing.sound_empty
    (by rw [records_empty]; exact distinct) (by
      rw [records_empty, List.length_nil, Nat.zero_add]
      exact Nat.lt_of_lt_of_le valid.fewer (by omega))
  rw [records_empty, List.nil_append] at all
  refine ⟨⟨H.cursize * 2, power_double H.power, H.numentries, ht⟩, ?_, ?_, ?_, all⟩
  · unfold rwhashtabEnlarge
    rw [if_neg (Nat.not_lt.mpr able.1), if_neg able.2, loop]
    rfl
  · have double : 4 * H.numentries ≤ 3 * (H.cursize * 2) := by omega
    have larger : 4 ≤ H.cursize * 2 := by omega
    exact ⟨sound, count.trans all.length_eq.symm, double, larger⟩
  · unfold Rwhashtab.full
    rw [Nat.shiftRight_eq_div_pow]
    change ¬ H.cursize * 2 - H.cursize * 2 / 4 ≤ H.numentries
    omega

/-- A record is inserted into a table that is not full, unless its key is there. -/
theorem insertFound_spec (valid : Valid S H) (notFull : ¬ H.full) (rec : ρ) :
    (∃ found ∈ records H.ht, S.key found = S.key rec) ∧ insertFound S H rec = some (1, H) ∨
      (∀ found ∈ records H.ht, S.key found ≠ S.key rec) ∧
        ∃ H', insertFound S H rec = some (0, H') ∧ Valid S H' ∧
          (records H'.ht).Perm (rec :: records H.ht) := by
  obtain ⟨slot, ends, found | ⟨empty, absent, sound, more⟩⟩ :=
    put_record H.power valid.sound valid.fewer rec
  · obtain ⟨found, present, same⟩ := found
    refine .inl ⟨⟨found, mem_records.mpr ⟨slot, present⟩, same⟩, ?_⟩
    unfold insertFound
    simp only [ends, Option.map_some, present, Option.isSome_some, if_true]
  · refine .inr ⟨absent, { H with
      ht := Function.update H.ht slot (some rec), numentries := H.numentries + 1 }, ?_, ?_, more⟩
    · unfold insertFound
      simp only [ends, Option.map_some, empty, Option.isSome_none]
      rfl
    · have count := valid.count
      have long := more.length_eq
      obtain ⟨part, whole, quarter⟩ := quarters valid.large
      unfold Rwhashtab.full at notFull
      rw [List.length_cons, ← count] at long
      have filled : 4 * (H.numentries + 1) ≤ 3 * H.cursize := by omega
      exact ⟨sound, long.symm, filled, valid.large⟩

/-- An insertion fails exactly if the table has to be enlarged and cannot; otherwise it finds the
key, or it adds the record. -/
theorem rwhashtabInsert_spec (valid : Valid S H) (rec : ρ) (malloc : Bool) :
    ∃ code H', rwhashtabInsert S H rec malloc = some (code, H') ∧ Valid S H' ∧
      (H.full ∧ Stuck H malloc ∧ code = -1 ∧ H' = H ∨
        ¬ (H.full ∧ Stuck H malloc) ∧
          ((∃ found ∈ records H.ht, S.key found = S.key rec) ∧ code = 1 ∧
              (records H'.ht).Perm (records H.ht) ∨
            (∀ found ∈ records H.ht, S.key found ≠ S.key rec) ∧ code = 0 ∧
              (records H'.ht).Perm (rec :: records H.ht))) := by
  unfold rwhashtabInsert
  by_cases full : H.full
  · rw [if_pos full]
    by_cases stuck : Stuck H malloc
    · rw [rwhashtabEnlarge_stuck stuck]
      exact ⟨-1, H, rfl, valid, .inl ⟨full, stuck, rfl, rfl⟩⟩
    · obtain ⟨H₁, enlarged, valid₁, notFull, same⟩ := rwhashtabEnlarge_spec valid stuck
      rw [enlarged]
      simp only [Option.bind_some, ne_eq, not_true, if_false]
      rcases insertFound_spec valid₁ notFull rec with
        ⟨⟨found, member, key⟩, result⟩ | ⟨absent, H', result, valid', more⟩
      · exact ⟨1, H₁, result, valid₁, .inr ⟨fun both => stuck both.2,
          .inl ⟨⟨found, same.mem_iff.mp member, key⟩, rfl, same⟩⟩⟩
      · exact ⟨0, H', result, valid', .inr ⟨fun both => stuck both.2,
          .inr ⟨fun found member => absent found (same.mem_iff.mpr member), rfl,
            more.trans (same.cons rec)⟩⟩⟩
  · rw [if_neg full]
    rcases insertFound_spec valid full rec with
      ⟨present, result⟩ | ⟨absent, H', result, valid', more⟩
    · exact ⟨1, H, result, valid, .inr ⟨fun both => full both.1,
        .inl ⟨present, rfl, .refl _⟩⟩⟩
    · exact ⟨0, H', result, valid', .inr ⟨fun both => full both.1,
        .inr ⟨absent, rfl, more⟩⟩⟩

/-- A key is looked up. -/
theorem rwhashtabRead_spec (valid : Valid S H) (key : κ) :
    ∃ found, rwhashtabRead S H key = some found ∧
      ∀ rec, found = some rec ↔ rec ∈ records H.ht ∧ S.key rec = key := by
  obtain ⟨slot, ends⟩ := valid.search key
  refine ⟨H.ht slot, by unfold rwhashtabRead; rw [ends]; rfl, ?_⟩
  intro rec
  constructor
  · intro here
    exact ⟨mem_records.mpr ⟨slot, here⟩, (Addressing.search_eq_some ends).2 rec here⟩
  · rintro ⟨member, same⟩
    obtain ⟨p, present⟩ := mem_records.mp member
    rw [valid.sound.found ends present same]
    exact present

/-- Call a function on each record of a list, until it returns something other than zero. -/
def visitRecords {σ : Type} (func : σ → ρ → Int × σ) : List ρ → σ → Int × σ
  | [], cookie => (0, cookie)
  | rec :: later, cookie =>
    if (func cookie rec).1 ≠ 0 then func cookie rec
    else visitRecords func later (func cookie rec).2

/-- The slots of a table are visited for the records in them. -/
theorem foreachSlot_eq {σ : Type} {size : Nat} (func : σ → ρ → Int × σ)
    (ht : Fin size → Option ρ) (slots : List (Fin size)) (cookie : σ) :
    foreachSlot func ht slots cookie = visitRecords func (slots.filterMap ht) cookie := by
  induction slots generalizing cookie with
  | nil => rfl
  | cons slot slots ih =>
    unfold foreachSlot
    cases here : ht slot with
    | none => rw [List.filterMap_cons_none here]; exact ih cookie
    | some rec =>
      rw [List.filterMap_cons_some here]
      unfold visitRecords
      simp only [ih]

end Calls

section Runs

variable {κ ρ : Type} [DecidableEq κ]

/-- An insertion, with what the allocator says if the table has to be enlarged. -/
structure RwInsertion (ρ : Type) where
  /-- The record. -/
  record : ρ
  /-- Whether there is memory for a larger table. -/
  malloc : Bool

/-- Insert records one after the other, and keep what is returned for each of them. -/
def rwInserts (S : Hashing κ ρ) (H : Rwhashtab ρ) :
    List (RwInsertion ρ) → Option (List (RwInsertion ρ × Int) × Rwhashtab ρ)
  | [] => some ([], H)
  | call :: later =>
    (rwhashtabInsert S H call.record call.malloc).bind fun inserted =>
      (rwInserts S inserted.2 later).map fun rest => ((call, inserted.1) :: rest.1, rest.2)

/-- The record of the first insertion with a key that did not fail. -/
def firstInserted (S : Hashing κ ρ) (done : List (RwInsertion ρ × Int)) (key : κ) : Option ρ :=
  (done.find? fun call => decide (call.2 ≠ -1 ∧ S.key call.1.record = key)).map (·.1.record)

variable {S : Hashing κ ρ} {done : List (RwInsertion ρ × Int)} {H : Rwhashtab ρ}

/-- The record has the key. -/
theorem firstInserted_key {key : κ} {rec : ρ} (first : firstInserted S done key = some rec) :
    S.key rec = key := by
  obtain ⟨call, found, rfl⟩ := Option.map_eq_some_iff.mp first
  have fits := List.find?_some found
  exact (of_decide_eq_true fits).2

/-- A failed insertion inserts no record. -/
theorem firstInserted_failed (call : RwInsertion ρ) (key : κ) :
    firstInserted S (done ++ [(call, -1)]) key = firstInserted S done key := by
  unfold firstInserted
  rw [List.find?_append]
  simp

/-- An insertion with a key that is there inserts no record. -/
theorem firstInserted_present (call : RwInsertion ρ) (code : Int) {key : κ}
    (present : firstInserted S done (S.key call.record) ≠ none) :
    firstInserted S (done ++ [(call, code)]) key = firstInserted S done key := by
  unfold firstInserted at present ⊢
  rw [List.find?_append]
  by_cases same : S.key call.record = key
  · rw [same] at present
    obtain ⟨found, here⟩ := Option.ne_none_iff_exists'.mp
      fun none => present (Option.map_eq_none_iff.mpr none)
    rw [here, Option.some_or]
  · have other : [(call, code)].find? (fun call =>
        decide (call.2 ≠ -1 ∧ S.key call.1.record = key)) = none := by
      simp [same]
    rw [other, Option.or_none]

/-- An insertion with a new key inserts its record. -/
theorem firstInserted_new (call : RwInsertion ρ) {key : κ}
    (absent : firstInserted S done (S.key call.record) = none) :
    firstInserted S (done ++ [(call, 0)]) key =
      if S.key call.record = key then some call.record else firstInserted S done key := by
  unfold firstInserted at absent ⊢
  rw [List.find?_append]
  split
  · rename_i same
    rw [same] at absent
    rw [Option.map_eq_none_iff.mp absent]
    simp [same]
  · rename_i other
    simp [other]

/-- What holds of a table and of the insertions that led to it. -/
structure Stores (S : Hashing κ ρ) (done : List (RwInsertion ρ × Int)) (H : Rwhashtab ρ) :
    Prop where
  /-- The table is valid. -/
  valid : Valid S H
  /-- The records are those that were inserted first. -/
  stored : ∀ rec, rec ∈ records H.ht ↔ firstInserted S done (S.key rec) = some rec

/-- A key is present if a record with it was inserted. -/
theorem Stores.present (holds : Stores S done H) (key : κ) :
    (∃ found ∈ records H.ht, S.key found = key) ↔ firstInserted S done key ≠ none := by
  rw [Option.ne_none_iff_exists']
  constructor
  · rintro ⟨found, member, rfl⟩
    exact ⟨found, (holds.stored found).mp member⟩
  · rintro ⟨found, first⟩
    obtain rfl := firstInserted_key first
    exact ⟨found, (holds.stored found).mpr first, rfl⟩

/-- An insertion into a table. -/
theorem Stores.insert (holds : Stores S done H) (call : RwInsertion ρ) :
    ∃ code H', rwhashtabInsert S H call.record call.malloc = some (code, H') ∧
      Stores S (done ++ [(call, code)]) H' := by
  obtain ⟨code, H', result, valid, ⟨_, _, rfl, rfl⟩ | ⟨_, ⟨present, rfl, same⟩ |
    ⟨absent, rfl, more⟩⟩⟩ := rwhashtabInsert_spec holds.valid call.record call.malloc
  · refine ⟨-1, H', result, valid, fun rec => ?_⟩
    rw [firstInserted_failed]
    exact holds.stored rec
  · refine ⟨1, H', result, valid, fun rec => ?_⟩
    rw [firstInserted_present call 1 ((holds.present _).mp present), same.mem_iff]
    exact holds.stored rec
  · refine ⟨0, H', result, valid, fun rec => ?_⟩
    have new : firstInserted S done (S.key call.record) = none := by
      by_contra there
      obtain ⟨found, member, key⟩ := (holds.present _).mpr there
      exact absent found member key
    rw [firstInserted_new call new, more.mem_iff, List.mem_cons]
    split
    · rename_i same
      rw [Option.some.injEq]
      constructor
      · rintro (rfl | member)
        · rfl
        · exact absurd same.symm (absent rec member)
      · exact fun here => .inl here.symm
    · rename_i other
      rw [holds.stored]
      constructor
      · rintro (rfl | member)
        · exact absurd rfl other
        · exact member
      · exact .inr

/-- Insertions one after the other. -/
theorem Stores.inserts (holds : Stores S done H) (calls : List (RwInsertion ρ)) :
    ∃ run H', rwInserts S H calls = some (run, H') ∧ Stores S (done ++ run) H' := by
  induction calls generalizing done H with
  | nil => exact ⟨[], H, rfl, by rwa [List.append_nil]⟩
  | cons call calls ih =>
    obtain ⟨code, H₁, inserted, holds₁⟩ := holds.insert call
    obtain ⟨run, H', rest, holds'⟩ := ih holds₁
    refine ⟨(call, code) :: run, H', ?_, ?_⟩
    · unfold rwInserts
      rw [inserted, Option.bind_some, rest]
      rfl
    · rwa [List.append_assoc] at holds'

/-- A table is the finite map of the records that were inserted first. -/
structure RwFiniteMap (S : Hashing κ ρ) (done : List (RwInsertion ρ × Int)) (H : Rwhashtab ρ) :
    Prop where
  /-- The entries are counted. -/
  entries : rwhashtabGetsize H = (records H.ht).length
  /-- At most three quarters of the table are filled. -/
  occupancy : 4 * rwhashtabGetsize H ≤ 3 * H.cursize
  /-- Each search ends. -/
  search : ∀ key, ∃ htpos, rwhashtabSearch S H.positive H.ht key = some htpos
  /-- A read returns the first record that was inserted with the key. -/
  read : ∀ key, rwhashtabRead S H key = some (firstInserted S done key)
  /-- An insertion fails exactly if the table has to be enlarged and cannot, and leaves it as it
  is then; otherwise it returns one exactly if the key is present. -/
  insert : ∀ rec malloc, ∃ code H', rwhashtabInsert S H rec malloc = some (code, H') ∧
    (code = -1 ∨ code = 0 ∨ code = 1) ∧ (code = -1 ↔ H.full ∧ Stuck H malloc) ∧
    (code = -1 → H' = H) ∧
    (code ≠ -1 → (code = 1 ↔ firstInserted S done (S.key rec) ≠ none))
  /-- A function is called once for each record, unless it ends the iteration. -/
  foreach : ∃ visited : List ρ, (visited.map S.key).Nodup ∧
    (∀ rec, rec ∈ visited ↔ firstInserted S done (S.key rec) = some rec) ∧
    ∀ (σ : Type) (func : σ → ρ → Int × σ) (cookie : σ),
      rwhashtabForeach H func cookie = visitRecords func visited cookie

/-- What holds between calls makes a table a finite map. -/
theorem Stores.finiteMap (holds : Stores S done H) : RwFiniteMap S done H where
  entries := holds.valid.count
  occupancy := holds.valid.room
  search := holds.valid.search
  read key := by
    obtain ⟨found, result, exact⟩ := rwhashtabRead_spec holds.valid key
    rw [result, Option.some.injEq]
    apply Option.ext
    intro rec
    rw [exact, holds.stored]
    constructor
    · rintro ⟨first, rfl⟩
      exact first
    · intro first
      obtain rfl := firstInserted_key first
      exact ⟨first, rfl⟩
  insert rec malloc := by
    obtain ⟨code, H', result, _, ⟨full, stuck, rfl, rfl⟩ | ⟨able, ⟨present, rfl, _⟩ |
      ⟨absent, rfl, _⟩⟩⟩ := rwhashtabInsert_spec holds.valid rec malloc
    · exact ⟨-1, H', result, .inl rfl, iff_of_true rfl ⟨full, stuck⟩, fun _ => rfl,
        fun succeeded => absurd rfl succeeded⟩
    · exact ⟨1, H', result, .inr (.inr rfl), iff_of_false (by decide) able,
        fun failed => absurd failed (by decide),
        fun _ => iff_of_true rfl ((holds.present _).mp present)⟩
    · refine ⟨0, H', result, .inr (.inl rfl), iff_of_false (by decide) able,
        fun failed => absurd failed (by decide), fun _ => iff_of_false (by decide) ?_⟩
      intro there
      obtain ⟨found, member, key⟩ := (holds.present _).mpr there
      exact absent found member key
  foreach := ⟨records H.ht, keys_nodup holds.valid.sound, holds.stored,
    fun _ func cookie => foreachSlot_eq func H.ht (List.finRange H.cursize) cookie⟩

/-- Whatever the hash is, whichever records are inserted into an empty table, and whichever
allocations fail, each insertion returns, and the table is the finite map of the records that were
inserted first. -/
theorem rwhashtab_finite_map (S : Hashing κ ρ) (calls : List (RwInsertion ρ)) :
    ∃ done H, rwInserts S rwhashtabInit calls = some (done, H) ∧ RwFiniteMap S done H := by
  have empty : Stores S [] (rwhashtabInit : Rwhashtab ρ) := by
    refine ⟨rwhashtabInit_valid, fun rec => ?_⟩
    have none : records (rwhashtabInit : Rwhashtab ρ).ht = [] := records_empty
    rw [none]
    exact iff_of_false List.not_mem_nil (fun first => nomatch first)
  obtain ⟨done, H, run, holds⟩ := empty.inserts calls
  exact ⟨done, H, run, holds.finiteMap⟩

/-- A key that is present is not reported if the table has to be enlarged first and cannot. -/
theorem rwhashtabInsert_present_full :
    ((rwInserts ⟨id, fun _ => 0⟩ rwhashtabInit [⟨0, true⟩, ⟨1, true⟩, ⟨2, true⟩]).bind fun run =>
      (rwhashtabRead ⟨id, fun _ => 0⟩ run.2 0).bind fun found =>
        (rwhashtabInsert ⟨id, fun _ => 0⟩ run.2 0 false).map fun again =>
          (run.1.map (·.2), found, again.1)) = some ([0, 0, 0], some 0, -1) := by
  decide

end Runs

end Tarsnap.Datastruct
