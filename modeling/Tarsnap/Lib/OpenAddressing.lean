import Mathlib.Data.List.FinRange
import Mathlib.Data.Fintype.Basic
import Tarsnap.Lib.Probe

/-!
# Hash tables with open addressing

A table holds records in slots. The search for a key starts at the home of the key and goes on
until it comes to a record with the key or to an empty slot. A table is sound if no two records
have the same key, and if there is no empty slot on the way from the home of a record to its slot.
In a sound table with an empty slot every search ends, and it ends at the record with the key if
there is one. A record that is put where the search for its key ends at an empty slot leaves the
table sound.
-/

namespace Tarsnap.Lib

/-- How the slots of a table are visited. -/
structure Addressing (ι κ ρ : Type) where
  /-- The slot that is visited next. -/
  next : ι → ι
  /-- The slot that is visited first. -/
  home : κ → ι
  /-- The key of a record. -/
  key : ρ → κ

namespace Addressing

variable {ι κ ρ : Type} [DecidableEq κ] (A : Addressing ι κ ρ)

/-- A search ends at an empty slot and at a record with the key. -/
def settle (ht : ι → Option ρ) (k : κ) (slot : ι) : Option ι :=
  match ht slot with
  | none => some slot
  | some record => if A.key record = k then some slot else none

/-- Search for a key in at most the given number of slots. -/
def search (count : Nat) (ht : ι → Option ρ) (k : κ) : Option ι :=
  probe A.next (A.settle ht k) count (A.home k)

/-- There is no empty slot on the way from the home of a key to a slot. -/
def Way (count : Nat) (ht : ι → Option ρ) (k : κ) (slot : ι) : Prop :=
  ∃ visit < count, A.next^[visit] (A.home k) = slot ∧
    ∀ earlier < visit, ht (A.next^[earlier] (A.home k)) ≠ none

/-- No two records have the same key, and each is on the way from its home. -/
structure Sound (count : Nat) (ht : ι → Option ρ) : Prop where
  /-- Records with the same key are in the same slot. -/
  distinct : ∀ {p q r s}, ht p = some r → ht q = some s → A.key r = A.key s → p = q
  /-- The way from the home of a record to its slot has no gap. -/
  way : ∀ {p r}, ht p = some r → A.Way count ht (A.key r) p

variable {A} {count : Nat} {ht : ι → Option ρ} {k : κ} {slot : ι}

/-- A search ends only at a slot of its own. -/
theorem settle_eq_some {other : ι} : A.settle ht k slot = some other ↔
    other = slot ∧ ∀ record, ht slot = some record → A.key record = k := by
  unfold settle
  cases here : ht slot with
  | none =>
    simp only [Option.some.injEq, reduceCtorEq, false_implies, implies_true, and_true]
    exact eq_comm
  | some record =>
    simp only [Option.some.injEq, forall_eq']
    by_cases same : A.key record = k
    · rw [if_pos same, Option.some.injEq, and_iff_left same]
      exact eq_comm
    · rw [if_neg same]
      exact iff_of_false (fun absurdity => nomatch absurdity) fun both => same both.2

/-- A search goes on only from a record with another key. -/
theorem settle_eq_none : A.settle ht k slot = none ↔
    ∃ record, ht slot = some record ∧ A.key record ≠ k := by
  unfold settle
  cases here : ht slot with
  | none => simp
  | some record =>
    simp only [Option.some.injEq, exists_eq_left']
    by_cases same : A.key record = k
    · rw [if_pos same]
      exact iff_of_false (fun absurdity => nomatch absurdity) fun other => other same
    · rw [if_neg same]
      exact iff_of_true rfl same

/-- Where a search ends. -/
theorem search_eq_some (found : A.search count ht k = some slot) :
    A.Way count ht k slot ∧ ∀ record, ht slot = some record → A.key record = k := by
  obtain ⟨visit, bound, here, silent⟩ := (probe_eq_some_iff _ _ _ _ _).mp found
  obtain ⟨rfl, settled⟩ := settle_eq_some.mp here
  refine ⟨⟨visit, bound, rfl, ?_⟩, settled⟩
  intro earlier before empty
  obtain ⟨record, present, _⟩ := settle_eq_none.mp (silent earlier before)
  rw [empty] at present
  cases present

/-- A search in a table with an empty slot ends. -/
theorem search_ends (covers : Covers A.next count) {free : ι} (empty : ht free = none) (k : κ) :
    ∃ slot, A.search count ht k = some slot := by
  have settles : A.settle ht k free = some free :=
    settle_eq_some.mpr ⟨rfl, fun record present => by rw [empty] at present; cases present⟩
  exact Option.isSome_iff_exists.mp
    (probe_isSome covers (by rw [settles]; rfl) (A.home k))

/-- A search that ends at an empty slot would have come to a record with the key. -/
theorem Sound.absent (sound : A.Sound count ht) (found : A.search count ht k = some slot)
    (empty : ht slot = none) : ∀ p record, ht p = some record → A.key record ≠ k := by
  rintro p record present rfl
  obtain ⟨visit, bound, here, silent⟩ := (probe_eq_some_iff _ _ _ _ _).mp found
  obtain ⟨rfl, _⟩ := settle_eq_some.mp here
  obtain ⟨last, _, reached, filled⟩ := sound.way present
  rcases Nat.lt_trichotomy visit last with before | rfl | after
  · exact filled visit before empty
  · rw [reached, present] at empty
    cases empty
  · obtain ⟨other, there, different⟩ := settle_eq_none.mp (silent last after)
    rw [reached, present] at there
    obtain rfl := Option.some.inj there
    exact different rfl

/-- A search finds the record with the key. -/
theorem Sound.found (sound : A.Sound count ht) (found : A.search count ht k = some slot) {p : ι}
    {record : ρ} (present : ht p = some record) (same : A.key record = k) : slot = p := by
  cases here : ht slot with
  | none => exact absurd same (sound.absent found here p record present)
  | some other =>
    have settled := (search_eq_some found).2 other here
    exact sound.distinct here present (settled.trans same.symm)

omit [DecidableEq κ] in
/-- An empty table is sound. -/
theorem sound_empty : A.Sound count fun _ => none where
  distinct absurdity := nomatch absurdity
  way absurdity := nomatch absurdity

variable [DecidableEq ι]

omit [DecidableEq κ] in
/-- Filling a slot leaves no new gap. -/
theorem Way.fill (way : A.Way count ht k slot) (place : ι) (record : ρ) :
    A.Way count (Function.update ht place (some record)) k slot := by
  obtain ⟨visit, bound, reached, filled⟩ := way
  refine ⟨visit, bound, reached, fun earlier before empty => filled earlier before ?_⟩
  by_cases here : A.next^[earlier] (A.home k) = place
  · rw [here, Function.update_self] at empty
    cases empty
  · rwa [Function.update_of_ne here] at empty

/-- A record that is put where the search for its key ends leaves the table sound. -/
theorem Sound.put (sound : A.Sound count ht) {record : ρ}
    (found : A.search count ht (A.key record) = some slot) (empty : ht slot = none) :
    A.Sound count (Function.update ht slot (some record)) := by
  have absent := sound.absent found empty
  refine ⟨?_, ?_⟩
  · intro p q r s first second same
    by_cases left : p = slot
    · by_cases right : q = slot
      · exact left.trans right.symm
      · rw [left, Function.update_self] at first
        rw [Function.update_of_ne right] at second
        obtain rfl := Option.some.inj first
        exact absurd same.symm (absent q s second)
    · rw [Function.update_of_ne left] at first
      by_cases right : q = slot
      · rw [right, Function.update_self] at second
        obtain rfl := Option.some.inj second
        exact absurd same (absent p r first)
      · rw [Function.update_of_ne right] at second
        exact sound.distinct first second same
  · intro p r here
    by_cases new : p = slot
    · rw [new, Function.update_self] at here
      obtain rfl := Option.some.inj here
      rw [new]
      exact (search_eq_some found).1.fill slot record
    · rw [Function.update_of_ne new] at here
      exact (sound.way here).fill slot record

end Addressing

section Records

variable {ρ : Type} {count : Nat}

/-- The records of a table, in the order of their slots. -/
def records (ht : Fin count → Option ρ) : List ρ := (List.finRange count).filterMap ht

/-- The records are those that are in the slots. -/
theorem mem_records {ht : Fin count → Option ρ} {record : ρ} :
    record ∈ records ht ↔ ∃ slot, ht slot = some record := by
  unfold records
  rw [List.mem_filterMap]
  exact exists_congr fun slot => and_iff_right (List.mem_finRange slot)

/-- A table with fewer records than slots has an empty slot. -/
theorem exists_empty {ht : Fin count → Option ρ} (fewer : (records ht).length < count) :
    ∃ slot, ht slot = none := by
  by_contra full
  push Not at full
  have every : ∀ slot ∈ List.finRange count, (ht slot).isSome :=
    fun slot _ => Option.isSome_iff_ne_none.mpr (full slot)
  have long : (records ht).length = (List.finRange count).length := by
    unfold records
    rw [List.length_filterMap_eq_countP, List.countP_eq_length.mpr every]
  rw [List.length_finRange] at long
  omega

/-- An empty table has no records. -/
theorem records_empty : records (fun _ : Fin count => (none : Option ρ)) = [] := by
  unfold records
  rw [List.filterMap_eq_nil_iff]
  exact fun _ _ => rfl

/-- A record that is put into an empty slot is a record more. -/
theorem records_put {ht : Fin count → Option ρ} {slot : Fin count} (empty : ht slot = none)
    (record : ρ) : (records (Function.update ht slot (some record))).Perm
    (record :: records ht) := by
  unfold records
  obtain ⟨before, after, split⟩ := List.append_of_mem (List.mem_finRange slot)
  have once := List.nodup_finRange count
  rw [split] at once ⊢
  obtain ⟨_, others, apart⟩ := List.nodup_append.mp once
  have notBefore : ∀ other ∈ before, other ≠ slot :=
    fun other member => apart other member slot List.mem_cons_self
  have notAfter : ∀ other ∈ after, other ≠ slot := by
    rintro other member rfl
    exact (List.nodup_cons.mp others).1 member
  have first : before.filterMap (Function.update ht slot (some record)) = before.filterMap ht :=
    List.filterMap_congr fun other member => Function.update_of_ne (notBefore other member) ..
  have last : after.filterMap (Function.update ht slot (some record)) = after.filterMap ht :=
    List.filterMap_congr fun other member => Function.update_of_ne (notAfter other member) ..
  rw [List.filterMap_append, List.filterMap_append, List.filterMap_cons, List.filterMap_cons,
    Function.update_self, first, last, empty]
  exact List.perm_middle

end Records

end Tarsnap.Lib
