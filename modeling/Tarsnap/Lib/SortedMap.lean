import Mathlib

/-!
# Maps that are visited in the order of their keys

A sorted map is a list of entries whose keys increase. An insertion fails when the key is there,
and a record is changed in place through its key. Inserting entries with increasing keys one after
the other yields the map of these entries.
-/

namespace Tarsnap.Lib

section Entries

variable {κ α β : Type} [LinearOrder κ]

/-- Insert an entry before the first larger key, unless the key is there. -/
def insertEntry (key : κ) (value : α) : List (κ × α) → Option (List (κ × α))
  | [] => some [(key, value)]
  | entry :: rest =>
    if key < entry.1 then some ((key, value) :: entry :: rest)
    else if key = entry.1 then none
    else (insertEntry key value rest).map (entry :: ·)

/-- The keys increase. -/
def Increasing (entries : List (κ × α)) : Prop := entries.Pairwise fun left right =>
    left.1 < right.1

/-- An inserted entry joins the others. -/
theorem mem_insertEntry {key : κ} {value : α} {entries result : List (κ × α)}
    (inserted : insertEntry key value entries = some result) (entry : κ × α) :
    entry ∈ result ↔ entry = (key, value) ∨ entry ∈ entries := by
  induction entries generalizing result with
  | nil =>
    cases inserted
    rw [List.mem_cons]
  | cons first rest ih =>
    rw [insertEntry] at inserted
    split at inserted
    · cases inserted
      rw [List.mem_cons]
    split at inserted
    · exact nomatch inserted
    · obtain ⟨tail, here, same⟩ := Option.map_eq_some_iff.mp inserted
      rw [← same, List.mem_cons, List.mem_cons, ih here]
      exact or_left_comm

/-- An insertion keeps the keys increasing. -/
theorem insertEntry_increasing {key : κ} {value : α} {entries result : List (κ × α)}
    (sorted : Increasing entries) (inserted : insertEntry key value entries = some result) :
    Increasing result := by
  induction entries generalizing result with
  | nil =>
    cases inserted
    exact List.pairwise_singleton _ _
  | cons first rest ih =>
    obtain ⟨above, below⟩ := List.pairwise_cons.mp sorted
    rw [insertEntry] at inserted
    split at inserted
    · rename_i smaller
      cases inserted
      refine List.pairwise_cons.mpr ⟨?_, sorted⟩
      intro other member
      rcases List.mem_cons.mp member with rfl | member
      · exact smaller
      · exact smaller.trans (above other member)
    rename_i larger
    split at inserted
    · exact nomatch inserted
    · rename_i different
      obtain ⟨tail, here, same⟩ := Option.map_eq_some_iff.mp inserted
      rw [← same]
      refine List.pairwise_cons.mpr ⟨?_, ih below here⟩
      intro other member
      rcases (mem_insertEntry here other).mp member with rfl | member
      · exact lt_of_le_of_ne (not_lt.mp larger) (Ne.symm different)
      · exact above other member

/-- A key above all others goes to the end. -/
theorem insertEntry_last {key : κ} {value : α} {entries : List (κ × α)}
    (last : ∀ entry ∈ entries, entry.1 < key) :
    insertEntry key value entries = some (entries ++ [(key, value)]) := by
  induction entries with
  | nil => rfl
  | cons first rest ih =>
    have below := last first List.mem_cons_self
    rw [insertEntry, if_neg (not_lt.mpr below.le), if_neg below.ne',
      ih fun entry member => last entry (List.mem_cons_of_mem _ member)]
    rfl

/-- Changing what the entries hold keeps the keys increasing. -/
theorem Increasing.map_values {entries : List (κ × α)} (sorted : Increasing entries)
    (change : κ → α → β) :
    Increasing (entries.map fun entry => (entry.1, change entry.1 entry.2)) :=
  List.pairwise_map.mpr sorted

/-- A selection of entries has increasing keys. -/
theorem Increasing.filter {entries : List (κ × α)} (sorted : Increasing entries)
    (keep : κ × α → Bool) : Increasing (entries.filter keep) :=
  List.Pairwise.filter keep sorted

end Entries

/-- A map with increasing keys. -/
structure SortedMap (κ α : Type) [LinearOrder κ] where
  /-- The entries in the order of their keys. -/
  entries : List (κ × α)
  /-- The keys increase. -/
  increasing : Increasing entries

namespace SortedMap

variable {κ α β : Type} [LinearOrder κ]

/-- A map without entries. -/
def empty : SortedMap κ α := ⟨[], List.Pairwise.nil⟩

/-- The record of a key. -/
def lookup (map : SortedMap κ α) (key : κ) : Option α :=
  (map.entries.find? fun entry => entry.1 = key).map Prod.snd

/-- Insert a record, unless the key is there. -/
def insert (map : SortedMap κ α) (key : κ) (value : α) : Option (SortedMap κ α) :=
  match inserted : insertEntry key value map.entries with
  | none => none
  | some entries => some ⟨entries, insertEntry_increasing map.increasing inserted⟩

/-- Change the record of each key. -/
def mapValues (map : SortedMap κ α) (change : κ → α → β) : SortedMap κ β :=
  ⟨map.entries.map fun entry => (entry.1, change entry.1 entry.2), map.increasing.map_values change⟩

/-- Change the record of a key through its pointer. -/
def update (map : SortedMap κ α) (key : κ) (value : α) : SortedMap κ α :=
  map.mapValues fun other record => if other = key then value else record

/-- Inserting a key above all others appends the entry. -/
theorem insert_last {map : SortedMap κ α} {key : κ} {value : α}
    (last : ∀ entry ∈ map.entries, entry.1 < key) :
    ∃ result, map.insert key value = some result ∧
      result.entries = map.entries ++ [(key, value)] := by
  have appended := @insertEntry_last κ α _ key value map.entries last
  rw [insert]
  split
  · rename_i missing
    rw [appended] at missing
    exact nomatch missing
  · rename_i entries inserted
    refine ⟨_, rfl, ?_⟩
    rw [appended] at inserted
    exact (Option.some.inj inserted).symm

/-- The record of a key is the one in its entry. -/
theorem lookup_eq_some {map : SortedMap κ α} {key : κ} {value : α} :
    map.lookup key = some value ↔ (key, value) ∈ map.entries := by
  have sorted := map.increasing
  rw [lookup]
  generalize map.entries = entries at sorted ⊢
  induction entries with
  | nil => simp
  | cons first rest ih =>
    obtain ⟨above, below⟩ := List.pairwise_cons.mp sorted
    rw [List.find?_cons]
    by_cases here : first.1 = key
    · have only : ∀ entry ∈ rest, entry.1 ≠ key := by
        intro entry member same
        have larger := above entry member
        rw [here, same] at larger
        exact lt_irrefl _ larger
      simp only [here, decide_true, Option.map_some, Option.some.injEq, List.mem_cons]
      constructor
      · intro same
        left
        exact Prod.ext here.symm same.symm
      · intro member
        rcases member with same | later
        · rw [← same]
        · exact absurd rfl (only _ later)
    · simp only [here, decide_false, List.mem_cons]
      apply (ih below).trans
      constructor
      · exact .inr
      · intro member
        rcases member with same | later
        · rw [← same] at here
          exact absurd rfl here
        · exact later

/-- A changed record is found, if there was one. -/
theorem lookup_update {map : SortedMap κ α} {key : κ} {value found : α}
    (looked : (map.update key value).lookup key = some found) : found = value := by
  have member := lookup_eq_some.mp looked
  rw [update, mapValues] at member
  obtain ⟨entry, _, same⟩ := List.mem_map.mp member
  have keys : entry.1 = key := congrArg Prod.fst same
  have values : (if entry.1 = key then value else entry.2) = found := congrArg Prod.snd same
  rw [if_pos keys] at values
  exact values.symm

/-- The other records do not change. -/
theorem lookup_update_ne {map : SortedMap κ α} {key other : κ} {value : α}
    (different : other ≠ key) : (map.update key value).lookup other = map.lookup other := by
  apply Option.ext
  intro found
  rw [lookup_eq_some, lookup_eq_some, update, mapValues]
  constructor
  · intro member
    obtain ⟨entry, here, same⟩ := List.mem_map.mp member
    have keys : entry.1 = other := congrArg Prod.fst same
    have values : (if entry.1 = key then value else entry.2) = found := congrArg Prod.snd same
    rw [if_neg (by rw [keys]; exact different)] at values
    rw [← keys, ← values]
    exact here
  · intro member
    refine List.mem_map.mpr ⟨_, member, ?_⟩
    simp only [if_neg different]

/-- An inserted record is found. -/
theorem lookup_insert {map result : SortedMap κ α} {key : κ} {value : α}
    (inserted : map.insert key value = some result) : result.lookup key = some value := by
  rw [insert] at inserted
  split at inserted
  · exact nomatch inserted
  · rename_i entries here
    cases inserted
    exact lookup_eq_some.mpr ((mem_insertEntry here _).mpr (.inl rfl))

/-- The other records are found as before. -/
theorem lookup_insert_ne {map result : SortedMap κ α} {key other : κ} {value : α}
    (different : other ≠ key) (inserted : map.insert key value = some result) :
    result.lookup other = map.lookup other := by
  rw [insert] at inserted
  split at inserted
  · exact nomatch inserted
  · rename_i entries here
    cases inserted
    apply Option.ext
    intro found
    rw [lookup_eq_some, lookup_eq_some]
    apply (mem_insertEntry here _).trans
    constructor
    · intro member
      rcases member with same | old
      · exact absurd (congrArg Prod.fst same) different
      · exact old
    · exact .inr

end SortedMap

end Tarsnap.Lib
