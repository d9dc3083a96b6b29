import Mathlib.Data.List.Sublists
import Mathlib.Logic.Function.Basic

/-!
# Delayed changes

A map on a disk is changed through a cache. A change may consist of several assignments, which take
effect together. A change is seen at once, but until the map is synchronized it may be lost when the
power fails: what is found on the disk then are any of the pending changes, in their order.
-/

namespace Tarsnap.Lib

/-- Assignments that take effect together. -/
abbrev Change (κ ν : Type) := List (κ × Option ν)

/-- A map on a disk, and the changes that are not synchronized. -/
structure Delayed (κ ν : Type) where
  /-- What is on the disk. -/
  disk : κ → Option ν
  /-- The changes since the map was synchronized. -/
  pending : List (Change κ ν)

namespace Delayed

variable {κ ν : Type} [DecidableEq κ]

/-- Make the assignments of a change. -/
def assign (map : κ → Option ν) (change : Change κ ν) : κ → Option ν :=
  change.foldl (fun map set => Function.update map set.1 set.2) map

/-- Make several changes. -/
def assignAll (map : κ → Option ν) (changes : List (Change κ ν)) : κ → Option ν :=
  changes.foldl assign map

/-- What is seen. -/
def current (D : Delayed κ ν) : κ → Option ν := assignAll D.disk D.pending

omit [DecidableEq κ] in
/-- Make a change. -/
def note (D : Delayed κ ν) (change : Change κ ν) : Delayed κ ν :=
  { D with pending := D.pending ++ [change] }

/-- Synchronize the map. -/
def sync (D : Delayed κ ν) : Delayed κ ν := ⟨D.current, []⟩

/-- What may be found on the disk when the power fails. -/
def Outcome (D : Delayed κ ν) (map : κ → Option ν) : Prop :=
  ∃ kept : List (Change κ ν), kept.Sublist D.pending ∧ map = assignAll D.disk kept

/-- The power fails. -/
def PowerFails (D D' : Delayed κ ν) : Prop := ∃ map, D.Outcome map ∧ D' = ⟨map, []⟩

variable {D : Delayed κ ν} {key : κ}

/-- A change is seen. -/
theorem current_note (D : Delayed κ ν) (change : Change κ ν) :
    (D.note change).current = assign D.current change := by
  unfold current note assignAll
  rw [List.foldl_append]
  rfl

/-- What is seen may be found on the disk. -/
theorem outcome_current (D : Delayed κ ν) : D.Outcome D.current :=
  ⟨D.pending, List.Sublist.refl _, rfl⟩

/-- A change leaves the keys that it does not assign. -/
theorem assign_of_notMem {change : Change κ ν} (map : κ → Option ν)
    (absent : ∀ set ∈ change, set.1 ≠ key) : assign map change key = map key := by
  unfold assign
  induction change generalizing map with
  | nil => rfl
  | cons set change ih =>
    rw [List.foldl_cons, ih _ fun other member => absent other (List.mem_cons_of_mem _ member)]
    exact Function.update_of_ne (absent set List.mem_cons_self).symm ..

/-- Changes leave the keys that none of them assigns. -/
theorem assignAll_of_notMem {changes : List (Change κ ν)} (map : κ → Option ν)
    (absent : ∀ change ∈ changes, ∀ set ∈ change, set.1 ≠ key) :
    assignAll map changes key = map key := by
  unfold assignAll
  induction changes generalizing map with
  | nil => rfl
  | cons change changes ih =>
    rw [List.foldl_cons, ih _ fun other member => absent other (List.mem_cons_of_mem _ member)]
    exact assign_of_notMem map (absent change List.mem_cons_self)

/-- A key without pending changes stays what it is on the disk. -/
theorem Outcome.of_notMem {map : κ → Option ν} (found : D.Outcome map)
    (absent : ∀ change ∈ D.pending, ∀ set ∈ change, set.1 ≠ key) : map key = D.disk key := by
  obtain ⟨kept, part, rfl⟩ := found
  exact assignAll_of_notMem D.disk fun change member => absent change (part.subset member)

/-- What is found on the disk when nothing is pending. -/
theorem Outcome.of_nil {map : κ → Option ν} (found : D.Outcome map) (none : D.pending = []) :
    map = D.disk := by
  obtain ⟨kept, part, rfl⟩ := found
  rw [none] at part
  rw [List.sublist_nil.mp part]
  rfl

end Delayed

end Tarsnap.Lib
