import Mathlib

/-!
# Searching a sorted list by halves

A list is strictly sorted by a rank. A value is compared with an element in the middle, and the
search goes on in one of the two parts, each of which says with its own length that it does not
hold the value. The answer for the whole list follows from the answer of that part.
-/

namespace Tarsnap.Lib

variable {α β : Type} [LinearOrder β] {rank : α → β}

/-- A list is strictly sorted by a rank. -/
def SortedBy (rank : α → β) (items : List α) : Prop :=
  items.Pairwise fun before after => rank before < rank after

section Halves

variable {left right : List α} {middle item : α}

/-- A value below the middle is not at the middle or behind it. -/
theorem SortedBy.not_mem_right (sorted : SortedBy rank (left ++ middle :: right))
    (below : rank item < rank middle) : item ∉ middle :: right := by
  intro member
  have tail := (List.pairwise_append.mp sorted).2.1
  rcases List.mem_cons.mp member with same | behind
  · rw [same] at below
    exact lt_irrefl _ below
  · have above := (List.pairwise_cons.mp tail).1 item behind
    exact lt_asymm below above

/-- A value not below the middle is not in front of it. -/
theorem SortedBy.not_mem_left (sorted : SortedBy rank (left ++ middle :: right))
    (above : rank middle ≤ rank item) : item ∉ left := by
  intro member
  have before := (List.pairwise_append.mp sorted).2.2 item member middle List.mem_cons_self
  exact absurd before (not_lt.mpr above)

variable [DecidableEq α]

/-- The place of a value below the middle comes from the part in front. -/
theorem SortedBy.idxOf_below (sorted : SortedBy rank (left ++ middle :: right))
    (below : rank item < rank middle) :
    (left ++ middle :: right).idxOf item =
      if left.idxOf item = left.length then (left ++ middle :: right).length
      else left.idxOf item := by
  have notBehind := sorted.not_mem_right below
  by_cases inFront : item ∈ left
  · have found : left.idxOf item ≠ left.length := by
      intro missing
      exact List.idxOf_eq_length_iff.mp missing inFront
    rw [if_neg found, List.idxOf_append_of_mem inFront]
  · have nowhere : item ∉ left ++ middle :: right := by
      intro member
      rcases List.mem_append.mp member with front | behind
      · exact inFront front
      · exact notBehind behind
    rw [if_pos (List.idxOf_of_notMem inFront), List.idxOf_of_notMem nowhere]

/-- The place of the middle is the length of the part in front. -/
theorem SortedBy.idxOf_middle (sorted : SortedBy rank (left ++ middle :: right)) :
    (left ++ middle :: right).idxOf middle = left.length := by
  have notFront := sorted.not_mem_left (le_refl (rank middle))
  rw [List.idxOf_append_of_notMem notFront, List.idxOf_cons_self, Nat.add_zero]

/-- The place of a value above the middle comes from the part behind, moved by what is in front
of that part. -/
theorem SortedBy.idxOf_above (sorted : SortedBy rank (left ++ middle :: right))
    (above : rank middle < rank item) :
    (left ++ middle :: right).idxOf item =
      if right.idxOf item = right.length then (left ++ middle :: right).length
      else right.idxOf item + (left.length + 1) := by
  have notFront := sorted.not_mem_left above.le
  have other : middle ≠ item := by
    intro same
    rw [same] at above
    exact lt_irrefl _ above
  rw [List.idxOf_append_of_notMem notFront, List.idxOf_cons_ne _ other]
  split
  · rename_i missing
    rw [missing, List.length_append, List.length_cons]
  · omega

end Halves

end Tarsnap.Lib
