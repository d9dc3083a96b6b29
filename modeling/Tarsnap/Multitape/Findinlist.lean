import Tarsnap.Lib.BinarySearch
import Tarsnap.Lib.ByteOrder
import Tarsnap.Multitape.Fsck

/-!
# The binary search of a check

The search passes a pointer into the list and a length down its recursion, and says "not found"
with the length that it was given. Here it runs on positions of one list, where reading outside
the list is a fault, and it is shown to be the search that the second phase uses, to read only
inside the list, and to find exactly what is there.
-/

namespace Tarsnap.Multitape

open Tarsnap.Lib Tarsnap.Chunks

/-- A fault of the search. -/
inductive SearchFault where
  /-- A name is read outside the list. -/
  | outOfBounds
  /-- The recursion does not end. -/
  | diverges
deriving DecidableEq, Repr

/-- Read the name at a position of the list. -/
def nameAt (flist : List Hash) (position : Nat) : Except SearchFault Hash :=
  match flist[position]? with
  | some name => .ok name
  | none => .error .outOfBounds

/-- The search among the given number of names from a position on. -/
def findinlistFrom (file : Hash) (flist : List Hash) :
    Nat → Nat → Nat → Except SearchFault Nat
  | 0, _, _ => .error .diverges
  | depth + 1, start, nfiles =>
    if nfiles = 0 then .ok nfiles
    else if nfiles = 1 then do
      let first ← nameAt flist start
      return if file = first then 0 else nfiles
    else do
      let midpoint := nfiles / 2
      let middle ← nameAt flist (start + midpoint)
      match memcmp file.bytes.toList middle.bytes.toList with
      | .lt =>
        let rc ← findinlistFrom file flist depth start midpoint
        return if rc = midpoint then nfiles else rc
      | .eq => return midpoint
      | .gt =>
        let rc ← findinlistFrom file flist depth (start + (midpoint + 1)) (nfiles - (midpoint + 1))
        return if rc = nfiles - (midpoint + 1) then nfiles else rc + (midpoint + 1)

/-- The names that a call searches. -/
def names (flist : List Hash) (start nfiles : Nat) : List Hash := (flist.drop start).take nfiles

section Slices

variable {flist : List Hash} {start nfiles : Nat}

/-- A call inside the list has as many names as it was told. -/
theorem names_length (inside : start + nfiles ≤ flist.length) :
    (names flist start nfiles).length = nfiles := by
  rw [names, List.length_take, List.length_drop]
  omega

/-- The names of a call by their positions. -/
theorem names_getElem? (index : Nat) (less : index < nfiles) :
    (names flist start nfiles)[index]? = flist[start + index]? := by
  rw [names, List.getElem?_take_of_lt less, List.getElem?_drop]

/-- The names in front of the middle. -/
theorem names_front {midpoint : Nat} (less : midpoint ≤ nfiles) :
    (names flist start nfiles).take midpoint = names flist start midpoint := by
  rw [names, List.take_take, Nat.min_eq_left less, names]

/-- The names behind the middle. -/
theorem names_behind (midpoint : Nat) :
    (names flist start nfiles).drop (midpoint + 1) =
      names flist (start + (midpoint + 1)) (nfiles - (midpoint + 1)) := by
  rw [names, List.drop_take, List.drop_drop, names]

/-- Reading a name of a call inside the list. -/
theorem nameAt_ok {index : Nat} (inside : start + nfiles ≤ flist.length) (less : index < nfiles) :
    ∃ name, nameAt flist (start + index) = .ok name ∧
      (names flist start nfiles)[index]? = some name := by
  have bound : start + index < flist.length := by omega
  have present : flist[start + index]? = some flist[start + index] :=
    List.getElem?_eq_getElem bound
  refine ⟨flist[start + index], ?_, ?_⟩
  · rw [nameAt, present]
  · rw [names_getElem? index less, present]

/-- What a call can find. -/
theorem mem_names_iff {file : Hash} (inside : start + nfiles ≤ flist.length) :
    file ∈ names flist start nfiles ↔ ∃ index < nfiles, flist[start + index]? = some file := by
  have length := names_length inside
  constructor
  · intro member
    obtain ⟨index, here⟩ := List.mem_iff_getElem?.mp member
    have less : index < nfiles := by
      have bound := (List.getElem?_eq_some_iff.mp here).1
      rwa [length] at bound
    rw [names_getElem? index less] at here
    exact ⟨index, less, here⟩
  · rintro ⟨index, less, here⟩
    rw [← names_getElem? index less] at here
    exact List.mem_of_getElem? here

end Slices

/-- Every call inside the list ends, reads only inside the list, and is the search of the names
that it was given. -/
theorem findinlistFrom_eq (file : Hash) {flist : List Hash} {depth start nfiles fuel : Nat}
    (inside : start + nfiles ≤ flist.length) (deep : nfiles < depth) (enough : nfiles ≤ fuel) :
    findinlistFrom file flist depth start nfiles =
      .ok (findinlistLoop file fuel (names flist start nfiles)) := by
  induction depth generalizing start nfiles fuel with
  | zero => exact absurd deep (Nat.not_lt_zero _)
  | succ depth ih =>
    have length := names_length inside
    cases fuel with
    | zero =>
      obtain rfl : nfiles = 0 := Nat.le_zero.mp enough
      rw [findinlistFrom, if_pos rfl, findinlistLoop, length]
    | succ fuel =>
      rw [findinlistFrom, findinlistLoop, length]
      by_cases none : nfiles = 0
      · rw [if_pos none, if_pos none]
      by_cases one : nfiles = 1
      · obtain ⟨first, read, here⟩ := @nameAt_ok flist start nfiles 0 inside (by omega)
        rw [if_neg none, if_neg none, if_pos one, if_pos one, here]
        rw [Nat.add_zero] at read
        rw [read, ok_bind, pure_eq_ok]
        simp only [Option.some.injEq, eq_comm]
      obtain ⟨middle, read, here⟩ := @nameAt_ok flist start nfiles (nfiles / 2) inside (by omega)
      rw [if_neg none, if_neg none, if_neg one, if_neg one]
      simp only [read, ok_bind, here]
      cases memcmp file.bytes.toList middle.bytes.toList with
      | lt =>
        rw [ih (by omega) (by omega) (show nfiles / 2 ≤ fuel by omega),
          names_front (Nat.div_le_self _ _)]
        rfl
      | eq => rfl
      | gt =>
        rw [ih (by omega) (by omega) (show nfiles - (nfiles / 2 + 1) ≤ fuel by omega),
          names_behind]
        rfl

section Sorted

/-- The list is in the order of its names, without duplicates. -/
def SortedNames (flist : List Hash) : Prop :=
  flist.Pairwise fun before after => memcmp before.bytes.toList after.bytes.toList = .lt

instance (flist : List Hash) : Decidable (SortedNames flist) := by
  unfold SortedNames
  infer_instance

/-- The number that stands for a name in the order. -/
def nameRank (name : Hash) : Nat := beDec name.bytes.toList

/-- Names are ordered like their numbers. -/
theorem memcmp_names (left right : Hash) :
    memcmp left.bytes.toList right.bytes.toList = compare (nameRank left) (nameRank right) := by
  apply memcmp_eq_compare
  rw [Vector.length_toList, Vector.length_toList]

/-- Names with the same number are the same. -/
theorem nameRank_inj {left right : Hash} (same : nameRank left = nameRank right) :
    left = right := by
  have lengths : left.bytes.toList.length = right.bytes.toList.length := by
    rw [Vector.length_toList, Vector.length_toList]
  have bytes := Vector.toList_inj.mp ((beDec_inj lengths).mp same)
  cases left
  cases right
  exact congrArg Hash.mk bytes

/-- The numbers of the names of a sorted list increase. -/
theorem SortedNames.ranks {flist : List Hash} (sorted : SortedNames flist) :
    SortedBy nameRank flist := by
  apply List.Pairwise.imp _ sorted
  intro before after less
  rwa [memcmp_names, Nat.compare_eq_lt] at less

/-- A search of a sorted list returns the place of the name, which is the length of the list if
the name is not in it. -/
theorem findinlistLoop_eq (file : Hash) {fuel : Nat} {flist : List Hash}
    (sorted : SortedNames flist) (enough : flist.length ≤ fuel) :
    findinlistLoop file fuel flist = flist.idxOf file := by
  induction fuel generalizing flist with
  | zero =>
    obtain rfl := List.eq_nil_of_length_eq_zero (Nat.le_zero.mp enough)
    rfl
  | succ fuel ih =>
    rw [findinlistLoop]
    by_cases none : flist.length = 0
    · rw [if_pos none]
      obtain rfl := List.eq_nil_of_length_eq_zero none
      rfl
    by_cases one : flist.length = 1
    · rw [if_neg none, if_pos one]
      obtain ⟨first, rfl⟩ := List.length_eq_one_iff.mp one
      rw [List.getElem?_cons_zero, List.idxOf_cons, List.idxOf_nil, List.length_singleton]
      by_cases same : first = file
      · simp [same]
      · rw [if_neg (fun present => same (Option.some.inj present)), beq_false_of_ne same]
        rfl
    have inside : flist.length / 2 < flist.length := by omega
    rw [if_neg none, if_neg one]
    have split : flist.take (flist.length / 2) ++
        flist[flist.length / 2] :: flist.drop (flist.length / 2 + 1) = flist := by
      rw [List.getElem_cons_drop, List.take_append_drop]
    have front : (flist.take (flist.length / 2)).length = flist.length / 2 := by
      rw [List.length_take]
      omega
    have behind : (flist.drop (flist.length / 2 + 1)).length =
        flist.length - (flist.length / 2 + 1) := List.length_drop
    have ranks := sorted.ranks
    rw [← split] at ranks
    simp only [List.getElem?_eq_getElem inside, memcmp_names]
    cases order : compare (nameRank file) (nameRank flist[flist.length / 2]) with
    | lt =>
      have place := ranks.idxOf_below (Nat.compare_eq_lt.mp order)
      rw [split, front] at place
      rw [ih (sorted.sublist (List.take_sublist _ _)) (by omega), place]
    | eq =>
      have same := nameRank_inj (Nat.compare_eq_eq.mp order)
      have place := ranks.idxOf_middle
      rw [split, front, ← same] at place
      exact place.symm
    | gt =>
      have place := ranks.idxOf_above (Nat.compare_eq_gt.mp order)
      rw [split, front, behind] at place
      rw [ih (sorted.sublist (List.drop_sublist _ _)) (by omega), place]

end Sorted

/-- On a sorted list of names the search ends at whatever part of the list it is called for, reads
only inside the list, and returns the place of the name in that part, or the length of the part if
and only if the name is not there; and so does the search that the second phase uses, for the
whole list. -/
theorem findinlist_finds {flist : List Hash} (sorted : SortedNames flist) (file : Hash) :
    (∀ depth start nfiles, start + nfiles ≤ flist.length → nfiles < depth →
      ∃ rc ≤ nfiles, findinlistFrom file flist depth start nfiles = .ok rc ∧
        (rc < nfiles → flist[start + rc]? = some file) ∧
        (rc = nfiles ↔ ¬∃ index < nfiles, flist[start + index]? = some file)) ∧
    (∀ depth, flist.length < depth →
      findinlistFrom file flist depth 0 flist.length = .ok (findinlist file flist)) ∧
    findinlist file flist = flist.idxOf file ∧
    (findinlist file flist = flist.length ↔ file ∉ flist) := by
  have whole : findinlist file flist = flist.idxOf file :=
    findinlistLoop_eq file sorted (le_refl _)
  refine ⟨?_, ?_, whole, ?_⟩
  · intro depth start nfiles inside deep
    have length := names_length inside
    have part : SortedNames (names flist start nfiles) :=
      sorted.sublist ((List.take_sublist _ _).trans (List.drop_sublist _ _))
    have search := findinlistFrom_eq file inside deep (le_refl nfiles)
    rw [findinlistLoop_eq file part length.le] at search
    refine ⟨(names flist start nfiles).idxOf file, ?_, search, ?_, ?_⟩
    · have bound : (names flist start nfiles).idxOf file ≤ _ := List.idxOf_le_length
      rwa [length] at bound
    · intro less
      rw [← names_getElem? _ less]
      apply List.getElem?_idxOf
      rw [← List.idxOf_lt_length_iff, length]
      exact less
    · have missing : (names flist start nfiles).idxOf file = (names flist start nfiles).length ↔
          file ∉ names flist start nfiles := List.idxOf_eq_length_iff
      rwa [length, mem_names_iff inside] at missing
  · intro depth deep
    have inside : 0 + flist.length ≤ flist.length := by omega
    rw [findinlistFrom_eq file inside deep (le_refl _), names, List.drop_zero, List.take_length,
      findinlist]
  · rw [whole]
    exact List.idxOf_eq_length_iff

/-- The name of 32 equal bytes. -/
def equalBytes (byte : UInt8) : Hash := ⟨Vector.replicate 32 byte⟩

/-- In a sorted list of two names, the second one is found at its place. -/
theorem findinlist_finds_two :
    findinlist (equalBytes 2) [equalBytes 1, equalBytes 2] =
      [equalBytes 1, equalBytes 2].idxOf (equalBytes 2) := by
  have sorted : SortedNames [equalBytes 1, equalBytes 2] := by decide
  exact (findinlist_finds sorted (equalBytes 2)).2.2.1

end Tarsnap.Multitape
