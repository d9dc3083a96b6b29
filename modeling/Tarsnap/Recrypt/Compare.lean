import Mathlib.Data.List.Perm.Subperm
import Tarsnap.Lib.ByteOrder
import Tarsnap.Lib.Except
import Tarsnap.Netpacket.Packet

/-!
# Comparing lists of blocks

The program that moves data to another machine compares the sorted lists of the blocks of both
machines. It gives up if the new machine has a block that the old one does not have, and otherwise
finds the blocks to copy. Both scans go along the two lists at once. The arrays are read and filled
through positions, and an access outside of an array is told apart from giving up. There may be no
memory for the array of the blocks to copy; then the program gives up as well.
-/

namespace Tarsnap.Recrypt

open Tarsnap.Lib Tarsnap.Netpacket

/-- A block. -/
structure Block where
  /-- Class of the file. -/
  cls : UInt8
  /-- Name of the file. -/
  name : Bytes32
deriving DecidableEq

/-- Why there is no list of blocks to copy. -/
inductive Stop where
  /-- The program prints a warning and exits. -/
  | exit (warning : String)
  /-- It reads or writes outside of an array. -/
  | outside
deriving DecidableEq, Repr

/-- The order of two blocks. -/
def cmpblock (x y : Block) : Ordering :=
  if x.cls < y.cls then .lt
  else if y.cls < x.cls then .gt
  else memcmp x.name.toList y.name.toList

/-- The element of an array at a position. -/
def at? (blist : List Block) (pos : Nat) : Except Stop Block :=
  match blist[pos]? with
  | some block => .ok block
  | none => .error .outside

/-- Make sure that the new list is a subset of the old one, from the given positions on. -/
def subsetLoop (oblist nblist : List Block) (i j : Nat) : Except Stop Unit :=
  if j < nblist.length then
    if i = oblist.length then
      .error (.exit "New machine has data not in old machine!  Cannot continue.")
    else if inside : i < oblist.length then do
      let old := oblist[i]
      let new ← at? nblist j
      match cmpblock old new with
      | .gt => .error (.exit "New machine has data not in old machine!  Cannot continue.")
      | .eq => subsetLoop oblist nblist (i + 1) (j + 1)
      | .lt => subsetLoop oblist nblist (i + 1) j
    else .error .outside
  else .ok ()
termination_by oblist.length - i

/-- Add a block to an array with room for some blocks, of which the first ones are filled. -/
def fill (room : Nat) (cblist : List Block) (block : Block) : Except Stop (List Block) :=
  if cblist.length < room then .ok (cblist ++ [block]) else .error .outside

/-- Whether a block needs copying. The new list is read only if its end is not reached. -/
def needsCopy (nblist : List Block) (j : Nat) (old : Block) : Except Stop Bool :=
  if j = nblist.length then .ok true
  else do
    let new ← at? nblist j
    return cmpblock old new = .lt

/-- Copy names of blocks which need copying, from the given positions on. Return the blocks to copy
and the position in the new list. -/
def copyLoop (oblist nblist : List Block) (room i j : Nat) (cblist : List Block) :
    Except Stop (List Block × Nat) :=
  if i < oblist.length then do
    let old ← at? oblist i
    if ← needsCopy nblist j old then do
      let cblist ← fill room cblist old
      copyLoop oblist nblist room (i + 1) j cblist
    else copyLoop oblist nblist room (i + 1) (j + 1) cblist
  else .ok (cblist, j)
termination_by oblist.length - i

/-- Find the blocks to copy, with memory for their array or without. -/
def compareblists (oblist nblist : List Block) (malloc : Bool) : Except Stop (List Block) := do
  subsetLoop oblist nblist 0 0
  if oblist.length = nblist.length then return []
  else if malloc = false then .error (.exit "Cannot allocate memory")
  else do
    let cblistlen := oblist.length - nblist.length
    let (cblist, j) ← copyLoop oblist nblist cblistlen 0 0 []
    if j ≠ nblist.length then
      .error (.exit "Programmer error: Didn't get to end of new block list")
    else if cblist.length ≠ cblistlen then
      .error (.exit "Programmer error: Didn't fill blocks-to-copy list")
    else return cblist

section Order

/-- The number that stands for the place of a block in the order. -/
def Block.rank (block : Block) : Nat := block.cls.toNat * 256 ^ 32 + beDec block.name.toList

/-- The number that encodes a name. -/
theorem beDec_name (name : Bytes32) : beDec name.toList < 256 ^ 32 := by
  have small := beDec_lt name.toList
  rwa [Vector.length_toList] at small

/-- Blocks are ordered by class and then by name. -/
theorem cmpblock_eq (x y : Block) : cmpblock x y = compare x.rank y.rank := by
  have left := beDec_name x.name
  have right := beDec_name y.name
  have lengths : x.name.toList.length = y.name.toList.length := by
    rw [Vector.length_toList, Vector.length_toList]
  rw [cmpblock, memcmp_eq_compare lengths, Block.rank, Block.rank]
  by_cases less : x.cls < y.cls
  · have more : x.cls.toNat + 1 ≤ y.cls.toNat := less
    have high := Nat.mul_le_mul_right (256 ^ 32) more
    rw [Nat.add_mul, Nat.one_mul] at high
    rw [if_pos less]
    exact (Nat.compare_eq_lt.mpr (by omega)).symm
  · by_cases greater : y.cls < x.cls
    · have more : y.cls.toNat + 1 ≤ x.cls.toNat := greater
      have high := Nat.mul_le_mul_right (256 ^ 32) more
      rw [Nat.add_mul, Nat.one_mul] at high
      rw [if_neg less, if_pos greater]
      exact (Nat.compare_eq_gt.mpr (by omega)).symm
    · have equal : x.cls.toNat = y.cls.toNat :=
        Nat.le_antisymm (Nat.not_lt.mp greater) (Nat.not_lt.mp less)
      rw [if_neg less, if_neg greater, equal]
      simp only [compare, compareOfLessAndEq, Nat.add_lt_add_iff_left, Nat.add_left_cancel_iff]

/-- Blocks with the same place in the order are the same. -/
theorem rank_inj {x y : Block} (same : x.rank = y.rank) : x = y := by
  have left := beDec_name x.name
  have right := beDec_name y.name
  have lengths : x.name.toList.length = y.name.toList.length := by
    rw [Vector.length_toList, Vector.length_toList]
  rw [Block.rank, Block.rank] at same
  have names : beDec x.name.toList = beDec y.name.toList := by omega
  have classes : x.cls.toNat = y.cls.toNat := by omega
  have cls : x.cls = y.cls := UInt8.toNat_inj.mp classes
  have name : x.name = y.name := Vector.toList_inj.mp ((beDec_inj lengths).mp names)
  obtain ⟨xc, xn⟩ := x
  obtain ⟨yc, yn⟩ := y
  rw [Block.mk.injEq]
  exact ⟨cls, name⟩

/-- A list is strictly sorted by class and name. -/
def StrictlySorted (blist : List Block) : Prop :=
  blist.Pairwise fun before after => cmpblock before after = .lt

/-- The places of the blocks of a sorted list increase. -/
theorem StrictlySorted.ranks {blist : List Block} (sorted : StrictlySorted blist) :
    blist.Pairwise fun before after => before.rank < after.rank := by
  apply List.Pairwise.imp _ sorted
  intro before after less
  rwa [cmpblock_eq, Nat.compare_eq_lt] at less

/-- A block before the first one of a sorted list is not in it. -/
theorem StrictlySorted.not_mem {first block : Block} {rest : List Block}
    (sorted : StrictlySorted (first :: rest)) (before : block.rank < first.rank) :
    block ∉ first :: rest := by
  intro member
  rcases List.mem_cons.mp member with same | later
  · rw [same] at before
    omega
  · have after := (List.pairwise_cons.mp sorted.ranks).1 block later
    omega

/-- The first block of a sorted list is not in the rest. -/
theorem StrictlySorted.fresh {first : Block} {rest : List Block}
    (sorted : StrictlySorted (first :: rest)) : first ∉ rest := by
  intro member
  have after := (List.pairwise_cons.mp sorted.ranks).1 first member
  omega

/-- The rest of a sorted list is sorted. -/
theorem StrictlySorted.drop {blist : List Block} (sorted : StrictlySorted blist) (count : Nat) :
    StrictlySorted (blist.drop count) := sorted.sublist (List.drop_sublist count blist)

end Order

section Scans

variable {oblist nblist : List Block}

/-- An element inside an array. -/
theorem at?_ok {blist : List Block} {pos : Nat} (inside : pos < blist.length) :
    at? blist pos = .ok blist[pos] := by
  rw [at?, List.getElem?_eq_getElem inside]

/-- The first scan goes through if the rest of the new list is in the rest of the old one, and
otherwise the program exits. It reads nothing outside of the lists. -/
theorem subsetLoop_eq (oldSorted : StrictlySorted oblist) (newSorted : StrictlySorted nblist) :
    ∀ i j, i ≤ oblist.length → j ≤ nblist.length →
      subsetLoop oblist nblist i j =
        if ∀ block ∈ nblist.drop j, block ∈ oblist.drop i then .ok ()
        else .error (.exit "New machine has data not in old machine!  Cannot continue.") := by
  intro i
  induction left : oblist.length - i using Nat.strong_induction_on generalizing i with
  | _ n ih =>
    intro j oldBound newBound
    rw [subsetLoop]
    by_cases ended : j < nblist.length
    · rw [if_pos ended]
      have new := List.drop_eq_getElem_cons ended
      by_cases last : i = oblist.length
      · have none : oblist.drop i = [] := List.drop_eq_nil_of_le (by omega)
        rw [if_pos last, if_neg]
        intro all
        rw [none] at all
        have absent := all nblist[j] (by rw [new]; exact List.mem_cons_self)
        exact List.not_mem_nil absent
      · have inside : i < oblist.length := by omega
        have old := List.drop_eq_getElem_cons inside
        have oldRest := oldSorted.drop i
        have newRest := newSorted.drop j
        rw [old] at oldRest
        rw [new] at newRest
        have less : oblist.length - (i + 1) < n := by omega
        rw [if_neg last, dif_pos inside, at?_ok ended]
        simp only [ok_bind]
        rw [cmpblock_eq]
        split
        · rename_i greater
          have before := Nat.compare_eq_gt.mp greater
          have absent := oldRest.not_mem before
          rw [if_neg]
          intro all
          rw [old, new] at all
          exact absent (all _ List.mem_cons_self)
        · rename_i equal
          have same : oblist[i] = nblist[j] := rank_inj (Nat.compare_eq_eq.mp equal)
          rw [ih _ less (i + 1) rfl (j + 1) (by omega) (by omega), old, new]
          apply if_congr _ rfl rfl
          constructor
          · intro all block member
            rcases List.mem_cons.mp member with first | later
            · rw [first, same]
              exact List.mem_cons_self
            · exact List.mem_cons_of_mem _ (all block later)
          · intro all block member
            rcases List.mem_cons.mp (all block (List.mem_cons_of_mem _ member)) with first | later
            · rw [first, same] at member
              exact absurd member newRest.fresh
            · exact later
        · rename_i smaller
          have absent := newRest.not_mem (Nat.compare_eq_lt.mp smaller)
          rw [ih _ less (i + 1) rfl j (by omega) newBound, old]
          rw [← new] at absent
          apply if_congr _ rfl rfl
          constructor
          · exact fun all block member => List.mem_cons_of_mem _ (all block member)
          · intro all block member
            rcases List.mem_cons.mp (all block member) with first | later
            · rw [first] at member
              exact absurd member absent
            · exact later
    · have none : nblist.drop j = [] := List.drop_eq_nil_of_le (by omega)
      rw [if_neg ended, none, if_pos]
      intro block member
      exact absurd member List.not_mem_nil

/-- A block needs copying if it is not in the rest of the new list, which is in the rest of the
old one. -/
theorem needsCopy_eq {old : Block} {later : List Block} (oldSorted : StrictlySorted (old :: later))
    (newSorted : StrictlySorted nblist) {j : Nat} (newBound : j ≤ nblist.length)
    (subset : nblist.drop j ⊆ old :: later) :
    needsCopy nblist j old = .ok (decide (old ∉ nblist.drop j)) := by
  rw [needsCopy]
  by_cases last : j = nblist.length
  · have none : nblist.drop j = [] := List.drop_eq_nil_of_le (by omega)
    rw [if_pos last, none]
    rfl
  · have ended : j < nblist.length := by omega
    have new := List.drop_eq_getElem_cons ended
    have newRest := newSorted.drop j
    rw [new] at newRest subset
    rw [if_neg last, at?_ok ended, ok_bind, pure_eq_ok, cmpblock_eq, new]
    congr 1
    apply decide_eq_decide.mpr
    rw [Nat.compare_eq_lt]
    constructor
    · exact newRest.not_mem
    · intro absent
      have apart : nblist[j] ≠ old := fun same => absent (same ▸ List.mem_cons_self)
      rcases List.mem_cons.mp (subset List.mem_cons_self) with same | member
      · exact absurd same apart
      · exact (List.pairwise_cons.mp oldSorted.ranks).1 _ member

/-- A sorted list has no block twice. -/
theorem StrictlySorted.nodup {blist : List Block} (sorted : StrictlySorted blist) :
    blist.Nodup := by
  apply List.Pairwise.imp _ sorted.ranks
  intro before after less same
  rw [same] at less
  omega

/-- The second scan fills its array with the blocks of the old list that are not in the new one,
and gets to the end of the new list. -/
theorem copyLoop_eq (oldSorted : StrictlySorted oblist) (newSorted : StrictlySorted nblist)
    (room : Nat) :
    ∀ i j cblist, i ≤ oblist.length → j ≤ nblist.length → nblist.drop j ⊆ oblist.drop i →
      cblist.length + (oblist.length - i) = room + (nblist.length - j) →
      copyLoop oblist nblist room i j cblist =
        .ok (cblist ++ (oblist.drop i).filter (· ∉ nblist.drop j), nblist.length) ∧
      (cblist ++ (oblist.drop i).filter (· ∉ nblist.drop j)).length = room := by
  intro i
  induction left : oblist.length - i using Nat.strong_induction_on generalizing i with
  | _ n ih =>
    intro j cblist oldBound newBound subset count
    rw [copyLoop]
    by_cases inside : i < oblist.length
    · have old := List.drop_eq_getElem_cons inside
      have oldRest := oldSorted.drop i
      rw [old] at oldRest subset
      have less : oblist.length - (i + 1) < n := by omega
      rw [if_pos inside, at?_ok inside, ok_bind, needsCopy_eq oldRest newSorted newBound subset,
        ok_bind, old]
      by_cases absent : oblist[i] ∉ nblist.drop j
      · have rest : nblist.drop j ⊆ oblist.drop (i + 1) := by
          intro block member
          rcases List.mem_cons.mp (subset member) with same | later
          · rw [same] at member
            exact absurd member absent
          · exact later
        have few := (List.Nodup.subperm (newSorted.drop j).nodup rest).length_le
        rw [List.length_drop, List.length_drop] at few
        have room_ : cblist.length < room := by omega
        have next := ih _ less (i + 1) rfl j (cblist ++ [oblist[i]]) (by omega) newBound rest (by
          rw [List.length_append, List.length_singleton]
          omega)
        rw [List.append_assoc, List.singleton_append] at next
        have chosen : (oblist[i] :: oblist.drop (i + 1)).filter (· ∉ nblist.drop j) =
            oblist[i] :: (oblist.drop (i + 1)).filter (· ∉ nblist.drop j) :=
          List.filter_cons_of_pos (decide_eq_true absent)
        rw [if_pos (decide_eq_true absent), fill, if_pos room_, ok_bind, chosen]
        exact next
      · have present : oblist[i] ∈ nblist.drop j := not_not.mp absent
        have ended : j < nblist.length := by
          by_contra past
          rw [List.drop_eq_nil_of_le (by omega)] at present
          exact List.not_mem_nil present
        have new := List.drop_eq_getElem_cons ended
        have newRest := newSorted.drop j
        rw [new] at newRest subset present
        have same : oblist[i] = nblist[j] := by
          rcases List.mem_cons.mp (subset List.mem_cons_self) with first | later
          · exact first.symm
          · rcases List.mem_cons.mp present with here | after
            · exact here
            · have up := (List.pairwise_cons.mp newRest.ranks).1 _ after
              have down := (List.pairwise_cons.mp oldRest.ranks).1 _ later
              omega
        have rest : nblist.drop (j + 1) ⊆ oblist.drop (i + 1) := by
          intro block member
          rcases List.mem_cons.mp (subset (List.mem_cons_of_mem _ member)) with first | later
          · rw [first, same] at member
            exact absurd member newRest.fresh
          · exact later
        have next := ih _ less (i + 1) rfl (j + 1) cblist (by omega) (by omega) rest (by omega)
        have kept : (oblist.drop (i + 1)).filter (· ∉ nblist.drop j) =
            (oblist.drop (i + 1)).filter (· ∉ nblist.drop (j + 1)) := by
          apply List.filter_congr
          intro block member
          have other : block ≠ nblist[j] := by
            rintro rfl
            rw [← same] at member
            exact oldRest.fresh member
          rw [new]
          apply decide_eq_decide.mpr
          rw [List.mem_cons, not_or]
          exact ⟨And.right, fun later => ⟨other, later⟩⟩
        have skipped : (oblist[i] :: oblist.drop (i + 1)).filter (· ∉ nblist.drop j) =
            (oblist.drop (i + 1)).filter (· ∉ nblist.drop j) :=
          List.filter_cons_of_neg (by rw [decide_eq_true_eq]; exact absent)
        rw [if_neg (by rw [decide_eq_true_eq]; exact absent), skipped, kept]
        exact next
    · have none : oblist.drop i = [] := List.drop_eq_nil_of_le (by omega)
      rw [none] at subset ⊢
      have nothing : nblist.drop j = [] := List.subset_nil.mp subset
      have atEnd : j = nblist.length := by
        have long := List.drop_eq_nil_iff.mp nothing
        omega
      rw [if_neg inside, List.filter_nil, List.append_nil, atEnd]
      refine ⟨rfl, ?_⟩
      omega

end Scans

/-- The program exits if and only if the new machine has a block that the old one does not have, or
there are blocks to copy and no memory for them. Otherwise it finds the blocks of the old machine
that the new one does not have, in order; they fill the array that is allocated for them. Neither
list is read, and the array not written, outside. -/
theorem compareblists_eq (oblist nblist : List Block) (malloc : Bool)
    (oldSorted : StrictlySorted oblist) (newSorted : StrictlySorted nblist) :
    compareblists oblist nblist malloc =
      (if ∃ block ∈ nblist, block ∉ oblist then
        .error (.exit "New machine has data not in old machine!  Cannot continue.")
      else if malloc = false ∧ oblist.filter (· ∉ nblist) ≠ [] then
        .error (.exit "Cannot allocate memory")
      else .ok (oblist.filter (· ∉ nblist))) ∧
    ((∀ block ∈ nblist, block ∈ oblist) →
      (oblist.filter (· ∉ nblist)).length = oblist.length - nblist.length) ∧
    StrictlySorted (oblist.filter (· ∉ nblist)) := by
  have first := subsetLoop_eq oldSorted newSorted 0 0 (Nat.zero_le _) (Nat.zero_le _)
  rw [List.drop_zero, List.drop_zero] at first
  have found : (∀ block ∈ nblist, block ∈ oblist) →
      copyLoop oblist nblist (oblist.length - nblist.length) 0 0 [] =
        .ok (oblist.filter (· ∉ nblist), nblist.length) ∧
      (oblist.filter (· ∉ nblist)).length = oblist.length - nblist.length := by
    intro subset
    have few := (List.Nodup.subperm newSorted.nodup subset).length_le
    have filled := copyLoop_eq oldSorted newSorted (oblist.length - nblist.length) 0 0 []
      (Nat.zero_le _) (Nat.zero_le _) subset (by
        rw [List.length_nil]
        omega)
    exact filled
  refine ⟨?_, fun subset => (found subset).2, oldSorted.filter _⟩
  by_cases subset : ∀ block ∈ nblist, block ∈ oblist
  · obtain ⟨copied, filled⟩ := found subset
    have none : ¬ ∃ block ∈ nblist, block ∉ oblist := by
      rintro ⟨block, member, absent⟩
      exact absent (subset block member)
    rw [if_neg none, compareblists, first, if_pos subset, ok_bind]
    by_cases same : oblist.length = nblist.length
    · have empty : oblist.filter (· ∉ nblist) = [] := by
        apply List.eq_nil_of_length_eq_zero
        omega
      rw [if_pos same, empty, if_neg fun refused => refused.2 rfl]
      rfl
    · have some_ : oblist.filter (· ∉ nblist) ≠ [] := by
        intro empty
        rw [empty, List.length_nil] at filled
        have few := (List.Nodup.subperm newSorted.nodup subset).length_le
        omega
      rw [if_neg same]
      by_cases refused : malloc = false
      · rw [if_pos refused, if_pos ⟨refused, some_⟩]
      · rw [if_neg refused, if_neg fun both => refused both.1]
        simp only [copied, ok_bind, ne_eq, not_true_eq_false, if_false, filled]
        rfl
  · have extra : ∃ block ∈ nblist, block ∉ oblist := by
      by_contra none
      apply subset
      intro block member
      by_contra absent
      exact none ⟨block, member, absent⟩
    rw [if_pos extra, compareblists, first, if_neg subset, error_bind]

section Example

/-- A chunk with a name of equal bytes. -/
def chunkBlock (byte : UInt8) : Block := ⟨99, Vector.replicate 32 byte⟩

/-- Of two chunks on the old machine, the one that the new machine lacks is copied. -/
theorem compareblists_two :
    compareblists [chunkBlock 1, chunkBlock 2] [chunkBlock 1] true = .ok [chunkBlock 2] := by
  have result := (compareblists_eq [chunkBlock 1, chunkBlock 2] [chunkBlock 1] true
    (List.pairwise_pair.mpr (by decide)) (List.pairwise_singleton _ _)).1
  rw [if_neg (by decide), if_neg (by decide)] at result
  have left : [chunkBlock 1, chunkBlock 2].filter (· ∉ [chunkBlock 1]) = [chunkBlock 2] := by
    decide
  rw [left] at result
  exact result

end Example

end Tarsnap.Recrypt
