import Mathlib.Data.List.Chain
import Tarsnap.Lib.Word

/-!
# The order of byte strings

Byte strings of one length are ordered like the numbers that they encode, most significant byte
first. A listing is read in pages: each name is at least the successor of the name before it, where
the successor of the greatest name is zero. Such a listing is strictly increasing exactly if the
greatest name is followed by nothing.
-/

namespace Tarsnap.Lib

section Numbers

/-- The number that a string of bytes encodes, by its first byte. -/
theorem beDec_cons (byte : UInt8) (rest : List UInt8) :
    beDec (byte :: rest) = byte.toNat * 256 ^ rest.length + beDec rest := by
  have append (low high : List UInt8) :
      leDec (low ++ high) = leDec low + 256 ^ low.length * leDec high := by
    induction low with
    | nil => simp [leDec]
    | cons first low ih =>
      rw [List.cons_append, leDec, leDec, ih, List.length_cons, pow_succ']
      ring
  unfold beDec
  rw [List.reverse_cons, append, List.length_reverse, leDec, leDec]
  ring

/-- Strings of one length that encode the same number are the same. -/
theorem beDec_inj {left right : List UInt8} (lengths : left.length = right.length) :
    beDec left = beDec right ↔ left = right := by
  constructor
  · intro same
    unfold beDec at same
    have reversed : left.reverse = right.reverse := by
      rw [← leEnc_leDec left.reverse, ← leEnc_leDec right.reverse, same, List.length_reverse,
        List.length_reverse, lengths]
    exact List.reverse_injective reversed
  · exact congrArg beDec

/-- Strings of one length are ordered like the numbers that they encode. -/
theorem memcmp_eq_compare {left right : List UInt8} (lengths : left.length = right.length) :
    memcmp left right = compare (beDec left) (beDec right) := by
  induction left generalizing right with
  | nil =>
    obtain rfl := List.eq_nil_of_length_eq_zero lengths.symm
    rfl
  | cons first left ih =>
    cases right with
    | nil => cases lengths
    | cons second right =>
      have tails : left.length = right.length := Nat.succ.inj lengths
      have small := beDec_lt left
      have small' := beDec_lt right
      rw [memcmp, beDec_cons, beDec_cons, ← tails]
      rw [← tails] at small'
      split
      · rename_i less
        have more : first.toNat + 1 ≤ second.toNat := less
        have high := Nat.mul_le_mul_right (256 ^ left.length) more
        rw [Nat.add_mul, Nat.one_mul] at high
        exact (Nat.compare_eq_lt.mpr (by omega)).symm
      · split
        · rename_i less
          have more : second.toNat + 1 ≤ first.toNat := less
          have high := Nat.mul_le_mul_right (256 ^ left.length) more
          rw [Nat.add_mul, Nat.one_mul] at high
          exact (Nat.compare_eq_gt.mpr (by omega)).symm
        · rename_i notLess notMore
          have equal : first.toNat = second.toNat :=
            Nat.le_antisymm (Nat.not_lt.mp notMore) (Nat.not_lt.mp notLess)
          rw [equal, ih tails]
          simp only [compare, compareOfLessAndEq, Nat.add_lt_add_iff_left,
            Nat.add_left_cancel_iff]

end Numbers

section Pages

variable {modulus : Nat} {names : List Nat}

/-- Where a listing goes on after the given names. -/
def cursor (modulus : Nat) (names : List Nat) : Nat :=
  match names.getLast? with
  | none => 0
  | some last => (last + 1) % modulus

/-- Each name is at least the successor of the one before it. -/
def Paged (modulus : Nat) (names : List Nat) : Prop :=
  names.IsChain fun before after => (before + 1) % modulus ≤ after

/-- A listing goes on after its last name. -/
theorem cursor_concat (names : List Nat) (name : Nat) :
    cursor modulus (names ++ [name]) = (name + 1) % modulus := by
  unfold cursor
  rw [List.getLast?_concat]

/-- A listing that goes on at the cursor or later. -/
theorem Paged.concat (paged : Paged modulus names) {name : Nat}
    (later : cursor modulus names ≤ name) : Paged modulus (names ++ [name]) := by
  unfold Paged
  refine List.isChain_append.mpr ⟨paged, List.isChain_singleton name, ?_⟩
  intro last atEnd first atStart
  obtain rfl : first = name := by
    rw [List.head?_cons] at atStart
    exact (Option.mem_some.mp atStart).symm
  unfold cursor at later
  rw [Option.mem_def.mp atEnd] at later
  exact later

/-- A listing is strictly increasing exactly if the greatest name is followed by nothing. -/
theorem Paged.increasing_iff (paged : Paged modulus names)
    (small : ∀ name ∈ names, name < modulus) :
    names.Pairwise (· < ·) ↔ modulus - 1 ∉ names.dropLast := by
  rw [← List.isChain_iff_pairwise]
  unfold Paged at paged
  induction names with
  | nil => simp
  | cons first names ih =>
    cases names with
    | nil => simp
    | cons second names =>
      have next := List.isChain_cons_cons.mp paged
      have bound := small second (by simp)
      have bound' := small first (by simp)
      rw [List.isChain_cons_cons, List.dropLast_cons_cons, List.mem_cons, not_or,
        ih next.2 fun name member => small name (List.mem_cons_of_mem _ member)]
      apply and_congr_left
      intro _
      constructor
      · intro less top
        omega
      · intro notTop
        have successor := next.1
        rw [Nat.mod_eq_of_lt (by omega)] at successor
        omega

end Pages

end Tarsnap.Lib
