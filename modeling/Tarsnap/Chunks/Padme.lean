import Tarsnap.Chunks.Write
import Tarsnap.Lib.Padding

/-!
# Padding of compressed chunks

The two loops of the padding compute the logarithm of a length and the number of its digits, and
the mask rounds the length up. So a padded length is the length padded to few significant bits and
cut off at the maximum, unless the shift by which the mask is made does not fit an `int`.
-/

namespace Tarsnap.Chunks

open Tarsnap.Lib

/-- The loop ends at the first shift that brings the value below the bound. -/
theorem shiftLoop_eq {bound value target : Nat} (stop : value >>> target < bound)
    (before : ∀ shift < target, bound ≤ value >>> shift) (fuel shift : Nat)
    (low : shift ≤ target) (enough : target ≤ shift + fuel) :
    shiftLoop bound value fuel shift = target := by
  induction fuel generalizing shift with
  | zero => exact Nat.le_antisymm low enough
  | succ fuel ih =>
    rw [shiftLoop]
    rcases Nat.eq_or_lt_of_le low with here | later
    · rw [here, if_pos stop]
    · have large := before shift later
      rw [if_neg (by omega)]
      exact ih (shift + 1) later (by omega)

/-- The first loop computes the logarithm. -/
theorem shiftLoop_log {len : Nat} (positive : 0 < len) (small : len < 18446744073709551616) :
    shiftLoop 2 len 64 0 = Nat.log 2 len := by
  have high := Nat.lt_pow_succ_log_self (b := 2) (by decide) len
  have low := Nat.pow_log_le_self 2 (show len ≠ 0 by omega)
  have limit : Nat.log 2 len < 64 := Nat.log_lt_of_lt_pow (by omega) small
  apply shiftLoop_eq
  · rw [Nat.shiftRight_eq_div_pow, Nat.div_lt_iff_lt_mul (Nat.two_pow_pos _), Nat.mul_comm]
    exact high
  · intro shift less
    rw [Nat.shiftRight_eq_div_pow, Nat.le_div_iff_mul_le (Nat.two_pow_pos _), Nat.mul_comm]
    exact (Nat.pow_le_pow_right (by decide) less).trans low
  · exact Nat.zero_le _
  · omega

/-- The second loop counts the binary digits. -/
theorem shiftLoop_size {e : Nat} (positive : 0 < e) (small : e < 64) :
    shiftLoop 1 e 64 1 = Nat.size e := by
  have digits : 1 ≤ Nat.size e := Nat.size_pos.mpr positive
  have bound := size_le_self e
  apply shiftLoop_eq
  · rw [Nat.shiftRight_eq_div_pow, Nat.div_lt_iff_lt_mul (Nat.two_pow_pos _), Nat.one_mul]
    exact Nat.lt_size_self e
  · intro shift less
    rw [Nat.shiftRight_eq_div_pow, Nat.le_div_iff_mul_le (Nat.two_pow_pos _), Nat.one_mul]
    exact Nat.lt_size.mp less
  · exact digits
  · omega

/-- Clearing the low bits of a word rounds it down. -/
theorem and_mask {value bits : Nat} (small : value < 18446744073709551616) :
    value &&& (18446744073709551615 ^^^ (1 <<< bits - 1)) = value / 2 ^ bits * 2 ^ bits := by
  have word : (18446744073709551615 : Nat) = 2 ^ 64 - 1 := by decide
  have power : 1 <<< bits = 2 ^ bits := Nat.one_shiftLeft bits
  apply Nat.eq_of_testBit_eq
  intro index
  have shifted : (value / 2 ^ bits * 2 ^ bits).testBit index =
      (decide (bits ≤ index) && value.testBit index) := by
    rw [← Nat.shiftLeft_eq, ← Nat.shiftRight_eq_div_pow, Nat.testBit_shiftLeft,
      Nat.testBit_shiftRight]
    by_cases high : bits ≤ index
    · rw [Nat.add_sub_cancel' high]
    · simp [high]
  have beyond : 64 ≤ index → value.testBit index = false := by
    intro far
    apply Nat.testBit_lt_two_pow
    calc value < 2 ^ 64 := small
      _ ≤ 2 ^ index := Nat.pow_le_pow_right (by decide) far
  rw [shifted, word, power, Nat.testBit_and, Nat.testBit_xor, Nat.testBit_two_pow_sub_one,
    Nat.testBit_two_pow_sub_one]
  by_cases far : 64 ≤ index
  · rw [beyond far]
    simp
  · by_cases high : bits ≤ index
    · simp [high, Nat.lt_of_not_le far, Nat.not_lt.mpr high]
    · simp [high, Nat.lt_of_not_le far, Nat.lt_of_not_le high]

/-- Lengths of at most three bits are not padded. -/
theorem padTo_small {len : Nat} (positive : 0 < len) (small : len ≤ 8) : padTo len = len := by
  have known : ∀ n : Fin 8, padTo (n.val + 1) = n.val + 1 := by decide
  have value := known ⟨len - 1, by omega⟩
  rwa [Nat.sub_add_cancel positive] at value

/-- The shift fits exactly for lengths below `2 ^ 37`. -/
theorem clearedBits_iff {len : Nat} (positive : 0 < len) (small : len < 18446744073709551616) :
    clearedBits len < 31 ↔ len < 137438953472 := by
  have limit : Nat.log 2 len < 64 := Nat.log_lt_of_lt_pow (by omega) small
  have known : ∀ e : Fin 64, e.val - Nat.size e.val < 31 ↔ e.val < 37 := by decide
  have value := known ⟨Nat.log 2 len, limit⟩
  have power : Nat.log 2 len < 37 ↔ len < 2 ^ 37 := Nat.log_lt_iff_lt_pow (by decide) (by omega)
  exact value.trans power

/-- The padding of a length fills it up to the padded length or the maximum, unless the shift does
not fit. -/
theorem padme_eq {len maxlen : Nat} (positive : 0 < len) (within : len ≤ maxlen)
    (small : len < 18446744073709551616) :
    padme len maxlen = if clearedBits len < 31 then some (min (padTo len) maxlen - len)
      else none := by
  rw [padme, if_neg (by omega)]
  by_cases short : len ≤ 8
  · have few : clearedBits len < 31 := by
      have log : Nat.log 2 len < 4 := Nat.log_lt_of_lt_pow (by omega) (by omega)
      unfold clearedBits
      omega
    rw [if_pos short, if_pos few, padTo_small positive short, Nat.min_eq_left within, Nat.sub_self]
  · have log : 3 ≤ Nat.log 2 len := Nat.le_log_of_pow_le (by decide) (by omega)
    have limit : Nat.log 2 len < 64 := Nat.log_lt_of_lt_pow (by omega) small
    rw [if_neg short]
    simp only [shiftLoop_log positive small, shiftLoop_size (show 0 < Nat.log 2 len by omega) limit,
      intShift]
    rw [← clearedBits]
    by_cases few : clearedBits len < 31
    · rw [if_pos few, if_pos few]
      have power : 1 <<< clearedBits len = 2 ^ clearedBits len := Nat.one_shiftLeft _
      have short := (clearedBits_iff positive small).mp few
      have step : 2 ^ clearedBits len ≤ 2 ^ 30 := Nat.pow_le_pow_right (by decide) (by omega)
      have fits : len + (1 <<< clearedBits len - 1) < 18446744073709551616 := by
        rw [power]
        omega
      have rounded : (len + (1 <<< clearedBits len - 1)) % 18446744073709551616 &&&
          (18446744073709551615 ^^^ (1 <<< clearedBits len - 1)) = padTo len := by
        rw [Nat.mod_eq_of_lt fits, and_mask fits, power]
        rfl
      simp only [bind, Option.bind, pure]
      rw [rounded]
      by_cases beyond : padTo len > maxlen
      · rw [if_pos beyond, Nat.min_eq_right (by omega)]
      · rw [if_neg beyond, Nat.min_eq_left (by omega)]
    · rw [if_neg few, if_neg few]
      rfl

/-- The padded length that the padding leads to. -/
def paddedLength (len maxlen : Nat) : Option Nat := (padme len maxlen).map (len + ·)

/-- The padding for a maximum: a padded length is defined, not below the length and at most the
maximum, grows with the length, is padded to itself, wastes less than the length divided by two to
the digits of its logarithm, and takes few values between two powers of two. -/
structure PadmeSound (maxlen : Nat) : Prop where
  /-- The padded length lies between the length and the maximum, is padded to itself, and the
  padding is short. -/
  padded : ∀ len, 0 < len → len ≤ maxlen → ∃ plen, paddedLength len maxlen = some plen ∧
    len ≤ plen ∧ plen ≤ maxlen ∧ paddedLength plen maxlen = some plen ∧
    (plen - len) * 2 ^ Nat.size (Nat.log 2 len) < len
  /-- Padding keeps the order. -/
  mono : ∀ len longer plen plonger, 0 < len → len ≤ longer → longer ≤ maxlen →
    paddedLength len maxlen = some plen → paddedLength longer maxlen = some plonger →
    plen ≤ plonger
  /-- The lengths between two powers of two have few padded lengths. -/
  few : ∀ e, (((Finset.Ico (2 ^ e) (2 ^ (e + 1))).filter (· ≤ maxlen)).image
    (paddedLength · maxlen)).card ≤ 2 ^ Nat.size e + 1

/-- The padded length is the length padded to few significant bits, cut off at the maximum. -/
theorem paddedLength_eq {len maxlen : Nat} (positive : 0 < len) (within : len ≤ maxlen)
    (fits : maxlen < 137438953472) : paddedLength len maxlen = some (min (padTo len) maxlen) := by
  have shift := (clearedBits_iff positive (by omega)).mpr (show len < 137438953472 by omega)
  have above := (padTo_bounds len).1
  rw [paddedLength, padme_eq positive within (by omega), if_pos shift, Option.map_some]
  congr 1
  omega

/-- The padding for a maximum is sound exactly while the shift fits an `int` for every length. -/
theorem padmeSound_iff {maxlen : Nat} (word : maxlen < 18446744073709551616) :
    PadmeSound maxlen ↔ maxlen < 137438953472 := by
  constructor
  · intro sound
    by_contra long
    obtain ⟨plen, defined, _⟩ := sound.padded 137438953472 (by decide) (by omega)
    have shift : ¬ clearedBits 137438953472 < 31 := by
      rw [clearedBits_iff (by decide) (by decide)]
      decide
    rw [paddedLength, padme_eq (by decide) (by omega) (by decide), if_neg shift] at defined
    exact nomatch defined
  · intro fits
    refine ⟨?_, ?_, ?_⟩
    · intro len positive within
      have above := (padTo_bounds len).1
      have waste := padTo_waste positive
      have value := paddedLength_eq positive within fits
      refine ⟨min (padTo len) maxlen, value, by omega, by omega, ?_, ?_⟩
      · rw [paddedLength_eq (by omega) (by omega) fits, padTo_min_idem positive]
      · have cut : min (padTo len) maxlen - len ≤ padTo len - len := by omega
        exact (Nat.mul_le_mul_right _ cut).trans_lt waste
    · intro len longer plen plonger positive order within padded paddedLonger
      rw [paddedLength_eq positive (by omega) fits] at padded
      rw [paddedLength_eq (by omega) within fits] at paddedLonger
      have mono := padTo_mono positive order
      have first := Option.some.inj padded
      have second := Option.some.inj paddedLonger
      omega
    · intro e
      have covered : ((Finset.Ico (2 ^ e) (2 ^ (e + 1))).filter (· ≤ maxlen)).image
          (paddedLength · maxlen) ⊆ ((Finset.Ico (2 ^ e) (2 ^ (e + 1))).image
            fun len => min (padTo len) maxlen).image some := by
        intro value member
        obtain ⟨len, inside, same⟩ := Finset.mem_image.mp member
        obtain ⟨range, within⟩ := Finset.mem_filter.mp inside
        have positive : 0 < len := by
          have low := (Finset.mem_Ico.mp range).1
          have power := Nat.two_pow_pos e
          omega
        rw [paddedLength_eq positive within fits] at same
        exact Finset.mem_image.mpr ⟨_, Finset.mem_image_of_mem _ range, same⟩
      calc _ ≤ _ := Finset.card_le_card covered
        _ ≤ _ := Finset.card_image_le
        _ ≤ 2 ^ Nat.size e + 1 := card_padTo_le maxlen e

end Tarsnap.Chunks
