import Mathlib.Data.Finset.Card
import Mathlib.Data.Nat.Log
import Mathlib.Data.Nat.Size
import Mathlib.Order.Interval.Finset.Nat
import Mathlib.Tactic.Linarith
import Mathlib.Tactic.Ring

/-!
# Padding lengths to few significant bits

A length is rounded up so that only its first bits may be set: as many after the leading one as its
logarithm has binary digits. The padded lengths between two powers of two are few, and the padding
is a small part of the length. A limit cuts the padding off without disturbing either.
-/

namespace Tarsnap.Lib

/-- The least multiple of a step that is not below a number. -/
def roundUp (step n : Nat) : Nat := (n + (step - 1)) / step * step

/-- Rounding up adds less than a step. -/
theorem roundUp_bounds {step : Nat} (positive : 0 < step) (n : Nat) :
    n ≤ roundUp step n ∧ roundUp step n < n + step := by
  have exact := Nat.div_add_mod (n + (step - 1)) step
  have rest := Nat.mod_lt (n + (step - 1)) positive
  rw [Nat.mul_comm] at exact
  unfold roundUp
  omega

/-- A multiple of the step that is not below a number is not below it rounded up. -/
theorem roundUp_le {step n multiple : Nat} (positive : 0 < step) (above : n ≤ multiple * step) :
    roundUp step n ≤ multiple * step := by
  apply Nat.mul_le_mul_right
  rw [← Nat.lt_succ_iff, Nat.div_lt_iff_lt_mul positive, Nat.succ_mul]
  omega

/-- Rounding up keeps the order. -/
theorem roundUp_mono {step n m : Nat} (le : n ≤ m) : roundUp step n ≤ roundUp step m :=
  Nat.mul_le_mul_right _ (Nat.div_le_div_right (by omega))

/-- Multiples of the step stay. -/
theorem roundUp_of_dvd {step n : Nat} (positive : 0 < step) (divides : step ∣ n) :
    roundUp step n = n := by
  have multiple := Nat.div_mul_cancel divides
  apply Nat.le_antisymm
  · rw [← multiple]
    exact roundUp_le positive (le_of_eq (by rw [multiple]))
  · exact (roundUp_bounds positive n).1

/-- A rounded number is a multiple of the step. -/
theorem dvd_roundUp (step n : Nat) : step ∣ roundUp step n := Dvd.intro_left _ rfl

/-- The number of low bits that are cleared from a length. -/
def clearedBits (n : Nat) : Nat := Nat.log 2 n - Nat.size (Nat.log 2 n)

/-- A length padded to few significant bits. -/
def padTo (n : Nat) : Nat := roundUp (2 ^ clearedBits n) n

/-- A number has no more binary digits than its value. -/
theorem size_le_self (n : Nat) : Nat.size n ≤ n := Nat.size_le.mpr Nat.lt_two_pow_self

/-- The step of the padding and the number of steps between two powers of two. -/
theorem pow_cleared (n : Nat) :
    2 ^ Nat.size (Nat.log 2 n) * 2 ^ clearedBits n = 2 ^ Nat.log 2 n := by
  rw [← pow_add, clearedBits, Nat.add_sub_cancel' (size_le_self _)]

/-- Padding adds less than a step. -/
theorem padTo_bounds (n : Nat) : n ≤ padTo n ∧ padTo n < n + 2 ^ clearedBits n :=
  roundUp_bounds (Nat.two_pow_pos _) n

/-- A padded length is at most the next power of two. -/
theorem padTo_le_pow {n : Nat} : padTo n ≤ 2 ^ (Nat.log 2 n + 1) := by
  have power : 2 ^ (Nat.log 2 n + 1) =
      2 * 2 ^ Nat.size (Nat.log 2 n) * 2 ^ clearedBits n := by
    rw [Nat.mul_assoc, pow_cleared, pow_succ]
    ring
  have below := Nat.lt_pow_succ_log_self (b := 2) (by decide) n
  rw [power]
  apply roundUp_le (Nat.two_pow_pos _)
  rw [← power]
  exact below.le

/-- Padding keeps the order. -/
theorem padTo_mono {n m : Nat} (positive : 0 < n) (le : n ≤ m) : padTo n ≤ padTo m := by
  have logs : Nat.log 2 n ≤ Nat.log 2 m := Nat.log_mono_right le
  rcases Nat.eq_or_lt_of_le logs with same | less
  · have cleared : clearedBits n = clearedBits m := by rw [clearedBits, clearedBits, same]
    rw [padTo, padTo, cleared]
    exact roundUp_mono le
  · calc padTo n ≤ 2 ^ (Nat.log 2 n + 1) := padTo_le_pow
      _ ≤ 2 ^ Nat.log 2 m := Nat.pow_le_pow_right (by decide) less
      _ ≤ m := Nat.pow_log_le_self 2 (by omega)
      _ ≤ padTo m := (padTo_bounds m).1

/-- A padded length is padded to itself. -/
theorem padTo_idem {n : Nat} (positive : 0 < n) : padTo (padTo n) = padTo n := by
  have low : 2 ^ Nat.log 2 n ≤ padTo n :=
    (Nat.pow_log_le_self 2 (by omega)).trans (padTo_bounds n).1
  apply roundUp_of_dvd (Nat.two_pow_pos _)
  rcases Nat.eq_or_lt_of_le (padTo_le_pow (n := n)) with top | within
  · have log : Nat.log 2 (padTo n) = Nat.log 2 n + 1 := by
      rw [top]
      exact Nat.log_pow (by decide) _
    have cleared : clearedBits (padTo n) ≤ Nat.log 2 n + 1 := by
      rw [clearedBits, log]
      exact Nat.sub_le _ _
    conv_rhs => rw [top]
    exact Nat.pow_dvd_pow 2 cleared
  · have log : Nat.log 2 (padTo n) = Nat.log 2 n :=
      Nat.log_eq_of_pow_le_of_lt_pow low within
    have cleared : clearedBits (padTo n) = clearedBits n := by rw [clearedBits, clearedBits, log]
    rw [cleared]
    exact dvd_roundUp _ n

/-- The padding is less than the length divided by two to the digits of its logarithm. -/
theorem padTo_waste {n : Nat} (positive : 0 < n) :
    (padTo n - n) * 2 ^ Nat.size (Nat.log 2 n) < n := by
  obtain ⟨low, high⟩ := padTo_bounds n
  have digits := Nat.two_pow_pos (Nat.size (Nat.log 2 n))
  have added : padTo n - n < 2 ^ clearedBits n := by omega
  calc (padTo n - n) * 2 ^ Nat.size (Nat.log 2 n)
      < 2 ^ clearedBits n * 2 ^ Nat.size (Nat.log 2 n) := Nat.mul_lt_mul_of_pos_right added digits
    _ = 2 ^ Nat.log 2 n := by rw [Nat.mul_comm, pow_cleared]
    _ ≤ n := Nat.pow_log_le_self 2 (by omega)

/-- The padded lengths between two powers of two are the steps from the lower one. -/
theorem padTo_eq_step {e n : Nat} (low : 2 ^ e ≤ n) (high : n < 2 ^ (e + 1)) :
    ∃ index, index < 2 ^ Nat.size e + 1 ∧ padTo n = 2 ^ e + index * 2 ^ (e - Nat.size e) := by
  have log : Nat.log 2 n = e := Nat.log_eq_of_pow_le_of_lt_pow low high
  have bound := padTo_le_pow (n := n)
  have above := (padTo_bounds n).1
  have whole := pow_cleared n
  have cleared : clearedBits n = e - Nat.size e := by rw [clearedBits, log]
  obtain ⟨multiple, value⟩ := dvd_roundUp (2 ^ clearedBits n) n
  rw [← padTo, cleared] at value
  rw [log, cleared] at whole
  rw [log, pow_succ] at bound
  have steps : 2 ^ Nat.size e ≤ multiple := by
    apply Nat.le_of_mul_le_mul_right _ (Nat.two_pow_pos (e - Nat.size e))
    rw [whole, Nat.mul_comm multiple]
    omega
  refine ⟨multiple - 2 ^ Nat.size e, ?_, ?_⟩
  · have double : multiple * 2 ^ (e - Nat.size e) ≤
        2 * 2 ^ Nat.size e * 2 ^ (e - Nat.size e) := by
      rw [Nat.mul_assoc, whole, Nat.mul_comm multiple]
      omega
    have most := Nat.le_of_mul_le_mul_right double (Nat.two_pow_pos _)
    omega
  · rw [value, ← whole, ← Nat.add_mul, Nat.add_sub_cancel' steps, Nat.mul_comm]

/-- Cut off at a limit, at most one more padded length than there are steps lies between two
powers of two. -/
theorem card_padTo_le (limit e : Nat) :
    ((Finset.Ico (2 ^ e) (2 ^ (e + 1))).image fun n => min (padTo n) limit).card ≤
      2 ^ Nat.size e + 1 := by
  have covered : (Finset.Ico (2 ^ e) (2 ^ (e + 1))).image (fun n => min (padTo n) limit) ⊆
      (Finset.range (2 ^ Nat.size e + 1)).image fun index =>
        min (2 ^ e + index * 2 ^ (e - Nat.size e)) limit := by
    intro value member
    obtain ⟨n, range, same⟩ := Finset.mem_image.mp member
    obtain ⟨low, high⟩ := Finset.mem_Ico.mp range
    obtain ⟨index, small, step⟩ := padTo_eq_step low high
    rw [step] at same
    exact Finset.mem_image.mpr ⟨index, Finset.mem_range.mpr small, same⟩
  calc _ ≤ _ := Finset.card_le_card covered
    _ ≤ (Finset.range (2 ^ Nat.size e + 1)).card := Finset.card_image_le
    _ = 2 ^ Nat.size e + 1 := Finset.card_range _

/-- Cut off at a limit, a padded length is padded to itself. -/
theorem padTo_min_idem {n limit : Nat} (positive : 0 < n) :
    min (padTo (min (padTo n) limit)) limit = min (padTo n) limit := by
  rcases Nat.le_total (padTo n) limit with short | long
  · rw [Nat.min_eq_left short, padTo_idem positive, Nat.min_eq_left short]
  · have beyond := (padTo_bounds limit).1
    rw [Nat.min_eq_right long, Nat.min_eq_right beyond]

end Tarsnap.Lib
