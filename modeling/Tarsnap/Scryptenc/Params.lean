import Mathlib.Algebra.Order.Floor.Semiring
import Mathlib.Data.Rat.Floor
import Mathlib.Tactic.Linarith
import Tarsnap.Crypto.Rsa
import Tarsnap.Netpacket.Packet

/-!
# Parameters of scrypt

The key that encrypts a passphrase-protected block is derived from the passphrase with scrypt. Its
parameters are given explicitly or picked according to the memory and the processor time that may
be used, and a block is decrypted only if its parameters are within these limits or the limits are
not to be checked.

A double is the rational number that it is. Dividing it by powers of two is exact; the conversion of
an integer and the divisions by the other parameters round.
-/

namespace Tarsnap.Scryptenc

open Tarsnap.Netpacket

/-- What goes wrong, the return codes other than success. -/
inductive ScryptError where
  /-- The memory limits cannot be found. -/
  | elimit
  /-- The clock cannot be read. -/
  | eclock
  /-- The derived key cannot be computed. -/
  | ekey
  /-- There is no salt. -/
  | esalt
  /-- The key cannot be expanded. -/
  | eopenssl
  /-- There is no memory. -/
  | enomem
  /-- The data is not a valid encrypted block. -/
  | einval
  /-- The version number is not recognized. -/
  | eversion
  /-- Decrypting would take too much memory. -/
  | etoobig
  /-- Decrypting would take too long. -/
  | etooslow
  /-- The passphrase is incorrect. -/
  | epass
  /-- Writing the output fails. -/
  | ewrfile
  /-- Reading the input fails. -/
  | erdfile
  /-- The explicit parameters are wrong. -/
  | eparam
  /-- Decrypting would take too much memory and too long. -/
  | ebigslow
deriving DecidableEq, Repr

/-- The explicit parameters of scrypt. -/
@[ext] structure ScryptencParams where
  /-- The logarithm of N, or zero if the parameters are to be picked. -/
  logN : Int
  /-- The parameter r. -/
  r : UInt32
  /-- The parameter p. -/
  p : UInt32
deriving DecidableEq, Repr

/-- What may be used, and what doubles do. -/
structure Limits where
  /-- The memory that may be used, if it can be found. -/
  memlimit : Option Nat
  /-- At least a mebibyte may be used. -/
  memlimit_min : ∀ limit, memlimit = some limit → 1048576 ≤ limit
  /-- The operations that may be used: those of a second times the seconds. -/
  opslimit : Except ScryptError ℚ
  /-- The double that is nearest to an integer. -/
  toDouble : Nat → ℚ
  /-- Rounding keeps the order. -/
  toDouble_mono : Monotone toDouble
  /-- Rounding does not depend on the exponent. -/
  toDouble_scale : ∀ n, toDouble (1024 * n) = 1024 * toDouble n
  /-- Small integers are not rounded. -/
  toDouble_small : ∀ n < 2 ^ 53, toDouble n = n
  /-- Whether the operations, divided by N, r and p, are less than four. -/
  tooSlow : ℚ → ScryptencParams → Bool

variable (L : Limits)

/-- The least exponent from one on whose power of two is more than half of a number, tried so many
times. -/
def pickLogN (maxN : ℚ) : Nat → Nat → Nat
  | 0, logN => logN
  | more + 1, logN => if maxN / 2 < 2 ^ logN then logN else pickLogN maxN more (logN + 1)

/-- Pick parameters. -/
def pickparams : Except ScryptError ScryptencParams :=
  match L.memlimit with
  | none => .error .elimit
  | some memlimit =>
    match L.opslimit with
    | .error rc => .error rc
    | .ok opslimit =>
      let opslimit := if opslimit < 32768 then 32768 else opslimit
      if opslimit < L.toDouble memlimit / 32 then
        .ok ⟨pickLogN (opslimit / 32) 62 1, 8, 1⟩
      else
        let logN := pickLogN (L.toDouble (memlimit / 1024)) 62 1
        let maxrp := opslimit / 4 / 2 ^ logN
        let maxrp := if 0x3fffffff < maxrp then 0x3fffffff else maxrp
        .ok ⟨logN, 8, UInt32.ofNat ⌊maxrp⌋₊ / 8⟩

/-- Check parameters, and that they are within the limits unless decryption is forced. -/
def checkparams (P : ScryptencParams) (force : Bool) : Except ScryptError Unit :=
  if P.logN < 1 ∨ 63 < P.logN then .error .einval
  else if 0x40000000 ≤ P.r.toNat * P.p.toNat then .error .einval
  else if P.r = 0 ∨ P.p = 0 then .error .einval
  else if force then .ok ()
  else
    match L.memlimit with
    | none => .error .elimit
    | some memlimit =>
      match L.opslimit with
      | .error rc => .error rc
      | .ok opslimit =>
        if memlimit / 2 ^ P.logN.toNat / P.r.toNat < 128 ∧ L.tooSlow opslimit P then
          .error .ebigslow
        else if memlimit / 2 ^ P.logN.toNat / P.r.toNat < 128 then .error .etoobig
        else if L.tooSlow opslimit P then .error .etooslow
        else .ok ()

/-- Determine the parameters of an encryption. That explicit parameters exceed the limits is only
worth a warning. -/
def chooseParams (P : ScryptencParams) (force : Bool) : Except ScryptError ScryptencParams :=
  if P.logN ≠ 0 then
    match checkparams L P force with
    | .error .etoobig => .ok P
    | .error .etooslow => .ok P
    | .error .ebigslow => .ok P
    | .error .einval => .error .eparam
    | .error rc => .error rc
    | .ok () => .ok P
  else pickparams L

/-- Parameters that scrypt accepts. -/
structure ScryptencParams.Sane (P : ScryptencParams) : Prop where
  /-- N is at least two. -/
  low : 1 ≤ P.logN
  /-- N is a 64-bit number. -/
  high : P.logN ≤ 63
  /-- The product of r and p is small. -/
  small : P.r.toNat * P.p.toNat < 0x40000000
  /-- Neither r nor p is zero. -/
  positive : P.r ≠ 0 ∧ P.p ≠ 0

section Sane

variable {L} {P : ScryptencParams} {force : Bool}

/-- Parameters that are not sane are invalid. -/
theorem checkparams_insane (insane : ¬P.Sane) : checkparams L P force = .error .einval := by
  rw [checkparams]
  by_cases range : P.logN < 1 ∨ 63 < P.logN
  · rw [if_pos range]
  · by_cases large : 0x40000000 ≤ P.r.toNat * P.p.toNat
    · rw [if_neg range, if_pos large]
    · have zero : P.r = 0 ∨ P.p = 0 := by
        by_contra positive
        rw [not_or] at range positive
        exact insane ⟨by omega, by omega, Nat.lt_of_not_le large, positive⟩
      rw [if_neg range, if_neg large, if_pos zero]

/-- Sane parameters are accepted when decryption is forced. -/
theorem checkparams_forced (sane : P.Sane) : checkparams L P true = .ok () := by
  have low := sane.low
  have high := sane.high
  have range : ¬(P.logN < 1 ∨ 63 < P.logN) := by omega
  rw [checkparams, if_neg range, if_neg (Nat.not_le_of_lt sane.small),
    if_neg (not_or.mpr sane.positive), if_pos rfl]

/-- The search stays within its bounds. -/
theorem pickLogN_bounds (maxN : ℚ) (more logN : Nat) :
    logN ≤ pickLogN maxN more logN ∧ pickLogN maxN more logN ≤ logN + more := by
  induction more generalizing logN with
  | zero => exact ⟨Nat.le_refl _, Nat.le_refl _⟩
  | succ more ih =>
    rw [pickLogN]
    split
    · exact ⟨Nat.le_refl _, Nat.le_add_right _ _⟩
    · have next := ih (logN + 1)
      omega

/-- The search finds a power of two that is not more than the number, if it starts with one. -/
theorem pickLogN_le {maxN : ℚ} {logN : Nat} (more : Nat) (start : (2 : ℚ) ^ logN ≤ maxN) :
    (2 : ℚ) ^ pickLogN maxN more logN ≤ maxN := by
  induction more generalizing logN with
  | zero => exact start
  | succ more ih =>
    rw [pickLogN]
    split
    · exact start
    · rename_i less
      apply ih
      rw [pow_succ]
      linarith

/-- What is picked is sane. -/
theorem pickparams_sane (picked : pickparams L = .ok P) : P.Sane := by
  rw [pickparams] at picked
  cases memory : L.memlimit with
  | none => rw [memory] at picked; cases picked
  | some memlimit =>
    cases operations : L.opslimit with
    | error rc => rw [memory, operations] at picked; cases picked
    | ok given =>
      have enough := L.memlimit_min memlimit memory
      simp only [memory, operations] at picked
      generalize (if given < 32768 then (32768 : ℚ) else given) = opslimit at picked
      by_cases limited : opslimit < L.toDouble memlimit / 32
      · rw [if_pos limited] at picked
        cases picked
        have bounds := pickLogN_bounds (opslimit / 32) 62 1
        have product : (8 : UInt32).toNat * (1 : UInt32).toNat < 0x40000000 := by decide
        have positive : (8 : UInt32) ≠ 0 ∧ (1 : UInt32) ≠ 0 := by decide
        exact ⟨by simp only; omega, by simp only; omega, product, positive⟩
      · rw [if_neg limited] at picked
        cases picked
        have bounds := pickLogN_bounds (L.toDouble (memlimit / 1024)) 62 1
        have least : (1024 : ℚ) ≤ L.toDouble (memlimit / 1024) := by
          have exact : L.toDouble 1024 = 1024 := L.toDouble_small 1024 (by decide)
          rw [← exact]
          exact L.toDouble_mono (by omega)
        have found : (2 : ℚ) ^ pickLogN (L.toDouble (memlimit / 1024)) 62 1 ≤
            L.toDouble (memlimit / 1024) := pickLogN_le 62 (by linarith)
        -- The operations suffice for p to be at least one.
        have scaled : 1024 * L.toDouble (memlimit / 1024) ≤ L.toDouble memlimit := by
          rw [← L.toDouble_scale]
          exact L.toDouble_mono (Nat.mul_div_le memlimit 1024)
        generalize pickLogN (L.toDouble (memlimit / 1024)) 62 1 = logN at bounds found ⊢
        have powers : (0 : ℚ) < 2 ^ logN := by positivity
        have many : (8 : ℚ) ≤ opslimit / 4 / 2 ^ logN := by
          rw [le_div_iff₀ powers]
          linarith
        have capped : ∃ maxrp : ℚ, (if (0x3fffffff : ℚ) < opslimit / 4 / 2 ^ logN then 0x3fffffff
            else opslimit / 4 / 2 ^ logN) = maxrp ∧ 8 ≤ maxrp ∧ maxrp ≤ 0x3fffffff := by
          refine ⟨_, rfl, ?_⟩
          split
          · norm_num
          · rename_i below
            exact ⟨many, not_lt.mp below⟩
        obtain ⟨maxrp, same, more, less⟩ := capped
        rw [same]
        have lower : 8 ≤ ⌊maxrp⌋₊ := Nat.le_floor (by exact_mod_cast more)
        have upper : ⌊maxrp⌋₊ ≤ 0x3fffffff := Nat.floor_le_of_le (by exact_mod_cast less)
        have quotient : (UInt32.ofNat ⌊maxrp⌋₊ / 8).toNat = ⌊maxrp⌋₊ / 8 := by
          have size : UInt32.size = 2 ^ 32 := rfl
          rw [UInt32.toNat_div, UInt32.toNat_ofNat_of_lt' (by omega)]
          rfl
        have eight : (8 : UInt32) ≠ 0 := by decide
        refine ⟨by simp only; omega, by simp only; omega, ?_, eight, ?_⟩
        · rw [quotient]
          show 8 * (⌊maxrp⌋₊ / 8) < 0x40000000
          omega
        · intro zero
          have none := congrArg UInt32.toNat zero
          rw [quotient] at none
          have absurdity : ⌊maxrp⌋₊ / 8 = 0 := none
          omega

/-- The parameters of an encryption are sane. -/
theorem chooseParams_sane {chosen : ScryptencParams}
    (choose : chooseParams L P force = .ok chosen) : chosen.Sane := by
  rw [chooseParams] at choose
  by_cases explicit : P.logN ≠ 0
  · rw [if_pos explicit] at choose
    by_cases sane : P.Sane
    · split at choose <;> cases choose <;> exact sane
    · rw [checkparams_insane sane] at choose
      cases choose
  · rw [if_neg explicit] at choose
    exact pickparams_sane choose

end Sane

end Tarsnap.Scryptenc
