import Tarsnap.Chunkify.InitSound

/-!
# Chunkifiers that initialization can build

A parameter set of the model is built when some outputs of the keyed hash make the initialization
derive it. From a mean length of 4 on, what is built has the arithmetic properties that the
derivation establishes.
-/

namespace Tarsnap.Chunkify

open Tarsnap.Lib

/-- The fields of parameters that initialization computes. -/
def Params.derived (P : Params) : Derived := ⟨P.mu, P.p, P.pp, P.ar, P.cm, P.blen⟩

/-- Parameters that initialization derives from some outputs of the keyed hash. -/
def Params.Built (P : Params) : Prop :=
  ∃ fuel hash, chunkifyInit fuel hash P.mu P.blen = .ok (some P.derived)

section Built

variable {P : Params}

/-- What initialization returned was generated from hashed words. -/
theorem Params.Built.generated (built : P.Built) : ∃ (fuel : Nat) (hashedP hashedAr : UInt32),
    generate fuel P.mu P.blen hashedP.toNat hashedAr.toNat P.cm = .ok P.derived := by
  obtain ⟨fuel, hash, returned⟩ := built
  unfold chunkifyInit at returned
  split at returned
  case isTrue => cases returned
  case isFalse =>
    split at returned
    case h_2 => cases returned
    case h_1 hashedP hashedAr _ _ =>
      split at returned
      case isFalse => cases returned
      case isTrue =>
        refine ⟨fuel, hashedP, hashedAr, ?_⟩
        generalize map : (fun byte => (hash 120 byte).getD 0) = cm at returned
        cases derived : generate fuel P.mu P.blen hashedP.toNat hashedAr.toNat cm with
        | error fault =>
          rw [derived] at returned
          cases returned
        | ok d =>
          rw [derived] at returned
          have same : d = P.derived := Option.some.inj (Except.ok.inj returned)
          obtain ⟨_, _, _, _, _, _, _, fields⟩ := generate_cases derived
          have coefficients : cm = P.cm := by
            rw [fields] at same
            exact congrArg Derived.cm same
          rw [← coefficients, derived, same]

/-- The maximum length and the coefficients do not enter the derivation. -/
theorem generate_other {fuel meanlen maxlen hashedP hashedAr : Nat} {cm : UInt8 → UInt32}
    {d : Derived} (derived : generate fuel meanlen maxlen hashedP hashedAr cm = .ok d)
    (otherlen : Nat) (other : UInt8 → UInt32) :
    generate fuel meanlen otherlen hashedP hashedAr other =
      .ok { d with cm := other, blen := otherlen } := by
  obtain ⟨start, p, ar, bound, next, divisor, search, fields⟩ := generate_cases derived
  rw [generate, bound, ok_bind, next, ended, ok_bind, remainder, if_neg divisor, ok_bind, remainder]
  by_cases zero : p = 0
  · rw [generate, bound, ok_bind, next, ended, ok_bind, remainder, if_neg divisor, ok_bind,
      remainder, if_pos zero] at derived
    cases derived
  · rw [if_neg zero, ok_bind, search, fields]
    rfl

/-- The keyed hash may give any coefficients, and any longer maximum length is as good. -/
theorem Params.Built.of_same {Q : Params} (built : P.Built) (mu : Q.mu = P.mu) (p : Q.p = P.p)
    (pp : Q.pp = P.pp) (ar : Q.ar = P.ar) : Q.Built := by
  obtain ⟨fuel, hashedP, hashedAr, derived⟩ := built.generated
  let hash : UInt8 → UInt8 → UInt32 := fun first second =>
    if first = 112 then hashedP else if first = 97 then hashedAr else Q.cm second
  refine ⟨fuel, fun first second => some (hash first second), ?_⟩
  have step := chunkifyInit_eq hash Q.mu_le Q.mu_lt_blen fuel
  have again := generate_other derived Q.blen Q.cm
  have same : (generate fuel Q.mu Q.blen hashedP.toNat hashedAr.toNat Q.cm).map some =
      .ok (some Q.derived) := by
    rw [mu, again, Params.derived, Params.derived, mu, p, pp, ar]
    rfl
  exact step.trans same

/-- The keyed hash may give any coefficients. -/
theorem Params.Built.withCm (built : P.Built) (cm : UInt8 → UInt32) : (P.withCm cm).Built :=
  built.of_same rfl rfl rfl rfl

/-- Built parameters are sound from a mean length of 4 on. -/
theorem Params.Built.sound (built : P.Built) (large : 4 ≤ P.mu) : P.derived.Sound := by
  obtain ⟨fuel, hashedP, hashedAr, derived⟩ := built.generated
  exact (generate_sound large P.mu_le derived).sound

/-- Chunkifiers of short mean length have a small modulus. -/
theorem Params.Built.modulus_small (built : P.Built) (large : 4 ≤ P.mu) (short : P.mu ≤ 127) :
    P.p ≤ 65521 := by
  obtain ⟨fuel, hashedP, hashedAr, derived⟩ := built.generated
  obtain ⟨start, p, ar, bound, next, _, _, fields⟩ := generate_cases derived
  obtain ⟨exact, _⟩ := primeBound_eq (by omega) P.mu_le hashedP.toNat
  have begins : start = exactBound P.mu + hashedP.toNat % Nat.sqrt P.mu :=
    Except.ok.inj (bound.symm.trans exact)
  have double := exactBound_ge large
  have root : 2 ≤ Nat.sqrt P.mu := Nat.le_sqrt.mpr large
  have top : Nat.sqrt P.mu < 12 := Nat.sqrt_lt.mpr (by omega)
  have hashed : hashedP.toNat % Nat.sqrt P.mu < Nat.sqrt P.mu := Nat.mod_lt _ (by omega)
  have product : P.mu * Nat.sqrt P.mu ≤ 127 * 11 := Nat.mul_le_mul short (by omega)
  have above : exactBound P.mu ≤ 1410 := by unfold exactBound; omega
  have prime : Nat.Prime 65521 := by norm_num
  obtain ⟨_, _, within⟩ := nextprime_sound prime (by decide) (by omega) (by omega) next
  have same : P.p = p := congrArg Derived.p fields
  omega

end Built

end Tarsnap.Chunkify
