import Tarsnap.Chunkify.Model

/-!
# Deriving the parameters of a chunkifier

The initialization of a chunkifier turns words of a keyed hash into the modulus, the multiplier
and the coefficients of the rolling hash. The modulus is the first prime from a bound on, its
negated inverse comes from Newton's iteration, and the multiplier is the first value from a
hashed start on whose order exceeds the mean chunk length.

The search for the modulus and the search for the multiplier are given fuel. A remainder by zero
and running out of fuel are the two faults. The allocations are taken to succeed.
-/

namespace Tarsnap.Chunkify

open Tarsnap.Lib

/-- The trial divisions of `isprime` from a divisor on. The divisors end below `2 ^ 16`. -/
def isprimeLoop : Nat → Nat → Nat → Bool
  | 0, _, n => 1 < n
  | fuel + 1, x, n =>
    if word (x * x) ≤ n ∧ x < 65536 then
      if n % x = 0 then false else isprimeLoop fuel (x + 1) n
    else 1 < n

/-- Whether a word is prime. -/
def isprime (n : Nat) : Bool := isprimeLoop 65535 2 n

/-- The smallest prime from a word on, or 0 if none exist; nothing when the fuel runs out. -/
def nextprime : Nat → Nat → Option Nat
  | 0, _ => none
  | fuel + 1, p =>
    if p ≠ 0 then if isprime p then some p else nextprime fuel (word (p + 1)) else some 0

/-- The loop of `minorder`: the powers of the multiplier that are left to compare with one. -/
def minorderLoop (ar p pp akr0 : Nat) : Nat → Nat → Bool
  | 0, _ => true
  | ord + 1, akr =>
    if mmul akr ar p pp % p = akr0 then false
    else minorderLoop ar p pp akr0 ord (mmul akr ar p pp % p)

/-- Whether none of the first `ord` powers of `ar / 2 ^ 32` is one modulo `p`. -/
def minorder (ar ord p pp : Nat) : Bool :=
  minorderLoop ar p pp (sub32 0 p % p) ord (sub32 0 p % p)

/-- The loop of `isqrt` from a candidate on. -/
def isqrtLoop : Nat → Nat → Nat → Nat
  | 0, y, _ => y - 1
  | fuel + 1, y, x => if y < 65536 ∧ ¬ word (y * y) > x then isqrtLoop fuel (y + 1) x else y - 1

/-- The greatest `y` with `y ^ 2 <= x`. -/
def isqrt (x : Nat) : Nat := isqrtLoop 65535 1 x

/-- A fault of the initialization. -/
inductive InitFault where
  /-- A remainder by zero is taken. -/
  | divisionByZero
  /-- A search does not end. -/
  | diverges
deriving DecidableEq, Repr

/-- The parameters that initialization computes. -/
structure Derived where
  /-- Desired mean chunk length. -/
  mu : Nat
  /-- Modulus. -/
  p : Nat
  /-- `- p ^ (-1) mod 2 ^ 32`. -/
  pp : Nat
  /-- `alpha * 2 ^ 32 mod p`. -/
  ar : Nat
  /-- Coefficient map. -/
  cm : UInt8 → UInt32
  /-- Length of the buffer. -/
  blen : Nat

/-- The remainder of words; a zero divisor is a fault. -/
def remainder (value divisor : Nat) : Except InitFault Nat :=
  if divisor = 0 then .error .divisionByZero else .ok (value % divisor)

/-- Where the search for the modulus starts: `mu * isqrt(mu)` and a hundredth more, plus a
hashed value below `isqrt(mu)`. -/
def primeBound (mu hashed : Nat) : Except InitFault Nat := do
  let pmin := word (mu * isqrt mu)
  let pmin := word (pmin + pmin / 100)
  return word (pmin + (← remainder hashed (isqrt mu)))

/-- One step of the iteration for the negated inverse, `pp *= 2 + p * pp`. -/
def refinePp (p pp : Nat) : Nat := word (pp * word (2 + word (p * pp)))

/-- `pp = - p ^ (-1) mod 2 ^ 32`, from a value that is right modulo `2 ^ 4`. -/
def invertPrime (p : Nat) : Nat :=
  refinePp p (refinePp p (refinePp p (sub32 (word (2 * p + 4) &&& 8) p)))

/-- The search for a multiplier of order above `mu`: `ar` counts up and wraps from `p` to 2. -/
def searchAlpha (mu p pp : Nat) : Nat → Nat → Option Nat
  | 0, _ => none
  | fuel + 1, ar =>
    if minorder ar mu p pp then some ar
    else searchAlpha mu p pp fuel (if word (ar + 1) = p then 2 else word (ar + 1))

/-- The value of a search, whose lack of fuel is a fault. -/
def ended (result : Option Nat) : Except InitFault Nat :=
  match result with
  | some value => .ok value
  | none => .error .diverges

/-- Generate the parameters from the hashed words. `minorder` takes a remainder by the modulus
itself. -/
def generate (fuel meanlen maxlen hashedP hashedAr : Nat) (cm : UInt8 → UInt32) :
    Except InitFault Derived := do
  let p ← ended (nextprime fuel (← primeBound meanlen hashedP))
  let pp := invertPrime p
  let start := word (2 + (← remainder hashedAr (sub32 p 3)))
  let _ ← remainder (sub32 0 p) p
  let ar ← ended (searchAlpha meanlen p pp fuel start)
  return { mu := meanlen, p := p, pp := pp, ar := ar, cm := cm, blen := maxlen }

/-- The first word of the keyed hash of `'p\0'`, `'a\0'` or `'x' . i`; nothing when the hash
fails. -/
abbrev KeyedHash := UInt8 → UInt8 → Option UInt32

/-- Initialize a chunkifier. Lengths that fail the check and a failed hash give no chunkifier. -/
def chunkifyInit (fuel : Nat) (hash : KeyedHash) (meanlen maxlen : Nat) :
    Except InitFault (Option Derived) :=
  if meanlen > 1262226 ∨ maxlen ≤ meanlen then .ok none
  else
    match hash 112 0, hash 97 0 with
    | some hashedP, some hashedAr =>
      if ∀ i : Fin 256, (hash 120 (UInt8.ofNat i)).isSome then
        (generate fuel meanlen maxlen hashedP.toNat hashedAr.toNat
          (fun byte => (hash 120 byte).getD 0)).map some
      else .ok none
    | _, _ => .ok none

end Tarsnap.Chunkify
