import Tarsnap.Lib.Probe
import Tarsnap.Lib.Word
import Mathlib.Tactic.NormNum
import Mathlib.Tactic.Positivity

/-!
# The chunkifier

A chunkifier divides a byte stream into chunks. It keeps a rolling hash of the bytes of the
current chunk, a queue of hash values that are not yet old enough to be looked up, a hash
table of older values with the byte count at which each was inserted, and an incremental
square root of the byte count that bounds how long a table entry is live. A chunk ends when
its buffer is full, when a live table entry holds the current hash value and the bytes since
then are varied enough, or when the caller ends it.

Words are natural numbers below `2 ^ 32` with the source's wraparound written out. The two
probing loops and the square root loop are bounded by fuel; running out of fuel and leaving
the buffer are the two faults.
-/

namespace Tarsnap.Chunkify

open Tarsnap.Lib

/-- The hash table size loop `for (i = blen - mu / 4; i > 0; i >>= 2) htlen <<= 1`. A word is
exhausted by sixteen shifts. -/
def htlenLoop : Nat → Nat → Nat → Nat
  | 0, _, htlen => htlen
  | fuel + 1, i, htlen => if i > 0 then htlenLoop fuel (i >>> 2) (word (htlen <<< 1)) else htlen

/-- The fixed parameters of a chunkifier with the bounds its initialization establishes. -/
structure Params where
  /-- Desired mean chunk length. -/
  mu : Nat
  /-- Modulus. -/
  p : Nat
  /-- `- p ^ (-1) mod 2 ^ 32`. -/
  pp : Nat
  /-- `alpha * 2 ^ 32 mod p`. -/
  ar : Nat
  /-- Coefficient map. -/
  cm : UInt8 → UInt32
  /-- Length of the buffer, the maximum chunk length. -/
  blen : Nat
  /-- The mean length passes the parameter check. -/
  mu_le : mu ≤ 1262226
  /-- The maximum length passes the parameter check. -/
  mu_lt_blen : mu < blen
  /-- The maximum length is a word. -/
  blen_lt : blen < 4294967296
  /-- The modulus is positive. -/
  p_pos : 0 < p
  /-- The bound on the modulus that initialization documents. -/
  p_le : p ≤ 1431655739
  /-- The Montgomery factor inverts the negated modulus. -/
  pp_inverse : (p * pp + 1) % 4294967296 = 0
  /-- The Montgomery factor is a word. -/
  pp_lt : pp < 4294967296

namespace Params

/-- Minimum substring length; the size of the queue. -/
def w : Nat := 32

/-- Size of the hash table in entries. -/
def htlen (P : Params) : Nat := htlenLoop 16 (P.blen - P.mu / 4) 8

/-- The same parameters with another coefficient map. -/
def withCm (P : Params) (cm : UInt8 → UInt32) : Params := { P with cm }

end Params

/-- A loop doubles the table size once for every two bits of the length it measures. -/
theorem htlenLoop_eq (fuel i htlen : Nat) (small : htlen * 2 ^ fuel < 4294967296)
    (bound : i < 4 ^ fuel) :
    ∃ passes ≤ fuel, htlenLoop fuel i htlen = htlen * 2 ^ passes ∧ i < 4 ^ passes := by
  induction fuel generalizing i htlen with
  | zero => exact ⟨0, le_refl 0, by simp [htlenLoop], by simpa using bound⟩
  | succ fuel ih =>
    unfold htlenLoop
    split
    · have doubled : word (htlen <<< 1) = htlen * 2 := by
        have : 1 ≤ 2 ^ fuel := Nat.one_le_two_pow
        rw [Nat.shiftLeft_eq, word, pow_one, Nat.mod_eq_of_lt]
        rw [pow_succ] at small
        nlinarith
      have quarter : i >>> 2 < 4 ^ fuel := by
        rw [Nat.shiftRight_eq_div_pow, Nat.div_lt_iff_lt_mul (by decide)]
        rw [pow_succ] at bound
        omega
      obtain ⟨passes, limit, value, reach⟩ := ih (i >>> 2) (htlen * 2)
        (by rw [pow_succ] at small; linarith) quarter
      refine ⟨passes + 1, by omega, by rw [doubled, value, pow_succ]; ring, ?_⟩
      rw [Nat.shiftRight_eq_div_pow, Nat.div_lt_iff_lt_mul (by decide)] at reach
      rw [pow_succ]
      omega
    · exact ⟨0, Nat.zero_le _, by simp, by simp; omega⟩

namespace Params

/-- The table size is a power of two above four times the largest square root. -/
theorem htlen_eq (P : Params) :
    ∃ passes ≤ 16, P.htlen = 2 ^ (passes + 3) ∧ P.blen - P.mu / 4 < 4 ^ passes := by
  have bound := P.blen_lt
  obtain ⟨passes, limit, value, reach⟩ := htlenLoop_eq 16 (P.blen - P.mu / 4) 8
    (by decide) (by norm_num; omega)
  refine ⟨passes, limit, ?_, reach⟩
  rw [htlen, value, pow_add]
  ring

/-- The hash table has at least eight slots. -/
theorem htlen_pos (P : Params) : 0 < P.htlen := by
  obtain ⟨passes, _, value, _⟩ := P.htlen_eq
  rw [value]
  positivity

/-- The table is never larger than its size for the longest chunk. -/
theorem htlen_le (P : Params) : P.htlen ≤ 524288 := by
  obtain ⟨passes, limit, value, _⟩ := P.htlen_eq
  rw [value]
  calc 2 ^ (passes + 3) ≤ 2 ^ 19 := Nat.pow_le_pow_right (by decide) (by omega)
    _ = 524288 := by decide

/-- Masking with the table size reduces modulo it. -/
theorem and_htlen (P : Params) (value : Nat) : value &&& (P.htlen - 1) = value % P.htlen := by
  obtain ⟨passes, _, size, _⟩ := P.htlen_eq
  rw [size, Nat.and_two_pow_sub_one_eq_mod]

/-- The slot where the search for a hash value starts: `yka & (htlen - 1)`. -/
def slot (P : Params) (value : Nat) : Fin P.htlen :=
  ⟨value &&& (P.htlen - 1), by rw [and_htlen]; exact Nat.mod_lt _ P.htlen_pos⟩

/-- The next position in the table: `(htpos + 1) & (htlen - 1)`. -/
def next (P : Params) (htpos : Fin P.htlen) : Fin P.htlen := P.slot (htpos.val + 1)

/-- The masked successor is the cyclic successor. -/
theorem next_eq (P : Params) : P.next = cyclicNext := by
  funext htpos
  apply Fin.ext
  exact P.and_htlen _

end Params

/-- `(a * b + (a * b * pp mod 2 ^ 32) * p) / 2 ^ 32`. -/
def mmul (a b p pp : Nat) : Nat :=
  let ab := a * b % 18446744073709551616
  let abpp := word (word ab * pp)
  word ((ab + abpp * p) % 18446744073709551616 / 4294967296)

/-- `x -= p & (((x - p) >> 31) - 1)`: subtract `p` unless the difference has its top bit. -/
def reduceOnce (x p : Nat) : Nat := sub32 x (p &&& sub32 (sub32 x p >>> 31) 1)

/-- A fault of the chunkifier. -/
inductive Fault where
  /-- A byte is stored outside the buffer. -/
  | outOfBounds
  /-- A loop of the source does not end. -/
  | diverges
deriving DecidableEq, Repr

/-- The current state of a chunkifier. -/
structure Chunkifier (P : Params) where
  /-- Number of bytes in chunk so far. -/
  k : Nat
  /-- The incremental square root of `4 * k - mu`. -/
  r : Nat
  /-- Distance to the next square. -/
  rs : Nat
  /-- `a ^ k * 2 ^ 32 mod p`. -/
  akr : Nat
  /-- Power series truncated before the `x ^ k` term, evaluated at `a` mod `p`. -/
  yka : Nat
  /-- Circular buffer of values waiting to be added to the hash table. -/
  b : Vector Nat 32
  /-- Hash table: the byte count at insertion and the value. -/
  ht : Vector (Nat × Nat) P.htlen
  /-- Buffer of bytes processed. -/
  buf : Vector UInt8 P.blen

variable {P : Params}

namespace Chunkifier

/-- The bytes of the current chunk, which are handed to the callback. -/
def bytes (c : Chunkifier P) : List UInt8 := c.buf.toList.take c.k

/-- How many bytes ago an entry was inserted, `k - ht[2 * htpos] - 1`. -/
def age (c : Chunkifier P) (entry : Nat × Nat) : Nat := sub32 (sub32 c.k entry.1) 1

end Chunkifier

/-- Prepare the chunkifier for input. The bytes already in the buffer stay there. -/
def chunkifyStart (P : Params) (buf : Vector UInt8 P.blen) : Chunkifier P where
  k := 0
  r := 0
  rs := 1 + P.mu
  akr := sub32 0 P.p % P.p
  yka := 0
  b := Vector.replicate 32 P.p
  ht := Vector.replicate P.htlen (sub32 0 P.htlen, sub32 0 P.htlen)
  buf := buf

/-- The square root loop `while (rs <= 4) { rs += 2 * r + 1; r += 1; }`. -/
def sqrtLoop : Nat → Nat → Nat → Except Fault (Nat × Nat)
  | 0, _, _ => .error .diverges
  | fuel + 1, r, rs =>
    if rs ≤ 4 then sqrtLoop fuel (word (r + 1)) (word (rs + (2 * r + 1))) else .ok (r, rs)

/-- The counting loop of `validcycle`: how many byte values occur, given those seen. -/
def countSeen : List UInt8 → (UInt8 → Nat) → Nat → Nat
  | [], _, nzcount => nzcount
  | byte :: rest, seen, nzcount =>
    countSeen rest (Function.update seen byte 1) (nzcount + (1 - seen byte))

/-- A valid cycle uses at least 8 distinct byte values. -/
def validcycle (bytes : List UInt8) (start : Nat) : Bool :=
  8 ≤ countSeen (bytes.drop start) (fun _ => 0) 0

/-- One look at a table position while checking if `yka` is in the hash table: a valid
cycle ends the chunk, an empty space ends the search. -/
def lookupTest (c : Chunkifier P) (htpos : Fin P.htlen) : Option Bool :=
  let entry := c.ht.get htpos
  if entry.2 = c.yka ∧ c.age entry < c.r ∧ validcycle c.bytes (sub32 entry.1 Params.w) then
    some true
  else if c.age entry ≥ 2 * c.r then some false
  else none

/-- One look at a table position while inserting: an empty space or tombstone is taken. -/
def insertTest (c : Chunkifier P) (htpos : Fin P.htlen) : Option (Fin P.htlen) :=
  if c.age (c.ht.get htpos) ≥ c.r then some htpos else none

/-- Check if `yka` is in the hash table, recently enough and with enough unique characters. -/
def lookup (c : Chunkifier P) : Except Fault Bool :=
  match probe P.next (lookupTest c) P.htlen (P.slot c.yka) with
  | some found => .ok found
  | none => .error .diverges

/-- Insert a queued value into the table. -/
def insert (c : Chunkifier P) (queued : Nat) : Except Fault (Chunkifier P) :=
  match probe P.next (insertTest c) P.htlen (P.slot queued) with
  | some htpos => .ok { c with ht := c.ht.set htpos (c.k, queued) }
  | none => .error .diverges

/-- The queue position for the current byte, `k & (w - 1)`. -/
def Chunkifier.queueSlot (c : Chunkifier P) : Fin 32 :=
  ⟨c.k &&& (Params.w - 1), by
    rw [show Params.w - 1 = 2 ^ 5 - 1 by decide, Nat.and_two_pow_sub_one_eq_mod]
    exact Nat.mod_lt _ (by decide)⟩

/-- Update state to add a new character: `yka += a ^ k * x_k` and `a ^ k *= alpha`. -/
def roll (c : Chunkifier P) (byte : UInt8) : Chunkifier P :=
  let yka := word (c.yka + mmul c.akr (P.cm byte).toNat P.p P.pp)
  { c with
    yka := reduceOnce (reduceOnce yka P.p) P.p
    akr := mmul c.akr P.ar P.p P.pp }

/-- Store a byte, count it and advance the square root. -/
def storeByte (c : Chunkifier P) (byte : UInt8) : Except Fault (Chunkifier P) :=
  if room : c.k < P.blen then do
    let (r, rs) ← sqrtLoop 5 c.r c.rs
    return { c with buf := c.buf.set c.k byte room, k := word (c.k + 1), r := r, rs := sub32 rs 4 }
  else .error .outOfBounds

/-- Look up the rolled hash value; if no cycle is found, move the oldest queued value into the
table and queue the current one. The answer tells whether the chunk ends. -/
def searchAndQueue (c : Chunkifier P) : Except Fault (Chunkifier P × Bool) := do
  if ← lookup c then return (c, true)
  let c ← insert c (c.b.get c.queueSlot)
  return ({ c with b := c.b.set c.queueSlot c.yka }, false)

/-- The body of the byte loop up to `endofchunk`. The answer tells whether the chunk ends. -/
def addByte (c : Chunkifier P) (byte : UInt8) : Except Fault (Chunkifier P × Bool) := do
  let c ← storeByte c byte
  if c.k = P.blen then return (c, true)
  if c.r = 0 then return (c, false)
  searchAndQueue (roll c byte)

section Callback

variable {σ : Type} (chunkdone : σ → List UInt8 → Nat × σ)

/-- Terminate a chunk by calling chunkdone and prepare for the next chunk. -/
def chunkifyEnd (c : Chunkifier P) (cookie : σ) : Nat × Chunkifier P × σ :=
  if c.k = 0 then (0, c, cookie)
  else
    let (rc, cookie) := chunkdone cookie c.bytes
    if rc ≠ 0 then (rc, c, cookie) else (0, chunkifyStart P c.buf, cookie)

/-- Feed a buffer into the chunkifier; the value is zero or the first nonzero value returned
by the callback. -/
def chunkifyWrite (c : Chunkifier P) (cookie : σ) : List UInt8 →
    Except Fault (Nat × Chunkifier P × σ)
  | [] => .ok (0, c, cookie)
  | byte :: rest => do
    let (c, endofchunk) ← addByte c byte
    if endofchunk then
      let (rc, c, cookie) := chunkifyEnd chunkdone c cookie
      if rc ≠ 0 then return (rc, c, cookie)
      chunkifyWrite c cookie rest
    else chunkifyWrite c cookie rest

end Callback

end Tarsnap.Chunkify
