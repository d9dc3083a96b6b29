import Tarsnap.Crypto.KeyRoundTrip

/-!
# The codec of the integers in keys

A sequence of integers is exported in two passes, one that adds up how much memory it takes and one
that writes it. For integers that are not zero, and as long as the sum of the lengths is a 32-bit
word, the second pass writes what the first one announced, and an import reads it back. The bytes of
an integer are turned around by exchanging them from both ends on; for the number zero the distance
of the ends wraps around.
-/

namespace Tarsnap.Crypto

open Tarsnap.Lib

/-- How many exchanges turn bytes around, from the given distance from the ends on. -/
def swaps (bnlen i : Nat) : Nat :=
  if i < sub64 (sub32 bnlen 1) i then swaps bnlen (i + 1) + 1 else 0
termination_by 18446744073709551616 - i
decreasing_by
  unfold sub64 at *
  omega

/-- Exchange bytes from both ends on, and count the exchanges. -/
def reverseCounted (mem : List UInt8) (pos bnlen i : Nat) : Except Trouble (List UInt8 × Nat) :=
  if i < sub64 (sub32 bnlen 1) i then do
    let far := pos + sub64 (sub32 bnlen 1) i
    let mem ← xorByte mem (pos + i) far
    let mem ← xorByte mem far (pos + i)
    let mem ← xorByte mem (pos + i) far
    let (mem, count) ← reverseCounted mem pos bnlen (i + 1)
    return (mem, count + 1)
  else .ok (mem, 0)
termination_by 18446744073709551616 - i
decreasing_by
  unfold sub64 at *
  omega

/-- The loop that turns bytes around makes that many exchanges, unless it leaves the buffer. -/
theorem reverseCounted_eq (mem : List UInt8) (pos bnlen i : Nat) :
    reverseCounted mem pos bnlen i =
      (reverseLoop mem pos bnlen i).map fun mem => (mem, swaps bnlen i) := by
  induction rounds : 18446744073709551616 - i using Nat.strong_induction_on generalizing mem i with
  | _ n ih =>
    rw [reverseCounted, reverseLoop, swaps]
    by_cases inside : i < sub64 (sub32 bnlen 1) i
    · rw [if_pos inside, if_pos inside, if_pos inside]
      have less : 18446744073709551616 - (i + 1) < n := by
        unfold sub64 at inside
        omega
      simp only
      cases xorByte mem (pos + i) (pos + sub64 (sub32 bnlen 1) i) with
      | error trouble => rfl
      | ok one =>
        simp only [ok_bind]
        cases xorByte one (pos + sub64 (sub32 bnlen 1) i) (pos + i) with
        | error trouble => rfl
        | ok two =>
          simp only [ok_bind]
          cases xorByte two (pos + i) (pos + sub64 (sub32 bnlen 1) i) with
          | error trouble => rfl
          | ok three =>
            simp only [ok_bind]
            rw [ih _ less three (i + 1) rfl]
            cases reverseLoop three pos bnlen (i + 1) with
            | error trouble => rfl
            | ok last => rfl
    · rw [if_neg inside, if_neg inside, if_neg inside]
      rfl

/-- The bytes of a number that is not zero are exchanged in pairs. -/
theorem swaps_eq {bnlen : Nat} (positive : 0 < bnlen) (small : bnlen < 4294967296) :
    ∀ rest i, i + rest = bnlen / 2 → swaps bnlen i = rest := by
  intro rest
  induction rest with
  | zero =>
    intro i here
    by_cases inside : i < bnlen
    · rw [swaps, sub64_far positive small inside, if_neg (by omega)]
    · omega
  | succ rest ih =>
    intro i here
    have next := ih (i + 1) (by omega)
    rw [swaps, sub64_far positive small (by omega), if_pos (by omega), next]

/-- A further exchange. -/
theorem swaps_step {bnlen i far : Nat} (here : sub64 (sub32 bnlen 1) i = far) (less : i < far) :
    swaps bnlen i = swaps bnlen (i + 1) + 1 := by
  rw [swaps, here, if_pos less]

/-- The distance of the ends of the number zero. -/
theorem sub64_zero : sub64 (sub32 0 1) 0 = 4294967295 := rfl

/-- For the number zero there is an exchange. -/
theorem swaps_zero : 0 < swaps 0 0 := by
  have first := swaps_step sub64_zero (by omega)
  omega

section Codec

variable {L : BignumLimit} {ints : List (Bignum L)}

/-- The number of bytes of a number is an integer. -/
theorem Bignum.length_lt (bn : Bignum L) : bn.bytes.length < 67108864 :=
  Nat.lt_of_le_of_lt bn.small L.small

/-- The announced length of a sequence is a 32-bit word. -/
theorem exportInts_small {out out' : Out} {len len' : Nat} (small : len < 4294967296)
    (exported : exportInts ints out len = .ok (out', len')) : len' < 4294967296 := by
  induction ints generalizing out len with
  | nil =>
    cases exported
    exact small
  | cons bn rest ih =>
    have word_lt (value : Nat) : word value < 4294967296 := Nat.mod_lt _ (by decide)
    have step : ∀ (next : Out) (more : Nat), exportBN bn out len = .ok (next, more) →
        more < 4294967296 := by
      intro next more same
      have total : more = word (word (len + 4) + bn.bytes.length) := by
        unfold exportBN at same
        simp only at same
        split at same
        · cases same
        split at same
        · cases same
        split at same
        · cases same
          rfl
        split at same
        · cases same
        obtain ⟨first, _, same⟩ := bind_eq_ok.mp same
        split at same
        · cases same
        obtain ⟨second, _, same⟩ := bind_eq_ok.mp same
        obtain ⟨third, _, same⟩ := bind_eq_ok.mp same
        cases same
        rfl
      rw [total]
      exact word_lt _
    rw [exportInts] at exported
    cases first : exportBN bn out len with
    | error trouble =>
      rw [first] at exported
      cases exported
    | ok result =>
      rw [first, ok_bind] at exported
      exact ih (step result.1 result.2 first) exported

variable (ints)

/-- What is exported is as long as announced, nothing else is written, the bytes of each number are
turned around in as few exchanges as it takes, and an import returns the numbers and consumes what
was exported. -/
structure IntegersCodec : Prop where
  /-- The sizing pass announces four bytes and the bytes of the number, for each number. -/
  announced : ∀ out : Out, out.null = true →
    exportInts ints out 0 = .ok (out, (ints.map fun bn => 4 + bn.bytes.length).sum)
  /-- The writing pass writes these bytes into the space, and nothing else. -/
  written : ∀ done space : List UInt8, (encodeInts ints).length ≤ space.length →
    exportInts ints (.at done space) 0 =
      .ok (.after done space (encodeInts ints), (ints.map fun bn => 4 + bn.bytes.length).sum)
  /-- The loop that turns the bytes around makes at most half as many exchanges as there are
  bytes. -/
  exchanged : ∀ bn ∈ ints, swaps bn.bytes.length 0 ≤ bn.bytes.length / 2 ∧
    ∀ (mem : List UInt8) (pos : Nat), reverseCounted mem pos bn.bytes.length 0 =
      (reverseLoop mem pos bn.bytes.length 0).map fun mem => (mem, swaps bn.bytes.length 0)
  /-- The numbers come back, and what follows them is left. -/
  imported : ∀ (mem rest : List UInt8) (pos : Nat), At mem pos (encodeInts ints ++ rest) →
    importInts L mem ints.length pos (encodeInts ints ++ rest).length =
      .ok (⟨ints, rfl⟩, pos + (encodeInts ints).length, rest.length)

variable {ints}

/-- Each number takes four bytes and its own. -/
theorem encodeInts_sum : (encodeInts ints).length =
    (ints.map fun bn => 4 + bn.bytes.length).sum := by
  rw [encodeInts, List.length_flatMap]
  congr 1
  apply List.map_congr_left
  intro bn _
  exact encodeInt_length bn.bytes

/-- The codec works exactly for sequences without the number zero whose length is a 32-bit word. -/
theorem integersCodec_iff : IntegersCodec ints ↔
    (∀ bn ∈ ints, bn.bytes ≠ []) ∧
      (ints.map fun bn => 4 + bn.bytes.length).sum < 4294967296 := by
  constructor
  · intro codec
    refine ⟨?_, ?_⟩
    · intro bn member zero
      have few := (codec.exchanged bn member).1
      have some_ := swaps_zero
      rw [zero, List.length_nil] at few
      omega
    · exact exportInts_small (by decide) (codec.announced ⟨true, [], 0, 0⟩ rfl)
  · rintro ⟨nonzero, small⟩
    rw [← encodeInts_sum] at small
    refine ⟨?_, ?_, ?_, ?_⟩
    · intro out null
      rw [← encodeInts_sum]
      have sized : exportInts ints out 0 = .ok (out, 0 + (encodeInts ints).length) :=
        exportInts_null null ints (by omega)
      rwa [Nat.zero_add] at sized
    · intro done space fits
      rw [← encodeInts_sum]
      have wrote : exportInts ints (.at done space) 0 =
          .ok (.after done space (encodeInts ints), 0 + (encodeInts ints).length) :=
        exportInts_ok nonzero done space (by omega) fits
      rwa [Nat.zero_add] at wrote
    · intro bn member
      have positive : 0 < bn.bytes.length := List.length_pos_iff.mpr (nonzero bn member)
      have short := bn.length_lt
      exact ⟨Nat.le_of_eq (swaps_eq positive (by omega) _ 0 (Nat.zero_add _)),
        fun mem pos => reverseCounted_eq mem pos _ 0⟩
    · intro mem rest pos here
      have raw : (ints.map (·.bytes)).flatMap encodeInt = encodeInts ints := by
        rw [encodeInts, List.flatMap_map]
      have fits : List.Forall₂ Fits (List.Vector.toList ⟨ints, rfl⟩) (ints.map (·.bytes)) := by
        apply List.forall₂_map_right_iff.mpr
        exact List.forall₂_same.mpr fun bn _ => bn.fits
      rw [← raw] at here ⊢
      exact importInts_ok fits here

/-- The number zero is imported from a length of zero, and its export leaves the buffer. -/
theorem integersCodec_zero : importBN wordLimit [0, 0, 0, 0] 0 4 =
      .ok (zeroNumber, 4, 0) ∧
    exportInts [zeroNumber] (.at [] [0, 0, 0, 0]) 0 = .error .outside ∧
    ¬ IntegersCodec [zeroNumber] := by
  refine ⟨?_, ?_, ?_⟩
  · exact importBN_ok zeroNumber.fits (At.whole _)
  · exact exportInts_zero ⟨zeroNumber, List.mem_cons_self, rfl⟩ [] [0, 0, 0, 0] (by decide)
      (by decide) (by decide)
  · intro codec
    have few := (codec.exchanged zeroNumber List.mem_cons_self).1
    have some_ := swaps_zero
    have none : zeroNumber.bytes.length = 0 := rfl
    rw [none] at few
    omega

end Codec

end Tarsnap.Crypto
