import Tarsnap.Chunkify.Resync
import Tarsnap.Chunkify.RollingExact
import Tarsnap.Chunkify.Wraparound

/-!
# Losslessness and its limit

A chunkifier is lossless when the chunks of a string, delivered to any succeeding callback,
concatenate to the string, have admissible lengths and do not depend on how the string is
split into buffers. For given lengths and modulus this holds for every coefficient map exactly
when the longest chunk stays a table size below the word size; beyond that a string exists
that is never chunkified.
-/

namespace Tarsnap.Chunkify

open Tarsnap.Lib

variable {P : Params}

/-- The chunks of every string are the string in admissible pieces, and every way of writing
the string delivers exactly them. -/
def Lossless (P : Params) : Prop :=
  ∀ input : List UInt8, ∃ chunkList : List (List UInt8),
    chunkList.flatten = input ∧
    (∀ chunk ∈ chunkList, 1 ≤ chunk.length ∧ chunk.length ≤ P.blen) ∧
    ∀ (buf : Vector UInt8 P.blen) (pieces : List (List UInt8)), pieces.flatten = input →
      ∀ (σ : Type) (chunkdone : σ → List UInt8 → Nat × σ),
        (∀ cookie chunk, (chunkdone cookie chunk).1 = 0) → ∀ cookie, ∃ last,
          chunkifyAll chunkdone (chunkifyStart P buf) cookie pieces =
            .ok (0, last, deliver chunkdone cookie chunkList)

/-- While the longest chunk stays a table size below the word size every string has chunks. -/
theorem chunks_ok (low : P.blen + P.htlen ≤ 4294967297) (buf : Vector UInt8 P.blen)
    (input : List UInt8) : ∃ chunkList, chunks P buf input = .ok chunkList := by
  obtain ⟨before, last, fed, _⟩ := feed_ok (chunkifyStart_valid buf) low input
  exact ⟨before ++ lastChunk last, by rw [chunks, fed]; rfl⟩

/-- Writing a string in any pieces delivers its chunks. -/
theorem chunkifyAll_chunks {buf : Vector UInt8 P.blen} {pieces : List (List UInt8)}
    {chunkList : List (List UInt8)} (chunked : chunks P buf pieces.flatten = .ok chunkList)
    {σ : Type} {chunkdone : σ → List UInt8 → Nat × σ}
    (succeeds : ∀ cookie chunk, (chunkdone cookie chunk).1 = 0) (cookie : σ) :
    ∃ last, chunkifyAll chunkdone (chunkifyStart P buf) cookie pieces =
      .ok (0, last, deliver chunkdone cookie chunkList) := by
  obtain ⟨⟨before, last⟩, fed, rest⟩ := bind_eq_ok.mp chunked
  cases rest
  exact ⟨_, by rw [chunkifyAll_eq chunkdone succeeds, fed]; rfl⟩

/-- While the longest chunk stays a table size below the word size, chunking is lossless. -/
theorem lossless_of_low (low : P.blen + P.htlen ≤ 4294967297) : Lossless P := by
  intro input
  obtain ⟨chunkList, chunked⟩ := chunks_ok low (Vector.replicate P.blen 0) input
  obtain ⟨whole, lengths⟩ := chunks_sound chunked
  refine ⟨chunkList, whole, lengths, ?_⟩
  rintro buf pieces rfl σ chunkdone succeeds cookie
  rw [chunks_buf _ buf] at chunked
  exact chunkifyAll_chunks chunked succeeds cookie

/-- Coefficients that keep the hash value of `endlessInput` one below the modulus. -/
def endlessCm (P : Params) (byte : UInt8) : UInt32 :=
  if byte = 1 then UInt32.ofNat (P.p - 1) else 0

/-- The word that is one below the modulus. -/
theorem endlessCm_one (P : Params) : (endlessCm P 1).toNat = P.p - 1 := by
  have limit := P.p_le
  have value : endlessCm P 1 = UInt32.ofNat (P.p - 1) := rfl
  rw [value, UInt32.toNat_ofNat']
  omega

/-- With these coefficients the endless string is never delivered. -/
theorem not_lossless_of_long (long : 4294967298 ≤ P.blen + P.htlen) :
    ¬ Lossless (P.withCm (endlessCm P)) := by
  intro lossless
  obtain ⟨chunkList, _, _, delivers⟩ := lossless (endlessInput P)
  obtain ⟨last, delivered⟩ := delivers (Vector.replicate P.blen 0) [endlessInput P] (by simp)
    Unit (fun cookie _ => (0, cookie)) (fun _ _ => rfl) ()
  have one : ((P.withCm (endlessCm P)).cm 1).toNat = P.p - 1 := endlessCm_one P
  have endless : feed (chunkifyStart (P.withCm (endlessCm P)) (Vector.replicate P.blen 0))
      (endlessInput P) = .error .diverges :=
    feed_endlessInput (show 4294967298 ≤ (P.withCm (endlessCm P)).blen + _ from long) rfl one _
  rw [chunkifyAll_eq _ (fun _ _ => rfl), List.flatten_singleton, endless] at delivered
  cases delivered

/-- Chunking is lossless and insensitive to buffering for every coefficient map exactly when
the longest chunk stays a table size below the word size. -/
theorem lossless_iff (P : Params) :
    (∀ cm, Lossless (P.withCm cm)) ↔ P.blen + P.htlen ≤ 4294967297 := by
  constructor
  · intro all
    by_contra long
    exact not_lossless_of_long (by omega) (all (endlessCm P))
  · exact fun low cm => lossless_of_low low

/-- The string has one byte more than the mark of untouched slots. -/
theorem endlessInput_length (room : P.mu / 4 + 2 ≤ P.untouched) :
    (endlessInput P).length = P.untouched + 1 := by
  unfold endlessInput
  simp only [List.length_append, List.length_cons, List.length_replicate, List.length_nil]
  omega

/-- The mean length of the archive chunkifiers with the largest maximum length that the
parameter check admits. -/
def endlessParams : Params :=
  { beyondParams with
    blen := 4294967295
    mu_lt_blen := by decide
    blen_lt := by decide
    cm := endlessCm beyondParams }

/-- For the largest maximum length, 16384 zeros, a one and zeros are never chunkified. -/
theorem endlessParams_not_lossless : endlessParams.Built ∧
    (endlessInput endlessParams).length = 4294443009 ∧
    (∀ buf, feed (chunkifyStart endlessParams buf) (endlessInput endlessParams) =
      .error .diverges) ∧ ¬ Lossless endlessParams := by
  have long : 4294967298 ≤ endlessParams.blen + endlessParams.htlen := by decide
  have one : (endlessParams.cm 1).toNat = endlessParams.p - 1 := endlessCm_one beyondParams
  have mark : endlessParams.untouched = 4294443008 := by decide
  have length := endlessInput_length (P := endlessParams) (by decide)
  rw [mark] at length
  exact ⟨beyondParams_built.of_same rfl rfl rfl rfl, length, feed_endlessInput long rfl one,
    not_lossless_of_long long⟩

end Tarsnap.Chunkify
