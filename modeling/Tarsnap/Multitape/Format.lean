import Tarsnap.Chunks.Directory

/-!
# Stored formats of the tape layer

A tape is stored as chunks. A chunk header of 40 bytes names a chunk and gives its length and
compressed length; an index is a sequence of chunk headers. The sequence that a buffer holds is
read from its start, and a rest that is too short for another header is left over.
-/

namespace Tarsnap.Multitape

open Tarsnap.Lib Tarsnap.Chunks

/-- Maximum chunk size. -/
def MAXCHUNK : Nat := 261120

/-- Maximum index fragment size. -/
def MAXIFRAG : Nat := MAXCHUNK

/-- An on-disk chunk header, decoded. -/
structure ChunkHeader where
  /-- HMAC of chunk. -/
  hash : Hash
  /-- Length of chunk. -/
  len : UInt32
  /-- Compressed length of chunk. -/
  zlen : UInt32
deriving DecidableEq

/-- The 40 bytes of a chunk header. -/
def ChunkHeader.encode (ch : ChunkHeader) : List UInt8 :=
  ch.hash.bytes.toList ++ leEnc 4 ch.len.toNat ++ leEnc 4 ch.zlen.toNat

/-- The chunk header at the start of a buffer. -/
def ChunkHeader.decode (buf : List UInt8) : ChunkHeader where
  hash := ⟨Vector.ofFn fun i => buf.getD i.val 0⟩
  len := UInt32.ofNat (leDec ((buf.drop 32).take 4))
  zlen := UInt32.ofNat (leDec ((buf.drop 36).take 4))

/-- A chunk header takes 40 bytes. -/
@[simp] theorem ChunkHeader.encode_length (ch : ChunkHeader) : ch.encode.length = 40 := by
  simp [ChunkHeader.encode]

/-- A chunk header is read back, whatever follows it. -/
theorem ChunkHeader.decode_encode (ch : ChunkHeader) (rest : List UInt8) :
    ChunkHeader.decode (ch.encode ++ rest) = ch := by
  have split : ch.encode ++ rest = ch.hash.bytes.toList ++ (leEnc 4 ch.len.toNat ++
      (leEnc 4 ch.zlen.toNat ++ rest)) := by
    simp only [ChunkHeader.encode, List.append_assoc]
  have len : ((ch.encode ++ rest).drop 32).take 4 = leEnc 4 ch.len.toNat := by
    rw [split, List.drop_left' (by simp), List.take_left' (by simp)]
  have zlen : ((ch.encode ++ rest).drop 36).take 4 = leEnc 4 ch.zlen.toNat := by
    rw [split, ← List.append_assoc, List.drop_left' (by simp), List.take_left' (by simp)]
  rw [ChunkHeader.decode, len, zlen, split, hash_ofFn, ofNat_leDec_leEnc, ofNat_leDec_leEnc]

/-- The chunk headers that a buffer holds, as the position moves on by 40 bytes while a whole
header is left; there are fewer of them than bytes. -/
def chunkheadersLoop : Nat → List UInt8 → List ChunkHeader
  | 0, _ => []
  | fuel + 1, buf =>
    if 40 ≤ buf.length then ChunkHeader.decode buf :: chunkheadersLoop fuel (buf.drop 40) else []

/-- The chunk headers that a buffer holds. -/
def chunkheaders (buf : List UInt8) : List ChunkHeader := chunkheadersLoop buf.length buf

/-- What the whole headers of a buffer leave over. -/
def leftover (buf : List UInt8) : List UInt8 := buf.drop (buf.length / 40 * 40)

/-- Enough fuel is enough. -/
theorem chunkheadersLoop_eq {fuel : Nat} {buf : List UInt8} (enough : buf.length ≤ fuel) :
    chunkheadersLoop fuel buf = chunkheaders buf := by
  induction size : buf.length using Nat.strong_induction_on generalizing buf fuel with
  | _ n ih =>
    by_cases whole : 40 ≤ buf.length
    · obtain ⟨fuel, rfl⟩ : ∃ less, fuel = less + 1 := ⟨fuel - 1, by omega⟩
      obtain ⟨count, counted⟩ : ∃ less, buf.length = less + 1 := ⟨buf.length - 1, by omega⟩
      have short : (buf.drop 40).length = n - 40 := by rw [List.length_drop, size]
      have left := ih (n - 40) (by omega) (show (buf.drop 40).length ≤ fuel by omega) short
      have right := ih (n - 40) (by omega) (show (buf.drop 40).length ≤ count by omega) short
      rw [chunkheaders, counted, chunkheadersLoop, chunkheadersLoop, left, right]
    · have none (less : Nat) : chunkheadersLoop less buf = [] := by
        cases less with
        | zero => rfl
        | succ less => rw [chunkheadersLoop, if_neg whole]
      rw [chunkheaders, none, none]

/-- A buffer with a whole header. -/
theorem chunkheaders_of_le {buf : List UInt8} (whole : 40 ≤ buf.length) :
    chunkheaders buf = ChunkHeader.decode buf :: chunkheaders (buf.drop 40) := by
  rw [← chunkheadersLoop_eq (Nat.le_succ buf.length), chunkheadersLoop, if_pos whole,
    chunkheadersLoop_eq (by rw [List.length_drop]; omega)]

/-- A buffer without a whole header. -/
theorem chunkheaders_of_lt {buf : List UInt8} (short : buf.length < 40) :
    chunkheaders buf = [] := by
  rw [← chunkheadersLoop_eq (Nat.le_succ buf.length), chunkheadersLoop, if_neg (by omega)]

/-- A leftover is shorter than a header. -/
theorem leftover_length (buf : List UInt8) : (leftover buf).length < 40 := by
  rw [leftover, List.length_drop]
  omega

/-- Dropping a header drops nothing of the leftover. -/
theorem leftover_drop {buf : List UInt8} (whole : 40 ≤ buf.length) :
    leftover (buf.drop 40) = leftover buf := by
  have count : 40 + (buf.length - 40) / 40 * 40 = buf.length / 40 * 40 := by omega
  rw [leftover, leftover, List.length_drop, List.drop_drop, count]

/-- A buffer without a whole header is its own leftover. -/
theorem leftover_of_lt {buf : List UInt8} (short : buf.length < 40) : leftover buf = buf := by
  rw [leftover, Nat.div_eq_of_lt short, Nat.zero_mul, List.drop_zero]

/-- The start of a long enough buffer does not see what follows it. -/
theorem ChunkHeader.decode_append {buf : List UInt8} (whole : 40 ≤ buf.length)
    (more : List UInt8) : ChunkHeader.decode (buf ++ more) = ChunkHeader.decode buf := by
  have bytes (i : Fin 32) : (buf ++ more).getD i.val 0 = buf.getD i.val 0 := by
    rw [List.getD_append _ _ _ _ (by omega)]
  simp only [ChunkHeader.decode, bytes]
  rw [List.drop_append_of_le_length (by omega), List.drop_append_of_le_length (by omega),
    List.take_append_of_le_length (by rw [List.length_drop]; omega),
    List.take_append_of_le_length (by rw [List.length_drop]; omega)]

/-- The headers of a longer buffer continue with the leftover of the shorter one. -/
theorem chunkheaders_append (buf more : List UInt8) :
    chunkheaders (buf ++ more) = chunkheaders buf ++ chunkheaders (leftover buf ++ more) := by
  induction size : buf.length using Nat.strong_induction_on generalizing buf with
  | _ n ih =>
    by_cases whole : 40 ≤ buf.length
    · have rest := ih (buf.length - 40) (by omega) (buf.drop 40) List.length_drop
      rw [chunkheaders_of_le (by rw [List.length_append]; omega), chunkheaders_of_le whole,
        ChunkHeader.decode_append whole, List.drop_append_of_le_length whole, rest,
        leftover_drop whole, List.cons_append]
    · have short : buf.length < 40 := by omega
      rw [chunkheaders_of_lt short, leftover_of_lt short, List.nil_append]

/-- The leftover of a longer buffer. -/
theorem leftover_append (buf more : List UInt8) :
    leftover (buf ++ more) = leftover (leftover buf ++ more) := by
  induction size : buf.length using Nat.strong_induction_on generalizing buf with
  | _ n ih =>
    by_cases whole : 40 ≤ buf.length
    · have rest := ih (buf.length - 40) (by omega) (buf.drop 40) List.length_drop
      rw [← leftover_drop (by rw [List.length_append]; omega),
        List.drop_append_of_le_length whole, rest, leftover_drop whole]
    · have short : buf.length < 40 := by omega
      rw [leftover_of_lt short]

/-- The headers of encoded headers are these headers. -/
theorem chunkheaders_encode (headers : List ChunkHeader) :
    chunkheaders (headers.flatMap ChunkHeader.encode) = headers := by
  induction headers with
  | nil => exact chunkheaders_of_lt (by simp)
  | cons ch headers ih =>
    rw [List.flatMap_cons, chunkheaders_of_le (by simp), ChunkHeader.decode_encode,
      List.drop_left' (by simp), ih]

end Tarsnap.Multitape
