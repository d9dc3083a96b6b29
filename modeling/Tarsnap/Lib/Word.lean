import Mathlib.Data.Nat.Bitwise
import Mathlib.Tactic.Linarith
import Mathlib.Tactic.Ring

/-!
# Machine words and their encodings

Words of 32 bits are natural numbers with the modulus written out. The integer encodings write
a number byte by byte, least or most significant byte first, and decode to its residue. Buffers are
compared by their first different bytes.
-/

namespace Tarsnap.Lib

/-- The value of a 32-bit word. -/
def word (value : Nat) : Nat := value % 4294967296

/-- 32-bit subtraction. -/
def sub32 (left right : Nat) : Nat := (left + (4294967296 - right % 4294967296)) % 4294967296

/-- Encode a number in the given count of bytes, least significant byte first. -/
def leEnc : Nat → Nat → List UInt8
  | 0, _ => []
  | width + 1, value => UInt8.ofNat value :: leEnc width (value / 256)

/-- Decode bytes, least significant byte first. -/
def leDec : List UInt8 → Nat
  | [] => 0
  | byte :: rest => byte.toNat + 256 * leDec rest

/-- Encode a number in the given count of bytes, most significant byte first. -/
def beEnc (width value : Nat) : List UInt8 := (leEnc width value).reverse

/-- Decode bytes, most significant byte first. -/
def beDec (bytes : List UInt8) : Nat := leDec bytes.reverse

/-- The order of the bytes of two buffers. -/
def memcmp : List UInt8 → List UInt8 → Ordering
  | [], _ => .eq
  | _, [] => .eq
  | left :: lefts, right :: rights =>
    if left < right then .lt else if right < left then .gt else memcmp lefts rights

/-- An encoding has the width it was given. -/
@[simp] theorem leEnc_length (width value : Nat) : (leEnc width value).length = width := by
  induction width generalizing value with
  | zero => rfl
  | succ width ih => simp [leEnc, ih]

/-- Decoding an encoding yields the residue of the number. -/
theorem leDec_leEnc (width value : Nat) : leDec (leEnc width value) = value % 256 ^ width := by
  induction width generalizing value with
  | zero => simp [leEnc, leDec, Nat.mod_one]
  | succ width ih =>
    have byte : (UInt8.ofNat value).toNat = value % 256 := UInt8.toNat_ofNat'
    rw [leEnc, leDec, ih, byte, pow_succ', Nat.mod_mul]

/-- An encoding has the width it was given. -/
@[simp] theorem beEnc_length (width value : Nat) : (beEnc width value).length = width := by
  simp [beEnc]

/-- Decoding an encoding yields the residue of the number. -/
theorem beDec_beEnc (width value : Nat) : beDec (beEnc width value) = value % 256 ^ width := by
  rw [beDec, beEnc, List.reverse_reverse, leDec_leEnc]

/-- Encoding a decoded number yields its bytes. -/
theorem leEnc_leDec (bytes : List UInt8) : leEnc bytes.length (leDec bytes) = bytes := by
  induction bytes with
  | nil => rfl
  | cons byte rest ih =>
    have low : byte.toNat < 256 := byte.toNat_lt
    have first : UInt8.ofNat (byte.toNat + 256 * leDec rest) = byte := by
      rw [← UInt8.toNat_inj, UInt8.toNat_ofNat']
      omega
    have later : (byte.toNat + 256 * leDec rest) / 256 = leDec rest := by omega
    rw [List.length_cons, leDec, leEnc, first, later, ih]

/-- A decoded number fits the width of its bytes. -/
theorem leDec_lt (bytes : List UInt8) : leDec bytes < 256 ^ bytes.length := by
  induction bytes with
  | nil => exact Nat.one_pos
  | cons byte rest ih =>
    have low : byte.toNat < 256 := byte.toNat_lt
    rw [leDec, List.length_cons, pow_succ']
    omega

/-- A decoded number fits the width of its bytes. -/
theorem beDec_lt (bytes : List UInt8) : beDec bytes < 256 ^ bytes.length := by
  rw [beDec, ← List.length_reverse]
  exact leDec_lt bytes.reverse

end Tarsnap.Lib
