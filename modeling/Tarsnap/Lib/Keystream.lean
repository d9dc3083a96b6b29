import Mathlib.Tactic.Basic

/-!
# Stream ciphers

A stream cipher adds a keystream to the bytes. The keystream is a function of the position, and
positions are 64-bit words, so that the keystream repeats. Adding the same part of the keystream
twice changes nothing.
-/

namespace Tarsnap.Lib

/-- Add the keystream from a position on to some bytes. -/
def xorStream (keystream : UInt64 → UInt8) : UInt64 → List UInt8 → List UInt8
  | _, [] => []
  | pos, byte :: rest => (byte ^^^ keystream pos) :: xorStream keystream (pos + 1) rest

variable {keystream : UInt64 → UInt8}

/-- No byte is added or lost. -/
@[simp] theorem xorStream_length (pos : UInt64) (text : List UInt8) :
    (xorStream keystream pos text).length = text.length := by
  induction text generalizing pos with
  | nil => rfl
  | cons byte rest ih => simp [xorStream, ih]

/-- Adding the keystream twice changes nothing. -/
@[simp] theorem xorStream_xorStream (pos : UInt64) (text : List UInt8) :
    xorStream keystream pos (xorStream keystream pos text) = text := by
  induction text generalizing pos with
  | nil => rfl
  | cons byte rest ih =>
    rw [xorStream, xorStream, ih, UInt8.xor_assoc, UInt8.xor_self, UInt8.xor_zero]

/-- A text is added in parts, the second one from the position behind the first one on. -/
theorem xorStream_append (pos : UInt64) (first second : List UInt8) :
    xorStream keystream pos (first ++ second) = xorStream keystream pos first ++
      xorStream keystream (pos + UInt64.ofNat first.length) second := by
  induction first generalizing pos with
  | nil =>
    have zero : pos + UInt64.ofNat ([] : List UInt8).length = pos := UInt64.add_zero pos
    rw [zero]
    rfl
  | cons byte first ih =>
    have next : pos + 1 + UInt64.ofNat first.length = pos + UInt64.ofNat (first.length + 1) := by
      rw [UInt64.ofNat_add, UInt64.add_assoc, UInt64.add_comm 1]
      rfl
    rw [List.cons_append, xorStream, xorStream, ih, List.length_cons, next, List.cons_append]

/-- A beginning of a text becomes a beginning. -/
theorem xorStream_initial {first whole : List UInt8} (pos : UInt64) (initial : first <+: whole) :
    xorStream keystream pos first <+: xorStream keystream pos whole := by
  obtain ⟨second, rfl⟩ := initial
  rw [xorStream_append]
  exact List.prefix_append _ _

end Tarsnap.Lib
