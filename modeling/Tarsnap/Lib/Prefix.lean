import Tarsnap.Lib.Except
import Tarsnap.Lib.Word

/-!
# Readers of the front of a buffer

A reader takes a value from the front of a buffer and returns what follows the value. It is exact
for a writer when it reads back every valid value, whatever follows, and reads nothing but the
bytes that the writer writes for a valid value. Readers that are run one after the other, or a
given number of times, are exact for the writers run in the same order.
-/

namespace Tarsnap.Lib

/-- Read a value at the front of a buffer and return what follows it. -/
abbrev Reader (ε α : Type) := List UInt8 → Except ε (α × List UInt8)

/-- The reader reads exactly what the writer writes for valid values. -/
structure Exact {ε α : Type} (valid : α → Prop) (write : α → List UInt8) (read : Reader ε α) :
    Prop where
  /-- A valid value is read back, whatever follows it. -/
  reads : ∀ {value : α} (rest : List UInt8), valid value →
    read (write value ++ rest) = .ok (value, rest)
  /-- Nothing else is read. -/
  sound : ∀ {buf : List UInt8} {value : α} {rest : List UInt8}, read buf = .ok (value, rest) →
    valid value ∧ buf = write value ++ rest

section Sequence

variable {ε α : Type}

/-- Read a given number of values. -/
def readMany (read : Reader ε α) : Nat → Reader ε (List α)
  | 0, buf => .ok ([], buf)
  | count + 1, buf => do
    let (value, buf) ← read buf
    let (values, buf) ← readMany read count buf
    return (value :: values, buf)

/-- An exact reader run a number of times is exact. -/
theorem Exact.many {valid : α → Prop} {write : α → List UInt8} {read : Reader ε α}
    (one : Exact valid write read) (count : Nat) :
    Exact (fun values => values.length = count ∧ ∀ value ∈ values, valid value)
      (fun values => values.flatMap write) (readMany read count) := by
  induction count with
  | zero =>
    refine ⟨?_, ?_⟩
    · intro values rest valid
      rw [List.eq_nil_of_length_eq_zero valid.1]
      rfl
    · intro buf values rest read
      cases read
      exact ⟨⟨rfl, fun _ member => absurd member List.not_mem_nil⟩, rfl⟩
  | succ count ih =>
    refine ⟨?_, ?_⟩
    · intro values rest valid
      obtain ⟨length, each⟩ := valid
      cases values with
      | nil => exact absurd length (Nat.succ_ne_zero count).symm
      | cons value values =>
        have tail := ih.reads rest ⟨Nat.succ.inj length, fun other member =>
          each other (List.mem_cons_of_mem value member)⟩
        rw [readMany, List.flatMap_cons, List.append_assoc,
          one.reads _ (each value List.mem_cons_self), ok_bind]
        simp only []
        rw [tail, ok_bind, pure_eq_ok]
    · intro buf values rest read
      rw [readMany] at read
      obtain ⟨⟨value, middle⟩, front, read⟩ := bind_eq_ok.mp read
      obtain ⟨⟨later, last⟩, back, same⟩ := bind_eq_ok.mp read
      obtain ⟨validFront, frontBytes⟩ := one.sound front
      obtain ⟨⟨length, each⟩, backBytes⟩ := ih.sound back
      cases same
      refine ⟨⟨by rw [List.length_cons, length], ?_⟩, ?_⟩
      · intro other member
        rcases List.mem_cons.mp member with rfl | member
        · exact validFront
        · exact each other member
      · rw [frontBytes, backBytes, List.flatMap_cons, List.append_assoc]

end Sequence

end Tarsnap.Lib
