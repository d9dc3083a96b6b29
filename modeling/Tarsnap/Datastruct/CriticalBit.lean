import Tarsnap.Datastruct.Patricia

/-!
# The bits where keys part

Two bytes that differ have a first bit where they do. The bits above it agree, one of the bytes
has a zero there and the other a one, and the byte with the zero is the smaller one.
-/

namespace Tarsnap.Datastruct

/-- A fact about bytes can be checked for each value. -/
theorem forall_byte (fact : UInt8 → Prop) (all : ∀ value : Fin 256, fact (.ofNat value))
    (b : UInt8) : fact b := by
  have this := all ⟨b.toNat, b.toNat_lt⟩
  rwa [UInt8.ofNat_toNat] at this

/-- A critical bit is set or not. -/
theorem and_criticalBit {mask : UInt8} (critical : mask ∈ criticalBits) (b : UInt8) :
    b &&& mask = 0 ∨ b &&& mask = mask := by
  have all : ∀ value : Fin 256, ∀ mask ∈ criticalBits,
      UInt8.ofNat value &&& mask = 0 ∨ UInt8.ofNat value &&& mask = mask := by
    decide +kernel
  exact forall_byte (fun b => ∀ mask ∈ criticalBits, b &&& mask = 0 ∨ b &&& mask = mask)
    all b mask critical

/-- The bit that is found in a byte is the first that is set. -/
theorem mismatchBit_first {mm : UInt8} (differs : mm ≠ 0) :
    mismatchBit mm ∈ criticalBits ∧ mm &&& mismatchBit mm ≠ 0 ∧
      mm &&& topBits (mismatchBit mm) = 0 := by
  have all : ∀ value : Fin 256, UInt8.ofNat value ≠ 0 →
      mismatchBit (UInt8.ofNat value) ∈ criticalBits ∧
      UInt8.ofNat value &&& mismatchBit (UInt8.ofNat value) ≠ 0 ∧
      UInt8.ofNat value &&& topBits (mismatchBit (UInt8.ofNat value)) = 0 := by
    decide +kernel
  exact forall_byte (fun mm => mm ≠ 0 → mismatchBit mm ∈ criticalBits ∧
    mm &&& mismatchBit mm ≠ 0 ∧ mm &&& topBits (mismatchBit mm) = 0) all mm differs

/-- If some top bits of a byte have a bit, they have those above it. -/
theorem topBits_above : ∀ within ∈ 0xFF :: criticalBits.map topBits, ∀ mask ∈ criticalBits,
    within &&& mask ≠ 0 → within &&& topBits mask = topBits mask := by
  decide +kernel

/-- The bit that is found in some top bits of a byte is the first of the byte that is set. -/
theorem mismatchBit_spec {within : UInt8} (top : within ∈ 0xFF :: criticalBits.map topBits)
    (x : UInt8) (differs : x &&& within ≠ 0) :
    mismatchBit (x &&& within) ∈ criticalBits ∧ x &&& mismatchBit (x &&& within) ≠ 0 ∧
      x &&& topBits (mismatchBit (x &&& within)) = 0 := by
  obtain ⟨critical, set, clear⟩ := mismatchBit_first differs
  rw [UInt8.and_assoc] at set clear
  have inside : within &&& mismatchBit (x &&& within) ≠ 0 := by
    intro zero
    rw [zero, UInt8.and_zero] at set
    exact set rfl
  rw [topBits_above within top _ critical inside] at clear
  rw [(and_criticalBit critical within).resolve_left inside] at set
  exact ⟨critical, set, clear⟩

/-- A critical bit is a bit. -/
theorem criticalBit_ne_zero {mask : UInt8} (critical : mask ∈ criticalBits) : mask ≠ 0 := by
  intro zero
  rw [zero] at critical
  exact absurd critical (by decide)

/-- Bits of a difference are differences of the bits. -/
theorem xor_and (a b c : UInt8) : (a ^^^ b) &&& c = (a &&& c) ^^^ (b &&& c) := by
  apply UInt8.toBitVec_inj.mp
  ext i below
  simp only [UInt8.toBitVec_and, UInt8.toBitVec_xor, BitVec.getElem_and, BitVec.getElem_xor]
  exact Bool.and_xor_distrib_right _ _ _

/-- Bytes agree on some bits if their difference has none of them. -/
theorem xor_and_eq_zero {a b c : UInt8} : (a ^^^ b) &&& c = 0 ↔ a &&& c = b &&& c := by
  rw [xor_and, UInt8.xor_eq_zero_iff]

/-- Of two bytes that differ in a critical bit, exactly one has it. -/
theorem criticalBit_differs {mask : UInt8} (critical : mask ∈ criticalBits) {a b : UInt8}
    (differs : (a ^^^ b) &&& mask ≠ 0) : a &&& mask ≠ 0 ↔ b &&& mask = 0 := by
  have apart : a &&& mask ≠ b &&& mask := fun same => differs (xor_and_eq_zero.mpr same)
  have nonzero := criticalBit_ne_zero critical
  rcases and_criticalBit critical a with left | left
  · constructor
    · intro set
      exact absurd left set
    · intro clear
      exact absurd (left.trans clear.symm) apart
  · constructor
    · intro _
      rcases and_criticalBit critical b with right | right
      · exact right
      · exact absurd (left.trans right.symm) apart
    · intro _
      rw [left]
      exact nonzero

/-- The bits of a byte from a critical bit on, as numbers. -/
theorem toNat_topBits {mask : UInt8} (critical : mask ∈ criticalBits) (b : UInt8) :
    (b &&& topBits mask).toNat = b.toNat / (2 * mask.toNat) * (2 * mask.toNat) ∧
      (b &&& mask = 0 ↔ b.toNat / mask.toNat % 2 = 0) := by
  have all : ∀ value : Fin 256, ∀ mask ∈ criticalBits,
      (UInt8.ofNat value &&& topBits mask).toNat =
        (UInt8.ofNat value).toNat / (2 * mask.toNat) * (2 * mask.toNat) ∧
      (UInt8.ofNat value &&& mask = 0 ↔
        (UInt8.ofNat value).toNat / mask.toNat % 2 = 0) := by
    decide +kernel
  exact forall_byte (fun b => ∀ mask ∈ criticalBits,
    (b &&& topBits mask).toNat = b.toNat / (2 * mask.toNat) * (2 * mask.toNat) ∧
      (b &&& mask = 0 ↔ b.toNat / mask.toNat % 2 = 0)) all b mask critical

/-- Where bytes agree above a critical bit, the one without the bit is smaller. -/
theorem lt_of_criticalBit {mask : UInt8} (critical : mask ∈ criticalBits) {a b : UInt8}
    (agree : a &&& topBits mask = b &&& topBits mask) (clear : a &&& mask = 0)
    (set : b &&& mask ≠ 0) : a < b := by
  obtain ⟨topA, bitA⟩ := toNat_topBits critical a
  obtain ⟨topB, bitB⟩ := toNat_topBits critical b
  have even := bitA.mp clear
  have odd : b.toNat / mask.toNat % 2 ≠ 0 := fun zero => set (bitB.mpr zero)
  rw [agree, topB] at topA
  have positive : 0 < mask.toNat := by
    have all : ∀ mask ∈ criticalBits, 0 < mask.toNat := by decide +kernel
    exact all mask critical
  have halves := Nat.eq_of_mul_eq_mul_right (by omega) topA
  rw [Nat.mul_comm 2, ← Nat.div_div_eq_div_mul, ← Nat.div_div_eq_div_mul] at halves
  rw [UInt8.lt_iff_toNat_lt]
  have quotients : a.toNat / mask.toNat < b.toNat / mask.toNat := by omega
  exact Nat.lt_of_not_le fun large =>
    absurd (Nat.div_le_div_right large) (Nat.not_le.mpr quotients)

/-- The high bits of a node are what it compares. -/
theorem topBits_idem (a b mask : UInt8) :
    ((a &&& topBits mask) ^^^ b) &&& topBits mask = (a ^^^ b) &&& topBits mask := by
  rw [xor_and, xor_and, UInt8.and_assoc, UInt8.and_self]

end Tarsnap.Datastruct
