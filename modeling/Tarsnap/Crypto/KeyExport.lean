import Tarsnap.Crypto.KeyImport
import Mathlib.Data.List.Induction

/-!
# What an export writes

An export writes the records of the keys one after the other. The bytes of a number are turned
around in place, from most to least significant byte first; for the number zero, which has no
bytes, this does not end where it starts, and leaves the buffer at once.
-/

namespace Tarsnap.Crypto

open Tarsnap.Lib

section Reversal

/-- Exclusive or into the first of two bytes. -/
theorem xorByte_first (front middle back : List UInt8) (x y : UInt8) :
    xorByte (front ++ x :: (middle ++ y :: back)) front.length (front.length + 1 + middle.length) =
      .ok (front ++ (x ^^^ y) :: (middle ++ y :: back)) := by
  have first : (front ++ x :: (middle ++ y :: back))[front.length]? = some x := by simp
  have second : (front ++ x :: (middle ++ y :: back))[front.length + 1 + middle.length]? =
      some y := by
    rw [Nat.add_assoc, List.getElem?_append_right (Nat.le_add_right _ _), Nat.add_sub_cancel_left,
      Nat.add_comm 1, List.getElem?_cons_succ]
    simp
  unfold xorByte
  rw [first, second]
  simp

/-- Exclusive or into the second of two bytes. -/
theorem xorByte_second (front middle back : List UInt8) (x y : UInt8) :
    xorByte (front ++ x :: (middle ++ y :: back)) (front.length + 1 + middle.length) front.length =
      .ok (front ++ x :: (middle ++ (y ^^^ x) :: back)) := by
  have first : (front ++ x :: (middle ++ y :: back))[front.length]? = some x := by simp
  have second : (front ++ x :: (middle ++ y :: back))[front.length + 1 + middle.length]? =
      some y := by
    rw [Nat.add_assoc, List.getElem?_append_right (Nat.le_add_right _ _), Nat.add_sub_cancel_left,
      Nat.add_comm 1, List.getElem?_cons_succ]
    simp
  have later : (front ++ x :: (middle ++ y :: back)).set (front.length + 1 + middle.length)
      (y ^^^ x) = front ++ x :: (middle ++ (y ^^^ x) :: back) := by
    rw [Nat.add_assoc, List.set_append_right _ _ (Nat.le_add_right _ _), Nat.add_sub_cancel_left,
      Nat.add_comm 1, List.set_cons_succ]
    simp
  unfold xorByte
  rw [first, second]
  exact congrArg Except.ok later

/-- The far end, counted from the near end. -/
theorem sub64_far {bnlen i : Nat} (positive : 0 < bnlen) (small : bnlen < 4294967296)
    (inside : i < bnlen) : sub64 (sub32 bnlen 1) i = bnlen - 1 - i := by
  unfold sub64 sub32
  omega

/-- What is between bytes that are exchanged already is turned around. -/
theorem reverseLoop_ok (front back : List UInt8) (middle : List UInt8) :
    ∀ (left right : List UInt8), left.length = right.length →
      0 < left.length + middle.length →
      left.length + middle.length + right.length < 4294967296 →
      reverseLoop (front ++ left ++ (middle ++ (right ++ back))) front.length
          (left.length + middle.length + right.length) left.length =
        .ok (front ++ left ++ (middle.reverse ++ (right ++ back))) := by
  induction middle using List.bidirectionalRec with
  | nil =>
    intro left right equal positive small
    rw [reverseLoop, sub64_far (by omega) small (by simp only [List.length_nil] at *; omega)]
    simp only [List.length_nil]
    rw [if_neg (by omega)]
    rfl
  | singleton x =>
    intro left right equal positive small
    simp only [List.length_singleton] at *
    rw [reverseLoop, sub64_far (by omega) small (by omega), if_neg (by omega)]
    rfl
  | cons_append x middle y ih =>
    intro left right equal positive small
    have lengths : (x :: (middle ++ [y])).length = middle.length + 2 := by simp
    rw [lengths] at positive small ⊢
    have far : left.length + (middle.length + 2) + right.length - 1 - left.length =
        middle.length + 1 + right.length := by omega
    rw [reverseLoop, sub64_far (by omega) small (by omega), far, if_pos (by omega)]
    have shape : front ++ left ++ (x :: (middle ++ [y]) ++ (right ++ back)) =
        (front ++ left) ++ x :: (middle ++ y :: (right ++ back)) := by simp
    have near : front.length + left.length = (front ++ left).length := List.length_append.symm
    have place : front.length + (middle.length + 1 + right.length) =
        (front ++ left).length + 1 + middle.length := by
      rw [List.length_append]
      omega
    have swapped : y ^^^ (x ^^^ y) = x := by
      rw [UInt8.xor_comm x y, ← UInt8.xor_assoc, UInt8.xor_self, UInt8.zero_xor]
    have swapped' : (x ^^^ y) ^^^ x = y := by
      rw [UInt8.xor_comm x y, UInt8.xor_assoc, UInt8.xor_self, UInt8.xor_zero]
    simp only [shape, near, place, xorByte_first, xorByte_second, ok_bind, swapped, swapped']
    have next := ih (left ++ [y]) (x :: right) (by simp [equal]) (by simp) (by
      simp only [List.length_append, List.length_cons, List.length_nil]
      omega)
    have count : (left ++ [y]).length + middle.length + (x :: right).length =
        left.length + (middle.length + 2) + right.length := by
      simp only [List.length_append, List.length_cons, List.length_nil]
      omega
    have index : (left ++ [y]).length = left.length + 1 := by simp
    rw [count, index] at next
    simp only [List.append_assoc, List.cons_append, List.reverse_cons,
      List.reverse_append, List.reverse_nil, List.nil_append] at next ⊢
    exact next

/-- For the number zero the first byte is exchanged with one far outside of the buffer. -/
theorem reverseLoop_zero {mem : List UInt8} (small : mem.length ≤ 4294967294) (pos : Nat) :
    reverseLoop mem pos 0 0 = .error .outside := by
  have far : sub64 (sub32 0 1) 0 = 4294967295 := rfl
  have absent : mem[pos + 4294967295]? = none := List.getElem?_eq_none (by omega)
  have outside : xorByte mem (pos + 0) (pos + 4294967295) = .error .outside := by
    unfold xorByte
    rw [absent]
    split
    · next absurdity => cases absurdity
    · rfl
  rw [reverseLoop, far, if_pos (by omega)]
  simp only [outside]
  rfl

end Reversal

section Integers

variable {L : BignumLimit}

/-- Bytes are written at the start of the space that is left. -/
theorem store_ok (done : List UInt8) {space bytes : List UInt8}
    (fits : bytes.length ≤ space.length) :
    store (done ++ space) done.length bytes = .ok (done ++ bytes ++ space.drop bytes.length) := by
  unfold store
  rw [if_pos (by rw [List.length_append]; omega), List.take_left, List.drop_append,
    List.drop_eq_nil_of_le (Nat.le_add_right _ _), List.nil_append, Nat.add_sub_cancel_left]

/-- The length of an integer in a key. -/
theorem encodeInt_length (bytes : List UInt8) : (encodeInt bytes).length = 4 + bytes.length := by
  rw [encodeInt, List.length_append, leEnc_length]

/-- A buffer that is written up to the space that is left. -/
def Out.at (done space : List UInt8) : Out := ⟨false, done ++ space, done.length, space.length⟩

/-- The buffer after some bytes are written. -/
def Out.after (done space bytes : List UInt8) : Out :=
  .at (done ++ bytes) (space.drop bytes.length)

/-- Sums of lengths that are small do not wrap around. -/
theorem lengths_small {len more : Nat} (small : len + (4 + more) < 4294967296) :
    ¬ word64 (len + 4) < len ∧ ¬ word (word (len + 4) + more) < word (len + 4) ∧
      word (word (len + 4) + more) = len + (4 + more) := by
  unfold word64 word
  omega

/-- Only the length is asked for. -/
theorem exportBN_null {out : Out} (null : out.null = true) (bn : Bignum L) {len : Nat}
    (small : len + (encodeInt bn.bytes).length < 4294967296) :
    exportBN bn out len = .ok (out, len + (encodeInt bn.bytes).length) := by
  rw [encodeInt_length] at small ⊢
  obtain ⟨fits, fits', total⟩ := lengths_small small
  unfold exportBN
  rw [if_neg fits, if_neg fits', if_pos null, total]

/-- Up to where the bytes are turned around. -/
theorem exportBN_start {bn : Bignum L} {done space : List UInt8} {len : Nat}
    (small : len + (encodeInt bn.bytes).length < 4294967296)
    (fits : (encodeInt bn.bytes).length ≤ space.length) :
    exportBN bn (.at done space) len =
      reverseLoop (done ++ leEnc 4 bn.bytes.length ++ (bn.bytes.reverse ++
          space.drop (encodeInt bn.bytes).length))
        (done.length + 4) bn.bytes.length 0 >>= fun mem =>
          .ok (⟨false, mem, done.length + 4 + bn.bytes.length, space.length - 4 - bn.bytes.length⟩,
            len + (encodeInt bn.bytes).length) := by
  rw [encodeInt_length] at small fits ⊢
  obtain ⟨low, low', total⟩ := lengths_small small
  have four : (leEnc 4 bn.bytes.length).length = 4 := leEnc_length 4 _
  have first := store_ok done (show (leEnc 4 bn.bytes.length).length ≤ space.length by omega)
  rw [four] at first
  have second := store_ok (done ++ leEnc 4 bn.bytes.length) 
    (show bn.bytes.reverse.length ≤ (space.drop 4).length by
      rw [List.length_reverse, List.length_drop]
      omega)
  rw [List.length_append, four, List.length_reverse, List.drop_drop,
    List.append_assoc (done ++ leEnc 4 bn.bytes.length)] at second
  unfold exportBN Out.at
  simp only
  -- The kernel would unfold the loop if a step of the sequence were taken by `rfl`.
  rw [if_neg low, if_neg low', if_neg Bool.false_ne_true, if_neg (by omega), total, first, ok_bind,
    if_neg (by omega), second, ok_bind]

/-- A number that is not zero is exported. -/
theorem exportBN_ok {bn : Bignum L} (nonzero : bn.bytes ≠ []) {done space : List UInt8} {len : Nat}
    (small : len + (encodeInt bn.bytes).length < 4294967296)
    (fits : (encodeInt bn.bytes).length ≤ space.length) :
    exportBN bn (.at done space) len =
      .ok (.after done space (encodeInt bn.bytes), len + (encodeInt bn.bytes).length) := by
  rw [exportBN_start small fits]
  have four : (leEnc 4 bn.bytes.length).length = 4 := leEnc_length 4 _
  have positive := List.length_pos_iff.mpr nonzero
  have turned := reverseLoop_ok (done ++ leEnc 4 bn.bytes.length)
    (space.drop (encodeInt bn.bytes).length) bn.bytes.reverse [] [] rfl (by simpa using positive)
    (by
      simp only [List.length_nil, List.length_reverse]
      rw [encodeInt_length] at small
      omega)
  simp only [List.length_nil, List.length_reverse, List.length_append, four, List.append_nil,
    List.nil_append, List.reverse_reverse, Nat.zero_add, Nat.add_zero] at turned
  rw [turned]
  have after : Out.after done space (encodeInt bn.bytes) =
      ⟨false, done ++ leEnc 4 bn.bytes.length ++ (bn.bytes ++
        space.drop (encodeInt bn.bytes).length), done.length + 4 + bn.bytes.length,
        space.length - 4 - bn.bytes.length⟩ := by
    unfold Out.after Out.at
    rw [List.length_append, List.length_drop, encodeInt_length, encodeInt]
    simp only [List.append_assoc, Nat.sub_sub, Nat.add_assoc]
  rw [after]
  rfl

/-- The number zero is not exported: the bytes to turn around are outside of the buffer. -/
theorem exportBN_zero {bn : Bignum L} (zero : bn.bytes = []) {done space : List UInt8} {len : Nat}
    (small : len + (encodeInt bn.bytes).length < 4294967296)
    (fits : (encodeInt bn.bytes).length ≤ space.length)
    (short : done.length + space.length ≤ 4294967294) :
    exportBN bn (.at done space) len = .error .outside := by
  rw [exportBN_start small fits]
  have four : (leEnc 4 0).length = 4 := leEnc_length 4 _
  rw [encodeInt_length, zero] at fits ⊢
  simp only [List.length_nil, List.reverse_nil, List.nil_append] at fits ⊢
  rw [reverseLoop_zero]
  · rfl
  · rw [List.length_append, List.length_append, four, List.length_drop]
    omega

/-- The integers of a key, one after the other. -/
def encodeInts (ints : List (Bignum L)) : List UInt8 := ints.flatMap fun bn => encodeInt bn.bytes

/-- Only the length is asked for. -/
theorem exportInts_null {out : Out} (null : out.null = true) (ints : List (Bignum L)) :
    ∀ {len : Nat}, len + (encodeInts ints).length < 4294967296 →
      exportInts ints out len = .ok (out, len + (encodeInts ints).length) := by
  induction ints with
  | nil => exact fun _ => rfl
  | cons bn ints ih =>
    intro len small
    have lengths : (encodeInts (bn :: ints)).length =
        (encodeInt bn.bytes).length + (encodeInts ints).length := List.length_append
    rw [lengths, ← Nat.add_assoc] at small ⊢
    rw [exportInts, exportBN_null null bn (by omega), ok_bind]
    exact ih small

/-- The next bytes are written after the first ones. -/
theorem Out.after_append (done space first second : List UInt8) :
    Out.after (done ++ first) (space.drop first.length) second =
      Out.after done space (first ++ second) := by
  unfold Out.after
  rw [List.append_assoc, List.drop_drop, List.length_append]

/-- Integers that are not zero are exported. -/
theorem exportInts_ok {ints : List (Bignum L)} (nonzero : ∀ bn ∈ ints, bn.bytes ≠ []) :
    ∀ (done space : List UInt8) {len : Nat}, len + (encodeInts ints).length < 4294967296 →
      (encodeInts ints).length ≤ space.length →
      exportInts ints (.at done space) len =
        .ok (.after done space (encodeInts ints), len + (encodeInts ints).length) := by
  induction ints with
  | nil =>
    intro done space len _ _
    unfold exportInts Out.after encodeInts
    rw [List.flatMap_nil, List.append_nil]
    rfl
  | cons bn ints ih =>
    intro done space len small fits
    have split : encodeInts (bn :: ints) = encodeInt bn.bytes ++ encodeInts ints := rfl
    rw [split, List.length_append] at small fits ⊢
    rw [exportInts, exportBN_ok (nonzero bn List.mem_cons_self) (by omega) (by omega), ok_bind]
    have later := ih (fun other member => nonzero other (List.mem_cons_of_mem bn member))
      (done ++ encodeInt bn.bytes) (space.drop (encodeInt bn.bytes).length)
      (show len + (encodeInt bn.bytes).length + (encodeInts ints).length < 4294967296 by omega)
      (by rw [List.length_drop]; omega)
    rw [Out.after_append, Nat.add_assoc] at later
    exact later

/-- If one of the integers is zero, the export leaves the buffer. -/
theorem exportInts_zero {ints : List (Bignum L)} (zero : ∃ bn ∈ ints, bn.bytes = []) :
    ∀ (done space : List UInt8) {len : Nat}, len + (encodeInts ints).length < 4294967296 →
      (encodeInts ints).length ≤ space.length → done.length + space.length ≤ 4294967294 →
      exportInts ints (.at done space) len = .error .outside := by
  induction ints with
  | nil =>
    obtain ⟨bn, member, _⟩ := zero
    exact absurd member List.not_mem_nil
  | cons bn ints ih =>
    intro done space len small fits short
    have split : encodeInts (bn :: ints) = encodeInt bn.bytes ++ encodeInts ints := rfl
    rw [split, List.length_append] at small fits
    rw [exportInts]
    by_cases first : bn.bytes = []
    · rw [exportBN_zero first (by omega) (by omega) short]
      rfl
    · rw [exportBN_ok first (by omega) (by omega), ok_bind]
      obtain ⟨other, member, same⟩ := zero
      have rest : other ∈ ints :=
        (List.mem_cons.mp member).resolve_left fun here => first (here ▸ same)
      have later := ih ⟨other, rest, same⟩
        (done ++ encodeInt bn.bytes) (space.drop (encodeInt bn.bytes).length)
        (show len + (encodeInt bn.bytes).length + (encodeInts ints).length < 4294967296 by omega)
        (by rw [List.length_drop]; omega) (by rw [List.length_append, List.length_drop]; omega)
      exact later

end Integers

section Keys

variable {L : BignumLimit}

/-- The data of a key as it is exported. -/
def Encoding.encode : (e : Encoding) → e.Key L → List UInt8
  | rsa _, ints => encodeInts ints.toList
  | hmac, key => key.toList

/-- No integer of a key is zero. -/
def Encoding.NoZero : (e : Encoding) → e.Key L → Prop
  | rsa _, ints => ∀ bn ∈ ints.toList, bn.bytes ≠ []
  | hmac, _ => True

/-- The bytes of a number are those of the number. -/
theorem Bignum.fits (bn : Bignum L) : Fits bn bn.bytes where
  length := by
    have small := bn.small
    have limit := L.small
    unfold INT_MAX
    omega
  trimmed := by
    refine List.rdropWhile_eq_self_iff.mpr fun nonempty zero => bn.normal ?_
    rw [List.getLast?_eq_some_getLast nonempty]
    exact congrArg some (of_decide_eq_true zero)

/-- What is exported for a key is data of the key. -/
theorem Encoding.encodes_encode (e : Encoding) (key : e.Key L) : e.Encodes key (e.encode key) := by
  cases e with
  | rsa count =>
    refine ⟨key.toList.map Bignum.bytes, ?_, (List.flatMap_map _ _ _).symm⟩
    rw [List.forall₂_map_right_iff]
    exact List.forall₂_same.mpr fun bn _ => bn.fits
  | hmac => rfl

/-- How long the data of a key may be. -/
def Encoding.maxLength : Encoding → Nat
  | rsa count => count * 67108867
  | hmac => 32

/-- Integers are not longer than OpenSSL allows. -/
theorem encodeInts_length (ints : List (Bignum L)) :
    (encodeInts ints).length ≤ ints.length * 67108867 := by
  induction ints with
  | nil => exact Nat.zero_le _
  | cons bn ints ih =>
    have split : encodeInts (bn :: ints) = encodeInt bn.bytes ++ encodeInts ints := rfl
    have small := bn.small
    have limit := L.small
    rw [split, List.length_append, encodeInt_length, List.length_cons]
    omega

/-- The data of a key is not longer than OpenSSL allows. -/
theorem Encoding.encode_length (e : Encoding) (key : e.Key L) :
    (e.encode key).length ≤ e.maxLength := by
  cases e with
  | rsa count =>
    have bound := encodeInts_length key.toList
    have length : key.toList.length = count := key.toList_length
    rwa [length] at bound
  | hmac => exact le_of_eq key.toList_length

/-- The data of a key of the cache fits a record. -/
theorem Slot.encode_length (s : Slot) (held : s.encoding.Key L) :
    (s.encoding.encode held).length ≤ 536870936 := by
  apply Nat.le_trans (s.encoding.encode_length held)
  cases s <;> decide

section Encodings

variable {e : Encoding} {held : e.Key L}

/-- Only the length of a key is asked for. -/
theorem Encoding.exportKey_null (short : (e.encode held).length ≤ 536870936) :
    e.exportKey held ⟨true, [], 0, 0⟩ = .ok (⟨true, [], 0, 0⟩, (e.encode held).length) := by
  cases e with
  | rsa count =>
    change (encodeInts held.toList).length ≤ _ at short
    have sized : exportInts held.toList ⟨true, [], 0, 0⟩ 0 = _ :=
      exportInts_null rfl held.toList (by omega)
    rwa [Nat.zero_add] at sized
  | hmac =>
    have length : held.toList.length = 32 := held.toList_length
    change exportHMAC held _ = .ok (_, held.toList.length)
    rw [length]
    rfl

variable {done space : List UInt8}

/-- A key is exported if none of its integers is zero. -/
theorem Encoding.exportKey_ok (short : (e.encode held).length ≤ 536870936)
    (nonzero : e.NoZero held) (fits : (e.encode held).length ≤ space.length) :
    ∃ out, e.exportKey held (.at done space) = .ok (out, (e.encode held).length) ∧
      out.mem = done ++ e.encode held ++ space.drop (e.encode held).length := by
  cases e with
  | rsa count =>
    change (encodeInts held.toList).length ≤ _ at short
    have written := exportInts_ok nonzero done space
      (show 0 + (encodeInts held.toList).length < 4294967296 by omega) fits
    rw [Nat.zero_add] at written
    exact ⟨_, written, rfl⟩
  | hmac =>
    have length : held.toList.length = 32 := held.toList_length
    change held.toList.length ≤ space.length at fits
    refine ⟨⟨false, done ++ held.toList ++ space.drop held.toList.length, done.length,
      space.length⟩, ?_, rfl⟩
    change exportHMAC held _ = .ok (_, held.toList.length)
    unfold exportHMAC Out.at
    simp only
    rw [if_neg Bool.false_ne_true, if_neg (by omega), store_ok done fits, ok_bind, length]

/-- If one of the integers of a key is zero, the export leaves the buffer. -/
theorem Encoding.exportKey_zero (bounded : (e.encode held).length ≤ 536870936)
    (zero : ¬ e.NoZero held) (fits : (e.encode held).length ≤ space.length)
    (short : done.length + space.length ≤ 4294967294) :
    e.exportKey held (.at done space) = .error .outside := by
  cases e with
  | rsa count =>
    change ¬ ∀ bn ∈ held.toList, bn.bytes ≠ [] at zero
    push Not at zero
    change (encodeInts held.toList).length ≤ _ at bounded
    exact exportInts_zero zero done space (by omega) fits short
  | hmac => exact absurd trivial zero

end Encodings

variable {cache : Keycache L} {key : Nat} {s : Slot} {held : s.encoding.Key L}

/-- Only the length of a key of the cache is asked for. -/
theorem exportKey_null (slot : exportSlot key = some s) (present : cache s = some held) :
    exportKey cache key ⟨true, [], 0, 0⟩ = .ok ([], (s.encoding.encode held).length) := by
  have short := s.encode_length held
  unfold exportKey
  simp only [slot, present]
  rw [Encoding.exportKey_null short, ok_bind, if_neg (by omega)]

/-- A key of the cache is exported if none of its integers is zero. -/
theorem exportKey_ok (slot : exportSlot key = some s) (present : cache s = some held)
    (nonzero : s.encoding.NoZero held) (done : List UInt8) {space : List UInt8}
    (fits : (s.encoding.encode held).length ≤ space.length) :
    exportKey cache key (.at done space) =
      .ok (done ++ s.encoding.encode held ++ space.drop (s.encoding.encode held).length,
        (s.encoding.encode held).length) := by
  have short := s.encode_length held
  obtain ⟨out, exported, memory⟩ := Encoding.exportKey_ok short nonzero fits
  unfold exportKey
  simp only [slot, present]
  rw [exported, ok_bind, if_neg (by omega), memory]

/-- If one of the integers of a key of the cache is zero, the export leaves the buffer. -/
theorem exportKey_zero (slot : exportSlot key = some s) (present : cache s = some held)
    (zero : ¬ s.encoding.NoZero held) {done space : List UInt8}
    (fits : (s.encoding.encode held).length ≤ space.length)
    (short : done.length + space.length ≤ 4294967294) :
    exportKey cache key (.at done space) = .error .outside := by
  unfold exportKey
  simp only [slot, present]
  rw [Encoding.exportKey_zero (s.encode_length held) zero fits short, error_bind]

end Keys

end Tarsnap.Crypto
