import Tarsnap.Chunkify.Table
import Mathlib.Algebra.BigOperators.Group.Finset.Basic
import Mathlib.Algebra.Order.BigOperators.Group.Finset

/-!
# Chunks of few distinct bytes

A cycle counts only with at least eight distinct bytes. So a chunk of at most seven distinct bytes
goes on until its buffer is full, whatever the coefficients are, and as long as its byte count is a
table size below the word size nothing fails.
-/

namespace Tarsnap.Chunkify

open Tarsnap.Lib

variable {P : Params} {values : Finset UInt8}

/-- The count of distinct bytes grows by the values that were not seen before at most. -/
theorem countSeen_le {bytes : List UInt8} (few : ∀ byte ∈ bytes, byte ∈ values)
    (seen : UInt8 → Nat) (nzcount : Nat) :
    countSeen bytes seen nzcount ≤ nzcount + ∑ byte ∈ values, (1 - seen byte) := by
  induction bytes generalizing seen nzcount with
  | nil => exact Nat.le_add_right _ _
  | cons byte rest ih =>
    have member : byte ∈ values := few byte List.mem_cons_self
    have step := ih (fun other within => few other (List.mem_cons_of_mem _ within))
      (Function.update seen byte 1) (nzcount + (1 - seen byte))
    have others : ∑ other ∈ values.erase byte, (1 - Function.update seen byte 1 other) =
        ∑ other ∈ values.erase byte, (1 - seen other) := by
      apply Finset.sum_congr rfl
      intro other within
      rw [Function.update_of_ne (Finset.ne_of_mem_erase within)]
    rw [← Finset.add_sum_erase values _ member, Function.update_self, others] at step
    rw [countSeen, ← Finset.add_sum_erase values _ member]
    omega

/-- A cycle of at most seven distinct bytes is not valid. -/
theorem validcycle_few (small : values.card ≤ 7) {bytes : List UInt8}
    (few : ∀ byte ∈ bytes, byte ∈ values) (start : Nat) : validcycle bytes start = false := by
  have count : countSeen (bytes.drop start) (fun _ => 0) 0 ≤ 0 + ∑ _byte ∈ values, (1 - 0) :=
    countSeen_le (fun byte member => few byte (List.mem_of_mem_drop member)) (fun _ => 0) 0
  have total : ∑ _byte ∈ values, (1 - 0) = values.card := by simp
  unfold validcycle
  simp only [decide_eq_false_iff_not, Nat.not_le]
  omega

/-- A lookup among at most seven distinct bytes finds no cycle. -/
theorem lookup_few (small : values.card ≤ 7) {c : Chunkifier P}
    (few : ∀ byte ∈ c.bytes, byte ∈ values) : lookup c ≠ .ok true := by
  intro found
  unfold lookup at found
  split at found
  case h_2 => cases found
  case h_1 answer probed =>
    cases found
    obtain ⟨htpos, test⟩ := exists_of_probe_eq_some probed
    unfold lookupTest at test
    simp only [validcycle_few small few, Bool.false_eq_true, and_false, if_false] at test
    split at test <;> cases test

/-- A byte that leaves a chunk at few distinct bytes and does not fill it does not end it. -/
theorem addByte_few (small : values.card ≤ 7) {c : Chunkifier P} (valid : Valid c) {byte : UInt8}
    (few : ∀ other ∈ c.bytes ++ [byte], other ∈ values) (room : c.k + 1 < P.blen)
    (low : c.k + 1 + P.htlen ≤ 4294967296) :
    ∃ added, addByte c byte = .ok (added, false) ∧ Valid added := by
  obtain ⟨added, ended, add, next⟩ := addByte_ok valid (fun _ => low) byte
  have going : ended = false := by
    obtain ⟨stored, store, ⟨full, _⟩ | ⟨_, _, _, goes⟩ | ⟨_, _, search⟩⟩ := addByte_cases add
    · have count := (storeByte_bytes store).2.1
      omega
    · exact goes
    · rcases searchAndQueue_cases search with ⟨found, _⟩ | ⟨_, goes, _⟩
      · have appended : (roll stored byte).bytes = c.bytes ++ [byte] := (storeByte_bytes store).2.2
        exact absurd found (lookup_few small (by rw [appended]; exact few))
      · exact goes
  rw [going] at add
  exact ⟨added, add, next going⟩

/-- A chunk of few distinct bytes takes any input of them that does not fill it. -/
theorem feed_few (small : values.card ≤ 7) {c : Chunkifier P} (valid : Valid c)
    (input : List UInt8) (few : ∀ byte ∈ c.bytes ++ input, byte ∈ values)
    (room : c.k + input.length < P.blen) (low : c.k + input.length + P.htlen ≤ 4294967296) :
    ∃ out, feed c input = .ok ([], out) ∧ Valid out ∧ out.k = c.k + input.length ∧
      out.bytes = c.bytes ++ input := by
  induction input generalizing c with
  | nil => exact ⟨c, rfl, valid, rfl, by rw [List.append_nil]⟩
  | cons byte rest ih =>
    rw [List.length_cons] at room low
    have front : ∀ other ∈ c.bytes ++ [byte], other ∈ values := by
      intro other member
      apply few
      rw [List.mem_append, List.mem_singleton] at member
      rw [List.mem_append, List.mem_cons]
      exact member.imp id Or.inl
    obtain ⟨added, add, next⟩ := addByte_few small valid front (by omega) (by omega)
    obtain ⟨_, count, appended⟩ := addByte_bytes add
    have split : added.bytes ++ rest = c.bytes ++ byte :: rest := by rw [appended]; simp
    obtain ⟨out, fed, kept, place, bytes⟩ :=
      ih next (by rw [split]; exact few) (by omega) (by omega)
    refine ⟨out, ?_, kept, by rw [List.length_cons]; omega, bytes.trans split⟩
    rw [feed_cons, add]
    exact fed

end Tarsnap.Chunkify
