import Tarsnap.Chunkify.Chunks

/-!
# The incremental square root

The fields `r` and `rs` follow the square root of `4 * k - mu` without multiplications. The
invariant says that `rs` is the distance from `4 * k - mu` to one above the square of `r`, and
that `r - 1` is below the root. So `r` is zero exactly while no cycle may be looked for, and
never exceeds a quarter of the hash table.
-/

namespace Tarsnap.Chunkify

open Tarsnap.Lib

variable {P : Params}

/-- The invariant of the square root fields. -/
structure SquareRoot (c : Chunkifier P) : Prop where
  /-- Bytes and remaining distance balance the square. -/
  balance : c.rs + 4 * c.k = c.r ^ 2 + P.mu + 1
  /-- The distance is never exhausted. -/
  positive : 1 ≤ c.rs
  /-- The previous square is below the root. -/
  above : 0 < c.r → (c.r - 1) ^ 2 + P.mu < 4 * c.k

/-- Starting a chunk establishes the invariant. -/
theorem chunkifyStart_squareRoot (buf : Vector UInt8 P.blen) :
    SquareRoot (chunkifyStart P buf) where
  balance := by simp [chunkifyStart]; omega
  positive := by simp [chunkifyStart]
  above := by simp [chunkifyStart]

/-- The square root loop raises `r` until the distance exceeds four, each pass adding the
next odd number. -/
theorem sqrtLoop_eq (fuel r rs : Nat) (small : r + fuel < 1048576) (enough : 5 ≤ rs + fuel) :
    ∃ passes ≤ fuel, ∃ rs', sqrtLoop (fuel + 1) r rs = .ok (r + passes, rs') ∧ 4 < rs' ∧
      rs' + r ^ 2 = rs + (r + passes) ^ 2 ∧
      (passes = 0 ∨ rs' ≤ 5 + 2 * (r + passes - 1)) := by
  induction fuel generalizing r rs with
  | zero =>
    refine ⟨0, le_refl 0, rs, ?_, by omega, rfl, .inl rfl⟩
    rw [sqrtLoop, if_neg (by omega), Nat.add_zero]
  | succ fuel ih =>
    rw [sqrtLoop]
    by_cases near : rs ≤ 4
    · have nextRoot : word (r + 1) = r + 1 := Nat.mod_eq_of_lt (by omega)
      have nextDistance : word (rs + (2 * r + 1)) = rs + (2 * r + 1) :=
        Nat.mod_eq_of_lt (by omega)
      obtain ⟨passes, limit, rs', loop, far, square, last⟩ :=
        ih (r + 1) (rs + (2 * r + 1)) (by omega) (by omega)
      refine ⟨passes + 1, by omega, rs', ?_, far, ?_, .inr ?_⟩
      · rw [if_pos near, nextRoot, nextDistance, loop]
        ring_nf
      · nlinarith
      · rcases last with rfl | last
        · have : rs' = rs + (2 * r + 1) := by nlinarith
          omega
        · omega
    · exact ⟨0, Nat.zero_le _, rs, by rw [if_neg near, Nat.add_zero], by omega, rfl, .inl rfl⟩

/-- The root of a chunk that fits a word is small. -/
theorem SquareRoot.small {c : Chunkifier P} (root : SquareRoot c) (room : c.k ≤ P.blen) :
    c.r ≤ 131073 := by
  have bound := P.blen_lt
  by_contra large
  have above := root.above (by omega)
  have square : 131073 * 131073 ≤ (c.r - 1) ^ 2 := by
    rw [sq]
    exact Nat.mul_le_mul (by omega) (by omega)
  omega

/-- The distance to the next square is at most twice the root, the lead-in apart. -/
theorem SquareRoot.distance {c : Chunkifier P} (root : SquareRoot c) :
    c.rs ≤ 2 * c.r + P.mu + 1 := by
  have balance := root.balance
  cases value : c.r with
  | zero => rw [value] at balance; omega
  | succ s =>
    have above := root.above (by omega)
    rw [value, Nat.add_sub_cancel] at above
    rw [value] at balance
    have square : (s + 1) ^ 2 = s ^ 2 + 2 * s + 1 := by ring
    omega

/-- Storing a byte never faults inside the buffer. -/
theorem storeByte_ok {c : Chunkifier P} (root : SquareRoot c) (room : c.k < P.blen)
    (byte : UInt8) : ∃ stored, storeByte c byte = .ok stored := by
  have small := root.small room.le
  obtain ⟨passes, _, rs, loop, _⟩ := sqrtLoop_eq 4 c.r c.rs (by omega)
    (by have := root.positive; omega)
  exact ⟨_, by rw [storeByte, dif_pos room, loop]; rfl⟩

/-- A pass of the loop leaves the square before the last one within four of the old square. -/
theorem square_before_last {r passes rs rs' : Nat} (moved : passes ≠ 0)
    (square : rs' + r ^ 2 = rs + (r + passes) ^ 2)
    (last : passes = 0 ∨ rs' ≤ 5 + 2 * (r + passes - 1)) :
    rs + (r + passes - 1) ^ 2 ≤ r ^ 2 + 4 := by
  obtain ⟨before, rfl⟩ := Nat.exists_eq_succ_of_ne_zero moved
  have bound := last.resolve_left moved
  have split : r + before.succ = (r + before) + 1 := rfl
  rw [split, Nat.add_sub_cancel] at bound ⊢
  have expanded : (r + before + 1) ^ 2 = (r + before) ^ 2 + 2 * (r + before) + 1 := by ring
  rw [split] at square
  omega

/-- Storing a byte maintains the invariant. The root never falls, and past one it rises by at
most one a byte. -/
theorem storeByte_squareRoot {c stored : Chunkifier P} {byte : UInt8} (root : SquareRoot c)
    (result : storeByte c byte = .ok stored) :
    SquareRoot stored ∧ c.r ≤ stored.r ∧ (2 ≤ c.r → stored.r ≤ c.r + 1) := by
  obtain ⟨room, r, rs, loop, rfl⟩ := storeByte_cases result
  have small := root.small room.le
  have positive := root.positive
  have balance := root.balance
  have near := root.distance
  obtain ⟨passes, _, rs', loop', far, square, last⟩ := sqrtLoop_eq 4 c.r c.rs (by omega)
    (by omega)
  rw [loop'] at loop
  cases loop
  have fits : rs < 4294967296 := by
    have := P.mu_le
    rcases last with rfl | last
    · rw [Nat.add_zero] at square
      omega
    · omega
  have distance : sub32 rs 4 = rs - 4 := by unfold sub32; omega
  refine ⟨⟨?_, ?_, ?_⟩, Nat.le_add_right _ _, ?_⟩
  · simp only [distance]
    omega
  · simp only [distance]
    omega
  · intro nonzero
    by_cases still : passes = 0
    · subst still
      have above := root.above nonzero
      simp only [Nat.add_zero]
      omega
    · have before := square_before_last still square last
      simp only
      omega
  · intro two
    by_contra jump
    simp only at jump
    have before := square_before_last (by omega) square last
    have beyond : (c.r + 1) ^ 2 ≤ (c.r + passes - 1) ^ 2 := Nat.pow_le_pow_left (by omega) 2
    have expanded : (c.r + 1) ^ 2 = c.r ^ 2 + 2 * c.r + 1 := by ring
    omega

/-- Adding a byte maintains the invariant. -/
theorem addByte_squareRoot {c added : Chunkifier P} {byte : UInt8} {ended : Bool}
    (root : SquareRoot c) (result : addByte c byte = .ok (added, ended)) : SquareRoot added := by
  obtain ⟨stored, store, count, r, rs, _⟩ := addByte_frame result
  have kept := (storeByte_squareRoot root store).1
  refine ⟨?_, ?_, ?_⟩
  · rw [rs, count, r]; exact kept.balance
  · rw [rs]; exact kept.positive
  · rw [count, r]; exact kept.above

/-- A byte ends a chunk only when the chunk is full or longer than a quarter of the mean. -/
theorem addByte_ended {c added : Chunkifier P} {byte : UInt8} (root : SquareRoot c)
    (result : addByte c byte = .ok (added, true)) :
    added.k = P.blen ∨ P.mu < 4 * added.k := by
  obtain ⟨stored, store, ⟨full, rfl, _⟩ | ⟨_, _, _, absurdity⟩ | ⟨_, long, search⟩⟩ :=
    addByte_cases result
  · exact .inl full
  · cases absurdity
  · right
    have above := (storeByte_squareRoot root store).1.above (Nat.pos_of_ne_zero long)
    have count := (searchAndQueue_frame search).1
    rw [count]
    exact Nat.lt_of_le_of_lt (Nat.le_add_left _ _) above

/-- Every chunk that the byte loop ends is longer than a quarter of the mean or full. -/
theorem feed_long {c last : Chunkifier P} {input : List UInt8} {before : List (List UInt8)}
    (root : SquareRoot c) (fed : feed c input = .ok (before, last)) :
    ∀ chunk ∈ before, P.mu < 4 * chunk.length ∨ chunk.length = P.blen := by
  induction input generalizing c before with
  | nil => cases fed; simp
  | cons byte rest ih =>
    rw [feed_cons] at fed
    obtain ⟨⟨added, ended⟩, add, fed⟩ := bind_eq_ok.mp fed
    cases ended with
    | false => exact ih (addByte_squareRoot root add) fed
    | true =>
      obtain ⟨⟨after, final⟩, fed, same⟩ := bind_eq_ok.mp fed
      cases same
      obtain ⟨room, count, _⟩ := addByte_bytes add
      have length := bytes_length (show added.k ≤ P.blen by omega)
      intro chunk member
      rcases List.mem_cons.mp member with rfl | member
      · rw [length]
        exact (addByte_ended root add).symm
      · exact ih (chunkifyStart_squareRoot _) fed chunk member

end Tarsnap.Chunkify
