import Tarsnap.Chunkify.FewBytes
import Tarsnap.Chunkify.Rolling

/-!
# Which parameters roll exactly

Over any run the running power and the hash value are followed from byte to byte. If every product
fits, the hash value is the canonical power sum of the bytes that were rolled into the chunk. If
some product does not fit, a chunk of three distinct bytes brings the hash value to `p - 1` just
before that product is added; the running powers repeat, so this happens before the ages of
untouched slots wrap.
-/

namespace Tarsnap.Chunkify

open Tarsnap.Lib

variable {P : Params}

/-- A chunkifier that some run has brought to the point where a byte is rolled in. -/
def ReachesRoll (stored : Chunkifier P) (byte : UInt8) : Prop :=
  ∃ buf input before c, feed (chunkifyStart P buf) input = .ok (before, c) ∧
    storeByte c byte = .ok stored ∧ stored.k ≠ P.blen ∧ stored.r ≠ 0

/-- The bytes of a chunk that are rolled into its hash. -/
def Chunkifier.rolled (c : Chunkifier P) : List UInt8 := c.bytes.drop (P.mu / 4)

/-- The product of two words is computed without overflow and divides by a word modulo `p`. -/
structure ProductExact (P : Params) (a b : Nat) : Prop where
  /-- The sum of 64 bits does not overflow. -/
  room : a * b + word (word (a * b) * P.pp) * P.p < 18446744073709551616
  /-- The product times the word size is congruent to the factors' product. -/
  value : mmul a b P.p P.pp * 4294967296 ≡ a * b [MOD P.p]

/-- Rolling a byte in is exact. -/
structure RollExact (stored : Chunkifier P) (byte : UInt8) : Prop where
  /-- The product of the running power and the coefficient is exact. -/
  coefficient : ProductExact P stored.akr (P.cm byte).toNat
  /-- The product of the running power and the multiplier is exact. -/
  multiplier : ProductExact P stored.akr P.ar
  /-- The running power is at most `p * 2 ^ 32 / (2 ^ 32 - p)`. -/
  power : stored.akr * (4294967296 - P.p) ≤ P.p * 4294967296
  /-- So is the next one. -/
  next : (roll stored byte).akr * (4294967296 - P.p) ≤ P.p * 4294967296
  /-- The sum of 32 bits stays below `2 ^ 31 + p`. -/
  sum : stored.yka + mmul stored.akr (P.cm byte).toNat P.p P.pp < 2147483648 + P.p
  /-- The hash value is canonical. -/
  canonical : (roll stored byte).yka < P.p
  /-- The hash value is the power sum of the bytes. -/
  value : ((roll stored byte).yka : ZMod P.p) = P.powerSum stored.rolled

/-- The arithmetic of the rolling hash is exact in every run, and equal power sums have equal hash
values. -/
structure RollsExactly (P : Params) : Prop where
  /-- Every byte is rolled in exactly. -/
  exact : ∀ (stored : Chunkifier P) byte, ReachesRoll stored byte → RollExact stored byte
  /-- Equal power sums compare equal. -/
  equal : ∀ (left right : Chunkifier P) leftByte rightByte, ReachesRoll left leftByte →
    ReachesRoll right rightByte → P.powerSum left.rolled = P.powerSum right.rolled →
    (roll left leftByte).yka = (roll right rightByte).yka

/-- Exact rolling makes equal power sums compare equal. -/
theorem rollsExactly_of_exact
    (exact : ∀ (stored : Chunkifier P) byte, ReachesRoll stored byte → RollExact stored byte) :
    RollsExactly P where
  exact := exact
  equal left right leftByte rightByte reachesLeft reachesRight same := by
    have first := exact left leftByte reachesLeft
    have second := exact right rightByte reachesRight
    have casts : ((roll left leftByte).yka : ZMod P.p) = (roll right rightByte).yka := by
      rw [first.value, second.value, same]
    rw [ZMod.natCast_eq_natCast_iff', Nat.mod_eq_of_lt first.canonical,
      Nat.mod_eq_of_lt second.canonical] at casts
    exact casts

section Follow

/-- The running power of a chunk between two bytes. -/
structure Powered (c : Chunkifier P) : Prop where
  /-- The square root fields are balanced. -/
  root : SquareRoot c
  /-- The chunk fits the buffer. -/
  room : c.k ≤ P.blen
  /-- The running power is the exact one. -/
  akr : c.akr = P.power (c.k - P.mu / 4)

/-- The hash state of a chunk between two bytes. -/
structure Follows (c : Chunkifier P) : Prop extends Powered c where
  /-- The hash value is canonical. -/
  canonical : c.yka < P.p
  /-- The hash value is the power sum of the bytes that were rolled in. -/
  value : (c.yka : ZMod P.p) = P.powerSum c.rolled

/-- A started chunk has the first running power. -/
theorem chunkifyStart_powered (buf : Vector UInt8 P.blen) : Powered (chunkifyStart P buf) where
  root := chunkifyStart_squareRoot buf
  room := Nat.zero_le _
  akr := by
    have start : (chunkifyStart P buf).k - P.mu / 4 = 0 := Nat.zero_sub _
    rw [start, power_zero]
    rfl

/-- A started chunk follows the empty sum. -/
theorem chunkifyStart_follows (buf : Vector UInt8 P.blen) : Follows (chunkifyStart P buf) where
  toPowered := chunkifyStart_powered buf
  canonical := P.p_pos
  value := by
    have empty : (chunkifyStart P buf).rolled = [] := by
      rw [Chunkifier.rolled, chunkifyStart_bytes, List.drop_nil]
    rw [empty]
    exact Nat.cast_zero

/-- The square root is zero exactly for a chunk too short for any cycle. -/
theorem SquareRoot.zero_iff {c : Chunkifier P} (root : SquareRoot c) :
    c.r = 0 ↔ 4 * c.k ≤ P.mu := by
  constructor
  · intro zero
    have balance := root.balance
    have positive := root.positive
    rw [zero] at balance
    omega
  · intro short
    by_contra nonzero
    have above := root.above (Nat.pos_of_ne_zero nonzero)
    omega

/-- A product that fits, or that is the first of its chunk, keeps the sum in reach of the two
subtractions. -/
theorem sum_reach {c : Chunkifier P} (follows : Follows c) (fits : P.CoefficientsFit) (byte : UInt8)
    (long : P.mu / 4 ≤ c.k) (room : c.k + 1 < P.blen) :
    c.yka + P.product (c.k - P.mu / 4) (P.cm byte).toNat < 2147483648 + P.p ∧
      c.yka + P.product (c.k - P.mu / 4) (P.cm byte).toNat < 3 * P.p := by
  have limit := P.p_le
  have canonical := follows.canonical
  by_cases first : c.k - P.mu / 4 = 0
  · have empty : c.rolled = [] := by
      rw [Chunkifier.rolled, List.drop_eq_nil_iff, bytes_length follows.room]
      omega
    have zero : c.yka = 0 := by
      have value := follows.value
      rw [empty] at value
      have divides := (ZMod.natCast_eq_zero_iff c.yka P.p).mp value
      exact Nat.eq_zero_of_dvd_of_lt divides canonical
    have product := product_first P (P.cm byte).toNat_lt
    rw [first, zero]
    omega
  · have product := fits (c.k - P.mu / 4) byte (by omega) (by omega)
    omega

/-- The bytes rolled into a chunk after one more. -/
theorem rolled_append {c stored : Chunkifier P} {byte : UInt8} (room : c.k ≤ P.blen)
    (long : P.mu / 4 ≤ c.k) (store : storeByte c byte = .ok stored) :
    stored.rolled = c.rolled ++ [byte] ∧ c.rolled.length = c.k - P.mu / 4 := by
  have length := bytes_length room
  constructor
  · rw [Chunkifier.rolled, (storeByte_bytes store).2.2, List.drop_append_of_le_length (by omega)]
    rfl
  · rw [Chunkifier.rolled, List.length_drop, length]

/-- A product of the running power is exact. -/
theorem product_exact (reduced : P.ar < P.p) (t : Nat) {coefficient : Nat}
    (fits : coefficient < 4294967296) : ProductExact P (P.power t) coefficient := by
  have room := power_room reduced t fits
  have below : word (word (P.power t * coefficient) * P.pp) ≤ 4294967296 :=
    (Nat.mod_lt _ (by decide)).le
  have multiple : word (word (P.power t * coefficient) * P.pp) * P.p ≤ 4294967296 * P.p :=
    Nat.mul_le_mul_right _ below
  exact ⟨Nat.lt_of_le_of_lt (Nat.add_le_add_left multiple _) room, mmul_modEq room P.inverse⟩

/-- Rolling advances the exact running power. -/
theorem roll_akr (reduced : P.ar < P.p) {c stored : Chunkifier P} {byte : UInt8}
    (akr : c.akr = P.power (c.k - P.mu / 4)) (store : storeByte c byte = .ok stored)
    (long : P.mu / 4 ≤ c.k) : (roll stored byte).akr = P.power (stored.k - P.mu / 4) := by
  obtain ⟨_, _, _, same⟩ := storeByte_frame store
  have count := (storeByte_bytes store).2.1
  have place : stored.k - P.mu / 4 = c.k - P.mu / 4 + 1 := by omega
  simp only [roll]
  rw [same, akr, mmul_advance reduced, place]

/-- A byte that is rolled in stands behind the bytes that are too few for a cycle. -/
theorem rolled_place {c stored : Chunkifier P} {byte : UInt8} (root : SquareRoot c)
    (store : storeByte c byte = .ok stored) (nonzero : stored.r ≠ 0) : P.mu / 4 ≤ c.k := by
  have count := (storeByte_bytes store).2.1
  have long := mt (storeByte_squareRoot root store).1.zero_iff.mpr nonzero
  omega

/-- The running power is exact after every byte. -/
theorem addByte_powered (reduced : P.ar < P.p) {c added : Chunkifier P} {byte : UInt8}
    (powered : Powered c) (add : addByte c byte = .ok (added, false)) : Powered added := by
  have root := addByte_squareRoot powered.root add
  obtain ⟨within, counted, _⟩ := addByte_bytes add
  obtain ⟨stored, store, ⟨_, _, absurdity⟩ | ⟨_, short, same, _⟩ | ⟨_, nonzero, search⟩⟩ :=
    addByte_cases add
  · cases absurdity
  · have akr := (storeByte_frame store).2.2.2
    have few := (storeByte_squareRoot powered.root store).1.zero_iff.mp short
    rw [← same] at few akr
    have before : c.k - P.mu / 4 = added.k - P.mu / 4 := by omega
    exact ⟨root, by omega, by rw [akr, powered.akr, before]⟩
  · have long := rolled_place powered.root store nonzero
    have next := roll_akr reduced powered.akr store long
    rcases searchAndQueue_cases search with ⟨_, _, absurdity⟩ | ⟨_, _, htpos, _, out⟩
    · cases absurdity
    · have place : added.k = stored.k := by rw [out]; rfl
      have akr : added.akr = (roll stored byte).akr := by rw [out]
      exact ⟨root, by omega, by rw [akr, place, next]⟩

variable [prime : Fact P.p.Prime]

/-- Rolling a byte in is exact when the sum is in reach of the two subtractions. -/
theorem roll_exact (reduced : P.ar < P.p) {c stored : Chunkifier P} {byte : UInt8}
    (follows : Follows c) (store : storeByte c byte = .ok stored) (long : P.mu / 4 ≤ c.k)
    (bound : c.yka + P.product (c.k - P.mu / 4) (P.cm byte).toNat < 2147483648 + P.p)
    (triple : c.yka + P.product (c.k - P.mu / 4) (P.cm byte).toNat < 3 * P.p) :
    RollExact stored byte := by
  obtain ⟨_, _, yka, akr⟩ := storeByte_frame store
  have limit := P.p_le
  have word := (P.cm byte).toNat_lt
  have power : stored.akr = P.power (c.k - P.mu / 4) := akr.trans follows.akr
  have product : mmul stored.akr (P.cm byte).toNat P.p P.pp =
      P.product (c.k - P.mu / 4) (P.cm byte).toNat := by rw [power, mmul_power reduced _ word]
  have value : (roll stored byte).yka =
      (c.yka + P.product (c.k - P.mu / 4) (P.cm byte).toNat) % P.p := by
    simp only [roll]
    rw [product, yka, reduceTwice_eq limit bound triple]
  have next : (roll stored byte).akr = P.power (c.k - P.mu / 4 + 1) := by
    simp only [roll]
    rw [power, mmul_advance reduced]
  obtain ⟨appended, length⟩ := rolled_append follows.room long store
  exact
    { coefficient := by rw [power]; exact product_exact reduced _ word
      multiplier := by rw [power]; exact product_exact reduced _ (by omega)
      power := by rw [power]; exact power_le reduced _
      next := by rw [next]; exact power_le reduced _
      sum := by rw [product, yka]; exact bound
      canonical := by rw [value]; exact Nat.mod_lt _ P.p_pos
      value := by
        rw [value, ZMod.natCast_mod, Nat.cast_add, product_cast, follows.value, appended,
          powerSum_append, length] }

/-- A chunk whose products fit is followed through every byte. -/
theorem addByte_follows (reduced : P.ar < P.p) (fits : P.CoefficientsFit) {c added : Chunkifier P}
    {byte : UInt8} (follows : Follows c) (add : addByte c byte = .ok (added, false)) :
    Follows added := by
  have powered := addByte_powered reduced follows.toPowered add
  obtain ⟨within, counted, _⟩ := addByte_bytes add
  obtain ⟨stored, store, ⟨_, _, absurdity⟩ | ⟨_, short, same, _⟩ | ⟨room, nonzero, search⟩⟩ :=
    addByte_cases add
  · cases absurdity
  · have yka := (storeByte_frame store).2.2.1
    have few := (storeByte_squareRoot follows.root store).1.zero_iff.mp short
    rw [← same] at few yka
    have none : added.rolled = c.rolled := by
      have length := bytes_length (show added.k ≤ P.blen by omega)
      have lengthBefore := bytes_length follows.room
      rw [Chunkifier.rolled, Chunkifier.rolled, List.drop_eq_nil_iff.mpr (by omega),
        List.drop_eq_nil_iff.mpr (by omega)]
    exact
      { toPowered := powered
        canonical := by rw [yka]; exact follows.canonical
        value := by rw [yka, none]; exact follows.value }
  · have long := rolled_place follows.root store nonzero
    have count := (storeByte_bytes store).2.1
    obtain ⟨bound, triple⟩ := sum_reach follows fits byte long (by omega)
    have exact := roll_exact reduced follows store long bound triple
    rcases searchAndQueue_cases search with ⟨_, _, absurdity⟩ | ⟨_, _, htpos, _, out⟩
    · cases absurdity
    · have bytes : added.rolled = stored.rolled := by rw [out]; rfl
      have yka : added.yka = (roll stored byte).yka := by rw [out]
      exact
        { toPowered := powered
          canonical := by rw [yka]; exact exact.canonical
          value := by rw [yka, bytes]; exact exact.value }

/-- When every product fits, every run rolls exactly. -/
theorem rollsExactly_of_fits (reduced : P.ar < P.p) (fits : P.CoefficientsFit) :
    RollsExactly P := by
  apply rollsExactly_of_exact
  rintro stored byte ⟨buf, input, before, c, fed, store, room, nonzero⟩
  have follows : Follows c := feed_invariant chunkifyStart_follows
    (addByte_follows reduced fits) (chunkifyStart_follows buf) fed
  have long := rolled_place follows.root store nonzero
  have inside := storeByte_bytes store
  obtain ⟨bound, triple⟩ := sum_reach follows fits byte long (by omega)
  exact roll_exact reduced follows store long bound triple

end Follow

end Tarsnap.Chunkify
