import Tarsnap.Chunkify.SquareRoot

/-!
# The square root fields and their comments

The comments of the structure call `r` the floor of the square root of `4 * k - mu` and `rs` the
distance to the square above it. The loop adds `2 * r + 1` before it counts, which is the
difference of the squares of `r` and `r + 1`, while the comment needs the next one. So `r` is the
square root rounded up, and `rs` is measured from the square of `r`. The two readings agree
exactly as long as `r` is zero.
-/

namespace Tarsnap.Chunkify

open Tarsnap.Lib

variable {P : Params}

/-- What the comments of the structure say about the square root fields. -/
def Documented (c : Chunkifier P) : Prop :=
  if P.mu < 4 * c.k then
    c.r = Nat.sqrt (4 * c.k - P.mu) ∧ c.rs + (4 * c.k - P.mu) = (c.r + 1) ^ 2
  else c.r = 0

instance (c : Chunkifier P) : Decidable (Documented c) := by
  unfold Documented
  infer_instance

/-- Add bytes to a chunk, without regard to whether one of them ends it. -/
def addBytes (c : Chunkifier P) (input : List UInt8) : Except Fault (Chunkifier P) :=
  input.foldlM (fun c byte => Prod.fst <$> addByte c byte) c

/-- Adding bytes one by one. -/
theorem addBytes_cons {c last : Chunkifier P} {byte : UInt8} {rest : List UInt8}
    (run : addBytes c (byte :: rest) = .ok last) :
    ∃ added ended, addByte c byte = .ok (added, ended) ∧ addBytes added rest = .ok last := by
  rw [addBytes, List.foldlM_cons] at run
  obtain ⟨added, add, run⟩ := bind_eq_ok.mp run
  cases step : addByte c byte with
  | error fault =>
    rw [step] at add
    cases add
  | ok result =>
    rw [step] at add
    cases add
    exact ⟨result.1, result.2, rfl, run⟩

/-- Every byte that is added counts once and maintains the square root fields. -/
theorem addBytes_squareRoot {c last : Chunkifier P} {input : List UInt8} (root : SquareRoot c)
    (run : addBytes c input = .ok last) : SquareRoot last ∧ last.k = c.k + input.length := by
  induction input generalizing c with
  | nil =>
    cases run
    exact ⟨root, rfl⟩
  | cons byte rest ih =>
    obtain ⟨added, ended, add, run⟩ := addBytes_cons run
    obtain ⟨kept, count⟩ := ih (addByte_squareRoot root add) run
    have one : added.k = c.k + 1 := (addByte_bytes add).2.1
    refine ⟨kept, ?_⟩
    rw [count, one, List.length_cons]
    omega

/-- While at most a quarter of the mean was added, the root is zero. -/
theorem SquareRoot.zero_of_short {c : Chunkifier P} (root : SquareRoot c)
    (short : 4 * c.k ≤ P.mu) : c.r = 0 := by
  by_contra nonzero
  have above := root.above (Nat.pos_of_ne_zero nonzero)
  omega

/-- Beyond a quarter of the mean the root is the square root rounded up, and the distance is
measured from its square. -/
theorem SquareRoot.ceil {c : Chunkifier P} (root : SquareRoot c) (long : P.mu < 4 * c.k) :
    c.r = Nat.sqrt (4 * c.k - P.mu - 1) + 1 ∧ c.rs + (4 * c.k - P.mu) = c.r ^ 2 + 1 := by
  have balance := root.balance
  have positive := root.positive
  have nonzero : 0 < c.r := by
    apply Nat.pos_of_ne_zero
    intro zero
    rw [zero] at balance
    omega
  have above := root.above nonzero
  have below : 4 * c.k - P.mu - 1 < (c.r - 1 + 1) ^ 2 := by
    rw [Nat.sub_add_cancel nonzero]
    omega
  have floor : c.r - 1 = Nat.sqrt (4 * c.k - P.mu - 1) := by
    apply Nat.eq_sqrt'.mpr
    constructor
    · omega
    · exact below
  constructor
  · omega
  · omega

/-- The comments are right about the square root fields exactly while at most a quarter of the
mean was added to the chunk. -/
theorem addBytes_documented {buf : Vector UInt8 P.blen} {input : List UInt8}
    {last : Chunkifier P} (run : addBytes (chunkifyStart P buf) input = .ok last) :
    Documented last ↔ 4 * input.length ≤ P.mu := by
  obtain ⟨root, count⟩ := addBytes_squareRoot (chunkifyStart_squareRoot buf) run
  have counted : last.k = input.length := by
    rw [count]
    exact Nat.zero_add _
  rw [← counted, Documented]
  by_cases long : P.mu < 4 * last.k
  · rw [if_pos long]
    obtain ⟨ceil, distance⟩ := root.ceil long
    constructor
    · rintro ⟨_, documented⟩
      have expanded : (last.r + 1) ^ 2 = last.r ^ 2 + 2 * last.r + 1 := by ring
      omega
    · intro short
      omega
  · rw [if_neg long]
    exact ⟨fun _ => Nat.le_of_not_lt long, root.zero_of_short⟩

/-- Chunkifiers of the mean length four and the maximum length 16. -/
def shortParams : Params where
  mu := 4
  p := 11
  pp := 1171354717
  ar := 2
  cm byte := byte.toUInt32
  blen := 16
  mu_le := by decide
  mu_lt_blen := by decide
  blen_lt := by decide
  p_pos := by decide
  p_le := by decide
  pp_inverse := by decide
  pp_lt := by decide

/-- The comments are right after the first byte of such a chunk. -/
theorem addBytes_documented_one :
    ∃ last, addBytes (chunkifyStart shortParams (Vector.replicate 16 0)) [1] = .ok last ∧
      Documented last := by
  have one : ∃ last, addBytes (chunkifyStart shortParams (Vector.replicate 16 0)) [1] =
      .ok last := ⟨_, rfl⟩
  obtain ⟨last, run⟩ := one
  exact ⟨last, run, (addBytes_documented run).mpr (by decide)⟩

/-- After the third byte the root is three, and not the floor of the square root of eight. -/
theorem addBytes_undocumented : ¬∀ (P : Params) (buf : Vector UInt8 P.blen) (input : List UInt8)
    (last : Chunkifier P), addBytes (chunkifyStart P buf) input = .ok last → Documented last := by
  intro documented
  have right := documented shortParams (Vector.replicate 16 0) [1, 2, 3] _ rfl
  exact absurd right (by decide +kernel)

end Tarsnap.Chunkify
