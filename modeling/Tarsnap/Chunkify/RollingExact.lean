import Tarsnap.Chunkify.RollingRuns
import Mathlib.GroupTheory.OrderOfElement

/-!
# Coefficients that are not reduced

The coefficients of a chunkifier are whole words of the keyed hash, though the source calls them a
map modulo `p`. With reduced coefficients every run rolls exactly. Without the reduction exactness
for all coefficients depends on the running powers: it holds exactly when no product of a running
power after the first and a word exceeds `2 * p` or half a word.
-/

namespace Tarsnap.Chunkify

open Tarsnap.Lib

variable {P : Params}

/-- Two conditional subtractions do not reduce a sum of three times the modulus or more. -/
theorem reduceTwice_beyond {x p : Nat} (small : p ≤ 1431655739) (bound : x < 2147483648 + p)
    (triple : 3 * p ≤ x) : p ≤ reduceOnce (reduceOnce (word x) p) p := by
  have exact : word x = x := by unfold word; omega
  rw [exact, reduceOnce_eq small bound, if_pos (by omega), reduceOnce_eq small (by omega),
    if_pos (by omega)]
  omega

section Reach

variable [prime : Fact P.p.Prime]

/-- A canonical hash value that represents minus one is one below the modulus. -/
theorem canonical_neg_one {yka : Nat} (canonical : yka < P.p) (value : (yka : ZMod P.p) = -1) :
    yka + 1 = P.p := by
  have zero : ((yka + 1 : Nat) : ZMod P.p) = 0 := by
    rw [Nat.cast_add, value, Nat.cast_one, neg_add_cancel]
  have divides := (ZMod.natCast_eq_zero_iff (yka + 1) P.p).mp zero
  exact Nat.le_antisymm canonical (Nat.le_of_dvd (Nat.succ_pos yka) divides)

/-- Zeros and one byte whose coefficient cancels its power bring the hash value to one below the
modulus, if all runs roll exactly. -/
theorem feed_neg_one (exactly : RollsExactly P) (zero : P.cm 0 = 0) {t : Nat}
    (one : ((P.cm 1).toNat : ZMod P.p) * P.alpha ^ t = -1) (room : P.mu / 4 + t + 1 < P.blen)
    (low : P.mu / 4 + t + 1 + P.htlen ≤ 4294967296) (buf : Vector UInt8 P.blen) :
    ∃ c, feed (chunkifyStart P buf) (List.replicate (P.mu / 4 + t) 0 ++ [1]) = .ok ([], c) ∧
      Valid c ∧ c.k = P.mu / 4 + t + 1 ∧ c.yka + 1 = P.p ∧
      ∀ byte ∈ c.bytes, byte ∈ ({0, 1, 2} : Finset UInt8) := by
  have started : (chunkifyStart P buf).k = 0 := rfl
  have few : ∀ byte ∈ (chunkifyStart P buf).bytes ++ List.replicate (P.mu / 4 + t) 0,
      byte ∈ ({0, 1, 2} : Finset UInt8) := by
    intro byte member
    rw [chunkifyStart_bytes, List.nil_append] at member
    rw [List.eq_of_mem_replicate member]
    decide
  obtain ⟨c, fed, valid, place, bytes⟩ := feed_few (by decide) (chunkifyStart_valid buf) _ few
    (by rw [List.length_replicate]; omega) (by rw [List.length_replicate]; omega)
  rw [List.length_replicate, started, Nat.zero_add] at place
  rw [chunkifyStart_bytes, List.nil_append] at bytes
  have fewMore : ∀ byte ∈ c.bytes ++ [1], byte ∈ ({0, 1, 2} : Finset UInt8) := by
    intro byte member
    rw [bytes, List.mem_append, List.mem_singleton] at member
    rcases member with zeros | last
    · rw [List.eq_of_mem_replicate zeros]
      decide
    · rw [last]
      decide
  obtain ⟨next, add, kept⟩ := addByte_few (by decide) valid fewMore (by omega) (by omega)
  obtain ⟨_, count, appended⟩ := addByte_bytes add
  refine ⟨next, ?_, kept, by omega, ?_, by rw [appended]; exact fewMore⟩
  · simp only [feed_append, fed, ok_bind, feed_cons, add]
    rfl
  · obtain ⟨stored, store, ⟨_, _, absurdity⟩ | ⟨_, short, _, _⟩ | ⟨within, nonzero, search⟩⟩ :=
      addByte_cases add
    · cases absurdity
    · have long := (storeByte_squareRoot valid.root store).1.zero_iff.mp short
      have counted := (storeByte_bytes store).2.1
      omega
    · have exact := exactly.exact stored 1 ⟨buf, _, [], c, fed, store, within, nonzero⟩
      have sum : P.powerSum stored.rolled = -1 := by
        have length : (List.replicate (P.mu / 4 + t) (0 : UInt8)).drop (P.mu / 4) =
            List.replicate t 0 := by
          rw [List.drop_replicate, Nat.add_sub_cancel_left]
        rw [(rolled_append valid.room.le (by omega) store).1, Chunkifier.rolled, bytes, length,
          powerSum_append, powerSum_zeros P zero, List.length_replicate, zero_add, one]
      have value : (roll stored 1).yka + 1 = P.p :=
        canonical_neg_one exact.canonical (exact.value.trans sum)
      rcases searchAndQueue_cases search with ⟨_, _, absurdity⟩ | ⟨_, _, htpos, _, out⟩
      · cases absurdity
      · rw [out]
        exact value

/-- A product that does not fit is added to the hash value one below the modulus by some run. -/
theorem not_rollsExactly (reduced : P.ar < P.p) (zero : P.cm 0 = 0) {t : Nat}
    (one : ((P.cm 1).toNat : ZMod P.p) * P.alpha ^ t = -1) (room : P.mu / 4 + t + 2 < P.blen)
    (low : P.mu / 4 + t + 2 + P.htlen ≤ 4294967296)
    (beyond : ¬ (P.product (t + 1) (P.cm 2).toNat ≤ 2 * P.p ∧
      P.product (t + 1) (P.cm 2).toNat ≤ 2147483648)) : ¬ RollsExactly P := by
  intro exactly
  obtain ⟨c, fed, valid, place, below, few⟩ := feed_neg_one exactly zero one (by omega) (by omega)
    (Vector.replicate P.blen 0)
  obtain ⟨stored, store⟩ := storeByte_ok valid.root valid.room 2
  have count := (storeByte_bytes store).2.1
  have nonzero : stored.r ≠ 0 := by
    intro short
    have long := (storeByte_squareRoot valid.root store).1.zero_iff.mp short
    omega
  have exact := exactly.exact stored 2 ⟨_, _, [], c, fed, store, by omega, nonzero⟩
  have powered : Powered c := feed_invariant chunkifyStart_powered (addByte_powered reduced)
    (chunkifyStart_powered _) fed
  obtain ⟨_, _, yka, akr⟩ := storeByte_frame store
  have index : c.k - P.mu / 4 = t + 1 := by omega
  have product : mmul stored.akr (P.cm 2).toNat P.p P.pp =
      P.product (t + 1) (P.cm 2).toNat := by
    rw [akr, powered.akr, index, mmul_power reduced _ (P.cm 2).toNat_lt]
  have sum := exact.sum
  rw [product] at sum
  have triple : 3 * P.p ≤ stored.yka + P.product (t + 1) (P.cm 2).toNat := by omega
  have large := reduceTwice_beyond P.p_le sum triple
  have canonical := exact.canonical
  simp only [roll] at canonical
  rw [product] at canonical
  omega

end Reach

/-- Coefficients that bring the hash value to one below the modulus and then add a product. -/
def beyondCm (cancelling last : Nat) (byte : UInt8) : UInt32 :=
  if byte = 1 then UInt32.ofNat cancelling else if byte = 2 then UInt32.ofNat last else 0

/-- The words that these coefficients are. -/
theorem beyondCm_toNat {cancelling last : Nat} (small : cancelling < 4294967296)
    (word : last < 4294967296) : (beyondCm cancelling last 1).toNat = cancelling ∧
      (beyondCm cancelling last 2).toNat = last := by
  have first : beyondCm cancelling last 1 = UInt32.ofNat cancelling := rfl
  have second : beyondCm cancelling last 2 = UInt32.ofNat last := rfl
  rw [first, second, UInt32.toNat_ofNat', UInt32.toNat_ofNat', Nat.mod_eq_of_lt small,
    Nat.mod_eq_of_lt word]
  exact ⟨rfl, rfl⟩

/-- The base of the power sums of a built chunkifier is not zero. -/
theorem alpha_ne_zero [prime : Fact P.p.Prime] (sound : P.derived.Sound) : P.alpha ≠ 0 := by
  obtain ⟨alpha, scaled, order⟩ : ∃ alpha : ZMod P.p, alpha * 4294967296 = P.ar ∧
    P.mu < orderOf alpha := sound.order
  have unit := word_ne_zero P.inverse
  intro zero
  have none : (P.ar : ZMod P.p) = 0 := by
    rcases mul_eq_zero.mp zero with none | inverse
    · exact none
    · exact absurd (inv_eq_zero.mp inverse) unit
  have vanishes : alpha = 0 := (mul_eq_zero.mp (scaled.trans none)).resolve_right unit
  rw [vanishes, orderOf_zero] at order
  exact Nat.not_lt_zero _ order

/-- Every running power after the first is one of the first, up to half a word. -/
theorem exists_early_power (reduced : P.ar < P.p) {t : Nat} (later : 1 ≤ t) :
    ∃ early, early < 2147483648 ∧ early + 1 ≤ t ∧ P.power (early + 1) = P.power t := by
  have shift : ∀ n, P.advance^[n] (P.power 1) = P.power (n + 1) := by
    intro n
    rw [Params.power, Params.power, ← Function.iterate_add_apply]
  obtain ⟨early, small, before, same⟩ := exists_early_iterate
    (fun n => by rw [shift]; exact power_half reduced (n + 1)) (t - 1)
  rw [shift, shift, Nat.sub_add_cancel later] at same
  exact ⟨early, small, by omega, same⟩

/-- With reduced coefficients every run of a built chunkifier rolls exactly. For all coefficients
its runs roll exactly if and only if every product fits. -/
theorem rollingHash_exact (P : Params) (built : P.Built) (large : 4 ≤ P.mu) :
    (∀ cm : UInt8 → UInt32, (∀ byte, (cm byte).toNat ≤ P.p) → RollsExactly (P.withCm cm)) ∧
      ((∀ cm, RollsExactly (P.withCm cm)) ↔ P.Fits) := by
  have sound := built.sound large
  have reduced : P.ar < P.p := sound.reduced
  have prime : Fact P.p.Prime := ⟨sound.prime⟩
  refine ⟨?_, ?_, ?_⟩
  · intro cm small
    have : Fact (P.withCm cm).p.Prime := prime
    apply rollsExactly_of_fits (P := P.withCm cm) reduced
    intro t byte _ _
    exact product_reduced (P := P.withCm cm) reduced t (small byte)
  · intro all t coefficient later room word
    by_contra beyond
    obtain ⟨early, small, before, same⟩ := exists_early_power reduced later
    have unit : P.alpha ^ early ≠ 0 := pow_ne_zero early (alpha_ne_zero sound)
    have cancelling : (-(P.alpha ^ early)⁻¹).val < P.p := ZMod.val_lt _
    have limit := P.p_le
    have mean := P.mu_le
    have table := P.htlen_le
    have : Fact (P.withCm (beyondCm (-(P.alpha ^ early)⁻¹).val coefficient)).p.Prime := prime
    have one : ((beyondCm (-(P.alpha ^ early)⁻¹).val coefficient 1).toNat : ZMod P.p) *
        P.alpha ^ early = -1 := by
      rw [(beyondCm_toNat (by omega) word).1, ZMod.natCast_zmod_val, neg_mul,
        inv_mul_cancel₀ unit]
    have value : P.product (early + 1) coefficient = P.product t coefficient := by
      rw [Params.product, same, Params.product]
    apply not_rollsExactly (P := P.withCm (beyondCm (-(P.alpha ^ early)⁻¹).val coefficient))
      reduced rfl one
    · change P.mu / 4 + early + 2 < P.blen
      omega
    · change P.mu / 4 + early + 2 + P.htlen ≤ 4294967296
      omega
    · have last := (beyondCm_toNat (show (-(P.alpha ^ early)⁻¹).val < 4294967296 by omega) word).2
      change ¬ (P.product (early + 1)
        (beyondCm (-(P.alpha ^ early)⁻¹).val coefficient 2).toNat ≤ 2 * P.p ∧ P.product (early + 1)
        (beyondCm (-(P.alpha ^ early)⁻¹).val coefficient 2).toNat ≤ 2147483648)
      rw [last, value]
      exact beyond
    · exact all _
  · intro fits cm
    have : Fact (P.withCm cm).p.Prime := prime
    apply rollsExactly_of_fits (P := P.withCm cm) reduced
    intro t byte later room
    exact fits t (cm byte).toNat later room (cm byte).toNat_lt

section Beyond

/-- Parameters with the lengths of the archive chunkifiers. The running power after two bytes is
37229 above the modulus, and its product with the coefficient of the byte 2 is `2 * p + 2`. -/
def beyondParams : Params where
  mu := 65536
  p := 16945021
  pp := 3171573291
  ar := 16943730
  cm := beyondCm 1410530 4294515704
  blen := 261120
  mu_le := by decide
  mu_lt_blen := by decide
  blen_lt := by decide
  p_pos := by decide
  p_le := by decide
  pp_inverse := by decide
  pp_lt := by decide

/-- The modulus of these parameters is prime. -/
theorem beyondParams_prime : Nat.Prime 16945021 := by norm_num

/-- The multiplier of these parameters generates every value but zero. -/
theorem beyondParams_order : orderOf (11432282 : ZMod 16945021) = 16945020 := by
  have full : (11432282 : ZMod 16945021) ^ 16945020 = 1 := by reduce_mod_char
  have two : (11432282 : ZMod 16945021) ^ 8472510 ≠ 1 := by reduce_mod_char; decide
  have three : (11432282 : ZMod 16945021) ^ 5648340 ≠ 1 := by reduce_mod_char; decide
  have five : (11432282 : ZMod 16945021) ^ 3389004 ≠ 1 := by reduce_mod_char; decide
  have twentyThree : (11432282 : ZMod 16945021) ^ 736740 ≠ 1 := by reduce_mod_char; decide
  have last : (11432282 : ZMod 16945021) ^ 4140 ≠ 1 := by reduce_mod_char; decide
  apply orderOf_eq_of_pow_and_pow_div_prime (by decide) full
  intro q prime divides
  have equal : ∀ factor, factor.Prime → q ∣ factor → q = factor :=
    fun factor certified => (Nat.prime_dvd_prime_iff_eq prime certified).mp
  have factors : 16945020 = 2 * (2 * (3 * (3 * (5 * (23 * 4093))))) := by decide
  have known : q = 2 ∨ q = 3 ∨ q = 5 ∨ q = 23 ∨ q = 4093 := by
    rw [factors, prime.dvd_mul, prime.dvd_mul, prime.dvd_mul, prime.dvd_mul, prime.dvd_mul,
      prime.dvd_mul] at divides
    rcases divides with factor | factor | factor | factor | factor | factor | factor
    · exact .inl (equal 2 (by norm_num) factor)
    · exact .inl (equal 2 (by norm_num) factor)
    · exact .inr (.inl (equal 3 (by norm_num) factor))
    · exact .inr (.inl (equal 3 (by norm_num) factor))
    · exact .inr (.inr (.inl (equal 5 (by norm_num) factor)))
    · exact .inr (.inr (.inr (.inl (equal 23 (by norm_num) factor))))
    · exact .inr (.inr (.inr (.inr (equal 4093 (by norm_num) factor))))
  rcases known with rfl | rfl | rfl | rfl | rfl
  · exact two
  · exact three
  · exact five
  · exact twentyThree
  · exact last

/-- The multiplier of these parameters represents the generator. -/
theorem beyondParams_scaled : (11432282 : ZMod 16945021) * 4294967296 = (16943730 : Nat) := by
  decide

/-- The coefficient of the byte 1 cancels the first power. -/
theorem beyondParams_cancels : ((1410530 : Nat) : ZMod 16945021) * 11432282 = -1 := by
  decide

/-- Initialization builds these parameters from the hashed words 33 and 16943728. -/
theorem beyondParams_built : beyondParams.Built := by
  have : Fact (Nat.Prime 16945021) := ⟨beyondParams_prime⟩
  let hash : UInt8 → UInt8 → UInt32 := fun first second =>
    if first = 112 then 33 else if first = 97 then 16943728 else beyondParams.cm second
  refine ⟨1, fun first second => some (hash first second), ?_⟩
  have root : Nat.sqrt 65536 = 256 := Nat.sqrt_eq 256
  have bound : primeBound 65536 33 = .ok 16945021 := by
    have exact := (primeBound_eq (by decide) (show 65536 ≤ 1262226 by decide) 33).1
    rw [exact, exactBound, root]
  have next : nextprime 1 16945021 = some 16945021 := by
    rw [nextprime, if_pos (by decide), if_pos ((isprime_iff (by decide)).mpr beyondParams_prime)]
  have inverse : invertPrime 16945021 = 3171573291 := by decide
  have passes : minorder 16943730 65536 16945021 3171573291 = true := by
    rw [minorder_iff (by decide) (by decide) (by decide) (by decide) beyondParams_scaled,
      beyondParams_order]
    decide
  have search : searchAlpha 65536 16945021 3171573291 1 16943730 = some 16943730 := by
    rw [searchAlpha, if_pos passes]
  have derived : generate 1 65536 261120 33 16943728 beyondParams.cm =
      .ok beyondParams.derived := by
    have start : word (2 + 16943728 % sub32 16945021 3) = 16943730 := by decide
    rw [generate, bound, ok_bind, next, ended, ok_bind, remainder, if_neg (by decide), ok_bind,
      remainder, if_neg (by decide), ok_bind, inverse, start, search]
    rfl
  have step := chunkifyInit_eq hash (show 65536 ≤ 1262226 by decide)
    (show 65536 < 261120 by decide) 1
  have same : (generate 1 65536 261120 33 16943728 beyondParams.cm).map some =
      .ok (some beyondParams.derived) := by
    rw [derived]
    rfl
  exact step.trans same

/-- The hash of these parameters is exact for coefficients that are all zero. -/
theorem rollingHash_exact_beyond :
    beyondParams.Built ∧ RollsExactly (beyondParams.withCm fun _ => 0) :=
  ⟨beyondParams_built, (rollingHash_exact beyondParams beyondParams_built (by decide)).1
    (fun _ => 0) fun _ => Nat.zero_le _⟩

/-- With their own coefficients it is not: 16385 zeros, a one and a two make the hash value
`p + 1`. -/
theorem beyondParams_not_exact : beyondParams.Built ∧ ¬ RollsExactly beyondParams := by
  have : Fact beyondParams.p.Prime := ⟨beyondParams_prime⟩
  refine ⟨beyondParams_built, ?_⟩
  have base : beyondParams.alpha = 11432282 := by
    have unit := word_ne_zero beyondParams.inverse
    apply mul_right_cancel₀ unit
    rw [Params.alpha, mul_assoc, inv_mul_cancel₀ unit, mul_one]
    exact beyondParams_scaled.symm
  have cancels : ((beyondParams.cm 1).toNat : ZMod beyondParams.p) * beyondParams.alpha ^ 1 =
      -1 := by
    have coefficient : (beyondParams.cm 1).toNat = 1410530 := by decide
    rw [base, coefficient, pow_one]
    exact beyondParams_cancels
  have second : beyondParams.product 2 (beyondParams.cm 2).toNat = 33890044 := by
    have first : beyondParams.power 1 = 16943730 := by
      rw [power_succ, power_first]
      decide
    have later : beyondParams.power 2 = 16982250 := by
      rw [power_succ, first]
      decide
    rw [Params.product, later]
    decide
  apply not_rollsExactly (P := beyondParams) (by decide) (by decide) cancels (by decide) (by decide)
  rw [second]
  decide

end Beyond

end Tarsnap.Chunkify
