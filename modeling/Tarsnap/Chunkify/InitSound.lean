import Tarsnap.Chunkify.InitSearch
import Tarsnap.Lib.Except
import Mathlib.NumberTheory.LucasPrimality
import Mathlib.Tactic.NormNum.Prime
import Mathlib.Tactic.ReduceModChar

/-!
# Which mean chunk lengths give sound parameters

Every accepted mean chunk length is at most 1262226, and the largest start of the search for the
modulus is then just below a prime under a third of the word size. A modulus above 3 has a
multiplier of large enough order. The check of the lengths has no lower bound: a mean length of 0
takes a remainder by zero before the modulus is found, 3 takes one after it, and for 1 and 2 the
modulus is 2 and no multiplier passes the order test. From 4 on the derivation is total and sound.
-/

namespace Tarsnap.Chunkify

open Tarsnap.Lib

section Order

variable {p pp : Nat} [prime : Fact p.Prime]

/-- The word size is not zero modulo a modulus that has an inverse. -/
theorem word_ne_zero (inverse : 4294967296 ∣ p * pp + 1) : (4294967296 : ZMod p) ≠ 0 := by
  intro zero
  have divides : p ∣ 4294967296 := (ZMod.natCast_eq_zero_iff 4294967296 p).mp zero
  have one : p ∣ 1 := by
    rw [← coprime_of_inverse inverse]
    exact Nat.dvd_gcd (dvd_refl p) divides
  exact prime.out.one_lt.ne' (Nat.dvd_one.mp one)

/-- The product of words as a product modulo `p`. -/
theorem mmul_cast {a b : Nat} (room : a * b + 4294967296 * p < 18446744073709551616)
    (inverse : 4294967296 ∣ p * pp + 1) :
    (mmul a b p pp : ZMod p) * 4294967296 = a * b := by
  have congruent := (ZMod.natCast_eq_natCast_iff _ _ p).mpr (mmul_modEq room inverse)
  simpa using congruent

variable {ar akr0 : Nat} {alpha : ZMod p}

/-- The order test compares the powers that are left with one. -/
theorem minorderLoop_iff (small : p ≤ 1431655739) (inverse : 4294967296 ∣ p * pp + 1)
    (reduced : ar < p) (scaled : alpha * 4294967296 = ar) (below : akr0 < p)
    (unit : (akr0 : ZMod p) = 4294967296) (ord : Nat) {j akr : Nat} (low : akr < p)
    (power : (akr : ZMod p) = 4294967296 * alpha ^ j) :
    minorderLoop ar p pp akr0 ord akr = true ↔ ∀ k, j < k → k ≤ j + ord → alpha ^ k ≠ 1 := by
  induction ord generalizing j akr with
  | zero =>
    have none : ∀ k, j < k → k ≤ j + 0 → alpha ^ k ≠ 1 := by
      intro k above within
      omega
    simpa [minorderLoop] using none
  | succ ord ih =>
    have nonzero := word_ne_zero inverse
    have room := product_room (show akr ≤ 2147483648 by omega)
      (show ar < 4294967296 by omega) small
    have next : ((mmul akr ar p pp % p : Nat) : ZMod p) = 4294967296 * alpha ^ (j + 1) := by
      apply mul_right_cancel₀ nonzero
      rw [ZMod.natCast_mod, mmul_cast room inverse, power, ← scaled, pow_succ]
      ring
    have here : mmul akr ar p pp % p = akr0 ↔ alpha ^ (j + 1) = 1 := by
      have casts : mmul akr ar p pp % p = akr0 ↔
          ((mmul akr ar p pp % p : Nat) : ZMod p) = (akr0 : ZMod p) := by
        rw [ZMod.natCast_eq_natCast_iff', Nat.mod_mod, Nat.mod_eq_of_lt below]
      rw [casts, next, unit]
      exact mul_eq_left₀ nonzero
    rw [minorderLoop]
    by_cases one : alpha ^ (j + 1) = 1
    · rw [if_pos (here.mpr one)]
      have fails : ¬ ∀ k, j < k → k ≤ j + (ord + 1) → alpha ^ k ≠ 1 :=
        fun all => all (j + 1) (by omega) (by omega) one
      simp [fails]
    · rw [if_neg (mt here.mp one)]
      apply (ih (Nat.mod_lt _ (by omega)) next).trans
      constructor
      · intro later k above within
        rcases Nat.eq_or_lt_of_le above with first | beyond
        · rw [← first]
          exact one
        · exact later k beyond (by omega)
      · intro all k above within
        exact all k (by omega) (by omega)

/-- The order test accepts the multipliers whose order exceeds the bound. -/
theorem minorder_iff (small : p ≤ 1431655739) (inverse : 4294967296 ∣ p * pp + 1)
    (positive : 0 < ar) (reduced : ar < p) (scaled : alpha * 4294967296 = ar) (ord : Nat) :
    minorder ar ord p pp = true ↔ ord < orderOf alpha := by
  have nonzero : alpha ≠ 0 := by
    intro zero
    rw [zero, zero_mul] at scaled
    have divides := (ZMod.natCast_eq_zero_iff ar p).mp scaled.symm
    exact absurd (Nat.le_of_dvd positive divides) (by omega)
  have pos : 0 < p := prime.out.pos
  have unit : ((sub32 0 p % p : Nat) : ZMod p) = 4294967296 := by
    have congruent := (ZMod.natCast_eq_natCast_iff _ _ p).mpr (start_modEq pos (by omega))
    simpa using congruent
  have start : ((sub32 0 p % p : Nat) : ZMod p) = 4294967296 * alpha ^ 0 := by
    rw [pow_zero, mul_one, unit]
  have low := Nat.mod_lt (sub32 0 p) pos
  rw [lt_orderOf_iff (isOfFinOrder_of_ne_zero nonzero) ord, minorder,
    minorderLoop_iff small inverse reduced scaled low unit ord low start, Nat.zero_add]
  apply forall_congr'
  intro k
  rfl

/-- Some multiplier that the search visits passes the order test. -/
theorem exists_minorder (small : p ≤ 1431655739) (inverse : 4294967296 ∣ p * pp + 1)
    (large : 3 < p) {ord : Nat} (below : ord < p - 1) :
    ∃ good, 2 ≤ good ∧ good < p ∧ minorder good ord p pp = true := by
  have nonzero := word_ne_zero inverse
  obtain ⟨x, unit, differs, order⟩ := exists_orderOf_ne large (4294967296 : ZMod p)⁻¹
  have value : ((x * 4294967296).val : ZMod p) = x * 4294967296 := ZMod.natCast_zmod_val _
  have positive : (x * 4294967296).val ≠ 0 := by
    rw [ne_eq, ZMod.val_eq_zero]
    exact mul_ne_zero unit nonzero
  have several : (x * 4294967296).val ≠ 1 := by
    intro one
    apply differs
    rw [one, Nat.cast_one] at value
    exact eq_inv_of_mul_eq_one_left value.symm
  have reduced := ZMod.val_lt (x * 4294967296)
  refine ⟨(x * 4294967296).val, by omega, reduced, ?_⟩
  rw [minorder_iff small inverse (by omega) reduced value.symm ord, order]
  exact below

end Order

section Search

variable {mu p pp : Nat}

/-- The next multiplier of the search. -/
theorem next_multiplier {ar : Nat} (small : p ≤ 1431655739) (low : 2 ≤ ar) (below : ar < p) :
    (if word (ar + 1) = p then 2 else word (ar + 1)) = if ar + 1 = p then 2 else ar + 1 := by
  have exact : word (ar + 1) = ar + 1 := by unfold word; omega
  rw [exact]

/-- The multiplier that is found passes the order test. -/
theorem searchAlpha_sound (small : p ≤ 1431655739) (large : 3 < p) {fuel start ar : Nat}
    (low : 2 ≤ start) (below : start < p) (found : searchAlpha mu p pp fuel start = some ar) :
    minorder ar mu p pp = true ∧ 2 ≤ ar ∧ ar < p := by
  induction fuel generalizing start with
  | zero => cases found
  | succ fuel ih =>
    rw [searchAlpha, next_multiplier small low below] at found
    by_cases passes : minorder start mu p pp = true
    · rw [if_pos passes] at found
      have same : start = ar := Option.some.inj found
      rw [← same]
      exact ⟨passes, low, below⟩
    · rw [if_neg passes] at found
      by_cases wraps : start + 1 = p
      · rw [if_pos wraps] at found
        exact ih (by omega) (by omega) found
      · rw [if_neg wraps] at found
        exact ih (by omega) (by omega) found

/-- The search ends once it comes to a multiplier that passes the order test. -/
theorem searchAlpha_total {good : Nat} (small : p ≤ 1431655739) (above : 2 ≤ good)
    (within : good < p) (passes : minorder good mu p pp = true) {fuel start : Nat}
    (low : 2 ≤ start) (below : start < p)
    (enough : (if start ≤ good then good - start else p - start + good) < fuel) :
    ∃ ar, searchAlpha mu p pp fuel start = some ar := by
  induction fuel generalizing start with
  | zero => omega
  | succ fuel ih =>
    rw [searchAlpha, next_multiplier small low below]
    by_cases here : minorder start mu p pp = true
    · exact ⟨start, by rw [if_pos here]⟩
    · have differs : start ≠ good := by
        intro same
        apply here
        rw [same]
        exact passes
      rw [if_neg here]
      by_cases wraps : start + 1 = p
      · rw [if_pos wraps]
        apply ih (le_refl 2) (by omega)
        split at enough <;> split <;> omega
      · rw [if_neg wraps]
        apply ih (by omega) (by omega)
        split at enough <;> split <;> omega

end Search

/-- The largest modulus that the source documents is prime. -/
theorem prime_limit : Nat.Prime 1431655739 := by
  have full : (2 : ZMod 1431655739) ^ 1431655738 = 1 := by reduce_mod_char
  have two : (2 : ZMod 1431655739) ^ 715827869 ≠ 1 := by reduce_mod_char; decide
  have nineteen : (2 : ZMod 1431655739) ^ 75350302 ≠ 1 := by reduce_mod_char; decide
  have third : (2 : ZMod 1431655739) ^ 2507278 ≠ 1 := by reduce_mod_char; decide
  have last : (2 : ZMod 1431655739) ^ 21698 ≠ 1 := by reduce_mod_char; decide
  apply lucas_primality 1431655739 2 full
  intro q prime divides
  have factors : 1431655739 - 1 = 2 * (19 * (571 * 65981)) := by norm_num
  have known : q = 2 ∨ q = 19 ∨ q = 571 ∨ q = 65981 := by
    have equal : ∀ factor, factor.Prime → q ∣ factor → q = factor :=
      fun factor certified => (Nat.prime_dvd_prime_iff_eq prime certified).mp
    rw [factors, prime.dvd_mul, prime.dvd_mul, prime.dvd_mul] at divides
    exact divides.imp (equal 2 (by norm_num)) (Or.imp (equal 19 (by norm_num))
      (Or.imp (equal 571 (by norm_num)) (equal 65981 (by norm_num))))
  rcases known with rfl | rfl | rfl | rfl
  · exact two
  · exact nineteen
  · exact third
  · exact last

/-- The prime bound in exact arithmetic, without its hashed part. -/
def exactBound (mu : Nat) : Nat := mu * Nat.sqrt mu * 101 / 100

/-- The bound is exact and below the largest modulus for every accepted mean length. -/
theorem primeBound_eq {mu : Nat} (positive : 0 < mu) (accepted : mu ≤ 1262226) (hashed : Nat) :
    primeBound mu hashed = .ok (exactBound mu + hashed % Nat.sqrt mu) ∧
      exactBound mu + hashed % Nat.sqrt mu ≤ 1431655739 := by
  have root : 0 < Nat.sqrt mu := Nat.sqrt_pos.mpr positive
  have top : Nat.sqrt mu ≤ 1123 := Nat.lt_succ_iff.mp (Nat.sqrt_lt.mpr (by omega))
  have product : mu * Nat.sqrt mu ≤ 1262226 * 1123 := Nat.mul_le_mul accepted top
  have below : hashed % Nat.sqrt mu < Nat.sqrt mu := Nat.mod_lt _ root
  have divided : remainder hashed (Nat.sqrt mu) = .ok (hashed % Nat.sqrt mu) := by
    rw [remainder, if_neg (by omega)]
  have first : word (mu * Nat.sqrt mu) = mu * Nat.sqrt mu := by unfold word; omega
  have hundredth : mu * Nat.sqrt mu + mu * Nat.sqrt mu / 100 = exactBound mu := by
    unfold exactBound
    omega
  have second : word (exactBound mu) = exactBound mu := by unfold word; omega
  have third : word (exactBound mu + hashed % Nat.sqrt mu) =
      exactBound mu + hashed % Nat.sqrt mu := by
    unfold word
    omega
  constructor
  · rw [primeBound, isqrt_eq (by omega), first, hundredth, second, divided, ok_bind, third,
      pure_eq_ok]
  · omega

/-- From a mean length of 4 on the bound is at least twice the mean length. -/
theorem exactBound_ge {mu : Nat} (large : 4 ≤ mu) : 2 * mu ≤ exactBound mu := by
  have root : 2 ≤ Nat.sqrt mu := Nat.le_sqrt.mpr large
  have product : mu * 2 ≤ mu * Nat.sqrt mu := Nat.mul_le_mul_left mu root
  unfold exactBound
  omega

/-- What the derivation has to establish about its parameters: the modulus is an odd prime
between the bound and a third of the word size, its negated inverse is right, and the multiplier
has an order above the mean length. -/
structure Derived.Sound (d : Derived) : Prop where
  /-- The modulus is at least the bound. -/
  above : exactBound d.mu ≤ d.p
  /-- The modulus is below a third of the word size. -/
  below : 3 * d.p < 4294967296
  /-- The modulus is prime. -/
  prime : d.p.Prime
  /-- The modulus is odd. -/
  odd : d.p % 2 = 1
  /-- The Montgomery factor is the negated inverse of the modulus. -/
  inverse : (d.p * d.pp + 1) % 4294967296 = 0
  /-- The multiplier is reduced. -/
  reduced : d.ar < d.p
  /-- The order of the multiplier exceeds the mean length. -/
  order : ∃ alpha : ZMod d.p, alpha * 4294967296 = d.ar ∧ d.mu < orderOf alpha

/-- Parameters that the derivation returns are sound and keep the given values. -/
structure Derived.SoundFor (d : Derived) (meanlen maxlen : Nat) (cm : UInt8 → UInt32) : Prop where
  /-- The parameters are sound. -/
  sound : d.Sound
  /-- The modulus is at most the one that the source documents. -/
  p_le : d.p ≤ 1431655739
  /-- The Montgomery factor is a word. -/
  pp_lt : d.pp < 4294967296
  /-- The mean length is the given one. -/
  mu_eq : d.mu = meanlen
  /-- The buffer length is the given maximum. -/
  blen_eq : d.blen = maxlen
  /-- The coefficients are the given ones. -/
  cm_eq : d.cm = cm

section Generate

variable {meanlen maxlen hashedP hashedAr : Nat} {cm : UInt8 → UInt32}

/-- The steps of a derivation that returned parameters. -/
theorem generate_cases {fuel : Nat} {d : Derived}
    (derived : generate fuel meanlen maxlen hashedP hashedAr cm = .ok d) :
    ∃ start p ar, primeBound meanlen hashedP = .ok start ∧ nextprime fuel start = some p ∧
      sub32 p 3 ≠ 0 ∧
      searchAlpha meanlen p (invertPrime p) fuel (word (2 + hashedAr % sub32 p 3)) = some ar ∧
      d = ⟨meanlen, p, invertPrime p, ar, cm, maxlen⟩ := by
  have ended_ok : ∀ {result : Option Nat} {value : Nat}, ended result = .ok value →
      result = some value := by
    intro result value same
    cases result with
    | none => cases same
    | some found => cases same; rfl
  have remainder_ok : ∀ {value divisor result : Nat}, remainder value divisor = .ok result →
      divisor ≠ 0 ∧ result = value % divisor := by
    intro value divisor result same
    unfold remainder at same
    split at same
    case isTrue zero => cases same
    case isFalse nonzero => cases same; exact ⟨nonzero, rfl⟩
  unfold generate at derived
  obtain ⟨start, bound, derived⟩ := bind_eq_ok.mp derived
  obtain ⟨p, next, derived⟩ := bind_eq_ok.mp derived
  obtain ⟨rest, divided, derived⟩ := bind_eq_ok.mp derived
  obtain ⟨_, _, derived⟩ := bind_eq_ok.mp derived
  obtain ⟨ar, search, derived⟩ := bind_eq_ok.mp derived
  obtain ⟨nonzero, value⟩ := remainder_ok divided
  rw [value] at search
  cases derived
  exact ⟨start, p, ar, bound, ended_ok next, nonzero, ended_ok search, rfl⟩

/-- The start of the search for the multiplier is one of the values it visits. -/
theorem start_multiplier (hashedAr : Nat) {p : Nat} (small : p ≤ 1431655739) (large : 3 < p) :
    2 ≤ word (2 + hashedAr % sub32 p 3) ∧ word (2 + hashedAr % sub32 p 3) < p := by
  have difference : sub32 p 3 = p - 3 := by unfold sub32; omega
  have below : hashedAr % (p - 3) < p - 3 := Nat.mod_lt _ (by omega)
  have exact : word (2 + hashedAr % (p - 3)) = 2 + hashedAr % (p - 3) := by unfold word; omega
  rw [difference, exact]
  omega

/-- Whatever the derivation returns from a mean length of 4 on is sound. -/
theorem generate_sound (large : 4 ≤ meanlen) (accepted : meanlen ≤ 1262226) {fuel : Nat}
    {d : Derived} (derived : generate fuel meanlen maxlen hashedP hashedAr cm = .ok d) :
    d.SoundFor meanlen maxlen cm := by
  obtain ⟨start, p, ar, bound, next, _, search, fields⟩ := generate_cases derived
  obtain ⟨exact, within⟩ := primeBound_eq (by omega) accepted hashedP
  have double := exactBound_ge large
  have same : start = exactBound meanlen + hashedP % Nat.sqrt meanlen :=
    Except.ok.inj (bound.symm.trans exact)
  obtain ⟨prime, above, small⟩ :=
    nextprime_sound prime_limit (by decide) (by omega) (by omega) next
  have odd : p % 2 = 1 := (prime.eq_two_or_odd).resolve_left (by omega)
  have inverse := invertPrime_inverse odd
  have range := start_multiplier hashedAr small (by omega)
  obtain ⟨passes, low, reduced⟩ := searchAlpha_sound small (by omega) range.1 range.2 search
  have : Fact p.Prime := ⟨prime⟩
  have scaled : (ar : ZMod p) * (4294967296 : ZMod p)⁻¹ * 4294967296 = ar := by
    rw [mul_assoc, inv_mul_cancel₀ (word_ne_zero inverse), mul_one]
  have order := (minorder_iff small inverse (by omega) reduced scaled meanlen).mp passes
  rw [fields]
  exact
    { sound :=
        { above := by dsimp only; omega
          below := by dsimp only; omega
          prime := prime
          odd := odd
          inverse := Nat.mod_eq_zero_of_dvd inverse
          reduced := reduced
          order := ⟨_, scaled, order⟩ }
      p_le := small
      pp_lt := invertPrime_lt p
      mu_eq := rfl
      blen_eq := rfl
      cm_eq := rfl }

/-- From a mean length of 4 on every remainder has a divisor that is not zero. -/
theorem generate_defined (large : 4 ≤ meanlen) (accepted : meanlen ≤ 1262226) (fuel : Nat) :
    generate fuel meanlen maxlen hashedP hashedAr cm ≠ .error .divisionByZero := by
  obtain ⟨exact, within⟩ := primeBound_eq (by omega) accepted hashedP
  have double := exactBound_ge large
  intro fault
  rw [generate, exact, ok_bind] at fault
  cases next : nextprime fuel (exactBound meanlen + hashedP % Nat.sqrt meanlen) with
  | none =>
    rw [next] at fault
    cases fault
  | some p =>
    obtain ⟨prime, above, small⟩ :=
      nextprime_sound prime_limit (by decide) (by omega) within next
    have divisor : sub32 p 3 ≠ 0 := by unfold sub32; omega
    rw [next, ended, ok_bind, remainder, if_neg divisor, ok_bind, remainder,
      if_neg (by omega), ok_bind] at fault
    cases search : searchAlpha meanlen p (invertPrime p) fuel
        (word (2 + hashedAr % sub32 p 3)) with
    | none =>
      rw [search] at fault
      cases fault
    | some ar =>
      rw [search] at fault
      cases fault

/-- From a mean length of 4 on the derivation returns parameters. -/
theorem generate_total (large : 4 ≤ meanlen) (accepted : meanlen ≤ 1262226) :
    ∃ d, generate 4294967296 meanlen maxlen hashedP hashedAr cm = .ok d := by
  obtain ⟨exact, within⟩ := primeBound_eq (by omega) accepted hashedP
  have double := exactBound_ge large
  have first : ∃ p, nextprime 4294967296 (exactBound meanlen + hashedP % Nat.sqrt meanlen) =
      some p := nextprime_total prime_limit (by decide) (by omega) within (by omega)
  obtain ⟨p, next⟩ := first
  obtain ⟨prime, above, small⟩ := nextprime_sound prime_limit (by decide) (by omega) within next
  have odd : p % 2 = 1 := (prime.eq_two_or_odd).resolve_left (by omega)
  have inverse := invertPrime_inverse odd
  have : Fact p.Prime := ⟨prime⟩
  obtain ⟨good, low, reduced, passes⟩ :=
    exists_minorder small inverse (by omega) (show meanlen < p - 1 by omega)
  have range := start_multiplier hashedAr small (by omega)
  have visited : ∃ ar, searchAlpha meanlen p (invertPrime p) 4294967296
      (word (2 + hashedAr % sub32 p 3)) = some ar :=
    searchAlpha_total small low reduced passes range.1 range.2 (by split <;> omega)
  obtain ⟨ar, search⟩ := visited
  have divisor : sub32 p 3 ≠ 0 := by unfold sub32; omega
  refine ⟨⟨meanlen, p, invertPrime p, ar, cm, maxlen⟩, ?_⟩
  rw [generate, exact, ok_bind, next, ended, ok_bind, remainder, if_neg divisor, ok_bind,
    remainder, if_neg (by omega), ok_bind, search]
  rfl

/-- Modulo 2 the order test accepts no multiplier. -/
theorem minorder_two (ar ord pp : Nat) : minorder ar (ord + 1) 2 pp = false := by
  have start : sub32 0 2 % 2 = 0 := by decide
  have product : mmul 0 ar 2 pp = 0 := by simp [mmul, word]
  rw [minorder, start, minorderLoop, product]
  rfl

/-- The search for a multiplier modulo 2 does not end. -/
theorem searchAlpha_two (mu pp fuel ar : Nat) : searchAlpha (mu + 1) 2 pp fuel ar = none := by
  induction fuel generalizing ar with
  | zero => rfl
  | succ fuel ih =>
    rw [searchAlpha, minorder_two]
    exact ih _

/-- Below a mean length of 4 the derivation returns no parameters. -/
theorem generate_small (small : meanlen < 4) (fuel : Nat) (d : Derived) :
    generate fuel meanlen maxlen hashedP hashedAr cm ≠ .ok d := by
  intro derived
  obtain ⟨start, p, ar, bound, next, nonzero, search, _⟩ := generate_cases derived
  by_cases zero : meanlen = 0
  · have root : isqrt 0 = 0 := isqrt_eq (by decide)
    rw [zero, primeBound, root, remainder, if_pos rfl] at bound
    cases bound
  · obtain ⟨exact, _⟩ := primeBound_eq (by omega) (show meanlen ≤ 1262226 by omega) hashedP
    have root : Nat.sqrt meanlen = 1 := by
      have above : 1 ≤ Nat.sqrt meanlen := Nat.sqrt_pos.mpr (by omega)
      have below : Nat.sqrt meanlen < 2 := Nat.sqrt_lt.mpr small
      omega
    have begins : start = meanlen := by
      have same := Except.ok.inj (bound.symm.trans exact)
      rw [exactBound, root, Nat.mod_one] at same
      omega
    rw [begins] at next
    by_cases three : meanlen = 3
    · obtain ⟨_, above, within⟩ :=
        nextprime_sound Nat.prime_three (by decide) (by omega) (by omega) next
      apply nonzero
      unfold sub32
      omega
    · obtain ⟨prime, above, within⟩ :=
        nextprime_sound Nat.prime_two (by decide) (by omega) (by omega) next
      have two : p = 2 := Nat.le_antisymm within prime.two_le
      obtain ⟨rest, count⟩ := Nat.exists_eq_succ_of_ne_zero zero
      rw [two, count, searchAlpha_two] at search
      cases search

end Generate

/-- The derivation is total and sound for two lengths and the outputs of the keyed hash: the prime
bound is computed without overflow, no remainder is by zero, the searches end, and what they find
is sound. -/
structure Derives (hash : UInt8 → UInt8 → UInt32) (meanlen maxlen : Nat) : Prop where
  /-- The prime bound is the exact one. -/
  bound : primeBound meanlen (hash 112 0).toNat =
    .ok (exactBound meanlen + (hash 112 0).toNat % Nat.sqrt meanlen)
  /-- No remainder is by zero. -/
  defined : ∀ fuel, chunkifyInit fuel (fun first second => some (hash first second)) meanlen
    maxlen ≠ .error .divisionByZero
  /-- The searches end. -/
  ends : ∃ fuel d, chunkifyInit fuel (fun first second => some (hash first second)) meanlen
    maxlen = .ok (some d)
  /-- The parameters are sound. -/
  sound : ∀ fuel d, chunkifyInit fuel (fun first second => some (hash first second)) meanlen
    maxlen = .ok (some d) → d.SoundFor meanlen maxlen (hash 120)

/-- With a hash that succeeds, accepted lengths lead to the derivation. -/
theorem chunkifyInit_eq (hash : UInt8 → UInt8 → UInt32) {meanlen maxlen : Nat}
    (accepted : meanlen ≤ 1262226) (longer : meanlen < maxlen) (fuel : Nat) :
    chunkifyInit fuel (fun first second => some (hash first second)) meanlen maxlen =
      (generate fuel meanlen maxlen (hash 112 0).toNat (hash 97 0).toNat (hash 120)).map some := by
  rw [chunkifyInit, if_neg (by omega)]
  simp

/-- The derivation is total and sound for an accepted mean length exactly from 4 on. -/
theorem chunkifyInit_derives (hash : UInt8 → UInt8 → UInt32) (meanlen maxlen : Nat)
    (accepted : meanlen ≤ 1262226) (longer : meanlen < maxlen) :
    Derives hash meanlen maxlen ↔ 4 ≤ meanlen := by
  have step := chunkifyInit_eq hash accepted longer
  constructor
  · intro derives
    obtain ⟨fuel, d, returned⟩ := derives.ends
    by_contra small
    rw [step fuel] at returned
    cases derived : generate fuel meanlen maxlen (hash 112 0).toNat (hash 97 0).toNat
      (hash 120) with
    | error fault =>
      rw [derived] at returned
      cases returned
    | ok found => exact generate_small (by omega) fuel found derived
  · intro large
    refine ⟨(primeBound_eq (by omega) accepted _).1, ?_, ?_, ?_⟩
    · intro fuel fault
      rw [step fuel] at fault
      cases derived : generate fuel meanlen maxlen (hash 112 0).toNat (hash 97 0).toNat
          (hash 120) with
      | error reason =>
        rw [derived] at fault
        have same : reason = .divisionByZero := Except.error.inj fault
        exact generate_defined large accepted fuel (derived.trans (congrArg Except.error same))
      | ok found =>
        rw [derived] at fault
        cases fault
    · obtain ⟨d, derived⟩ := generate_total large accepted
      exact ⟨4294967296, d, by rw [step, derived]; rfl⟩
    · intro fuel d returned
      rw [step fuel] at returned
      cases derived : generate fuel meanlen maxlen (hash 112 0).toNat (hash 97 0).toNat
          (hash 120) with
      | error reason =>
        rw [derived] at returned
        cases returned
      | ok found =>
        rw [derived] at returned
        have same : found = d := Option.some.inj (Except.ok.inj returned)
        rw [← same]
        exact generate_sound large accepted derived

/-- The derivation works for a mean length of 4 and a constant hash. -/
theorem chunkifyInit_derives_four : Derives (fun _ _ => 0) 4 5 :=
  (chunkifyInit_derives (fun _ _ => 0) 4 5 (by decide) (by decide)).mpr (by decide)

/-- A mean length of 0 passes the check of the lengths, and the derivation takes a remainder by
the square root of 0. -/
theorem chunkifyInit_zero :
    chunkifyInit 1 (fun _ _ => some 0) 0 1 = .error .divisionByZero ∧
      ¬ Derives (fun _ _ => 0) 0 1 := by
  have root : isqrt 0 = 0 := isqrt_eq (by decide)
  have fault : chunkifyInit 1 (fun _ _ => some 0) 0 1 = .error .divisionByZero := by
    rw [chunkifyInit_eq (fun _ _ => 0) (by decide) (by decide), generate, primeBound, root,
      remainder, if_pos rfl]
    rfl
  exact ⟨fault, fun derives => derives.defined 1 fault⟩

end Tarsnap.Chunkify
