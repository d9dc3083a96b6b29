import Mathlib.Logic.Function.Iterate
import Mathlib.Data.Fintype.Card
import Mathlib.Data.Fintype.EquivFin
import Mathlib.Tactic.Ring

/-!
# Open addressing probes

A probe visits positions along a successor function until a test answers. The visit is
bounded by fuel; when the successor reaches every position within a bound, fuel of that
bound decides the unbounded search, and a position whose test answers guarantees an answer.
The counting rule at the end supplies such a position for a table whose occupied slots carry
distinct small ages.
-/

namespace Tarsnap.Lib

variable {ι β : Type}

/-- Visit positions from the given one along `next`, at most `fuel` of them, and return the
first answer of `test`. -/
def probe (next : ι → ι) (test : ι → Option β) : Nat → ι → Option β
  | 0, _ => none
  | fuel + 1, position =>
    match test position with
    | some answer => some answer
    | none => probe next test fuel (next position)

/-- A probe without an answer saw none of the positions it visited answer. -/
theorem probe_eq_none_iff (next : ι → ι) (test : ι → Option β) (fuel : Nat) (start : ι) :
    probe next test fuel start = none ↔ ∀ visit < fuel, test (next^[visit] start) = none := by
  induction fuel generalizing start with
  | zero => simp [probe]
  | succ fuel ih =>
    unfold probe
    cases head : test start with
    | some answer =>
      simp only [reduceCtorEq, false_iff]
      intro silent
      have first := silent 0 (Nat.succ_pos fuel)
      rw [Function.iterate_zero_apply, head] at first
      cases first
    | none =>
      simp only [ih]
      constructor
      · intro silent visit bound
        cases visit with
        | zero => exact head
        | succ visit => exact silent visit (by omega)
      · intro silent visit bound
        exact silent (visit + 1) (by omega)

/-- A probe answers at the first visited position whose test answers. -/
theorem probe_eq_some_iff (next : ι → ι) (test : ι → Option β) (fuel : Nat) (start : ι)
    (answer : β) :
    probe next test fuel start = some answer ↔
      ∃ visit < fuel, test (next^[visit] start) = some answer ∧
        ∀ earlier < visit, test (next^[earlier] start) = none := by
  induction fuel generalizing start with
  | zero => simp [probe]
  | succ fuel ih =>
    unfold probe
    cases head : test start with
    | some found =>
      simp only
      constructor
      · intro same
        exact ⟨0, Nat.succ_pos fuel, by rw [Function.iterate_zero_apply, head, same],
          fun _ absurdity => absurd absurdity (Nat.not_lt_zero _)⟩
      · rintro ⟨visit, _, same, silent⟩
        cases visit with
        | zero => rw [Function.iterate_zero_apply, head] at same; exact same
        | succ visit =>
          have := silent 0 (Nat.succ_pos visit)
          rw [Function.iterate_zero_apply, head] at this
          cases this
    | none =>
      simp only [ih]
      constructor
      · rintro ⟨visit, bound, same, silent⟩
        refine ⟨visit + 1, by omega, same, fun earlier before => ?_⟩
        cases earlier with
        | zero => exact head
        | succ earlier => exact silent earlier (by omega)
      · rintro ⟨visit, bound, same, silent⟩
        cases visit with
        | zero => rw [Function.iterate_zero_apply, head] at same; cases same
        | succ visit =>
          exact ⟨visit, by omega, same, fun earlier before => silent (earlier + 1) (by omega)⟩

/-- An answer is the test's answer at some position. -/
theorem exists_of_probe_eq_some {next : ι → ι} {test : ι → Option β} {fuel : Nat} {start : ι}
    {answer : β} (found : probe next test fuel start = some answer) :
    ∃ position, test position = some answer := by
  obtain ⟨visit, _, same, _⟩ := (probe_eq_some_iff _ _ _ _ _).mp found
  exact ⟨_, same⟩

/-- Every position is reached from every other in fewer than `count` successor steps. -/
def Covers (next : ι → ι) (count : Nat) : Prop :=
  ∀ start target, ∃ visit < count, next^[visit] start = target

/-- A covering probe answers as soon as one position does. -/
theorem probe_isSome {next : ι → ι} {test : ι → Option β} {count : Nat}
    (covers : Covers next count) {target : ι} (answers : (test target).isSome) (start : ι) :
    (probe next test count start).isSome := by
  by_contra silent
  rw [Bool.not_eq_true, Option.isSome_eq_false_iff, Option.isNone_iff_eq_none,
    probe_eq_none_iff] at silent
  obtain ⟨visit, bound, reached⟩ := covers start target
  have := silent visit bound
  rw [reached] at this
  rw [this] at answers
  cases answers

/-- The cyclic successor of a slot. -/
def cyclicNext {count : Nat} (slot : Fin count) : Fin count :=
  ⟨(slot.val + 1) % count, Nat.mod_lt _ (Nat.lt_of_le_of_lt (Nat.zero_le _) slot.isLt)⟩

/-- Repeated cyclic successors add modulo the slot count. -/
theorem cyclicNext_iterate {count : Nat} (slot : Fin count) (steps : Nat) :
    (cyclicNext^[steps] slot).val = (slot.val + steps) % count := by
  induction steps with
  | zero => exact (Nat.mod_eq_of_lt slot.isLt).symm
  | succ steps ih =>
    rw [Function.iterate_succ_apply', cyclicNext]
    simp only [ih, Nat.mod_add_mod]
    rfl

/-- Cyclic probing reaches every slot within one round. -/
theorem cyclicNext_covers (count : Nat) : Covers (@cyclicNext count) count := by
  intro start target
  refine ⟨(target.val + (count - start.val)) % count,
    Nat.mod_lt _ (Nat.lt_of_le_of_lt (Nat.zero_le _) start.isLt), ?_⟩
  apply Fin.ext
  rw [cyclicNext_iterate, Nat.add_mod_mod]
  have whole : start.val + (target.val + (count - start.val)) = target.val + count := by
    have := start.isLt
    omega
  rw [whole, Nat.add_mod_right, Nat.mod_eq_of_lt target.isLt]

/-- Slots that carry distinct ages below a bound are at most that many. -/
theorem card_le_of_distinct_ages {count bound : Nat} (occupied : Fin count → Prop)
    [DecidablePred occupied] (age : Fin count → Nat)
    (small : ∀ slot, occupied slot → age slot < bound)
    (distinct : ∀ left right, occupied left → occupied right → age left = age right →
      left = right) :
    (Finset.univ.filter occupied).card ≤ bound := by
  have image : (Finset.univ.filter occupied).card ≤ (Finset.range bound).card := by
    apply Finset.card_le_card_of_injOn age
    · intro slot member
      simp only [Finset.coe_filter, Finset.mem_univ, true_and, Set.mem_ofPred_eq] at member
      simpa using small slot member
    · intro left hl right hr same
      simp only [Finset.coe_filter, Finset.mem_univ, true_and, Set.mem_ofPred_eq] at hl hr
      exact distinct left right hl hr same
  rwa [Finset.card_range] at image

/-- A table with more slots than ages has a slot that is not occupied. -/
theorem exists_free_slot {count bound : Nat} (fewer : bound < count) (occupied : Fin count → Prop)
    (age : Fin count → Nat) (small : ∀ slot, occupied slot → age slot < bound)
    (distinct : ∀ left right, occupied left → occupied right → age left = age right →
      left = right) :
    ∃ slot, ¬ occupied slot := by
  classical
  by_contra full
  push Not at full
  have card := card_le_of_distinct_ages occupied age small distinct
  rw [Finset.filter_true_of_mem (fun slot _ => full slot), Finset.card_univ,
    Fintype.card_fin] at card
  omega

end Tarsnap.Lib
