import Mathlib.Data.Fintype.Pigeonhole
import Mathlib.Logic.Function.Iterate

/-!
# Orbits inside a bounded range

The iterates of a function that stay below a bound repeat, so every iterate is equal to one of
the first iterates.
-/

namespace Tarsnap.Lib

variable {f : Nat → Nat} {x bound : Nat}

/-- Two of the first iterates of a bounded orbit agree. -/
theorem exists_iterate_repeat (within : ∀ n, f^[n] x < bound) :
    ∃ first second, first < second ∧ second ≤ bound ∧ f^[first] x = f^[second] x := by
  obtain ⟨left, right, apart, same⟩ := Fintype.exists_ne_map_eq_of_card_lt
    (fun n : Fin (bound + 1) => (⟨f^[n] x, within n⟩ : Fin bound)) (by simp)
  have values : f^[left] x = f^[right] x := congrArg Fin.val same
  rcases Nat.lt_or_gt_of_ne (Fin.val_ne_of_ne apart) with below | above
  · exact ⟨left, right, below, by omega, values⟩
  · exact ⟨right, left, above, by omega, values.symm⟩

/-- Every iterate of a bounded orbit is one of the first, and not a later one. -/
theorem exists_early_iterate (within : ∀ n, f^[n] x < bound) (n : Nat) :
    ∃ early, early < bound ∧ early ≤ n ∧ f^[early] x = f^[n] x := by
  obtain ⟨first, second, ordered, limit, same⟩ := exists_iterate_repeat within
  induction n using Nat.strong_induction_on with
  | _ n ih =>
    by_cases early : n < bound
    · exact ⟨n, early, le_refl n, rfl⟩
    · have shorter : f^[n - (second - first)] x = f^[n] x := by
        have left : n - (second - first) = (n - second) + first := by omega
        have right : n = (n - second) + second := by omega
        rw [left, Function.iterate_add_apply, same, ← Function.iterate_add_apply, ← right]
      obtain ⟨found, small, before, value⟩ := ih (n - (second - first)) (by omega)
      exact ⟨found, small, by omega, value.trans shorter⟩

end Tarsnap.Lib
