import Mathlib.Tactic.Basic

/-!
# Results of failing computations

A computation that may fail is taken apart at its sequencing: a successful sequence has a
successful first part, and a failing one failed in either part. What each step of a successful
loop keeps holds at its end.
-/

namespace Tarsnap.Lib

variable {ε α β γ : Type}

/-- A successful sequence succeeded in both parts. -/
theorem bind_eq_ok {first : Except ε α} {second : α → Except ε β} {result : β} :
    (first >>= second) = .ok result ↔ ∃ value, first = .ok value ∧ second value = .ok result := by
  cases first with
  | error fault =>
    constructor
    · intro absurdity; cases absurdity
    · rintro ⟨_, absurdity, _⟩; cases absurdity
  | ok value =>
    constructor
    · intro same; exact ⟨value, rfl, same⟩
    · rintro ⟨_, same, rest⟩; cases same; exact rest

/-- Sequencing after a success is the second part. -/
@[simp] theorem ok_bind (value : α) (second : α → Except ε β) :
    ((.ok value : Except ε α) >>= second) = second value := rfl

/-- Sequencing after a failure is the failure. -/
@[simp] theorem error_bind (fault : ε) (second : α → Except ε β) :
    ((.error fault : Except ε α) >>= second) = .error fault := rfl

/-- Returning is succeeding. -/
@[simp] theorem pure_eq_ok (value : α) : (pure value : Except ε α) = .ok value := rfl

/-- What holds before a loop and is kept by each of its steps holds after the loop; a step may use
which elements came before. -/
theorem foldlM_run {f : β → α → Option β} {full : List α} (P : List α → β → Prop)
    (step : ∀ done x rest s s', full = done ++ x :: rest → P done s → f s x = some s' →
      P (done ++ [x]) s')
    {s s' : β} (start : P [] s) (run : full.foldlM f s = some s') : P full s' := by
  have loop : ∀ (rest done : List α) (s : β), full = done ++ rest → P done s →
      rest.foldlM f s = some s' → P full s' := by
    intro rest
    induction rest with
    | nil =>
      intro done s split holds run
      cases run
      rw [split, List.append_nil]
      exact holds
    | cons x rest ih =>
      intro done s split holds run
      rw [List.foldlM_cons] at run
      obtain ⟨next, here, later⟩ := Option.bind_eq_some_iff.mp run
      exact ih (done ++ [x]) next (by rw [split, List.append_assoc]; rfl)
        (step done x rest s next split holds here) later
  exact loop full [] s rfl start run

end Tarsnap.Lib
