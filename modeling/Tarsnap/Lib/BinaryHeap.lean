import Mathlib

/-!
# Binary heaps

The places of a binary heap are numbered, with the children of a place at twice its number plus one
and plus two. What is at a place is never above what is at its children. A value that is changed may
be out of order with its parent only, and then it rises, or with its children only, and then it
sinks; exchanging it with the parent or the lesser child leaves it so one place further, and when it
is in order the heap is one again. A heap may begin at a place, which is how one is built.
-/

namespace Tarsnap.Lib.BinaryHeap

/-- The place above another one. -/
def parent (place : Nat) : Nat := (place - 1) / 2

/-- The place above comes before. -/
theorem parent_lt {place : Nat} (below : 0 < place) : parent place < place := by
  unfold parent
  omega

/-- The children of a place. -/
theorem parent_eq {child place : Nat} (below : 0 < child) :
    parent child = place ↔ child = 2 * place + 1 ∨ child = 2 * place + 2 := by
  unfold parent
  omega

section Exchange

variable {β : Type} (values : Nat → Option β) {i j other : Nat}

/-- The first of two places that exchange their values. -/
theorem exchange_left : (values ∘ Equiv.swap i j) i = values j :=
  congrArg values (Equiv.swap_apply_left i j)

/-- The second of two places that exchange their values. -/
theorem exchange_right : (values ∘ Equiv.swap i j) j = values i :=
  congrArg values (Equiv.swap_apply_right i j)

/-- Other places keep their values. -/
theorem exchange_other (left : other ≠ i) (right : other ≠ j) :
    (values ∘ Equiv.swap i j) other = values other :=
  congrArg values (Equiv.swap_apply_of_ne_of_ne left right)

end Exchange

section Lists

variable {α : Type} {elems : List α}

/-- The two elements at two places are exchanged. -/
theorem getElem?_swap {i j : Nat} {x y : α} (atI : elems[i]? = some x) (atJ : elems[j]? = some y)
    (p : Nat) : ((elems.set i y).set j x)[p]? = elems[Equiv.swap i j p]? := by
  have inside : i < elems.length := (List.getElem?_eq_some_iff.mp atI).1
  have inside' : j < elems.length := (List.getElem?_eq_some_iff.mp atJ).1
  by_cases right : p = j
  · rw [right, Equiv.swap_apply_right, atI, List.getElem?_set_self]
    rw [List.length_set]
    exact inside'
  · rw [List.getElem?_set_ne (Ne.symm right)]
    by_cases left : p = i
    · rw [left, Equiv.swap_apply_left, atJ, List.getElem?_set_self inside]
    · rw [List.getElem?_set_ne (Ne.symm left), Equiv.swap_apply_of_ne_of_ne left right]

/-- A list with two elements exchanged is a rearrangement. -/
theorem perm_swap {i j : Nat} {x y : α} (atI : elems[i]? = some x) (atJ : elems[j]? = some y) :
    ((elems.set i y).set j x).Perm elems := by
  obtain ⟨inside, rfl⟩ := List.getElem?_eq_some_iff.mp atI
  obtain ⟨inside', rfl⟩ := List.getElem?_eq_some_iff.mp atJ
  exact List.set_set_perm inside inside'

/-- Replacing an element exchanges it with another one. -/
theorem perm_set {i : Nat} {x y : α} (there : elems[i]? = some x) :
    (x :: elems.set i y).Perm (y :: elems) := by
  obtain ⟨inside, rfl⟩ := List.getElem?_eq_some_iff.mp there
  have changed := List.set_perm_cons_eraseIdx inside y
  have same := List.getElem_cons_eraseIdx_perm inside
  exact (changed.cons _).trans ((List.Perm.swap y elems[i] _).trans (same.cons _))

end Lists

section Order

variable {β : Type} [LinearOrder β]

/-- What is at one place is not above what is at the other, if there is something at both. -/
def InOrder (values : Nat → Option β) (upper lower : Nat) : Prop :=
  ∀ x y, values upper = some x → values lower = some y → x ≤ y

/-- Every place whose parent is not before the start is in order with its parent. -/
def OrderedFrom (start : Nat) (values : Nat → Option β) : Prop :=
  ∀ child, 0 < child → start ≤ parent child → InOrder values (parent child) child

/-- There is something at a place only if there is something at those before. -/
def Packed (values : Nat → Option β) : Prop :=
  ∀ before after, before ≤ after → values after ≠ none → values before ≠ none

/-- The value at a place is in order with its children, and everything else is in order. -/
structure Rising (values : Nat → Option β) (place : Nat) : Prop where
  /-- Other places are in order. -/
  apart : ∀ child, 0 < child → child ≠ place → parent child ≠ place →
    InOrder values (parent child) child
  /-- The children of the place are in order with it. -/
  below : ∀ child, 0 < child → parent child = place → InOrder values place child
  /-- The children of the place are in order with its parent. -/
  across : 0 < place → ∀ child, 0 < child → parent child = place →
    InOrder values (parent place) child

/-- The value at a place is in order with its parent, and everything else is in order. -/
structure Sinking (start : Nat) (values : Nat → Option β) (place : Nat) : Prop where
  /-- Other places are in order. -/
  apart : ∀ child, 0 < child → start ≤ parent child → child ≠ place → parent child ≠ place →
    InOrder values (parent child) child
  /-- The place is in order with its parent. -/
  above : 0 < place → start ≤ parent place → InOrder values (parent place) place
  /-- The children of the place are in order with its parent. -/
  across : 0 < place → start ≤ parent place → ∀ child, 0 < child → parent child = place →
    InOrder values (parent place) child

variable {values values' : Nat → Option β} {start place : Nat}

/-- What is in order depends on the two places only. -/
theorem InOrder.congr {upper lower upper' lower' : Nat} (ordered : InOrder values upper lower)
    (sameUpper : values' upper' = values upper) (sameLower : values' lower' = values lower) :
    InOrder values' upper' lower' := by
  intro x y atUpper atLower
  exact ordered x y (sameUpper ▸ atUpper) (sameLower ▸ atLower)

/-- Places in order with the same one are in order. -/
theorem InOrder.trans {upper middle lower : Nat} (first : InOrder values upper middle)
    (second : InOrder values middle lower) (filled : values middle ≠ none) :
    InOrder values upper lower := by
  obtain ⟨z, atMiddle⟩ := Option.ne_none_iff_exists'.mp filled
  intro x y atUpper atLower
  exact (first x z atUpper atMiddle).trans (second z y atMiddle atLower)

/-- The least value of a heap is at its root. -/
theorem OrderedFrom.root_le (ordered : OrderedFrom 0 values) (packed : Packed values)
    (other : Nat) :
    InOrder values 0 other := by
  induction other using Nat.strong_induction_on with
  | _ other ih =>
    rcases Nat.eq_zero_or_pos other with rfl | below
    · intro x y first second
      exact le_of_eq (Option.some.inj (first.symm.trans second))
    · intro x y first second
      have filled : values (parent other) ≠ none :=
        packed _ other (Nat.le_of_lt (parent_lt below))
          (by rw [second]; exact Option.some_ne_none y)
      have rest := ordered other below (Nat.zero_le _)
      exact (ih _ (parent_lt below)).trans rest filled x y first second

/-- Nothing is out of order before there is anything. -/
theorem orderedFrom_of_none (none : ∀ other, start ≤ other → values other = .none) :
    OrderedFrom start values := by
  intro child below late x y _ atLower
  have after : start ≤ child := Nat.le_trans late (Nat.le_of_lt (parent_lt below))
  rw [none child after] at atLower
  cases atLower

/-- In front of a heap, a place is in order with its parent, which is not part of it. -/
theorem OrderedFrom.sinking (ordered : OrderedFrom (place + 1) values) :
    Sinking place values place where
  apart child below late _ other := ordered child below (by omega)
  above below late := absurd (parent_lt below) (by omega)
  across below late := absurd (parent_lt below) (by omega)

/-- A heap with another value at a place that is in order with its parent. -/
theorem OrderedFrom.sinks (ordered : OrderedFrom 0 values)
    (same : ∀ other, other ≠ place → values' other = values other) (filled : values place ≠ none)
    (above : 0 < place → InOrder values' (parent place) place) : Sinking 0 values' place where
  apart child below _ here there :=
    (ordered child below (Nat.zero_le _)).congr (same _ there) (same _ here)
  above below _ := above below
  across below _ child lower up := by
    have first := ordered place below (Nat.zero_le _)
    have second := ordered child lower (Nat.zero_le _)
    rw [up] at second
    have late : place < child := up ▸ parent_lt lower
    exact (first.trans second filled).congr (same _ (Nat.ne_of_lt (parent_lt below)))
      (same _ (Nat.ne_of_gt late))

/-- A heap with another value at a place that is in order with its children. -/
theorem OrderedFrom.rises (ordered : OrderedFrom 0 values)
    (same : ∀ other, other ≠ place → values' other = values other) (filled : values place ≠ none)
    (below : ∀ child, 0 < child → parent child = place → InOrder values' place child) :
    Rising values' place where
  apart child lower here there :=
    (ordered child lower (Nat.zero_le _)).congr (same _ there) (same _ here)
  below := below
  across upper child lower up := by
    have first := ordered place upper (Nat.zero_le _)
    have second := ordered child lower (Nat.zero_le _)
    rw [up] at second
    have late : place < child := up ▸ parent_lt lower
    exact (first.trans second filled).congr (same _ (Nat.ne_of_lt (parent_lt upper)))
      (same _ (Nat.ne_of_gt late))

/-- A value that is in order with its parent does not rise. -/
theorem Rising.settle (rising : Rising values place)
    (ends : 0 < place → InOrder values (parent place) place) : OrderedFrom 0 values := by
  intro child below _
  by_cases here : child = place
  · subst here
    exact ends below
  · by_cases there : parent child = place
    · rw [there]
      exact rising.below child below there
    · exact rising.apart child below here there

/-- A value that is in order with its children does not sink. -/
theorem Sinking.settle (sinking : Sinking start values place)
    (ends : ∀ child, 0 < child → parent child = place → InOrder values place child) :
    OrderedFrom start values := by
  intro child below late
  by_cases here : child = place
  · subst here
    exact sinking.above below late
  · by_cases there : parent child = place
    · rw [there]
      exact ends child below there
    · exact sinking.apart child below late here there

/-- A value that is less than its parent is exchanged with it. -/
theorem Rising.exchange (rising : Rising values place) (low : 0 < place)
    (filled : values (parent place) ≠ none)
    (less : ∀ x y, values (parent place) = some x → values place = some y → y < x) :
    Rising (values ∘ Equiv.swap place (parent place)) (parent place) := by
  have before : parent place < place := parent_lt low
  have upper := exchange_right values (i := place) (j := parent place)
  have lower := exchange_left values (i := place) (j := parent place)
  have other : ∀ q, q ≠ place → q ≠ parent place →
      (values ∘ Equiv.swap place (parent place)) q = values q := fun _ => exchange_other values
  -- the old parent is above everything below the place
  have outranks : ∀ child, 0 < child → parent child = parent place → child ≠ place →
      InOrder (values ∘ Equiv.swap place (parent place)) (parent place) child := by
    intro child below up apart x y first second
    have late : parent place < child := up ▸ parent_lt below
    rw [upper] at first
    rw [other _ apart (Nat.ne_of_gt late)] at second
    obtain ⟨z, atParent⟩ := Option.ne_none_iff_exists'.mp filled
    have ordered := rising.apart child below apart (by omega)
    rw [up] at ordered
    exact (less z x atParent first).le.trans (ordered z y atParent second)
  constructor
  · intro child below here there
    by_cases moved : child = place
    · exact absurd (congrArg parent moved) there
    · by_cases up : parent child = place
      · -- the children of the place are below its old parent
        have late : place < child := up ▸ parent_lt below
        rw [up]
        exact (rising.across low child below up).congr lower (other _ moved here)
      · exact (rising.apart child below moved up).congr (other _ up there) (other _ moved here)
  · intro child below up
    by_cases moved : child = place
    · subst moved
      intro x y first second
      rw [upper] at first
      rw [lower] at second
      exact (less y x second first).le
    · exact outranks child below up moved
  · intro higher child below up
    have top : parent (parent place) < parent place := parent_lt higher
    have still : (values ∘ Equiv.swap place (parent place)) (parent (parent place)) =
        values (parent (parent place)) := other _ (by omega) (by omega)
    have first := rising.apart (parent place) higher (Nat.ne_of_lt before) (by omega)
    by_cases moved : child = place
    · subst moved
      exact first.congr still lower
    · have late : parent place < child := up ▸ parent_lt below
      have second := rising.apart child below moved (by omega)
      rw [up] at second
      exact (first.trans second filled).congr still (other _ moved (Nat.ne_of_gt late))

/-- A value that is above its least child is exchanged with it. -/
theorem Sinking.exchange (sinking : Sinking start values place) {child : Nat} (low : 0 < child)
    (up : parent child = place)
    (less : ∀ x y, values place = some x → values child = some y → y ≤ x)
    (least : ∀ other, 0 < other → parent other = place → InOrder values child other) :
    Sinking start (values ∘ Equiv.swap child place) child := by
  have before : place < child := up ▸ parent_lt low
  have lower := exchange_left values (i := child) (j := place)
  have upper := exchange_right values (i := child) (j := place)
  have other : ∀ q, q ≠ child → q ≠ place →
      (values ∘ Equiv.swap child place) q = values q := fun _ => exchange_other values
  constructor
  · intro below lowBelow late here there
    by_cases moved : below = place
    · subst moved
      have top : parent below < below := parent_lt lowBelow
      exact (sinking.across lowBelow late child low up).congr (other _ there (Nat.ne_of_lt top))
        upper
    · by_cases sibling : parent below = place
      · rw [sibling]
        exact (least below lowBelow sibling).congr upper (other _ here moved)
      · exact (sinking.apart below lowBelow late moved sibling).congr (other _ there sibling)
          (other _ here moved)
  · intro _ _ x y first second
    rw [up, upper] at first
    rw [lower] at second
    exact less y x second first
  · intro _ late below lowBelow above
    have deep : child < below := above ▸ parent_lt lowBelow
    have ordered := sinking.apart below lowBelow (by omega) (by omega) (by omega)
    rw [above] at ordered
    rw [up]
    exact ordered.congr upper (other _ (by omega) (by omega))

end Order

end Tarsnap.Lib.BinaryHeap
