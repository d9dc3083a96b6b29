import Tarsnap.Datastruct.Ptrheap

/-!
# Sifting in a pointer heap

The owner of the pointers keeps a record for each, with a key that the comparison goes by and a
field for the place. Swapping two elements exchanges the values of the two places, and the records
go on saying where the pointers are. Sifting up turns a heap with one value too small into a heap,
and sifting down one with a value too large; neither touches places that are out of its bounds.
-/

open Tarsnap.Lib Tarsnap.Lib.BinaryHeap

namespace Tarsnap.Datastruct

/-- The records of the pointers in the memory of their owner. -/
structure PtrheapRecords {ρ σ : Type} [DecidableEq ρ] (C : PtrheapCallbacks ρ σ) (τ β : Type)
    [LinearOrder β] where
  /-- The memory without the places. -/
  rest : σ → τ
  /-- The pointer has a record. -/
  live : τ → ρ → Prop
  /-- What the pointers are compared by. -/
  key : τ → ρ → β
  /-- The place that was told last. -/
  cookie : σ → ρ → Nat
  /-- Records are compared by their keys. -/
  compares : ∀ {m x y}, live (rest m) x → live (rest m) y → ∃ c, C.compar m x y = .ok c ∧
    (c < 0 ↔ key (rest m) x < key (rest m) y) ∧ (0 < c ↔ key (rest m) y < key (rest m) x)
  /-- A record takes note of the place, and everything else stays. -/
  notifies : ∀ {setreccookie}, C.setreccookie = some setreccookie → ∀ {m x}, live (rest m) x →
    ∀ rc, ∃ m', setreccookie m x rc = .ok m' ∧ rest m' = rest m ∧
      cookie m' = Function.update (cookie m) x rc

namespace PtrheapRecords

open Ptrheap

variable {ρ σ τ β : Type} [DecidableEq ρ] [LinearOrder β] {C : PtrheapCallbacks ρ σ}
  (R : PtrheapRecords C τ β)

/-- The same records when nobody is told of the places. -/
def silent : PtrheapRecords { C with setreccookie := none } τ β where
  rest := R.rest
  live := R.live
  key := R.key
  cookie := R.cookie
  compares := R.compares
  notifies told := nomatch told

/-- The keys at the places. -/
def values (t : τ) (elems : List ρ) (i : Nat) : Option β := elems[i]?.map (R.key t)

/-- All pointers have records. -/
def Live (t : τ) (elems : List ρ) : Prop := ∀ ptr ∈ elems, R.live t ptr

/-- The records of the pointers at the first places say where these are, if they are told. -/
def Placed (bound : Nat) (m : σ) (elems : List ρ) : Prop :=
  C.setreccookie.isSome → ∀ i < bound, ∀ ptr, elems[i]? = some ptr → R.cookie m ptr = i

/-- Elements were moved within the first places. -/
structure Moved (bound : Nat) (m : σ) (elems : List ρ) (m' : σ) (elems' : List ρ) : Prop where
  /-- Only places are written to the records. -/
  rest : R.rest m' = R.rest m
  /-- The pointers are the same. -/
  perm : elems'.Perm elems
  /-- The records go on saying where the pointers are. -/
  placed : R.Placed bound m elems → R.Placed bound m' elems'
  /-- The places behind are not touched. -/
  still : ∀ i, bound ≤ i → elems'[i]? = elems[i]?

variable {R} {bound : Nat} {m m' m'' : σ} {elems elems' elems'' : List ρ}

/-- Nothing was moved. -/
theorem Moved.refl : R.Moved bound m elems m elems := ⟨rfl, .refl _, id, fun _ _ => rfl⟩

/-- Elements were moved twice. -/
theorem Moved.trans (first : R.Moved bound m elems m' elems')
    (second : R.Moved bound m' elems' m'' elems'') : R.Moved bound m elems m'' elems'' where
  rest := second.rest.trans first.rest
  perm := second.perm.trans first.perm
  placed placed := second.placed (first.placed placed)
  still i outside := (second.still i outside).trans (first.still i outside)

/-- Moved pointers still have records. -/
theorem Moved.live (moved : R.Moved bound m elems m' elems') (live : R.Live (R.rest m) elems) :
    R.Live (R.rest m') elems' := by
  intro ptr member
  rw [moved.rest]
  exact live ptr (moved.perm.mem_iff.mp member)

/-- There is a key at a place if and only if there is a pointer. -/
theorem values_some {t : τ} {i : Nat} {key : β} :
    R.values t elems i = some key ↔ ∃ ptr, elems[i]? = some ptr ∧ R.key t ptr = key :=
  Option.map_eq_some_iff

/-- There is a key at each place of the list. -/
theorem values_ne_none {t : τ} {i : Nat} : R.values t elems i ≠ none ↔ i < elems.length := by
  rw [values, ne_eq, Option.map_eq_none_iff, List.getElem?_eq_none_iff, Nat.not_le]

/-- A list has no gaps. -/
theorem values_packed {t : τ} : Packed (R.values t elems) := by
  intro before after order filled
  exact values_ne_none.mpr (Nat.lt_of_le_of_lt order (values_ne_none.mp filled))

/-- Two elements are compared by their keys. -/
theorem comparAt_spec (live : R.Live (R.rest m) elems) {i j : Nat} {x y : ρ}
    (atI : elems[i]? = some x) (atJ : elems[j]? = some y) : ∃ c, comparAt C m elems i j = .ok c ∧
      (c < 0 ↔ R.key (R.rest m) x < R.key (R.rest m) y) ∧
      (0 < c ↔ R.key (R.rest m) y < R.key (R.rest m) x) := by
  obtain ⟨c, compared, below, above⟩ := R.compares (live x (List.mem_of_getElem? atI))
    (live y (List.mem_of_getElem? atJ))
  refine ⟨c, ?_, below, above⟩
  rw [comparAt, ptrlistGet, atI, ok_bind, ptrlistGet, atJ, ok_bind, compared]
  rfl

/-- A pointer is told its place, if it is told at all. -/
theorem notify_spec {ptr : ρ} (live : R.live (R.rest m) ptr) (rc : Nat) :
    ∃ m', notify C m ptr rc = .ok m' ∧ R.rest m' = R.rest m ∧
      (C.setreccookie.isSome → R.cookie m' = Function.update (R.cookie m) ptr rc) := by
  cases told : C.setreccookie with
  | none =>
    refine ⟨m, ?_, rfl, fun absurdity => by cases absurdity⟩
    rw [notify, told]
  | some setreccookie =>
    obtain ⟨m', set, rest, cookie⟩ := R.notifies told live rc
    refine ⟨m', ?_, rest, fun _ => cookie⟩
    rw [notify, told]
    simp only [set]
    rfl

/-- Two elements are swapped. -/
theorem swap_spec (live : R.Live (R.rest m) elems) {i j : Nat} {x y : ρ} (insideI : i < bound)
    (insideJ : j < bound) (apart : i ≠ j) (atI : elems[i]? = some x) (atJ : elems[j]? = some y) :
    ∃ m' elems', swap C m elems i j = .ok (m', elems') ∧ R.Moved bound m elems m' elems' ∧
      ∀ p, elems'[p]? = elems[Equiv.swap i j p]? := by
  have exchanged := getElem?_swap atI atJ
  obtain ⟨m1, first, rest1, cookie1⟩ := notify_spec (live y (List.mem_of_getElem? atJ)) i
  have live1 : R.live (R.rest m1) x := by
    rw [rest1]
    exact live x (List.mem_of_getElem? atI)
  obtain ⟨m2, second, rest2, cookie2⟩ := notify_spec live1 j
  refine ⟨m2, (elems.set i y).set j x, ?_, ⟨rest2.trans rest1, perm_swap atI atJ, ?_, ?_⟩,
    exchanged⟩
  · rw [swap, ptrlistGet, atI, ok_bind, ptrlistGet, atJ, ok_bind, first, ok_bind, second]
    rfl
  · intro placed told p within ptr there
    have known := placed told
    rw [cookie2 told, cookie1 told]
    rw [exchanged p] at there
    by_cases right : p = j
    · rw [right, Equiv.swap_apply_right, atI] at there
      cases there
      rw [Function.update_self, right]
    · by_cases left : p = i
      · rw [left, Equiv.swap_apply_left, atJ] at there
        cases there
        have other : y ≠ x := by
          rintro rfl
          exact apart ((known i insideI y atI).symm.trans (known j insideJ y atJ))
        rw [Function.update_of_ne other, Function.update_self, left]
      · rw [Equiv.swap_apply_of_ne_of_ne left right] at there
        have here := known p within ptr there
        have notX : ptr ≠ x := by
          rintro rfl
          exact left (here.symm.trans (known i insideI ptr atI))
        have notY : ptr ≠ y := by
          rintro rfl
          exact right (here.symm.trans (known j insideJ ptr atJ))
        rw [Function.update_of_ne notX, Function.update_of_ne notY]
        exact here
  · intro p outside
    rw [exchanged p, Equiv.swap_apply_of_ne_of_ne (by omega) (by omega)]

/-- The keys at two places are exchanged with the elements. -/
theorem values_swap {t : τ} {i j : Nat} (exchanged : ∀ p, elems'[p]? = elems[Equiv.swap i j p]?) :
    R.values t elems' = R.values t elems ∘ Equiv.swap i j := by
  funext p
  rw [values, exchanged p]
  rfl

/-- An element that is less than its parent is swapped with it. -/
theorem rise_spec {i : Nat} {x y : ρ} (low : 0 < i) (inside : i < elems.length) (within : i < bound)
    (live : R.Live (R.rest m) elems) (rising : Rising (R.values (R.rest m) elems) i)
    (atI : elems[i]? = some x) (atParent : elems[(i - 1) / 2]? = some y)
    (less : R.key (R.rest m) x < R.key (R.rest m) y) :
    ∃ m' elems', swap C m elems i ((i - 1) / 2) = .ok (m', elems') ∧
      R.Moved bound m elems m' elems' ∧ Rising (R.values (R.rest m') elems') ((i - 1) / 2) := by
  have before : (i - 1) / 2 < i := parent_lt low
  obtain ⟨m', elems', swapped, moved, exchanged⟩ :=
    swap_spec live within (Nat.lt_trans before within) (Nat.ne_of_gt before) atI atParent
  refine ⟨m', elems', swapped, moved, ?_⟩
  rw [moved.rest, values_swap exchanged]
  apply rising.exchange low (values_ne_none.mpr (Nat.lt_trans before inside))
  intro a b first second
  obtain ⟨ptr, there, rfl⟩ := values_some.mp first
  obtain ⟨ptr', there', rfl⟩ := values_some.mp second
  cases atParent.symm.trans there
  cases atI.symm.trans there'
  exact less

/-- An element that is too small for its place is sifted up. -/
theorem heapifyupLoop_spec (fuel : Nat) (m : σ) (elems : List ρ) (i : Nat) (enough : i < fuel)
    (inside : i < elems.length) (within : i < bound) (live : R.Live (R.rest m) elems)
    (rising : Rising (R.values (R.rest m) elems) i) :
    ∃ m' elems', heapifyupLoop C fuel m elems i = .ok (m', elems') ∧
      R.Moved bound m elems m' elems' ∧ OrderedFrom 0 (R.values (R.rest m') elems') := by
  induction fuel generalizing m elems i with
  | zero => exact absurd enough (Nat.not_lt_zero i)
  | succ fuel ih =>
    rw [heapifyupLoop]
    by_cases root : i = 0
    · rw [if_pos root]
      exact ⟨m, elems, rfl, .refl, rising.settle (fun low => absurd root (by omega))⟩
    · rw [if_neg root]
      have before : (i - 1) / 2 < i := by omega
      obtain ⟨x, atI⟩ : ∃ x, elems[i]? = some x := ⟨_, List.getElem?_eq_getElem inside⟩
      obtain ⟨y, atParent⟩ : ∃ y, elems[(i - 1) / 2]? = some y :=
        ⟨_, List.getElem?_eq_getElem (by omega)⟩
      obtain ⟨c, compared, below, above⟩ := comparAt_spec live atI atParent
      rw [compared, ok_bind]
      by_cases stays : c ≥ 0
      · rw [if_pos stays]
        refine ⟨m, elems, rfl, .refl, rising.settle fun low => ?_⟩
        intro a b first second
        obtain ⟨ptr, there, rfl⟩ := values_some.mp first
        obtain ⟨ptr', there', rfl⟩ := values_some.mp second
        cases atParent.symm.trans there
        cases atI.symm.trans there'
        exact not_lt.mp fun less => absurd (below.mpr less) (by omega)
      · rw [if_neg stays]
        have less : R.key (R.rest m) x < R.key (R.rest m) y := below.mp (by omega)
        obtain ⟨m1, elems1, swapped, moved, lifted⟩ :=
          rise_spec (Nat.pos_of_ne_zero root) inside within live rising atI atParent less
        rw [swapped, ok_bind]
        obtain ⟨m', elems', rest, moved', ordered⟩ := ih m1 elems1 ((i - 1) / 2) (by omega)
          (by rw [moved.perm.length_eq]; omega) (by omega) (moved.live live) lifted
        exact ⟨m', elems', rest, moved.trans moved', ordered⟩

/-- The place of the lesser of two elements is found. -/
theorem lesser_spec (live : R.Live (R.rest m) elems) {min : Nat} (child : Nat)
    (inside : min < elems.length) : ∃ least, lesser C m elems elems.length min child = .ok least ∧
      (least = min ∨ least = child ∧ child < elems.length ∧
        ∀ x y, R.values (R.rest m) elems child = some x → R.values (R.rest m) elems min = some y →
          x < y) ∧
      InOrder (R.values (R.rest m) elems) least child := by
  rw [lesser]
  obtain ⟨x, atMin⟩ : ∃ x, elems[min]? = some x := ⟨_, List.getElem?_eq_getElem inside⟩
  by_cases there : child < elems.length
  · rw [if_pos there]
    obtain ⟨y, atChild⟩ : ∃ y, elems[child]? = some y := ⟨_, List.getElem?_eq_getElem there⟩
    obtain ⟨c, compared, below, above⟩ := comparAt_spec live atMin atChild
    rw [compared, ok_bind]
    by_cases greater : c > 0
    · rw [if_pos greater]
      refine ⟨child, rfl, .inr ⟨rfl, there, ?_⟩, ?_⟩
      · intro a b first second
        obtain ⟨ptr, here, rfl⟩ := values_some.mp first
        obtain ⟨ptr', here', rfl⟩ := values_some.mp second
        cases atChild.symm.trans here
        cases atMin.symm.trans here'
        exact above.mp greater
      · intro a b first second
        exact le_of_eq (Option.some.inj (first.symm.trans second))
    · rw [if_neg greater]
      refine ⟨min, rfl, .inl rfl, ?_⟩
      intro a b first second
      obtain ⟨ptr, here, rfl⟩ := values_some.mp first
      obtain ⟨ptr', here', rfl⟩ := values_some.mp second
      cases atMin.symm.trans here
      cases atChild.symm.trans here'
      exact not_lt.mp fun less => greater (above.mpr less)
  · rw [if_neg there]
    refine ⟨min, rfl, .inl rfl, ?_⟩
    intro a b _ second
    have filled : R.values (R.rest m) elems child ≠ none := by
      rw [second]
      exact Option.some_ne_none b
    exact absurd (values_ne_none.mp filled) there

/-- An element that is too large for its place is sifted down. Elements that are not less than it
stay where they are. -/
theorem heapifyLoop_spec (start fuel : Nat) (m : σ) (elems : List ρ) (i : Nat)
    (enough : elems.length < fuel + i) (inside : i < elems.length) (within : i < bound)
    (live : R.Live (R.rest m) elems) (sinking : Sinking start (R.values (R.rest m) elems) i)
    (heavy : ∀ p, bound ≤ p → InOrder (R.values (R.rest m) elems) i p) :
    ∃ m' elems', heapifyLoop C elems.length fuel m elems i = .ok (m', elems') ∧
      R.Moved bound m elems m' elems' ∧ OrderedFrom start (R.values (R.rest m') elems') := by
  induction fuel generalizing m elems i with
  | zero => omega
  | succ fuel ih =>
    obtain ⟨min, first, left, notLeft⟩ := lesser_spec live (2 * i + 1) inside
    have minInside : min < elems.length := by
      rcases left with rfl | ⟨rfl, there, _⟩
      · exact inside
      · exact there
    obtain ⟨least, second, right, notRight⟩ := lesser_spec live (2 * i + 2) minInside
    obtain ⟨x, atI⟩ : ∃ x, elems[i]? = some x := ⟨_, List.getElem?_eq_getElem inside⟩
    -- the place that was found holds the least of the three
    have atMost : InOrder (R.values (R.rest m) elems) least min := by
      intro a b here there
      rcases right with rfl | ⟨rfl, _, less⟩
      · exact le_of_eq (Option.some.inj (here.symm.trans there))
      · exact (less a b here there).le
    have filled : R.values (R.rest m) elems min ≠ none := values_ne_none.mpr minInside
    have leastOf : ∀ child, 0 < child → parent child = i →
        InOrder (R.values (R.rest m) elems) least child := by
      intro child low up
      rcases (parent_eq low).mp up with rfl | rfl
      · exact atMost.trans notLeft filled
      · exact notRight
    rw [heapifyLoop, first, ok_bind, second, ok_bind]
    by_cases same : least = i
    · rw [if_pos same]
      subst same
      exact ⟨m, elems, rfl, .refl, sinking.settle leastOf⟩
    · rw [if_neg same]
      have child : 0 < least ∧ parent least = i ∧ least < elems.length ∧
          ∀ a b, R.values (R.rest m) elems least = some a →
            R.values (R.rest m) elems i = some b → a < b := by
        rcases right with rfl | ⟨rfl, there, less⟩
        · rcases left with rfl | ⟨rfl, there, less⟩
          · exact absurd rfl same
          · exact ⟨by omega, (parent_eq (by omega)).mpr (.inl rfl), there, less⟩
        · refine ⟨by omega, (parent_eq (by omega)).mpr (.inr rfl), there, ?_⟩
          intro a b here atPlace
          rcases left with rfl | ⟨rfl, _, less'⟩
          · exact less a b here atPlace
          · obtain ⟨z, atMin⟩ := Option.ne_none_iff_exists'.mp filled
            exact (less a z here atMin).trans (less' z b atMin atPlace)
      obtain ⟨low, up, leastInside, less⟩ := child
      obtain ⟨y, atLeast⟩ : ∃ y, elems[least]? = some y := ⟨_, List.getElem?_eq_getElem leastInside⟩
      have keyI : R.values (R.rest m) elems i = some (R.key (R.rest m) x) :=
        values_some.mpr ⟨x, atI, rfl⟩
      have keyLeast : R.values (R.rest m) elems least = some (R.key (R.rest m) y) :=
        values_some.mpr ⟨y, atLeast, rfl⟩
      have strict := less _ _ keyLeast keyI
      have leastWithin : least < bound := by
        by_contra outside
        exact absurd strict (not_lt.mpr (heavy least (by omega) _ _ keyI keyLeast))
      obtain ⟨m1, elems1, swapped, moved, exchanged⟩ :=
        swap_spec live leastWithin within same atLeast atI
      have before : i < least := up ▸ parent_lt low
      have values1 : R.values (R.rest m1) elems1 =
          R.values (R.rest m) elems ∘ Equiv.swap least i := by
        rw [moved.rest, values_swap exchanged]
      have long : elems1.length = elems.length := moved.perm.length_eq
      have sunk : Sinking start (R.values (R.rest m1) elems1) least := by
        rw [values1]
        refine sinking.exchange low up ?_ leastOf
        intro a b here there
        exact (less b a there here).le
      rw [swapped, ok_bind, ← long]
      obtain ⟨m', elems', rest, moved', ordered⟩ := ih m1 elems1 least (by omega) (by omega)
        leastWithin (moved.live live) sunk (by
          intro p outside a b here there
          rw [values1, exchange_left] at here
          rw [values1, exchange_other _ (by omega) (by omega)] at there
          exact heavy p outside a b here there)
      exact ⟨m', elems', rest, moved.trans moved', ordered⟩

end PtrheapRecords

end Tarsnap.Datastruct
