import Tarsnap.Datastruct.PtrheapSift

/-!
# Pointer heaps keep their order over every run

Whatever operations are performed on a heap, it holds the pointers that were put in and not
deleted, its minimum is one with a least key, and the record of each pointer says where it is, so
that it is always the pointer that was meant that is deleted, or whose place is corrected after its
key changed. The operations never read outside of the heap, and their loops end.
-/

open Tarsnap.Lib Tarsnap.Lib.BinaryHeap

namespace Tarsnap.Datastruct

namespace PtrheapRecords

open Ptrheap

variable {ρ σ τ β : Type} [DecidableEq ρ] [LinearOrder β] {C : PtrheapCallbacks ρ σ}
  (R : PtrheapRecords C τ β)

/-- A heap whose pointers have records, are in order, and are where their records say. -/
structure Valid (m : σ) (H : Ptrheap ρ σ) : Prop where
  /-- The callbacks are those that the heap was created with. -/
  callbacks : H.callbacks = C
  /-- The pointers have records. -/
  live : R.Live (R.rest m) H.elems
  /-- The records say where the pointers are. -/
  placed : R.Placed H.elems.length m H.elems
  /-- The pointers are in order. -/
  ordered : OrderedFrom 0 (R.values (R.rest m) H.elems)

variable {R} {m m' : σ} {H : Ptrheap ρ σ} {elems elems' : List ρ}

section Create

/-- Elements are turned into a heap from the last place to the first. -/
theorem buildLoop_spec (live : R.Live (R.rest m) elems) (i : Nat) (inside : i ≤ elems.length)
    (ordered : OrderedFrom i (R.values (R.rest m) elems)) :
    ∃ elems', buildLoop C m elems.length i elems = .ok elems' ∧ elems'.Perm elems ∧
      OrderedFrom 0 (R.values (R.rest m) elems') := by
  induction i generalizing elems with
  | zero => exact ⟨elems, rfl, .refl _, ordered⟩
  | succ i ih =>
    obtain ⟨m1, elems1, sifted, moved, ordered1⟩ := R.silent.heapifyLoop_spec i
      (elems.length - i + 1) m elems i (by omega) inside inside live ordered.sinking
      (fun p outside a b _ there => absurd
        (values_ne_none.mp (by rw [there]; exact Option.some_ne_none b)) (by omega))
    have rest : R.rest m1 = R.rest m := moved.rest
    have long : elems1.length = elems.length := moved.perm.length_eq
    have live1 : R.Live (R.rest m) elems1 := rest ▸ moved.live live
    have ordered1 : OrderedFrom i (R.values (R.rest m) elems1) := rest ▸ ordered1
    obtain ⟨elems', built, perm, final⟩ := ih live1 (by omega) ordered1
    refine ⟨elems', ?_, perm.trans moved.perm, final⟩
    rw [buildLoop, heapify, sifted, ok_bind, ← long]
    exact built

/-- The pointers are told their places, and no other pointer is told any. -/
theorem notifyLoop_spec (live : R.Live (R.rest m) elems) (distinct : elems.Nodup) (start : Nat) :
    ∃ m', notifyLoop C m elems start = .ok m' ∧ R.rest m' = R.rest m ∧
      (C.setreccookie.isSome → (∀ i ptr, elems[i]? = some ptr → R.cookie m' ptr = start + i) ∧
        ∀ ptr ∉ elems, R.cookie m' ptr = R.cookie m ptr) := by
  induction elems generalizing m start with
  | nil =>
    refine ⟨m, rfl, rfl, fun _ => ⟨?_, fun _ _ => rfl⟩⟩
    intro i ptr there
    cases there
  | cons first elems ih =>
    obtain ⟨m1, told1, rest1, cookie1⟩ := notify_spec (live first List.mem_cons_self) start
    have live1 : R.Live (R.rest m1) elems := by
      intro ptr member
      rw [rest1]
      exact live ptr (List.mem_cons_of_mem _ member)
    obtain ⟨m', told', rest', cookies⟩ := ih live1 distinct.of_cons (start + 1)
    refine ⟨m', ?_, rest'.trans rest1, ?_⟩
    · rw [notifyLoop, told1, ok_bind]
      exact told'
    · intro told
      obtain ⟨inside, outside⟩ := cookies told
      constructor
      · intro i ptr there
        cases i with
        | zero =>
          cases there
          rw [outside first (List.nodup_cons.mp distinct).1, cookie1 told, Function.update_self]
          rfl
        | succ i =>
          rw [inside i ptr there]
          omega
      · intro ptr absent
        have apart : ptr ≠ first := fun same => absent (same ▸ List.mem_cons_self)
        rw [outside ptr (fun member => absent (List.mem_cons_of_mem _ member)), cookie1 told,
          Function.update_of_ne apart]

/-- A heap is created. -/
theorem ptrheapCreate_spec {ptrs : List ρ} (live : R.Live (R.rest m) ptrs) (distinct : ptrs.Nodup) :
    ∃ m' H, ptrheapCreate C m ptrs = .ok (m', H) ∧ R.rest m' = R.rest m ∧ H.elems.Perm ptrs ∧
      R.Valid m' H := by
  have nothing : OrderedFrom ptrs.length (R.values (R.rest m) ptrs) :=
    orderedFrom_of_none fun other after => by
      by_contra filled
      exact absurd (values_ne_none.mp filled) (by omega)
  obtain ⟨elems, built, perm, ordered⟩ := buildLoop_spec live ptrs.length (Nat.le_refl _) nothing
  have live1 : R.Live (R.rest m) elems := fun ptr member => live ptr (perm.mem_iff.mp member)
  obtain ⟨m', told, rest, cookies⟩ := notifyLoop_spec live1 (perm.nodup_iff.mpr distinct) 0
  refine ⟨m', ⟨C, elems⟩, ?_, rest, perm, ⟨rfl, ?_, ?_, ?_⟩⟩
  · rw [ptrheapCreate, built, ok_bind, told]
    rfl
  · rw [rest]
    exact live1
  · intro told i _ ptr there
    rw [(cookies told).1 i ptr there, Nat.zero_add]
  · rw [rest]
    exact ordered

end Create

section Operations

/-- The elements of a heap that were moved are those of a heap. -/
theorem Moved.valid (moved : R.Moved elems.length m elems m' elems')
    (callbacks : H.callbacks = C) (live : R.Live (R.rest m) elems)
    (placed : R.Placed elems.length m elems)
    (ordered : OrderedFrom 0 (R.values (R.rest m') elems')) :
    R.Valid m' { H with elems := elems' } where
  callbacks := callbacks
  live := moved.live live
  placed := by
    show R.Placed elems'.length m' elems'
    rw [moved.perm.length_eq]
    exact moved.placed placed
  ordered := ordered

/-- A pointer is added. -/
theorem ptrheapAdd_spec (valid : R.Valid m H) {ptr : ρ} (live : R.live (R.rest m) ptr)
    (new : ptr ∉ H.elems) : ∃ m' H', ptrheapAdd m H ptr true = .ok (0, m', H') ∧
      R.rest m' = R.rest m ∧ H'.elems.Perm (ptr :: H.elems) ∧ R.Valid m' H' := by
  obtain ⟨m1, told1, rest1, cookie1⟩ := notify_spec live H.elems.length
  have long : (H.elems ++ [ptr]).length = H.elems.length + 1 := List.length_append
  have last : (H.elems ++ [ptr]).length - 1 = H.elems.length := by omega
  have live1 : R.Live (R.rest m1) (H.elems ++ [ptr]) := by
    intro other member
    rw [rest1]
    rcases List.mem_append.mp member with old | only
    · exact valid.live other old
    · rw [List.mem_singleton.mp only]
      exact live
  have placed1 : R.Placed (H.elems ++ [ptr]).length m1 (H.elems ++ [ptr]) := by
    intro told i within other there
    rw [cookie1 told]
    by_cases old : i < H.elems.length
    · rw [List.getElem?_append_left old] at there
      have apart : other ≠ ptr := fun same => new (same ▸ List.mem_of_getElem? there)
      rw [Function.update_of_ne apart]
      exact valid.placed told i old other there
    · have atEnd : i = H.elems.length := by omega
      rw [atEnd, List.getElem?_concat_length] at there
      cases there
      rw [Function.update_self, atEnd]
  have rising : Rising (R.values (R.rest m1) (H.elems ++ [ptr])) H.elems.length := by
    have before : ∀ other, other < H.elems.length →
        R.values (R.rest m1) (H.elems ++ [ptr]) other = R.values (R.rest m) H.elems other := by
      intro other old
      rw [values, values, rest1, List.getElem?_append_left old]
    have behind : ∀ child, 0 < child → parent child = H.elems.length →
        ∀ key, R.values (R.rest m1) (H.elems ++ [ptr]) child ≠ some key := by
      intro child low up key there
      have deep := parent_lt low
      have inside := values_ne_none.mp (there ▸ Option.some_ne_none key)
      omega
    constructor
    · intro child low here there a b upper lower
      have inside := values_ne_none.mp (lower ▸ Option.some_ne_none b)
      have deep := parent_lt low
      have old : child < H.elems.length := by omega
      rw [before _ (by omega)] at upper
      rw [before _ old] at lower
      exact valid.ordered child low (Nat.zero_le _) a b upper lower
    · intro child low up a b _ lower
      exact absurd lower (behind child low up b)
    · intro _ child low up a b _ lower
      exact absurd lower (behind child low up b)
  obtain ⟨m', elems', sifted, moved, ordered⟩ := heapifyupLoop_spec (H.elems.length + 1) m1
    (H.elems ++ [ptr]) H.elems.length (Nat.lt_succ_self _) (by omega)
    (by omega : H.elems.length < (H.elems ++ [ptr]).length) live1 rising
  refine ⟨m', { H with elems := elems' }, ?_, moved.rest.trans rest1,
    moved.perm.trans (List.perm_append_singleton ptr H.elems),
    moved.valid valid.callbacks live1 placed1 ordered⟩
  rw [ptrheapAdd, if_pos rfl, valid.callbacks]
  simp only [last, told1, ok_bind, heapifyup, sifted]
  rfl

/-- What is said to be a minimum: nothing if there is no pointer, otherwise one with a least key. -/
def Least (R : PtrheapRecords C τ β) (t : τ) (elems : List ρ) : Option ρ → Prop
  | none => elems = []
  | some min => min ∈ elems ∧ ∀ ptr ∈ elems, R.key t min ≤ R.key t ptr

/-- The minimum is found. -/
theorem ptrheapGetmin_spec (valid : R.Valid m H) :
    Least R (R.rest m) H.elems (ptrheapGetmin H) := by
  unfold ptrheapGetmin
  cases first : H.elems[0]? with
  | none => exact List.length_eq_zero_iff.mp (Nat.le_zero.mp (List.getElem?_eq_none_iff.mp first))
  | some min =>
    refine ⟨List.mem_of_getElem? first, ?_⟩
    intro ptr member
    obtain ⟨i, there⟩ := List.getElem?_of_mem member
    exact valid.ordered.root_le values_packed i _ _ (values_some.mpr ⟨min, first, rfl⟩)
      (values_some.mpr ⟨ptr, there, rfl⟩)

/-- What is in front of the last place is a heap. -/
theorem Valid.ofFront (callbacks : H.callbacks = C) (live : R.Live (R.rest m) elems)
    (placed : R.Placed (elems.length - 1) m elems)
    (ordered : OrderedFrom 0 (R.values (R.rest m) elems)) :
    R.Valid m { H with elems := elems.dropLast } where
  callbacks := callbacks
  live ptr member := live ptr (List.mem_of_mem_dropLast member)
  placed told i within ptr there := by
    change i < elems.dropLast.length at within
    change elems.dropLast[i]? = some ptr at there
    rw [List.length_dropLast] at within
    rw [List.getElem?_dropLast, if_pos within] at there
    exact placed told i within ptr there
  ordered child low _ a b upper lower := by
    change (elems.dropLast[parent child]?).map _ = some a at upper
    change (elems.dropLast[child]?).map _ = some b at lower
    rw [List.getElem?_dropLast] at upper lower
    split at upper
    · split at lower
      · exact ordered child low (Nat.zero_le _) a b upper lower
      · cases lower
    · cases upper

/-- The element that replaces a deleted one is moved to where it belongs, and the last place keeps
it too. -/
theorem replaceDeleted_spec (valid : R.Valid m H) {rc : Nat} {last : ρ}
    (within : rc < H.elems.length - 1) (atLast : H.elems[H.elems.length - 1]? = some last)
    {m1 : σ} (rest : R.rest m1 = R.rest m)
    (told : C.setreccookie.isSome → R.cookie m1 = Function.update (R.cookie m) last rc) :
    ∃ m' elems', replaceDeleted m1 H (H.elems.set rc last) rc = .ok (m', elems') ∧
      R.Moved (H.elems.length - 1) m1 (H.elems.set rc last) m' elems' ∧
      R.Placed (H.elems.length - 1) m1 (H.elems.set rc last) ∧
      OrderedFrom 0 (R.values (R.rest m') elems') := by
  have inside : rc < H.elems.length := by omega
  have long : (H.elems.set rc last).length = H.elems.length := List.length_set
  have here : (H.elems.set rc last)[rc]? = some last := List.getElem?_set_self inside
  have others : ∀ other, other ≠ rc →
      (H.elems.set rc last)[other]? = H.elems[other]? := fun other apart =>
    List.getElem?_set_ne (Ne.symm apart)
  have same : ∀ other, other ≠ rc → R.values (R.rest m1) (H.elems.set rc last) other =
      R.values (R.rest m) H.elems other := by
    intro other apart
    rw [values, values, rest, others other apart]
  have live1 : R.Live (R.rest m1) (H.elems.set rc last) := by
    intro ptr member
    rw [rest]
    rcases List.mem_or_eq_of_mem_set member with old | rfl
    · exact valid.live ptr old
    · exact valid.live ptr (List.mem_of_getElem? atLast)
  have placed1 : R.Placed (H.elems.length - 1) m1 (H.elems.set rc last) := by
    intro notified i bounded ptr there
    have known := valid.placed notified
    rw [told notified]
    by_cases atPlace : i = rc
    · rw [atPlace, here] at there
      cases there
      rw [Function.update_self, atPlace]
    · rw [others i atPlace] at there
      have cookie := known i (by omega) ptr there
      have apart : ptr ≠ last := by
        rintro rfl
        have final := known _ (by omega) ptr atLast
        omega
      rw [Function.update_of_ne apart]
      exact cookie
  have filled : R.values (R.rest m) H.elems rc ≠ none := values_ne_none.mpr inside
  have keyHere : R.values (R.rest m1) (H.elems.set rc last) rc = some (R.key (R.rest m1) last) :=
    values_some.mpr ⟨last, here, rfl⟩
  have down : (0 < rc → InOrder (R.values (R.rest m1) (H.elems.set rc last)) (parent rc) rc) →
      ∃ m' elems', heapify C m1 (H.elems.set rc last) rc H.elems.length = .ok (m', elems') ∧
      R.Moved (H.elems.length - 1) m1 (H.elems.set rc last) m' elems' ∧
      OrderedFrom 0 (R.values (R.rest m') elems') := by
    intro above
    have sifted := heapifyLoop_spec 0 (H.elems.length - rc + 1) m1 (H.elems.set rc last) rc
      (by omega) (by omega) within live1 (valid.ordered.sinks same filled above) (by
        intro p outside a b first second
        have bounded := values_ne_none.mp (second ▸ Option.some_ne_none b)
        have final : p = H.elems.length - 1 := by omega
        obtain ⟨ptr, there, rfl⟩ := values_some.mp first
        obtain ⟨ptr', there', rfl⟩ := values_some.mp second
        rw [final, others _ (by omega)] at there'
        cases here.symm.trans there
        cases atLast.symm.trans there'
        exact le_refl _)
    rw [long] at sifted
    exact sifted
  rw [replaceDeleted, isTooSmall, valid.callbacks]
  by_cases low : 0 < rc
  · obtain ⟨up, atParent⟩ : ∃ up, (H.elems.set rc last)[(rc - 1) / 2]? = some up :=
      ⟨_, List.getElem?_eq_getElem (by omega)⟩
    have keyParent : R.values (R.rest m1) (H.elems.set rc last) (parent rc) =
        some (R.key (R.rest m1) up) := values_some.mpr ⟨up, atParent, rfl⟩
    obtain ⟨c, compared, below, above⟩ := comparAt_spec live1 here atParent
    rw [if_pos low, compared]
    by_cases small : c < 0
    · have less := below.mp small
      have upper : parent rc ≠ rc := Nat.ne_of_lt (parent_lt low)
      have rising := valid.ordered.rises same filled (by
        intro child deep over_ a b first second
        have late : rc < child := over_ ▸ parent_lt deep
        have outer := valid.ordered rc low (Nat.zero_le _)
        have inner := valid.ordered child deep (Nat.zero_le _)
        rw [over_] at inner
        rw [keyHere] at first
        cases first
        rw [same child (Nat.ne_of_gt late)] at second
        rw [same _ upper] at keyParent
        exact less.le.trans ((outer.trans inner filled) _ b keyParent second))
      obtain ⟨m2, elems2, swapped, moved, lifted⟩ :=
        rise_spec low (by omega) within live1 rising here atParent less
      obtain ⟨m', elems', sifted, moved', ordered⟩ := heapifyupLoop_spec ((rc - 1) / 2 + 1) m2
        elems2 ((rc - 1) / 2) (Nat.lt_succ_self _) (by rw [moved.perm.length_eq]; omega)
        (by omega : (rc - 1) / 2 < H.elems.length - 1) (moved.live live1) lifted
      refine ⟨m', elems', ?_, moved.trans moved', placed1, ordered⟩
      rw [ok_bind, pure_eq_ok, ok_bind, decide_eq_true small, if_pos rfl, swapped, ok_bind]
      exact sifted
    · obtain ⟨m', elems', sifted, moved, ordered⟩ := down (by
        intro _ a b first second
        rw [keyParent] at first
        rw [keyHere] at second
        cases first
        cases second
        exact not_lt.mp fun less => small (below.mpr less))
      refine ⟨m', elems', ?_, moved, placed1, ordered⟩
      rw [ok_bind, pure_eq_ok, ok_bind, decide_eq_false small, if_neg Bool.false_ne_true]
      exact sifted
  · obtain ⟨m', elems', sifted, moved, ordered⟩ := down fun positive => absurd positive low
    refine ⟨m', elems', ?_, moved, placed1, ordered⟩
    rw [if_neg low, pure_eq_ok, ok_bind, if_neg Bool.false_ne_true]
    exact sifted

/-- A pointer is deleted. -/
theorem ptrheapDelete_spec (valid : R.Valid m H) {rc : Nat} {ptr : ρ}
    (there : H.elems[rc]? = some ptr) : ∃ m' H', ptrheapDelete m H rc = .ok (m', H') ∧
      R.rest m' = R.rest m ∧ (ptr :: H'.elems).Perm H.elems ∧ R.Valid m' H' := by
  have inside : rc < H.elems.length := (List.getElem?_eq_some_iff.mp there).1
  obtain ⟨last, atLast⟩ : ∃ last, H.elems[H.elems.length - 1]? = some last :=
    ⟨_, List.getElem?_eq_getElem (by omega)⟩
  rw [ptrheapDelete, if_neg (by omega)]
  by_cases final : rc = H.elems.length - 1
  · rw [if_neg (not_not.mpr final)]
    refine ⟨m, _, rfl, rfl, ?_, Valid.ofFront valid.callbacks valid.live ?_ valid.ordered⟩
    · have whole := List.dropLast_append_getLast? ptr (by
        rw [List.getLast?_eq_getElem?, ← final, there]
        exact rfl)
      exact (List.perm_append_singleton ptr _).symm.trans (.of_eq whole)
    · exact fun told i within other here => valid.placed told i (by omega) other here
  · rw [if_pos final, ptrlistGet, atLast, ok_bind, ptrlistSet, if_pos inside, ok_bind]
    obtain ⟨m1, told1, rest1, cookie1⟩ :=
      notify_spec (valid.live last (List.mem_of_getElem? atLast)) rc
    obtain ⟨m', elems', replaced, moved, placed, ordered⟩ :=
      replaceDeleted_spec valid (by omega) atLast rest1 cookie1
    have long : elems'.length = H.elems.length := by
      rw [moved.perm.length_eq, List.length_set]
    rw [← valid.callbacks] at told1
    rw [told1, ok_bind, replaced, ok_bind]
    refine ⟨m', _, rfl, moved.rest.trans rest1, ?_, Valid.ofFront valid.callbacks ?_ ?_ ordered⟩
    · have still : elems'[elems'.length - 1]? = some last := by
        rw [long, moved.still _ (Nat.le_refl _), List.getElem?_set_ne final]
        exact atLast
      have whole := List.dropLast_append_getLast? last (by
        rw [List.getLast?_eq_getElem?, still]
        exact rfl)
      have front : (last :: elems'.dropLast).Perm (H.elems.set rc last) :=
        (List.perm_append_singleton last _).symm.trans ((List.Perm.of_eq whole).trans moved.perm)
      have both : (last :: ptr :: elems'.dropLast).Perm (last :: H.elems) :=
        (List.Perm.swap ptr last _).trans ((front.cons ptr).trans (perm_set there))
      exact both.cons_inv
    · apply moved.live
      intro other member
      rw [rest1]
      rcases List.mem_or_eq_of_mem_set member with old | rfl
      · exact valid.live other old
      · exact valid.live other (List.mem_of_getElem? atLast)
    · rw [long]
      exact moved.placed placed

/-- The owner changed the record of the pointer at one place, and told no places. -/
structure Adjusted (R : PtrheapRecords C τ β) (m m' : σ) (H : Ptrheap ρ σ) (rc : Nat) : Prop where
  /-- The pointers still have records. -/
  live : R.Live (R.rest m') H.elems
  /-- The other keys are the same. -/
  others : ∀ i, i ≠ rc → R.values (R.rest m') H.elems i = R.values (R.rest m) H.elems i
  /-- The places are the same. -/
  cookies : ∀ ptr ∈ H.elems, R.cookie m' ptr = R.cookie m ptr

/-- The records still say where the pointers are. -/
theorem Adjusted.placed {rc : Nat} (adjusted : Adjusted R m m' H rc) (valid : R.Valid m H) :
    R.Placed H.elems.length m' H.elems := by
  intro told i within ptr there
  rw [adjusted.cookies ptr (List.mem_of_getElem? there)]
  exact valid.placed told i within ptr there

/-- The place of an element that decreased is corrected. -/
theorem ptrheapDecrease_spec (valid : R.Valid m H) {rc : Nat} {ptr : ρ}
    (there : H.elems[rc]? = some ptr) {m1 : σ} (adjusted : Adjusted R m m1 H rc)
    (less : R.key (R.rest m1) ptr ≤ R.key (R.rest m) ptr) :
    ∃ m' H', ptrheapDecrease m1 H rc = .ok (m', H') ∧ R.rest m' = R.rest m1 ∧
      H'.elems.Perm H.elems ∧ R.Valid m' H' := by
  have inside : rc < H.elems.length := (List.getElem?_eq_some_iff.mp there).1
  have rising := valid.ordered.rises adjusted.others (values_ne_none.mpr inside) (by
    intro child low up a b first second
    have late : rc < child := up ▸ parent_lt low
    have ordered := valid.ordered child low (Nat.zero_le _)
    rw [up] at ordered
    rw [adjusted.others child (Nat.ne_of_gt late)] at second
    obtain ⟨ptr', here, rfl⟩ := values_some.mp first
    cases there.symm.trans here
    exact less.trans (ordered _ b (values_some.mpr ⟨ptr, there, rfl⟩) second))
  obtain ⟨m', elems', sifted, moved, ordered⟩ := heapifyupLoop_spec (rc + 1) m1 H.elems rc
    (Nat.lt_succ_self rc) inside inside adjusted.live rising
  refine ⟨m', { H with elems := elems' }, ?_, moved.rest, moved.perm,
    moved.valid valid.callbacks adjusted.live (adjusted.placed valid) ordered⟩
  rw [ptrheapDecrease, heapifyup, valid.callbacks, sifted]
  rfl

/-- The place of an element that increased is corrected. -/
theorem ptrheapIncrease_spec (valid : R.Valid m H) {rc : Nat} {ptr : ρ}
    (there : H.elems[rc]? = some ptr) {m1 : σ} (adjusted : Adjusted R m m1 H rc)
    (greater : R.key (R.rest m) ptr ≤ R.key (R.rest m1) ptr) :
    ∃ m' H', ptrheapIncrease m1 H rc = .ok (m', H') ∧ R.rest m' = R.rest m1 ∧
      H'.elems.Perm H.elems ∧ R.Valid m' H' := by
  have inside : rc < H.elems.length := (List.getElem?_eq_some_iff.mp there).1
  have sinking := valid.ordered.sinks adjusted.others (values_ne_none.mpr inside) (by
    intro low a b first second
    rw [adjusted.others _ (Nat.ne_of_lt (parent_lt low))] at first
    obtain ⟨ptr', here, rfl⟩ := values_some.mp second
    cases there.symm.trans here
    have ordered := valid.ordered rc low (Nat.zero_le _)
    exact (ordered a _ first (values_some.mpr ⟨ptr, there, rfl⟩)).trans greater)
  obtain ⟨m', elems', sifted, moved, ordered⟩ := heapifyLoop_spec 0
    (H.elems.length - rc + 1) m1 H.elems rc (by omega) inside inside adjusted.live sinking
    (fun p outside a b _ second => absurd
      (values_ne_none.mp (by rw [second]; exact Option.some_ne_none b)) (by omega))
  refine ⟨m', { H with elems := elems' }, ?_, moved.rest, moved.perm,
    moved.valid valid.callbacks adjusted.live (adjusted.placed valid) ordered⟩
  rw [ptrheapIncrease, heapify, valid.callbacks, sifted]
  rfl

end Operations

end PtrheapRecords

/-- What is done with a heap. Before its place is corrected, the owner changes the record of a
pointer. -/
inductive PtrheapOp (ρ σ : Type) where
  /-- Add a pointer, if there is memory for it. -/
  | add (ptr : ρ) (appended : Bool)
  /-- Ask for the minimum. -/
  | getmin
  /-- Delete a pointer at the place in its record. -/
  | delete (ptr : ρ)
  /-- Delete the minimum. -/
  | deletemin
  /-- The record of a pointer decreased. -/
  | decrease (ptr : ρ) (change : σ → σ)
  /-- The record of a pointer increased. -/
  | increase (ptr : ρ) (change : σ → σ)
  /-- The record of the minimum increased. -/
  | increasemin (change : σ → σ)

/-- What an operation returns. -/
inductive PtrheapAnswer (ρ : Type) where
  /-- Zero, or minus one on error. -/
  | status (rc : Int)
  /-- A minimum pointer or null. -/
  | minimum (ptr : Option ρ)
  /-- Nothing. -/
  | nothing

namespace PtrheapRecords

open Ptrheap

variable {ρ σ τ β : Type} [DecidableEq ρ] [LinearOrder β] {C : PtrheapCallbacks ρ σ}
  (R : PtrheapRecords C τ β)

/-- Perform an operation. -/
def perform (m : σ) (H : Ptrheap ρ σ) :
    PtrheapOp ρ σ → Except PtrheapFault (PtrheapAnswer ρ × σ × Ptrheap ρ σ)
  | .add ptr appended => do
    let (rc, m, H) ← ptrheapAdd m H ptr appended
    return (.status rc, m, H)
  | .getmin => .ok (.minimum (ptrheapGetmin H), m, H)
  | .delete ptr => do
    let (m, H) ← ptrheapDelete m H (R.cookie m ptr)
    return (.nothing, m, H)
  | .deletemin => do
    let (m, H) ← ptrheapDeletemin m H
    return (.nothing, m, H)
  | .decrease ptr change => do
    let (m, H) ← ptrheapDecrease (change m) H (R.cookie m ptr)
    return (.nothing, m, H)
  | .increase ptr change => do
    let (m, H) ← ptrheapIncrease (change m) H (R.cookie m ptr)
    return (.nothing, m, H)
  | .increasemin change => do
    let (m, H) ← ptrheapIncreasemin (change m) H
    return (.nothing, m, H)

/-- The owner changed the record of one pointer in a heap, and told no places. -/
structure Changed (m m' : σ) (H : Ptrheap ρ σ) (ptr : ρ) : Prop where
  /-- The pointer is in the heap. -/
  member : ptr ∈ H.elems
  /-- The pointers still have records. -/
  live : R.Live (R.rest m') H.elems
  /-- The other keys are the same. -/
  others : ∀ other ∈ H.elems, other ≠ ptr → R.key (R.rest m') other = R.key (R.rest m) other
  /-- The places are the same. -/
  cookies : ∀ other ∈ H.elems, R.cookie m' other = R.cookie m other

/-- What is promised before an operation: a new pointer has a record, and a pointer that is deleted
or whose record changed is in the heap. -/
def Allowed (m : σ) (H : Ptrheap ρ σ) : PtrheapOp ρ σ → Prop
  | .add ptr _ => R.live (R.rest m) ptr ∧ ptr ∉ H.elems
  | .getmin => True
  | .delete ptr => ptr ∈ H.elems
  | .deletemin => H.elems ≠ []
  | .decrease ptr change => R.Changed m (change m) H ptr ∧
    R.key (R.rest (change m)) ptr ≤ R.key (R.rest m) ptr
  | .increase ptr change => R.Changed m (change m) H ptr ∧
    R.key (R.rest m) ptr ≤ R.key (R.rest (change m)) ptr
  | .increasemin change => ∃ ptr, ptrheapGetmin H = some ptr ∧ R.Changed m (change m) H ptr ∧
    R.key (R.rest m) ptr ≤ R.key (R.rest (change m)) ptr

/-- What an operation returns, and what it does to the records and the pointers in the heap. -/
def Effect (m : σ) (H : Ptrheap ρ σ) (answer : PtrheapAnswer ρ) (m' : σ) (H' : Ptrheap ρ σ) :
    PtrheapOp ρ σ → Prop
  | .add ptr true => answer = .status 0 ∧ R.rest m' = R.rest m ∧ H'.elems.Perm (ptr :: H.elems)
  | .add _ false => answer = .status (-1) ∧ m' = m ∧ H' = H
  | .getmin => (∃ min, answer = .minimum min ∧ Least R (R.rest m) H.elems min) ∧ m' = m ∧ H' = H
  | .delete ptr => answer = .nothing ∧ R.rest m' = R.rest m ∧ (ptr :: H'.elems).Perm H.elems
  | .deletemin => answer = .nothing ∧ R.rest m' = R.rest m ∧
    ∃ min, Least R (R.rest m) H.elems (some min) ∧ (min :: H'.elems).Perm H.elems
  | .decrease _ change => answer = .nothing ∧ R.rest m' = R.rest (change m) ∧
    H'.elems.Perm H.elems
  | .increase _ change => answer = .nothing ∧ R.rest m' = R.rest (change m) ∧
    H'.elems.Perm H.elems
  | .increasemin change => answer = .nothing ∧ R.rest m' = R.rest (change m) ∧
    H'.elems.Perm H.elems

/-- Operations succeed one after the other, as long as each of them is allowed, with the effects
that they should have. -/
def Serves : List (PtrheapOp ρ σ) → σ → Ptrheap ρ σ → Prop
  | [], _, _ => True
  | op :: ops, m, H => R.Allowed m H op → ∃ answer m' H',
    R.perform m H op = .ok (answer, m', H') ∧ R.Effect m H answer m' H' op ∧ Serves ops m' H'

variable {R} {m m' : σ} {H : Ptrheap ρ σ}

/-- A pointer is where its record says. -/
theorem Valid.found (valid : R.Valid m H) (told : C.setreccookie.isSome) {ptr : ρ}
    (member : ptr ∈ H.elems) : H.elems[R.cookie m ptr]? = some ptr := by
  obtain ⟨i, there⟩ := List.getElem?_of_mem member
  have inside : i < H.elems.length := (List.getElem?_eq_some_iff.mp there).1
  rw [valid.placed told i inside ptr there]
  exact there

/-- A changed record is that of the pointer at one place. -/
theorem Changed.adjusted {ptr : ρ} (changed : R.Changed m m' H ptr) (valid : R.Valid m H)
    (told : C.setreccookie.isSome) : Adjusted R m m' H (R.cookie m ptr) where
  live := changed.live
  others i apart := by
    rw [values, values]
    cases there : H.elems[i]? with
    | none => rfl
    | some other =>
      have inside : i < H.elems.length := (List.getElem?_eq_some_iff.mp there).1
      have different : other ≠ ptr := by
        rintro rfl
        exact apart (valid.placed told i inside other there).symm
      exact congrArg some (changed.others other (List.mem_of_getElem? there) different)
  cookies := changed.cookies

/-- An operation that is allowed succeeds, and leaves a heap. -/
theorem perform_spec (told : C.setreccookie.isSome) (valid : R.Valid m H) (op : PtrheapOp ρ σ)
    (allowed : R.Allowed m H op) : ∃ answer m' H', R.perform m H op = .ok (answer, m', H') ∧
      R.Effect m H answer m' H' op ∧ R.Valid m' H' := by
  cases op with
  | add ptr appended =>
    cases appended with
    | true =>
      obtain ⟨m', H', added, rest, perm, valid'⟩ := ptrheapAdd_spec valid allowed.1 allowed.2
      refine ⟨.status 0, m', H', ?_, ⟨rfl, rest, perm⟩, valid'⟩
      rw [perform, added]
      rfl
    | false => exact ⟨.status (-1), m, H, rfl, ⟨rfl, rfl, rfl⟩, valid⟩
  | getmin => exact ⟨_, m, H, rfl, ⟨⟨_, rfl, ptrheapGetmin_spec valid⟩, rfl, rfl⟩, valid⟩
  | delete ptr =>
    obtain ⟨m', H', deleted, rest, perm, valid'⟩ :=
      ptrheapDelete_spec valid (valid.found told allowed)
    refine ⟨.nothing, m', H', ?_, ⟨rfl, rest, perm⟩, valid'⟩
    rw [perform, deleted]
    rfl
  | deletemin =>
    have least := ptrheapGetmin_spec valid
    cases first : ptrheapGetmin H with
    | none =>
      rw [first] at least
      exact absurd least allowed
    | some min =>
      rw [first] at least
      obtain ⟨m', H', deleted, rest, perm, valid'⟩ := ptrheapDelete_spec valid first
      refine ⟨.nothing, m', H', ?_, ⟨rfl, rest, min, least, perm⟩, valid'⟩
      rw [perform, ptrheapDeletemin, deleted]
      rfl
  | decrease ptr change =>
    obtain ⟨changed, less⟩ := allowed
    obtain ⟨m', H', corrected, rest, perm, valid'⟩ := ptrheapDecrease_spec valid
      (valid.found told changed.member) (changed.adjusted valid told) less
    refine ⟨.nothing, m', H', ?_, ⟨rfl, rest, perm⟩, valid'⟩
    rw [perform, corrected]
    rfl
  | increase ptr change =>
    obtain ⟨changed, greater⟩ := allowed
    obtain ⟨m', H', corrected, rest, perm, valid'⟩ := ptrheapIncrease_spec valid
      (valid.found told changed.member) (changed.adjusted valid told) greater
    refine ⟨.nothing, m', H', ?_, ⟨rfl, rest, perm⟩, valid'⟩
    rw [perform, corrected]
    rfl
  | increasemin change =>
    obtain ⟨ptr, first, changed, greater⟩ := allowed
    have inside : 0 < H.elems.length := (List.getElem?_eq_some_iff.mp first).1
    have place : R.cookie m ptr = 0 := valid.placed told 0 inside ptr first
    obtain ⟨m', H', corrected, rest, perm, valid'⟩ := ptrheapIncrease_spec valid
      (valid.found told changed.member) (changed.adjusted valid told) greater
    refine ⟨.nothing, m', H', ?_, ⟨rfl, rest, perm⟩, valid'⟩
    rw [place] at corrected
    rw [perform, show ptrheapIncreasemin (change m) H = ptrheapIncrease (change m) H 0 from rfl,
      corrected]
    rfl

/-- Whatever is done with a heap succeeds and has the effect that it should have. -/
theorem serves (told : C.setreccookie.isSome) (valid : R.Valid m H) (ops : List (PtrheapOp ρ σ)) :
    R.Serves ops m H := by
  induction ops generalizing m H with
  | nil => trivial
  | cons op ops ih =>
    intro allowed
    obtain ⟨answer, m', H', performed, effect, valid'⟩ := perform_spec told valid op allowed
    exact ⟨answer, m', H', performed, effect, ih valid'⟩

end PtrheapRecords

/-- A heap that is created with some pointers, and told where to say the places, serves every
sequence of operations. -/
theorem ptrheap_serves {ρ σ τ β : Type} [DecidableEq ρ] [LinearOrder β] {C : PtrheapCallbacks ρ σ}
    (R : PtrheapRecords C τ β) (told : C.setreccookie.isSome) {m : σ} {ptrs : List ρ}
    (live : R.Live (R.rest m) ptrs) (distinct : ptrs.Nodup) :
    ∃ m' H, ptrheapCreate C m ptrs = .ok (m', H) ∧ R.rest m' = R.rest m ∧ H.elems.Perm ptrs ∧
      ∀ ops, R.Serves ops m' H := by
  obtain ⟨m', H, created, rest, perm, valid⟩ :=
    PtrheapRecords.ptrheapCreate_spec (C := C) live distinct
  exact ⟨m', H, created, rest, perm, fun ops => PtrheapRecords.serves told valid ops⟩

section Example

/-- Records in two arrays, of the keys and of the places. -/
abbrev Arrays := (Nat → Nat) × (Nat → Nat)

/-- Compare the keys, and note the places. -/
def arraysCallbacks : PtrheapCallbacks Nat Arrays where
  compar m x y := .ok ((m.1 x : Int) - m.1 y)
  setreccookie := some fun m x rc => .ok (m.1, Function.update m.2 x rc)

/-- The arrays are records. -/
def arraysRecords : PtrheapRecords arraysCallbacks (Nat → Nat) Nat where
  rest m := m.1
  live _ _ := True
  key keys x := keys x
  cookie m := m.2
  compares {m x y} _ _ := ⟨(m.1 x : Int) - m.1 y, rfl, by omega, by omega⟩
  notifies told _ _ _ rc := by
    cases told
    exact ⟨_, rfl, rfl, rfl⟩

/-- Three pointers with keys in descending order are asked for the minimum, and the one with the
middle key and then the least are deleted. -/
theorem ptrheap_serves_three : ∃ m H m1 H1 m2 H2,
    ptrheapCreate arraysCallbacks (fun x => 10 - x, fun _ => 0) [1, 2, 3] = .ok (m, H) ∧
      arraysRecords.rest m = (fun x => 10 - x) ∧ H.elems.Perm [1, 2, 3] ∧
      arraysRecords.Serves [.getmin, .delete 2, .deletemin] m H ∧
      arraysRecords.Allowed m H .getmin ∧
      arraysRecords.perform m H .getmin = .ok (.minimum (some 3), m, H) ∧
      arraysRecords.Allowed m H (.delete 2) ∧
      arraysRecords.perform m H (.delete 2) = .ok (.nothing, m1, H1) ∧
      arraysRecords.Allowed m1 H1 .deletemin ∧
      arraysRecords.perform m1 H1 .deletemin = .ok (.nothing, m2, H2) ∧ H2.elems = [1] := by
  obtain ⟨m, H, created, rest, perm, serves⟩ := ptrheap_serves arraysRecords rfl
    (m := (fun x => 10 - x, fun _ => 0)) (fun _ _ => trivial)
    (by decide : ([1, 2, 3] : List Nat).Nodup)
  have member : 2 ∈ H.elems := perm.mem_iff.mpr (by decide)
  cases created
  exact ⟨_, _, _, _, _, _, rfl, rest, perm, serves _, trivial, rfl, member, rfl,
    List.cons_ne_nil _ _, rfl, rfl⟩

end Example

end Tarsnap.Datastruct
