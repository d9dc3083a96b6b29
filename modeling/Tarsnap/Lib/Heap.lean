import Mathlib.Logic.Function.Basic
import Tarsnap.Lib.Except

/-!
# A heap with failing allocations

Objects live at addresses that are never used again. Reading or writing an object that is not there
and freeing it are faults. Whether the coming allocations, and other steps of the program that may
fail, do so is decided in advance. A part of a program is described by its frame: the old objects
that it touched, all others being the same as before.
-/

namespace Tarsnap.Lib

/-- A wrong use of memory. -/
inductive HeapFault where
  /-- An object is read or written that is not there. -/
  | useAfterFree
  /-- An object is freed that is not there. -/
  | doubleFree
  /-- An object is taken for one of another kind. -/
  | mistaken
  /-- Memory is accessed outside of an object. -/
  | outside
deriving DecidableEq, Repr

/-- The objects of a program. -/
structure Heap (α : Type) where
  /-- What is at an address. -/
  objects : Nat → Option α
  /-- The next address. -/
  next : Nat
  /-- Whether the next steps that may fail do so; the steps after these succeed. -/
  fates : List Bool
  /-- Nothing is at an address that was not used. -/
  unused : ∀ id, next ≤ id → objects id = none

namespace Heap

variable {α : Type}

/-- Nothing is allocated. -/
def empty (fates : List Bool) : Heap α := ⟨fun _ => none, 0, fates, fun _ _ => rfl⟩

/-- A step that may fail, and whether it does. -/
def attempt (h : Heap α) : Bool × Heap α :=
  (h.fates.headD false, { h with fates := h.fates.tail })

/-- Put an object at the next address. -/
def push (h : Heap α) (object : α) : Heap α where
  objects := Function.update h.objects h.next (some object)
  next := h.next + 1
  fates := h.fates
  unused id above := by
    rw [Function.update_of_ne (by omega)]
    exact h.unused id (by omega)

/-- Allocate an object, unless this fails. -/
def alloc (h : Heap α) (object : α) : Option Nat × Heap α :=
  if h.attempt.1 then (none, h.attempt.2) else (some h.next, h.attempt.2.push object)

/-- Change what is at a used address. -/
def change (h : Heap α) (id : Nat) (value : Option α) : Heap α :=
  if used : id < h.next then
    { h with
      objects := Function.update h.objects id value
      unused := fun other above => by
        rw [Function.update_of_ne (by omega)]
        exact h.unused other above }
  else h

/-- Read an object. -/
def read (h : Heap α) (id : Nat) : Except HeapFault α :=
  match h.objects id with
  | some object => .ok object
  | none => .error .useAfterFree

/-- Overwrite an object. -/
def write (h : Heap α) (id : Nat) (object : α) : Except HeapFault (Heap α) :=
  match h.objects id with
  | some _ => .ok (h.change id (some object))
  | none => .error .useAfterFree

/-- Free an object; freeing a null pointer does nothing. -/
def free (h : Heap α) : Option Nat → Except HeapFault (Heap α)
  | none => .ok h
  | some id =>
    match h.objects id with
    | some _ => .ok (h.change id none)
    | none => .error .doubleFree

/-- What is at an address is not beyond the used ones. -/
theorem lt_next {h : Heap α} {id : Nat} {object : α} (live : h.objects id = some object) :
    id < h.next := by
  by_contra above
  rw [h.unused id (by omega)] at live
  exact nomatch live

/-- Changing an object that is there. -/
theorem change_live {h : Heap α} {id : Nat} {object : α} (live : h.objects id = some object)
    (value : Option α) : (h.change id value).objects = Function.update h.objects id value ∧
      (h.change id value).next = h.next ∧ (h.change id value).fates = h.fates := by
  rw [change, dif_pos (lt_next live)]
  exact ⟨rfl, rfl, rfl⟩

/-- A part of a program goes on from one heap to another, and of the old objects touches only
these. -/
structure Frame (touched : Nat → Prop) (before after : Heap α) : Prop where
  /-- Addresses are used up. -/
  next : before.next ≤ after.next
  /-- The other objects are the same. -/
  same : ∀ id < before.next, ¬touched id → after.objects id = before.objects id

variable {touched touched' : Nat → Prop} {h h' h'' : Heap α}

/-- Doing nothing touches nothing. -/
theorem Frame.refl (h : Heap α) : Frame touched h h := ⟨Nat.le_refl _, fun _ _ _ => rfl⟩

/-- One part after the other; what the second one touches is new or among what may be touched. -/
theorem Frame.trans (left : Frame touched h h') (right : Frame touched' h' h'')
    (within : ∀ id < h.next, touched' id → touched id) : Frame touched h h'' where
  next := Nat.le_trans left.next right.next
  same id old other := by
    have inside : id < h'.next := Nat.lt_of_lt_of_le old left.next
    rw [right.same id inside (fun touch => other (within id old touch)), left.same id old other]

/-- An old object that is not touched is still there. -/
theorem Frame.keeps (frame : Frame touched h h') {id : Nat} {object : α}
    (live : h.objects id = some object) (other : ¬touched id) :
    h'.objects id = some object := by
  rw [frame.same id (lt_next live) other]
  exact live

/-- A step that may fail changes no object. -/
theorem attempt_frame (h : Heap α) : Frame touched h h.attempt.2 :=
  ⟨Nat.le_refl _, fun _ _ _ => rfl⟩

/-- An allocation touches no old object, and fails or gives a new address with the object. -/
theorem alloc_spec (h : Heap α) (object : α) :
    ∃ pointer h', h.alloc object = (pointer, h') ∧ Frame (fun _ => False) h h' ∧
      (pointer = none ∨ pointer = some h.next ∧ h'.objects h.next = some object) := by
  unfold alloc
  split
  · exact ⟨none, _, rfl, attempt_frame h, .inl rfl⟩
  · refine ⟨some h.next, _, rfl, ⟨Nat.le_succ _, fun id old _ => ?_⟩, .inr ⟨rfl, ?_⟩⟩
    · exact Function.update_of_ne (Nat.ne_of_lt old) _ _
    · exact Function.update_self _ _ _

/-- Whether an allocation fails is decided in advance. -/
theorem alloc_fates {object : α} {pointer : Option Nat} (alloc : h.alloc object = (pointer, h')) :
    h'.fates = h.fates.tail ∧ (pointer = none ↔ h.fates.headD false = true) := by
  unfold Heap.alloc at alloc
  split at alloc
  · rename_i fails
    cases alloc
    exact ⟨rfl, fun _ => fails, fun _ => rfl⟩
  · rename_i succeeds
    cases alloc
    exact ⟨rfl, (fun absurdity => nomatch absurdity), fun fails => absurd fails succeeds⟩

/-- An object that is there is overwritten. -/
theorem write_ok {id : Nat} {old : α} (live : h.objects id = some old) (object : α) :
    ∃ h', h.write id object = .ok h' ∧ h'.objects = Function.update h.objects id (some object) ∧
      h'.next = h.next ∧ h'.fates = h.fates := by
  refine ⟨h.change id (some object), ?_, change_live live (some object)⟩
  rw [write, live]

/-- An object that is there is freed. -/
theorem free_ok {id : Nat} {old : α} (live : h.objects id = some old) :
    ∃ h', h.free (some id) = .ok h' ∧ h'.objects = Function.update h.objects id none ∧
      h'.next = h.next ∧ h'.fates = h.fates := by
  refine ⟨h.change id none, ?_, change_live live none⟩
  rw [free, live]

/-- An object that is there is read. -/
theorem read_ok {id : Nat} {object : α} (live : h.objects id = some object) :
    h.read id = .ok object := by
  unfold read
  rw [live]

/-- Changing one object touches that one. -/
theorem Frame.update {id : Nat} {value : Option α} (next : h'.next = h.next)
    (objects : h'.objects = Function.update h.objects id value) (touch : touched id) :
    Frame touched h h' where
  next := Nat.le_of_eq next.symm
  same other _ untouched := by
    rw [objects, Function.update_of_ne]
    rintro rfl
    exact untouched touch

end Heap

end Tarsnap.Lib
