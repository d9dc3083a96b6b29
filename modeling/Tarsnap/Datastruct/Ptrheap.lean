import Tarsnap.Lib.BinaryHeap
import Tarsnap.Lib.Heap

/-!
# Pointer heaps

A heap of pointers, which a callback compares. Another callback, if there is one, is told where a
pointer is in the heap each time this changes, so that the pointer can be deleted, or its place be
corrected, when it is not the minimum. The callbacks read and write the memory of their owner.
-/

open Tarsnap.Lib

namespace Tarsnap.Datastruct

/-- A wrong use of a heap. -/
inductive PtrheapFault where
  /-- A place outside of the heap is read or written. -/
  | outOfBounds
  /-- A loop does not end. -/
  | diverges
  /-- A callback fails. -/
  | callback (fault : HeapFault)
deriving DecidableEq, Repr

/-- The functions that a heap is created with. -/
structure PtrheapCallbacks (ρ σ : Type) where
  /-- Compare what two pointers stand for. -/
  compar : σ → ρ → ρ → Except HeapFault Int
  /-- Be told the place of a pointer. -/
  setreccookie : Option (σ → ρ → Nat → Except HeapFault σ)

/-- A pointer heap; the number of its elements is the length of the list. -/
structure Ptrheap (ρ σ : Type) where
  /-- The callbacks. -/
  callbacks : PtrheapCallbacks ρ σ
  /-- The pointers. -/
  elems : List ρ

namespace Ptrheap

variable {ρ σ : Type}

/-- Read a place. -/
def ptrlistGet (elems : List ρ) (i : Nat) : Except PtrheapFault ρ :=
  match elems[i]? with
  | some ptr => .ok ptr
  | none => .error .outOfBounds

/-- Write a place. -/
def ptrlistSet (elems : List ρ) (i : Nat) (ptr : ρ) : Except PtrheapFault (List ρ) :=
  if i < elems.length then .ok (elems.set i ptr) else .error .outOfBounds

section Sift

variable (C : PtrheapCallbacks ρ σ)

/-- Compare what is at two places. -/
def comparAt (m : σ) (elems : List ρ) (i j : Nat) : Except PtrheapFault Int := do
  let x ← ptrlistGet elems i
  let y ← ptrlistGet elems j
  (C.compar m x y).mapError .callback

/-- Tell the owner of a pointer where it is. -/
def notify (m : σ) (ptr : ρ) (rc : Nat) : Except PtrheapFault σ :=
  match C.setreccookie with
  | none => .ok m
  | some setreccookie => (setreccookie m ptr rc).mapError .callback

/-- Swap two elements and notify about the moved elements. -/
def swap (m : σ) (elems : List ρ) (i j : Nat) : Except PtrheapFault (σ × List ρ) := do
  let tmp ← ptrlistGet elems i
  let moved ← ptrlistGet elems j
  let elems := (elems.set i moved).set j tmp
  let m ← notify C m moved i
  let m ← notify C m tmp j
  return (m, elems)

/-- Iterate up the tree. -/
def heapifyupLoop : Nat → σ → List ρ → Nat → Except PtrheapFault (σ × List ρ)
  | 0, _, _, _ => .error .diverges
  | fuel + 1, m, elems, i =>
    if i = 0 then .ok (m, elems)
    else do
      if (← comparAt C m elems i ((i - 1) / 2)) ≥ 0 then return (m, elems)
      else
        let (m, elems) ← swap C m elems i ((i - 1) / 2)
        heapifyupLoop fuel m elems ((i - 1) / 2)

/-- Sift up an element. -/
def heapifyup (m : σ) (elems : List ρ) (i : Nat) : Except PtrheapFault (σ × List ρ) :=
  heapifyupLoop C (i + 1) m elems i

/-- The place of the lesser of two elements, if the second one is there. -/
def lesser (m : σ) (elems : List ρ) (N min child : Nat) : Except PtrheapFault Nat :=
  if child < N then do
    return if (← comparAt C m elems min child) > 0 then child else min
  else .ok min

/-- Iterate down the tree. -/
def heapifyLoop (N : Nat) : Nat → σ → List ρ → Nat → Except PtrheapFault (σ × List ρ)
  | 0, _, _, _ => .error .diverges
  | fuel + 1, m, elems, i => do
    let min ← lesser C m elems N i (2 * i + 1)
    let min ← lesser C m elems N min (2 * i + 2)
    if min = i then return (m, elems)
    else
      let (m, elems) ← swap C m elems min i
      heapifyLoop N fuel m elems min

/-- Sift down an element. -/
def heapify (m : σ) (elems : List ρ) (i N : Nat) : Except PtrheapFault (σ × List ρ) :=
  heapifyLoop C N (N - i + 1) m elems i

/-- Turn elements into a heap, beginning with the last one. -/
def buildLoop (m : σ) (N : Nat) : Nat → List ρ → Except PtrheapFault (List ρ)
  | 0, elems => .ok elems
  | i + 1, elems => do
    let (_, elems) ← heapify { C with setreccookie := none } m elems i N
    buildLoop m N i elems

/-- Advise the caller about the record cookies. -/
def notifyLoop : σ → List ρ → Nat → Except PtrheapFault σ
  | m, [], _ => .ok m
  | m, ptr :: elems, i => do
    let m ← notify C m ptr i
    notifyLoop m elems (i + 1)

end Sift

end Ptrheap

open Ptrheap

variable {ρ σ : Type}

/-- Create a heap with some pointers; the callbacks are not told of the places before the end. -/
def ptrheapCreate (C : PtrheapCallbacks ρ σ) (m : σ) (ptrs : List ρ) :
    Except PtrheapFault (σ × Ptrheap ρ σ) := do
  let elems ← buildLoop C m ptrs.length ptrs.length ptrs
  let m ← notifyLoop C m elems 0
  return (m, ⟨C, elems⟩)

/-- Create an empty heap. -/
def ptrheapInit (C : PtrheapCallbacks ρ σ) (m : σ) : Except PtrheapFault (σ × Ptrheap ρ σ) :=
  ptrheapCreate C m []

/-- Add a pointer, unless there is no memory for it. -/
def ptrheapAdd (m : σ) (H : Ptrheap ρ σ) (ptr : ρ) (appended : Bool) :
    Except PtrheapFault (Int × σ × Ptrheap ρ σ) :=
  if appended then do
    let elems := H.elems ++ [ptr]
    let m ← notify H.callbacks m ptr (elems.length - 1)
    let (m, elems) ← heapifyup H.callbacks m elems (elems.length - 1)
    return (0, m, { H with elems })
  else .ok (-1, m, H)

/-- The minimum pointer, if there is one. -/
def ptrheapGetmin (H : Ptrheap ρ σ) : Option ρ := H.elems[0]?

/-- Is an element too small to be in its place? -/
def isTooSmall (m : σ) (H : Ptrheap ρ σ) (elems : List ρ) (rc : Nat) :
    Except PtrheapFault Bool :=
  if 0 < rc then do
    return decide ((← comparAt H.callbacks m elems rc ((rc - 1) / 2)) < 0)
  else return false

/-- Move the element that replaces a deleted one to where it belongs. -/
def replaceDeleted (m : σ) (H : Ptrheap ρ σ) (elems : List ρ) (rc : Nat) :
    Except PtrheapFault (σ × List ρ) := do
  if ← isTooSmall m H elems rc then do
    let (m, elems) ← swap H.callbacks m elems rc ((rc - 1) / 2)
    heapifyup H.callbacks m elems ((rc - 1) / 2)
  else heapify H.callbacks m elems rc H.elems.length

/-- Delete the pointer at a place. -/
def ptrheapDelete (m : σ) (H : Ptrheap ρ σ) (rc : Nat) :
    Except PtrheapFault (σ × Ptrheap ρ σ) := do
  if H.elems.length = 0 then .error .outOfBounds
  else if rc ≠ H.elems.length - 1 then do
    let ptr ← ptrlistGet H.elems (H.elems.length - 1)
    let elems ← ptrlistSet H.elems rc ptr
    let m ← notify H.callbacks m ptr rc
    let (m, elems) ← replaceDeleted m H elems rc
    return (m, { H with elems := elems.dropLast })
  else return (m, { H with elems := H.elems.dropLast })

/-- Delete the minimum. -/
def ptrheapDeletemin (m : σ) (H : Ptrheap ρ σ) : Except PtrheapFault (σ × Ptrheap ρ σ) :=
  ptrheapDelete m H 0

/-- The element at a place has decreased. -/
def ptrheapDecrease (m : σ) (H : Ptrheap ρ σ) (rc : Nat) :
    Except PtrheapFault (σ × Ptrheap ρ σ) := do
  let (m, elems) ← heapifyup H.callbacks m H.elems rc
  return (m, { H with elems })

/-- The element at a place has increased. -/
def ptrheapIncrease (m : σ) (H : Ptrheap ρ σ) (rc : Nat) :
    Except PtrheapFault (σ × Ptrheap ρ σ) := do
  let (m, elems) ← heapify H.callbacks m H.elems rc H.elems.length
  return (m, { H with elems })

/-- The minimum has increased. -/
def ptrheapIncreasemin (m : σ) (H : Ptrheap ρ σ) : Except PtrheapFault (σ × Ptrheap ρ σ) := do
  let (m, elems) ← heapify H.callbacks m H.elems 0 H.elems.length
  return (m, { H with elems })

end Tarsnap.Datastruct
