import Mathlib.Data.List.Basic
import Mathlib.Data.List.Nodup
import Mathlib.Logic.Function.Basic

/-!
# Doubly linked lists

The nodes of a doubly linked list point to their neighbours, and two pointers lead to the first and
the last node. The links represent a list of nodes if following them one way gives the list and
following them the other way gives it backwards. Unlinking a node and linking one at the front
change as many pointers as they must, and keep this.
-/

namespace Tarsnap.Lib

section Chains

variable {ι : Type}

/-- Each node of a list points to the one after it, and the last one to a target. -/
def Chained (pointer : ι → Option ι) (target : Option ι) : List ι → Prop
  | [] => True
  | node :: rest => pointer node = rest.head?.or target ∧ Chained pointer target rest

/-- A chain of two lists. -/
theorem chained_append {pointer : ι → Option ι} {target : Option ι} {before after : List ι} :
    Chained pointer target (before ++ after) ↔
      Chained pointer (after.head?.or target) before ∧ Chained pointer target after := by
  induction before with
  | nil => simp [Chained]
  | cons node rest ih =>
    have next : (rest ++ after).head?.or target = rest.head?.or (after.head?.or target) := by
      rw [List.head?_append, Option.or_assoc]
    rw [List.cons_append, Chained, Chained, ih, next, and_assoc]

/-- Pointers of other nodes do not matter. -/
theorem Chained.congr {pointer pointer' : ι → Option ι} {target : Option ι} {order : List ι}
    (chained : Chained pointer target order) (same : ∀ node ∈ order, pointer' node = pointer node) :
    Chained pointer' target order := by
  induction order with
  | nil => trivial
  | cons node rest ih =>
    obtain ⟨next, later⟩ := chained
    have here : pointer' node = pointer node := same node List.mem_cons_self
    exact ⟨here.trans next, ih later fun other member => same other (List.mem_cons_of_mem _ member)⟩

variable [DecidableEq ι]

/-- Change the pointer of a node, if there is one. -/
def relink (pointer : ι → Option ι) (node value : Option ι) : ι → Option ι :=
  match node with
  | some node => Function.update pointer node value
  | none => pointer

/-- The pointers of other nodes stay. -/
theorem relink_of_ne {pointer : ι → Option ι} {node value : Option ι} {other : ι}
    (apart : node ≠ some other) : relink pointer node value other = pointer other := by
  cases node with
  | none => rfl
  | some node =>
    have different : other ≠ node := fun same => apart (congrArg some same.symm)
    exact Function.update_of_ne different _ _

/-- Changing the pointer of a node that is not in the chain. -/
theorem Chained.relink_of_not_mem {pointer : ι → Option ι} {target node value : Option ι}
    {order : List ι} (chained : Chained pointer target order)
    (fresh : ∀ other ∈ order, node ≠ some other) :
    Chained (relink pointer node value) target order :=
  chained.congr fun other member => relink_of_ne (fresh other member)

/-- Changing the pointer of the last node changes the target. -/
theorem Chained.retarget {pointer : ι → Option ι} {target : Option ι} {order : List ι}
    (chained : Chained pointer target order) (nodup : order.Nodup) (value : Option ι) :
    Chained (relink pointer order.getLast? value) value order := by
  induction order with
  | nil => trivial
  | cons node rest ih =>
    obtain ⟨next, later⟩ := chained
    obtain ⟨fresh, nodupRest⟩ := List.nodup_cons.mp nodup
    cases rest with
    | nil => exact ⟨Function.update_self _ _ _, trivial⟩
    | cons second rest =>
      have last : (node :: second :: rest).getLast? = (second :: rest).getLast? :=
        List.getLast?_cons_cons
      have apart : (second :: rest).getLast? ≠ some node := by
        intro same
        exact fresh (List.mem_of_getLast? same)
      rw [last]
      refine ⟨?_, ih later nodupRest⟩
      rw [relink_of_ne apart, next]
      rfl

end Chains

/-- The pointers of a doubly linked list. -/
structure Links (ι : Type) where
  /-- The node after a node. -/
  next : ι → Option ι
  /-- The node before a node. -/
  prev : ι → Option ι
  /-- The first node. -/
  first : Option ι
  /-- The last node. -/
  last : Option ι

namespace Links

variable {ι : Type}

/-- The links represent a list of nodes. -/
structure Lists (L : Links ι) (order : List ι) : Prop where
  /-- No node is linked twice. -/
  nodup : order.Nodup
  /-- The first node. -/
  first : L.first = order.head?
  /-- The last node. -/
  last : L.last = order.getLast?
  /-- Following the links one way gives the list. -/
  next : Chained L.next none order
  /-- Following the links the other way gives it backwards. -/
  prev : Chained L.prev none order.reverse

/-- Links without nodes. -/
def empty : Links ι := ⟨fun _ => none, fun _ => none, none, none⟩

/-- Links without nodes represent the empty list. -/
theorem empty_lists : (empty : Links ι).Lists [] := ⟨List.nodup_nil, rfl, rfl, trivial, trivial⟩

variable {L : Links ι} {before after order : List ι} {node : ι}

/-- The neighbours of a node. -/
theorem Lists.neighbours (lists : L.Lists (before ++ node :: after)) :
    L.next node = after.head? ∧ L.prev node = before.getLast? := by
  have prev := lists.prev
  rw [List.reverse_append, List.reverse_cons, List.append_assoc, List.singleton_append] at prev
  have there := (chained_append.mp lists.next).2.1
  have back := (chained_append.mp prev).2.1
  rw [Option.or_none] at there back
  rw [List.head?_reverse] at back
  exact ⟨there, back⟩

variable [DecidableEq ι]

/-- Take a node out: its neighbours point to each other, and it points to nothing. -/
def unlink (L : Links ι) (node : ι) : Links ι where
  next := Function.update (relink L.next (L.prev node) (L.next node)) node none
  prev := Function.update (relink L.prev (L.next node) (L.prev node)) node none
  first := if L.prev node = none then L.next node else L.first
  last := if L.next node = none then L.prev node else L.last

/-- Put a node before the first one. -/
def pushFront (L : Links ι) (node : ι) : Links ι where
  next := Function.update L.next node L.first
  prev := relink (Function.update L.prev node none) L.first (some node)
  first := some node
  last := if L.last = none then some node else L.last

/-- A chain around a node stays one if the node is left out. -/
theorem chained_unlink {pointer : ι → Option ι} (nodup : (before ++ node :: after).Nodup)
    (chained : Chained pointer none (before ++ node :: after)) :
    Chained (Function.update (relink pointer before.getLast? (pointer node)) node none) none
      (before ++ after) := by
  obtain ⟨nodupBefore, nodupAfter, disjoint⟩ := List.nodup_append.mp nodup
  obtain ⟨freshAfter, _⟩ := List.nodup_cons.mp nodupAfter
  obtain ⟨upTo, next, rest⟩ := chained_append.mp chained
  rw [Option.or_none] at next
  have start : Chained (relink pointer before.getLast? (pointer node)) (pointer node) before :=
    upTo.retarget nodupBefore _
  have stop : Chained (relink pointer before.getLast? (pointer node)) none after := by
    apply rest.relink_of_not_mem
    intro other member same
    exact disjoint other (List.mem_of_getLast? same) other (List.mem_cons_of_mem _ member) rfl
  rw [chained_append, Option.or_none, ← next]
  refine ⟨start.congr ?_, stop.congr ?_⟩
  · intro other member
    exact Function.update_of_ne (disjoint other member node List.mem_cons_self) _ _
  · intro other member
    have different : other ≠ node := fun same => freshAfter (same ▸ member)
    exact Function.update_of_ne different _ _

/-- The links after a node is taken out represent the rest of the list. -/
theorem Lists.unlink (lists : L.Lists (before ++ node :: after)) :
    (L.unlink node).Lists (before ++ after) := by
  obtain ⟨next, prev⟩ := lists.neighbours
  have rest : (before ++ after).Nodup := lists.nodup.sublist
    ((List.sublist_cons_self node after).append_left before)
  have backwards : (before ++ node :: after).reverse = after.reverse ++ node :: before.reverse := by
    rw [List.reverse_append, List.reverse_cons, List.append_assoc, List.singleton_append]
  have nodup := List.nodup_reverse.mpr lists.nodup
  have chained := lists.prev
  rw [backwards] at nodup chained
  refine ⟨rest, ?_, ?_, ?_, ?_⟩
  · change (if L.prev node = none then L.next node else L.first) = _
    rw [prev, next, lists.first]
    cases before with
    | nil => rfl
    | cons head tail => simp
  · change (if L.next node = none then L.prev node else L.last) = _
    rw [prev, next, lists.last]
    cases after with
    | nil => simp
    | cons head tail => simp [List.getLast?_append]
  · change Chained (Function.update (relink L.next (L.prev node) (L.next node)) node none) none _
    rw [prev]
    exact chained_unlink lists.nodup lists.next
  · change Chained (Function.update (relink L.prev (L.next node) (L.prev node)) node none) none _
    rw [next, List.reverse_append, ← List.getLast?_reverse]
    exact chained_unlink nodup chained

/-- The links after a node is put before the first one represent the longer list. -/
theorem Lists.pushFront (lists : L.Lists order) (fresh : node ∉ order) :
    (L.pushFront node).Lists (node :: order) := by
  have away : ∀ other ∈ order, other ≠ node := fun other member same => fresh (same ▸ member)
  refine ⟨List.nodup_cons.mpr ⟨fresh, lists.nodup⟩, rfl, ?_, ?_, ?_⟩
  · change (if L.last = none then some node else L.last) = _
    rw [lists.last]
    cases order with
    | nil => rfl
    | cons head tail => simp [List.getLast?_cons_cons]
  · refine ⟨?_, lists.next.congr fun other member => Function.update_of_ne (away other member) _ _⟩
    rw [Option.or_none, ← lists.first]
    exact Function.update_self _ _ _
  · change Chained (relink (Function.update L.prev node none) L.first (some node)) none _
    rw [List.reverse_cons, chained_append]
    have old : Chained (Function.update L.prev node none) none order.reverse :=
      lists.prev.congr fun other member =>
        Function.update_of_ne (away other (List.mem_reverse.mp member)) _ _
    have first : L.first = order.reverse.getLast? := by rw [lists.first, List.getLast?_reverse]
    have apart : L.first ≠ some node := by
      rw [lists.first]
      intro same
      exact fresh (List.mem_of_head? same)
    refine ⟨?_, ?_, trivial⟩
    · rw [first]
      exact old.retarget (List.nodup_reverse.mpr lists.nodup) (some node)
    · rw [relink_of_ne apart]
      exact Function.update_self _ _ _

end Links

end Tarsnap.Lib
