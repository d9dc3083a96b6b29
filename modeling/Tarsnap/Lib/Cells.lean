import Tarsnap.Lib.Except

/-!
# Cells of a buffer

The cells of a buffer are bytes or uninitialized. Touching a cell outside the buffer and reading an
uninitialized one are faults, and so are the assertions that fail and the loops that do not end. A
buffer that begins with some bytes is read, overwritten and moved by what it begins with.
-/

namespace Tarsnap.Lib

/-- A fault of the program. -/
inductive Fault where
  /-- A cell outside the buffer is read or written. -/
  | outOfBounds
  /-- A cell is read before it is written. -/
  | uninitialized
  /-- An assertion fails. -/
  | aborted
  /-- A loop does not end. -/
  | diverges
deriving DecidableEq, Repr

/-- The cells of a buffer. -/
abbrev Cells := List (Option UInt8)

/-- Read a cell. -/
def load (buff : Cells) (position : Nat) : Except Fault UInt8 :=
  match buff[position]? with
  | none => .error .outOfBounds
  | some none => .error .uninitialized
  | some (some byte) => .ok byte

/-- Write a cell. -/
def store (buff : Cells) (position : Nat) (byte : UInt8) : Except Fault Cells :=
  if position < buff.length then .ok (buff.set position (some byte)) else .error .outOfBounds

/-- Write cells one after the other. -/
def storeBytes (buff : Cells) (position : Nat) (bytes : List UInt8) : Except Fault Cells :=
  if position + bytes.length ≤ buff.length then
    .ok (buff.take position ++ bytes.map some ++ buff.drop (position + bytes.length))
  else .error .outOfBounds

/-- Move so many cells from a position to the beginning. -/
def moveCells (buff : Cells) (position count : Nat) : Except Fault Cells :=
  if position + count ≤ buff.length then .ok ((buff.drop position).take count ++ buff.drop count)
  else .error .outOfBounds

/-- The bytes in some cells. -/
def initialized : Cells → Except Fault (List UInt8)
  | [] => .ok []
  | none :: _ => .error .uninitialized
  | some byte :: cells => do
    let bytes ← initialized cells
    return byte :: bytes

/-- Read so many cells from a position on. -/
def loadBytes (buff : Cells) (position count : Nat) : Except Fault (List UInt8) :=
  if position + count ≤ buff.length then initialized ((buff.drop position).take count)
  else .error .outOfBounds

/-- The string that starts at the first of some cells. -/
def cString : Cells → Except Fault (List UInt8)
  | [] => .error .outOfBounds
  | none :: _ => .error .uninitialized
  | some byte :: cells =>
    if byte = 0 then .ok []
    else do
      let line ← cString cells
      return byte :: line

section Positions

/-- Reading a cell by what is in front of it. -/
theorem load_at {front back : Cells} {byte : UInt8} {position : Nat}
    (here : front.length = position) : load (front ++ some byte :: back) position = .ok byte := by
  subst here
  rw [load, List.getElem?_append_right (Nat.le_refl _), Nat.sub_self, List.getElem?_cons_zero]

/-- Writing a cell by what is in front of it. -/
theorem store_at {front back : Cells} {cell : Option UInt8} {byte : UInt8} {position : Nat}
    (here : front.length = position) :
    store (front ++ cell :: back) position byte = .ok (front ++ some byte :: back) := by
  subst here
  have inside : front.length < (front ++ cell :: back).length := by
    rw [List.length_append, List.length_cons]
    omega
  rw [store, if_pos inside, List.set_append_right _ _ (Nat.le_refl _), Nat.sub_self,
    List.set_cons_zero]

/-- The string of a line behind which a zero is stored. -/
theorem cString_line {line : List UInt8} {cells : Cells} (clean : 0 ∉ line) :
    cString (line.map some ++ some 0 :: cells) = .ok line := by
  induction line with
  | nil => rfl
  | cons byte line ih =>
    rw [List.mem_cons, not_or] at clean
    rw [List.map_cons, List.cons_append, cString, if_neg (Ne.symm clean.1), ih clean.2, ok_bind,
      pure_eq_ok]

/-- A zero behind some bytes ends a string. -/
theorem cString_ends {line : List UInt8} {buff : Cells} (holds : (line ++ [0]).map some <+: buff) :
    ∃ name, cString buff = .ok name := by
  obtain ⟨back, rfl⟩ := holds
  induction line with
  | nil => exact ⟨[], rfl⟩
  | cons byte line ih =>
    obtain ⟨name, ended⟩ := ih
    rw [List.cons_append, List.map_cons, List.cons_append, cString]
    by_cases zero : byte = 0
    · exact ⟨[], if_pos zero⟩
    · rw [if_neg zero, ended]
      exact ⟨byte :: name, rfl⟩

/-- The string at the beginning of a buffer. -/
theorem cString_front {line : List UInt8} {buff : Cells} (clean : 0 ∉ line)
    (holds : (line ++ [0]).map some <+: buff) : cString buff = .ok line := by
  obtain ⟨back, rfl⟩ := holds
  rw [List.map_append, List.append_assoc]
  exact cString_line clean

end Positions

section Beginnings

variable {front old new behind : List UInt8} {buff : Cells}

/-- Cells that were written have their bytes. -/
theorem initialized_map (bytes : List UInt8) : initialized (bytes.map some) = .ok bytes := by
  induction bytes with
  | nil => rfl
  | cons byte bytes ih => rw [List.map_cons, initialized, ih, ok_bind, pure_eq_ok]

/-- What is behind some bytes at the beginning of a buffer. -/
theorem drop_front (back : Cells) :
    ((front ++ behind).map some ++ back).drop front.length = behind.map some ++ back := by
  rw [List.map_append, List.append_assoc]
  exact List.drop_left' (List.length_map some)

/-- The bytes at the beginning of a buffer. -/
theorem take_front (back : Cells) : (front.map some ++ back).take front.length = front.map some :=
  List.take_left' (List.length_map some)

/-- Reading one cell at the beginning of a buffer. -/
theorem load_front {position : Nat} {byte : UInt8} (holds : front.map some <+: buff)
    (here : front[position]? = some byte) : load buff position = .ok byte := by
  obtain ⟨back, rfl⟩ := holds
  have inside : position < (front.map some : Cells).length := by
    rw [List.length_map]
    exact (List.getElem?_eq_some_iff.mp here).1
  rw [load, List.getElem?_append_left inside, List.getElem?_map, here]
  rfl

/-- Reading what is at the beginning of a buffer. -/
theorem loadBytes_front (holds : (front ++ behind).map some <+: buff) :
    loadBytes buff 0 front.length = .ok front := by
  obtain ⟨back, rfl⟩ := holds
  have inside : 0 + front.length ≤ ((front ++ behind).map some ++ back).length := by
    rw [List.length_append, List.length_map, List.length_append]
    omega
  rw [loadBytes, if_pos inside, List.drop_zero, List.map_append, List.append_assoc, take_front,
    initialized_map]

/-- Reading what is behind the beginning of a buffer. -/
theorem loadBytes_behind (holds : (front ++ (old ++ behind)).map some <+: buff) :
    loadBytes buff front.length old.length = .ok old := by
  obtain ⟨back, rfl⟩ := holds
  have inside : front.length + old.length ≤
      ((front ++ (old ++ behind)).map some ++ back).length := by
    rw [List.length_append, List.length_map, List.length_append, List.length_append]
    omega
  rw [loadBytes, if_pos inside, drop_front, List.map_append, List.append_assoc, take_front,
    initialized_map]

/-- Writing over uninitialized cells behind the beginning of a buffer. -/
theorem storeBytes_behind (holds : front.map some <+: buff)
    (room : front.length + new.length ≤ buff.length) :
    ∃ buff', storeBytes buff front.length new = .ok buff' ∧ buff'.length = buff.length ∧
      (front ++ new).map some <+: buff' := by
  refine ⟨_, by rw [storeBytes, if_pos room], ?_, ?_⟩
  · rw [List.length_append, List.length_append, List.length_take, List.length_map,
      List.length_drop]
    omega
  · have kept : buff.take front.length = front.map some := by
      obtain ⟨back, rfl⟩ := holds
      exact take_front back
    rw [kept, ← List.map_append]
    exact List.prefix_append _ _

/-- Writing one cell behind the beginning of a buffer. -/
theorem store_behind {byte : UInt8} (holds : front.map some <+: buff)
    (room : front.length < buff.length) :
    ∃ buff', store buff front.length byte = .ok buff' ∧ buff'.length = buff.length ∧
      (front ++ [byte]).map some <+: buff' := by
  refine ⟨_, by rw [store, if_pos room], List.length_set, ?_⟩
  obtain ⟨back, rfl⟩ := holds
  cases back with
  | nil =>
    rw [List.append_nil, List.length_map] at room
    exact absurd room (Nat.lt_irrefl _)
  | cons cell back =>
    have here : front.length = (front.map some : Cells).length := (List.length_map some).symm
    rw [here, List.set_append_right _ _ (Nat.le_refl _), Nat.sub_self, List.set_cons_zero,
      List.map_append]
    exact ⟨back, List.append_assoc _ _ _⟩

/-- Writing over what is at the beginning of a buffer. -/
theorem storeBytes_over (holds : (old ++ behind).map some <+: buff)
    (lengths : new.length = old.length) :
    ∃ buff', storeBytes buff 0 new = .ok buff' ∧ buff'.length = buff.length ∧
      (new ++ behind).map some <+: buff' := by
  obtain ⟨back, rfl⟩ := holds
  have room : 0 + new.length ≤ ((old ++ behind).map some ++ back).length := by
    rw [List.length_append, List.length_map, List.length_append]
    omega
  have dropped : ((old ++ behind).map some ++ back).drop (0 + new.length) =
      behind.map some ++ back := by
    rw [Nat.zero_add, lengths]
    exact drop_front back
  refine ⟨_, by rw [storeBytes, if_pos room], ?_, ?_⟩
  · rw [dropped]
    simp only [List.length_append, List.length_take, List.length_map]
    omega
  · rw [dropped, List.take_zero, List.nil_append, ← List.append_assoc, ← List.map_append]
    exact List.prefix_append _ _

/-- Moving what is behind the beginning of a buffer. -/
theorem moveCells_at (holds : (front ++ behind).map some <+: buff) :
    ∃ buff', moveCells buff front.length behind.length = .ok buff' ∧
      buff'.length = buff.length ∧ behind.map some <+: buff' := by
  obtain ⟨back, rfl⟩ := holds
  have room : front.length + behind.length ≤ ((front ++ behind).map some ++ back).length := by
    rw [List.length_append, List.length_map, List.length_append]
    omega
  refine ⟨_, by rw [moveCells, if_pos room], ?_, ?_⟩
  · rw [drop_front, take_front, List.length_append, List.length_drop, List.length_map]
    omega
  · rw [drop_front, take_front]
    exact List.prefix_append _ _

end Beginnings

end Tarsnap.Lib
