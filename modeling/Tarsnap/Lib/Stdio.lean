import Mathlib.Data.List.Basic

/-!
# Files that are read and written

A file that is read is what is still to be read of it, with a plan of the reads that get less than
they ask for or fail. A read of bytes follows the plan; an item is read whole, unless the file ends
or reading fails before. A file that is written is what was written to it, with the room that is
left.
-/

namespace Tarsnap.Lib

/-- A read that gets less than it asks for. -/
inductive Segment where
  /-- At most so many bytes are read. -/
  | short (amount : Nat)
  /-- At most so many bytes are read, and then reading fails. -/
  | fails (amount : Nat)

/-- A file: what is still to be read, and the reads that get less than they ask for. After these,
a read gets less only at the end of the file. -/
structure File where
  /-- The bytes that are still to be read. -/
  rest : List UInt8
  /-- The next reads. -/
  plan : List Segment

/-- What a read gives. -/
structure Fread where
  /-- The bytes that were read. -/
  bytes : List UInt8
  /-- Whether the end of the file was met. -/
  feof : Bool
  /-- Whether an error was met. -/
  ferror : Bool

/-- Read at most so many bytes. -/
def fread (file : File) (wanted : Nat) : Fread × File :=
  match file.plan with
  | [] => (⟨file.rest.take wanted, file.rest.length < wanted, false⟩,
      ⟨file.rest.drop wanted, []⟩)
  | .short amount :: plan => (⟨file.rest.take (min amount wanted), false, false⟩,
      ⟨file.rest.drop (min amount wanted), plan⟩)
  | .fails amount :: plan => (⟨file.rest.take (min amount wanted), false, true⟩,
      ⟨file.rest.drop (min amount wanted), plan⟩)

/-- Read one item: all of its bytes are read, unless the file ends or reading fails before. -/
def freadItem (file : File) (size : Nat) : Fread × File :=
  match file.plan with
  | .fails amount :: plan =>
    if amount < size then (⟨file.rest.take amount, false, true⟩, ⟨file.rest.drop amount, plan⟩)
    else (⟨file.rest.take size, file.rest.length < size, false⟩,
      ⟨file.rest.drop size, file.plan⟩)
  | _ => (⟨file.rest.take size, file.rest.length < size, false⟩, ⟨file.rest.drop size, file.plan⟩)

/-- A file that is written: what was written, and the room that is left, if it is limited. -/
structure Outfile where
  /-- What was written. -/
  data : List UInt8
  /-- How many more bytes can be written. -/
  room : Option Nat

/-- Write some bytes; fewer are written where the room ends. -/
def fwrite (outfile : Outfile) (bytes : List UInt8) : Nat × Outfile :=
  match outfile.room with
  | none => (bytes.length, ⟨outfile.data ++ bytes, none⟩)
  | some room => (min room bytes.length,
      ⟨outfile.data ++ bytes.take room, some (room - bytes.length)⟩)

/-- What a read gives comes from the file and fits; the end of the file is met only when fewer
bytes came than were asked for. -/
theorem fread_spec (file : File) (wanted : Nat) :
    (fread file wanted).1.bytes ++ (fread file wanted).2.rest = file.rest ∧
    (fread file wanted).1.bytes.length ≤ wanted ∧
    ((fread file wanted).1.feof = true →
      (fread file wanted).2.rest = [] ∧ (fread file wanted).1.bytes.length < wanted) := by
  obtain ⟨rest, plan⟩ := file
  cases plan with
  | nil =>
    refine ⟨List.take_append_drop _ _, List.length_take_le _ _, fun ended => ?_⟩
    have short : rest.length < wanted := of_decide_eq_true ended
    refine ⟨List.drop_eq_nil_of_le (Nat.le_of_lt short), ?_⟩
    exact Nat.lt_of_le_of_lt (List.length_take_le' _ _) short
  | cons segment plan =>
    cases segment with
    | short amount =>
      exact ⟨List.take_append_drop _ _, Nat.le_trans (List.length_take_le _ _)
        (Nat.min_le_right _ _), fun absurdity => nomatch absurdity⟩
    | fails amount =>
      exact ⟨List.take_append_drop _ _, Nat.le_trans (List.length_take_le _ _)
        (Nat.min_le_right _ _), fun absurdity => nomatch absurdity⟩

/-- A read that meets neither the end of the file nor an error brings the end nearer. -/
theorem fread_nearer (file : File) {wanted : Nat} (some : 0 < wanted)
    (more : (fread file wanted).1.feof = false) :
    (fread file wanted).2.plan.length + (fread file wanted).2.rest.length <
      file.plan.length + file.rest.length := by
  obtain ⟨rest, plan⟩ := file
  cases plan with
  | nil =>
    have long : ¬rest.length < wanted := of_decide_eq_false more
    show 0 + (rest.drop wanted).length < 0 + rest.length
    rw [List.length_drop]
    omega
  | cons segment plan =>
    cases segment with
    | short amount =>
      show plan.length + (rest.drop _).length < (plan.length + 1) + rest.length
      rw [List.length_drop]
      omega
    | fails amount =>
      show plan.length + (rest.drop _).length < (plan.length + 1) + rest.length
      rw [List.length_drop]
      omega

/-- A file of which every read gets what it asks for stays one, and its reads fill the buffer. -/
theorem fread_full {file : File} {wanted : Nat} (full : file.plan = [])
    (more : (fread file wanted).1.feof = false) :
    (fread file wanted).2.plan = [] ∧ (fread file wanted).1.ferror = false ∧
      (fread file wanted).1.bytes.length = wanted := by
  obtain ⟨rest, plan⟩ := file
  subst full
  have long : ¬rest.length < wanted := of_decide_eq_false more
  refine ⟨rfl, rfl, ?_⟩
  show (rest.take wanted).length = wanted
  rw [List.length_take]
  omega

/-- A plan that follows the contract of reading: without an error, nothing is read only at the end
of the file. -/
def Conforms (plan : List Segment) : Prop := ∀ amount, .short amount ∈ plan → 0 < amount

/-- A plan without errors. -/
def Faultless (plan : List Segment) : Prop := ∀ amount, .fails amount ∉ plan

/-- Reading uses the plan up. -/
theorem fread_plan (file : File) (wanted : Nat) :
    ∀ segment ∈ (fread file wanted).2.plan, segment ∈ file.plan := by
  obtain ⟨rest, plan⟩ := file
  intro segment member
  cases plan with
  | nil => exact member
  | cons first plan => cases first <;> exact List.mem_cons_of_mem _ member

/-- Reads that are planned without errors meet none. -/
theorem fread_ferror {file : File} (faultless : Faultless file.plan) (wanted : Nat) :
    (fread file wanted).1.ferror = false := by
  obtain ⟨rest, plan⟩ := file
  cases plan with
  | nil => rfl
  | cons first plan =>
    cases first with
    | short amount => rfl
    | fails amount => exact absurd List.mem_cons_self (faultless amount)

/-- When nothing is read without an error, the file ends. -/
theorem fread_nothing {file : File} {wanted : Nat} (conforms : Conforms file.plan)
    (some : 0 < wanted) (nothing : (fread file wanted).1.bytes.length = 0)
    (succeeded : (fread file wanted).1.ferror = false) : (fread file wanted).2.rest = [] := by
  obtain ⟨rest, plan⟩ := file
  have empty (count : Nat) (positive : 0 < count) (none : (rest.take count).length = 0) :
      rest.drop count = [] := by
    rw [List.length_take] at none
    exact List.drop_eq_nil_of_le (by omega)
  cases plan with
  | nil => exact empty wanted some nothing
  | cons first plan =>
    cases first with
    | short amount =>
      have positive : 0 < amount := conforms amount List.mem_cons_self
      exact empty (min amount wanted) (by omega) nothing
    | fails amount => exact nomatch succeeded

/-- An item that is read whole is the beginning of the file. -/
theorem freadItem_whole {file : File} {size : Nat}
    (whole : ¬(freadItem file size).1.bytes.length < size) :
    (freadItem file size).1.bytes = file.rest.take size ∧
      (freadItem file size).2 = ⟨file.rest.drop size, file.plan⟩ := by
  obtain ⟨rest, plan⟩ := file
  cases plan with
  | nil => exact ⟨rfl, rfl⟩
  | cons first plan =>
    cases first with
    | short amount => exact ⟨rfl, rfl⟩
    | fails amount =>
      simp only [freadItem] at whole ⊢
      split at whole
      · rename_i early
        have short : (rest.take amount).length ≤ amount := List.length_take_le _ _
        simp only at whole
        omega
      · rename_i late
        rw [if_neg late]
        exact ⟨rfl, rfl⟩

/-- An item is read whole if the file is long enough and there is no error. -/
theorem freadItem_long {file : File} {size : Nat} (faultless : Faultless file.plan)
    (long : size ≤ file.rest.length) : (freadItem file size).1.bytes.length = size := by
  obtain ⟨rest, plan⟩ := file
  have taken : (rest.take size).length = size := List.length_take_of_le long
  cases plan with
  | nil => exact taken
  | cons first plan =>
    cases first with
    | short amount => exact taken
    | fails amount => exact absurd List.mem_cons_self (faultless amount)

/-- What is written is the beginning of what is to be written, and all of it if there is room. -/
theorem fwrite_spec (outfile : Outfile) (bytes : List UInt8) :
    (fwrite outfile bytes).2.data = outfile.data ++ bytes.take (fwrite outfile bytes).1 ∧
      (outfile.room = none → (fwrite outfile bytes).1 = bytes.length ∧
        (fwrite outfile bytes).2.room = none) := by
  obtain ⟨data, room⟩ := outfile
  cases room with
  | none =>
    refine ⟨?_, fun _ => ⟨rfl, rfl⟩⟩
    simp only [fwrite, List.take_length]
  | some room =>
    refine ⟨?_, fun absurdity => nomatch absurdity⟩
    simp only [fwrite, ← List.take_take, List.take_length]

end Tarsnap.Lib
