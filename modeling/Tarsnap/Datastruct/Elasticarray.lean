import Mathlib.Data.List.Basic

/-!
# Elastic arrays

An elastic array keeps records in an allocation that grows by doubling and shrinks when most of it
is unused. Growing asks for memory, which may not be available; then the array is unmodified. Memory
that is newly allocated holds anything.
-/

namespace Tarsnap.Datastruct

/-- The largest size. -/
def sizeMax : Nat := 18446744073709551615

/-- An elastic array. -/
structure ElasticArray where
  /-- Bytes in use. -/
  size : Nat
  /-- Bytes allocated. -/
  alloc : Nat
  /-- The allocation. -/
  buf : List UInt8
  /-- The length of the allocation. -/
  buf_length : buf.length = alloc
  /-- What is in use is allocated. -/
  size_le : size ≤ alloc
  /-- The length of the allocation is a `size_t`. -/
  alloc_le : alloc ≤ sizeMax

namespace ElasticArray

/-- The bytes in use. -/
def contents (EA : ElasticArray) : List UInt8 := EA.buf.take EA.size

/-- There are as many bytes in use as it says. -/
theorem contents_length (EA : ElasticArray) : EA.contents.length = EA.size := by
  rw [contents, List.length_take, EA.buf_length, Nat.min_eq_left EA.size_le]

end ElasticArray

/-- How large an allocation we want. -/
def wanted (alloc nsize : Nat) : Nat :=
  if alloc < nsize then
    let nalloc := alloc * 2 % (sizeMax + 1)
    if nalloc < nsize then nsize else nalloc
  else if nsize < alloc / 4 then nsize * 2
  else alloc

/-- The allocation that we want has room for the bytes, and its length is a `size_t`. -/
theorem wanted_bounds {alloc nsize : Nat} (small : alloc ≤ sizeMax) (fits : nsize ≤ sizeMax) :
    nsize ≤ wanted alloc nsize ∧ wanted alloc nsize ≤ sizeMax := by
  unfold wanted
  simp only
  have range : alloc * 2 % (sizeMax + 1) < sizeMax + 1 := Nat.mod_lt _ (Nat.succ_pos _)
  split_ifs <;> omega

/-- An allocation that is extended or cut off. -/
def reallocated (memory : Nat → UInt8) (buf : List UInt8) (nalloc : Nat) : List UInt8 :=
  buf.take nalloc ++ (List.range (nalloc - buf.length)).map memory

/-- It has the length that was asked for. -/
theorem reallocated_length (memory : Nat → UInt8) (buf : List UInt8) (nalloc : Nat) :
    (reallocated memory buf nalloc).length = nalloc := by
  rw [reallocated, List.length_append, List.length_take, List.length_map, List.length_range]
  omega

/-- It starts with the same bytes. -/
theorem reallocated_take {memory : Nat → UInt8} {buf : List UInt8} {nalloc size : Nat}
    (room : size ≤ nalloc) (used : size ≤ buf.length) :
    (reallocated memory buf nalloc).take size = buf.take size := by
  rw [reallocated, List.take_append_of_le_length (by rw [List.length_take]; omega), List.take_take,
    Nat.min_eq_left room]

/-- Resize the buffer, with the memory that can be allocated, if any. -/
def resize (realloc : Option (Nat → UInt8)) (EA : ElasticArray) (nsize : Nat)
    (fits : nsize ≤ sizeMax) : Option ElasticArray :=
  have bounds := wanted_bounds EA.alloc_le fits
  if empty : wanted EA.alloc nsize = 0 then
    some ⟨nsize, 0, [], rfl, by omega, Nat.zero_le _⟩
  else if same : wanted EA.alloc nsize = EA.alloc then
    some { EA with size := nsize, size_le := by omega }
  else
    match realloc with
    | none => none
    | some memory =>
      some ⟨nsize, wanted EA.alloc nsize, reallocated memory EA.buf (wanted EA.alloc nsize),
        reallocated_length _ _ _, bounds.1, bounds.2⟩

section Resizing

variable {realloc : Option (Nat → UInt8)} {EA grown : ElasticArray} {nsize : Nat}
  {fits : nsize ≤ sizeMax}

/-- The buffer has its new length, and the bytes that stay in use are the same. -/
theorem resize_contents (resized : resize realloc EA nsize fits = some grown) :
    grown.size = nsize ∧ (EA.size ≤ nsize → grown.buf.take EA.size = EA.contents) := by
  have bounds := wanted_bounds EA.alloc_le fits
  unfold resize at resized
  split at resized
  · rename_i empty
    cases resized
    refine ⟨rfl, fun grows => ?_⟩
    have none : EA.size = 0 := by omega
    rw [ElasticArray.contents, none]
    rfl
  split at resized
  · cases resized
    exact ⟨rfl, fun _ => rfl⟩
  cases realloc with
  | none => exact nomatch resized
  | some memory =>
    cases resized
    refine ⟨rfl, fun grows => ?_⟩
    exact reallocated_take (by omega) (by rw [EA.buf_length]; exact EA.size_le)

/-- Resizing fails if and only if another allocation is needed and there is no memory. -/
theorem resize_none : resize realloc EA nsize fits = none ↔
    realloc = none ∧ wanted EA.alloc nsize ≠ 0 ∧ wanted EA.alloc nsize ≠ EA.alloc := by
  unfold resize
  by_cases empty : wanted EA.alloc nsize = 0
  · simp [empty]
  · by_cases same : wanted EA.alloc nsize = EA.alloc
    · rw [dif_neg empty, dif_pos same]
      exact ⟨fun absurdity => (nomatch absurdity), fun needed => absurd same needed.2.2⟩
    · cases realloc with
      | none => simp [empty, same]
      | some memory => simp [empty, same]

end Resizing

/-- The sizes overflow when records are appended. -/
def Overflow (size nrec reclen : Nat) : Prop :=
  sizeMax / reclen < nrec ∨ sizeMax - size < nrec * reclen

instance (size nrec reclen : Nat) : Decidable (Overflow size nrec reclen) := by
  unfold Overflow
  infer_instance

/-- Append records to the array; nothing is returned if it fails. -/
def elasticarrayAppend (realloc : Option (Nat → UInt8)) (EA : ElasticArray) (buf : List UInt8)
    (nrec reclen : Nat) (whole : buf.length = nrec * reclen) : Option ElasticArray :=
  if fits : Overflow EA.size nrec reclen then none
  else
    have small : EA.size + nrec * reclen ≤ sizeMax := by
      have size := EA.size_le
      have alloc := EA.alloc_le
      unfold Overflow at fits
      omega
    match resized : resize realloc EA (EA.size + nrec * reclen) small with
    | none => none
    | some grown =>
      if 0 < nrec then
        some { grown with
          buf := grown.buf.take EA.size ++ buf ++ grown.buf.drop (EA.size + buf.length)
          buf_length := by
            have size := (resize_contents resized).1
            have capacity := grown.size_le
            rw [List.length_append, List.length_append, List.length_take, List.length_drop,
              grown.buf_length]
            omega }
      else some grown

section Appending

variable {realloc : Option (Nat → UInt8)} {EA grown : ElasticArray} {buf : List UInt8}
  {nrec reclen : Nat} {whole : buf.length = nrec * reclen}

/-- Records that are appended follow the bytes in use. -/
theorem elasticarrayAppend_contents
    (appended : elasticarrayAppend realloc EA buf nrec reclen whole = some grown) :
    grown.contents = EA.contents ++ buf := by
  unfold elasticarrayAppend at appended
  split at appended
  · exact nomatch appended
  simp only at appended
  split at appended
  · exact nomatch appended
  rename_i larger resized
  obtain ⟨size, start⟩ := resize_contents resized
  have front := start (Nat.le_add_right _ _)
  have frontLength : (larger.buf.take EA.size ++ buf).length = EA.size + buf.length := by
    rw [List.length_append, front, EA.contents_length]
  split at appended
  · cases appended
    rw [ElasticArray.contents]
    simp only
    rw [size, ← whole, List.take_left' frontLength, front]
  · rename_i none
    cases appended
    have nothing : nrec = 0 := Nat.eq_zero_of_not_pos none
    have empty : buf = [] := List.eq_nil_of_length_eq_zero (by rw [whole, nothing, Nat.zero_mul])
    have same : EA.size + nrec * reclen = EA.size := by rw [nothing, Nat.zero_mul, Nat.add_zero]
    rw [ElasticArray.contents, size, same, front, empty, List.append_nil]

/-- Appending fails if and only if the sizes overflow, or another allocation is needed and there is
no memory. -/
theorem elasticarrayAppend_none : elasticarrayAppend realloc EA buf nrec reclen whole = none ↔
    Overflow EA.size nrec reclen ∨ (realloc = none ∧
      wanted EA.alloc (EA.size + nrec * reclen) ≠ 0 ∧
      wanted EA.alloc (EA.size + nrec * reclen) ≠ EA.alloc) := by
  unfold elasticarrayAppend
  by_cases overflow : Overflow EA.size nrec reclen
  · rw [dif_pos overflow]
    exact ⟨fun _ => .inl overflow, fun _ => rfl⟩
  · rw [dif_neg overflow, or_iff_right overflow]
    simp only
    split
    · rename_i failed
      exact ⟨fun _ => resize_none.mp failed, fun _ => rfl⟩
    · rename_i larger resized
      have works : ¬(realloc = none ∧ wanted EA.alloc (EA.size + nrec * reclen) ≠ 0 ∧
          wanted EA.alloc (EA.size + nrec * reclen) ≠ EA.alloc) := by
        intro needed
        rw [resize_none.mpr needed] at resized
        cases resized
      split
      · exact ⟨fun absurdity => (nomatch absurdity), fun needed => absurd needed works⟩
      · exact ⟨fun absurdity => (nomatch absurdity), fun needed => absurd needed works⟩

end Appending

end Tarsnap.Datastruct
