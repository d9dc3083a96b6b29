import Tarsnap.Crypto.KeyExport

/-!
# Exporting and importing keys

An export of keys that the cache holds is the sequence of their records, and an import of it sets
the slots of those keys that its mask asks for. Both passes of the export agree on the lengths. An
RSA key with an integer that is zero can be imported, but it cannot be exported again.
-/

namespace Tarsnap.Crypto

open Tarsnap.Lib

section Loops

variable {L : BignumLimit}

/-- The record of a key of the cache. -/
def recordOf (cache : Keycache L) (key : Nat) : Option KeyRecord :=
  (exportSlot key).bind fun s => (cache s).map fun held =>
    ⟨UInt8.ofNat key, s.encoding.encode held, Nat.lt_of_le_of_lt (s.encode_length held) (by decide)⟩

/-- The record of a key, if the mask asks for it. -/
def recordsOf (cache : Keycache L) (keys : BitVec 32) (key : Nat) : List KeyRecord :=
  if keys.getLsbD key then (recordOf cache key).toList else []

/-- The bytes that are exported for a key. -/
def recordBytes (cache : Keycache L) (keys : BitVec 32) (key : Nat) : List UInt8 :=
  (recordsOf cache keys key).flatMap KeyRecord.encode

/-- Each key that the mask asks for can be exported, and the cache holds it. -/
def Exportable (cache : Keycache L) (keys : BitVec 32) : Prop :=
  ∀ key, keys.getLsbD key = true → ∃ s held, exportSlot key = some s ∧ cache s = some held

/-- No RSA key that the mask asks for has an integer that is zero. -/
def NoZeroIntegers (cache : Keycache L) (keys : BitVec 32) : Prop :=
  ∀ key, keys.getLsbD key = true → ∀ s held, exportSlot key = some s → cache s = some held →
    s.encoding.NoZero held

variable {cache : Keycache L} {keys : BitVec 32} {key : Nat}

/-- Nothing is exported for a key that the mask does not ask for. -/
theorem recordBytes_skip (skipped : keys.getLsbD key ≠ true) : recordBytes cache keys key = [] := by
  unfold recordBytes recordsOf
  rw [if_neg skipped]
  rfl

/-- Length, type and data are exported for a key that the mask asks for. -/
theorem recordBytes_key {s : Slot} {held : s.encoding.Key L} (asked : keys.getLsbD key = true)
    (slot : exportSlot key = some s) (present : cache s = some held) :
    recordBytes cache keys key =
      leEnc 4 (s.encoding.encode held).length ++ [UInt8.ofNat key] ++ s.encoding.encode held := by
  unfold recordBytes recordsOf recordOf
  rw [if_pos asked, slot, Option.bind_some, present]
  exact List.append_nil _

/-- The header of a record is as long as the code takes it to be. -/
theorem header_length (len : Nat) (key : UInt8) : (leEnc 4 len ++ [key]).length =
    KEYHEADER_LEN := by
  rw [List.length_append, leEnc_length]
  rfl

/-- How long the record of a key may be. -/
def recordRoom (key : Nat) : Nat :=
  (exportSlot key).elim 0 fun s => KEYHEADER_LEN + s.encoding.maxLength

/-- The record of a key is not longer. -/
theorem recordBytes_length (exportable : Exportable cache keys) (key : Nat) :
    (recordBytes cache keys key).length ≤ recordRoom key := by
  by_cases asked : keys.getLsbD key = true
  · obtain ⟨s, held, slot, present⟩ := exportable key asked
    have bound := s.encoding.encode_length held
    rw [recordBytes_key asked slot present, List.length_append, header_length]
    unfold recordRoom
    rw [slot, Option.elim_some]
    omega
  · rw [recordBytes_skip asked]
    exact Nat.zero_le _

/-- The first pass adds up the lengths of the records. -/
theorem lengthStep_ok (exportable : Exportable cache keys) {buflen : Nat}
    (small : buflen + (recordBytes cache keys key).length < 18446744073709551616) :
    lengthStep cache keys buflen key = .ok (buflen + (recordBytes cache keys key).length) := by
  unfold lengthStep
  by_cases asked : keys.getLsbD key = true
  · obtain ⟨s, held, slot, present⟩ := exportable key asked
    rw [recordBytes_key asked slot present, List.length_append, header_length] at small ⊢
    rw [if_pos asked, exportKey_null slot present, ok_bind]
    unfold word64 KEYHEADER_LEN at *
    simp only
    rw [if_neg (by omega), if_neg (by omega)]
    apply congrArg Except.ok
    omega
  · rw [if_neg asked, recordBytes_skip asked]
    rfl

/-- The whole first pass. -/
theorem lengthLoop_ok (exportable : Exportable cache keys) (numbers : List Nat) :
    ∀ {buflen : Nat},
      buflen + (numbers.flatMap (recordBytes cache keys)).length < 18446744073709551616 →
      numbers.foldlM (lengthStep cache keys) buflen =
        .ok (buflen + (numbers.flatMap (recordBytes cache keys)).length) := by
  induction numbers with
  | nil => exact fun _ => rfl
  | cons key numbers ih =>
    intro buflen small
    rw [List.flatMap_cons, List.length_append] at small ⊢
    rw [List.foldlM_cons, lengthStep_ok exportable (by omega), ok_bind, ih (by omega),
      Nat.add_assoc]

/-- Where the data of a record is written. -/
theorem out_data {done space : List UInt8} {total : Nat} (fits : KEYHEADER_LEN ≤ space.length)
    (whole : done.length + space.length = total) (small : total < 18446744073709551616) :
    ¬ sub64 total done.length < KEYHEADER_LEN ∧
      (⟨false, done ++ space, done.length + KEYHEADER_LEN,
        sub64 total (done.length + KEYHEADER_LEN)⟩ : Out) =
      .at (done ++ space.take KEYHEADER_LEN) (space.drop KEYHEADER_LEN) := by
  have five : (space.take KEYHEADER_LEN).length = KEYHEADER_LEN := by
    rw [List.length_take]
    omega
  have rest : sub64 total (done.length + KEYHEADER_LEN) = (space.drop KEYHEADER_LEN).length := by
    rw [List.length_drop]
    unfold sub64
    omega
  constructor
  · unfold sub64
    omega
  · unfold Out.at
    rw [rest, List.append_assoc, List.take_append_drop, List.length_append, five]

/-- The data of a key is in front of the rest of the space. -/
theorem record_fits {s : Slot} {held : s.encoding.Key L} (asked : keys.getLsbD key = true)
    (slot : exportSlot key = some s) (present : cache s = some held) {space : List UInt8}
    (fits : (recordBytes cache keys key).length ≤ space.length) :
    KEYHEADER_LEN ≤ space.length ∧
      (s.encoding.encode held).length ≤ (space.drop KEYHEADER_LEN).length := by
  rw [recordBytes_key asked slot present, List.length_append, header_length] at fits
  rw [List.length_drop]
  omega

variable {done space : List UInt8} {total : Nat}

/-- The second pass writes the record of a key. -/
theorem writeStep_ok (exportable : Exportable cache keys)
    (nonzero : keys.getLsbD key = true → ∀ s held, exportSlot key = some s →
      cache s = some held → s.encoding.NoZero held)
    (fits : (recordBytes cache keys key).length ≤ space.length)
    (whole : done.length + space.length = total) (small : total < 18446744073709551616) :
    writeStep cache keys total (done ++ space, done.length) key =
      .ok (done ++ recordBytes cache keys key ++ space.drop (recordBytes cache keys key).length,
        (done ++ recordBytes cache keys key).length) := by
  unfold writeStep
  by_cases asked : keys.getLsbD key = true
  · obtain ⟨s, held, slot, present⟩ := exportable key asked
    obtain ⟨header, data⟩ := record_fits asked slot present fits
    obtain ⟨room, out⟩ := out_data header whole small
    have written := exportKey_ok slot present (nonzero asked s held slot present)
      (done ++ space.take KEYHEADER_LEN) data
    rw [recordBytes_key asked slot present]
    have five := header_length (s.encoding.encode held).length (UInt8.ofNat key)
    have front : (space.take KEYHEADER_LEN).length = KEYHEADER_LEN := by
      rw [List.length_take]
      omega
    simp only
    rw [if_pos asked, if_neg room, out, written, ok_bind]
    generalize leEnc 4 (s.encoding.encode held).length ++ [UInt8.ofNat key] = bytes at five ⊢
    generalize s.encoding.encode held = body at data
    have stored := store_ok done (show bytes.length ≤ (space.take KEYHEADER_LEN ++ (body ++
      (space.drop KEYHEADER_LEN).drop body.length)).length by
        rw [five, List.length_append, front]
        omega)
    rw [five, List.drop_left' front] at stored
    simp only [List.append_assoc] at stored ⊢
    rw [stored, ok_bind, List.length_append, List.length_append, List.length_append, five,
      List.drop_drop, Nat.add_assoc]
  · rw [if_neg asked, recordBytes_skip asked]
    simp

/-- The second pass leaves the buffer if an integer of the key is zero. -/
theorem writeStep_zero {s : Slot} {held : s.encoding.Key L} (asked : keys.getLsbD key = true)
    (slot : exportSlot key = some s) (present : cache s = some held)
    (zero : ¬ s.encoding.NoZero held)
    (fits : (recordBytes cache keys key).length ≤ space.length)
    (whole : done.length + space.length = total) (small : total ≤ 4294967294) :
    writeStep cache keys total (done ++ space, done.length) key = .error .outside := by
  obtain ⟨header, data⟩ := record_fits asked slot present fits
  obtain ⟨room, out⟩ := out_data header whole (by omega)
  unfold writeStep
  simp only
  rw [if_pos asked, if_neg room, out, exportKey_zero slot present zero data, error_bind]
  rw [List.length_append, List.length_take, List.length_drop]
  omega

/-- The whole second pass. -/
theorem writeLoop_ok (exportable : Exportable cache keys) (nonzero : NoZeroIntegers cache keys)
    (small : total < 18446744073709551616) (numbers : List Nat) :
    ∀ (done space : List UInt8), done.length + space.length = total →
      (numbers.flatMap (recordBytes cache keys)).length ≤ space.length →
      numbers.foldlM (writeStep cache keys total) (done ++ space, done.length) =
        .ok (done ++ numbers.flatMap (recordBytes cache keys) ++
            space.drop (numbers.flatMap (recordBytes cache keys)).length,
          (done ++ numbers.flatMap (recordBytes cache keys)).length) := by
  induction numbers with
  | nil =>
    intro done space _ _
    rw [List.flatMap_nil, List.append_nil]
    rfl
  | cons key numbers ih =>
    intro done space whole fits
    rw [List.flatMap_cons, List.length_append] at fits
    rw [List.foldlM_cons, writeStep_ok exportable (nonzero key) (by omega) whole small, ok_bind]
    have later := ih (done ++ recordBytes cache keys key)
      (space.drop (recordBytes cache keys key).length)
      (by rw [List.length_append, List.length_drop]; omega) (by rw [List.length_drop]; omega)
    rw [later]
    simp only [List.drop_drop, List.flatMap_cons, List.length_append, List.append_assoc]

/-- The second pass leaves the buffer if an integer of one of the keys is zero. -/
theorem writeLoop_zero (exportable : Exportable cache keys) (small : total ≤ 4294967294)
    {numbers : List Nat} (zero : ∃ key ∈ numbers, ¬ (keys.getLsbD key = true → ∀ s held,
      exportSlot key = some s → cache s = some held → s.encoding.NoZero held)) :
    ∀ (done space : List UInt8), done.length + space.length = total →
      (numbers.flatMap (recordBytes cache keys)).length ≤ space.length →
      numbers.foldlM (writeStep cache keys total) (done ++ space, done.length) =
        .error .outside := by
  induction numbers with
  | nil =>
    obtain ⟨key, member, _⟩ := zero
    exact absurd member List.not_mem_nil
  | cons key numbers ih =>
    intro done space whole fits
    rw [List.flatMap_cons, List.length_append] at fits
    rw [List.foldlM_cons]
    by_cases nonzero : keys.getLsbD key = true → ∀ s held, exportSlot key = some s →
        cache s = some held → s.encoding.NoZero held
    · rw [writeStep_ok exportable nonzero (by omega) whole (by omega), ok_bind]
      obtain ⟨other, member, bad⟩ := zero
      have rest : other ∈ numbers :=
        (List.mem_cons.mp member).resolve_left fun same => bad (same ▸ nonzero)
      exact ih ⟨other, rest, bad⟩ _ _ (by rw [List.length_append, List.length_drop]; omega)
        (by rw [List.length_drop]; omega)
    · push Not at nonzero
      obtain ⟨asked, s, held, slot, present, bad⟩ := nonzero
      rw [writeStep_zero asked slot present bad (by omega) whole small, error_bind]

end Loops

section Export

variable {L : BignumLimit} {cache : Keycache L} {keys : BitVec 32}

/-- The records of the keys that the mask asks for. -/
def exportedRecords (cache : Keycache L) (keys : BitVec 32) : List KeyRecord :=
  (List.range 32).flatMap (recordsOf cache keys)

/-- The bytes of the records. -/
theorem exportedRecords_bytes : (List.range 32).flatMap (recordBytes cache keys) =
    (exportedRecords cache keys).flatMap KeyRecord.encode := (List.flatMap_assoc ..).symm

/-- All the records together are not too long. -/
theorem exported_length (exportable : Exportable cache keys) (numbers : List Nat) :
    (numbers.flatMap (recordBytes cache keys)).length ≤ (numbers.map recordRoom).sum := by
  induction numbers with
  | nil => exact Nat.le_refl _
  | cons key numbers ih =>
    have first := recordBytes_length exportable key
    rw [List.flatMap_cons, List.length_append, List.map_cons, List.sum_cons]
    omega

/-- The whole buffer is smaller than the distance that the bytes of the number zero would be
exchanged over. -/
theorem exported_short (exportable : Exportable cache keys) :
    ((List.range 32).flatMap (recordBytes cache keys)).length ≤ 4294967294 :=
  Nat.le_trans (exported_length exportable _) (by decide)

/-- The first pass finds the length of the records. -/
theorem cryptoKeysExport_length (exportable : Exportable cache keys) :
    (List.range 32).foldlM (lengthStep cache keys) 0 =
      .ok ((List.range 32).flatMap (recordBytes cache keys)).length := by
  have short := exported_short exportable
  rw [lengthLoop_ok exportable _ (by omega), Nat.zero_add]

/-- Keys are exported if none of their integers is zero. -/
theorem cryptoKeysExport_ok (exportable : Exportable cache keys)
    (nonzero : NoZeroIntegers cache keys) :
    cryptoKeysExport cache keys = .ok ((exportedRecords cache keys).flatMap KeyRecord.encode) := by
  have short := exported_short exportable
  have written := writeLoop_ok exportable nonzero
    (show ((List.range 32).flatMap (recordBytes cache keys)).length < 18446744073709551616 by omega)
    (List.range 32) []
    (List.replicate ((List.range 32).flatMap (recordBytes cache keys)).length 0)
    (by rw [List.length_nil, Nat.zero_add, List.length_replicate])
    (by rw [List.length_replicate])
  rw [List.nil_append, List.nil_append, List.length_nil] at written
  unfold cryptoKeysExport
  rw [cryptoKeysExport_length exportable, ok_bind, written, ok_bind, ← exportedRecords_bytes]
  simp only
  rw [if_neg (by simp), List.drop_eq_nil_of_le (by rw [List.length_replicate]), List.append_nil]

/-- If an integer of one of the keys is zero, the export leaves the buffer. -/
theorem cryptoKeysExport_zero (exportable : Exportable cache keys)
    (zero : ¬ NoZeroIntegers cache keys) : cryptoKeysExport cache keys = .error .outside := by
  have short := exported_short exportable
  have found : ∃ key ∈ List.range 32, ¬ (keys.getLsbD key = true → ∀ s held,
      exportSlot key = some s → cache s = some held → s.encoding.NoZero held) := by
    unfold NoZeroIntegers at zero
    obtain ⟨key, bad⟩ := not_forall.mp zero
    have asked : keys.getLsbD key = true := Classical.byContradiction fun absurdity =>
      bad fun asked => absurd asked absurdity
    exact ⟨key, List.mem_range.mpr (BitVec.lt_of_getLsbD asked), bad⟩
  have left := writeLoop_zero exportable short found []
    (List.replicate ((List.range 32).flatMap (recordBytes cache keys)).length 0)
    (by rw [List.length_nil, Nat.zero_add, List.length_replicate])
    (by rw [List.length_replicate])
  rw [List.nil_append, List.length_nil] at left
  unfold cryptoKeysExport
  rw [cryptoKeysExport_length exportable, ok_bind, left, error_bind]

end Export

section RoundTrip

variable {L : BignumLimit} {cache : Keycache L} {mask1 mask2 : BitVec 32}

/-- A key that can be exported has its number as its type, and is imported into its own slot, or
into both slots of the file HMAC. -/
theorem exportSlot_eq_some {key : Nat} {s : Slot} (slot : exportSlot key = some s) :
    s.key = key ∧ key < 256 ∧ s ≠ .hmacFileWrite ∧ ∃ slots, slotsOf key = some slots ∧
      ∀ other, other ∈ slots ↔ other = s ∨ other = .hmacFileWrite ∧ s = .hmacFile := by
  unfold exportSlot at slot
  split at slot
  all_goals
    first
    | cases slot
      refine ⟨rfl, by decide, by decide, _, rfl, fun other => ?_⟩
      cases other <;> decide
    | cases slot

/-- Slots have different numbers. -/
theorem Slot.key_injective {s other : Slot} (same : s.key = other.key) : s = other := by
  cases s <;> cases other <;> first | rfl | exact absurd same (by decide)

/-- What an import makes of the records of one key. -/
theorem stored_record (exportable : Exportable cache mask1) (mask2 : BitVec 32) (key : Nat)
    (target : Keycache L) :
    (recordsOf cache mask1 key).foldl (KeyRecord.stored mask2) target = target ∧
        mask1.getLsbD key ≠ true ∨
      ∃ s held slots, mask1.getLsbD key = true ∧ exportSlot key = some s ∧ cache s = some held ∧
        slotsOf key = some slots ∧
        (recordsOf cache mask1 key).foldl (KeyRecord.stored mask2) target =
          imported mask2 slots (s.encoding.encode held) target := by
  by_cases asked : mask1.getLsbD key = true
  · obtain ⟨s, held, slot, present⟩ := exportable key asked
    obtain ⟨_, small, _, slots, known, _⟩ := exportSlot_eq_some slot
    refine .inr ⟨s, held, slots, asked, slot, present, known, ?_⟩
    have type : (UInt8.ofNat key).toNat = key := UInt8.toNat_ofNat_of_lt' small
    unfold recordsOf recordOf
    rw [if_pos asked, slot, Option.bind_some, present]
    change KeyRecord.stored mask2 target ⟨UInt8.ofNat key, _, _⟩ = _
    unfold KeyRecord.stored
    simp only [type, known, Option.getD_some]
  · unfold recordsOf
    rw [if_neg asked]
    exact .inl ⟨rfl, asked⟩

/-- The records of one key set its own slot. -/
theorem stored_slot (exportable : Exportable cache mask1) (mask2 : BitVec 32) (key : Nat)
    (target : Keycache L) {s : Slot} (other : s ≠ .hmacFileWrite) :
    (recordsOf cache mask1 key).foldl (KeyRecord.stored mask2) target s =
      if s.key = key ∧ mask1.getLsbD key = true ∧ mask2.getLsbD s.key = true then cache s
      else target s := by
  rcases stored_record exportable mask2 key target with
    ⟨same, skipped⟩ | ⟨s', held, slots, asked, slot, present, known, result⟩
  · rw [same, if_neg fun all => skipped all.2.1]
  · obtain ⟨number, _, _, slots', known', members⟩ := exportSlot_eq_some slot
    obtain rfl := Option.some.inj (known.symm.trans known')
    rw [result]
    unfold imported
    by_cases here : s = s'
    · subst here
      have member : s ∈ slots := (members s).mpr (.inl rfl)
      simp only [member, true_and, number, asked]
      rw [(s.encoding.encodes_encode held).decode, present]
    · have notMember : s ∉ slots := fun member =>
        ((members s).mp member).elim here fun both => other both.1
      have notNumber : s.key ≠ key := fun same => here (Slot.key_injective (same.trans number.symm))
      rw [if_neg fun both => notMember both.1, if_neg fun all => notNumber all.1]

/-- The record of the file HMAC sets the slot of the file write HMAC. -/
theorem stored_fileWrite (exportable : Exportable cache mask1) (mask2 : BitVec 32) (key : Nat)
    (target : Keycache L) :
    Keycache.fileWriteHmac ((recordsOf cache mask1 key).foldl (KeyRecord.stored mask2) target) =
      if Slot.hmacFile.key = key ∧ mask1.getLsbD key = true ∧
        mask2.getLsbD Slot.hmacFileWrite.key = true then Keycache.fileHmac cache
      else Keycache.fileWriteHmac target := by
  rcases stored_record exportable mask2 key target with
    ⟨same, skipped⟩ | ⟨s', held, slots, asked, slot, present, known, result⟩
  · rw [same, if_neg fun all => skipped all.2.1]
  · obtain ⟨number, _, own, slots', known', members⟩ := exportSlot_eq_some slot
    obtain rfl := Option.some.inj (known.symm.trans known')
    rw [result]
    by_cases here : s' = .hmacFile
    · subst here
      have member : Slot.hmacFileWrite ∈ slots := (members _).mpr (.inr ⟨rfl, rfl⟩)
      have decoded := (Slot.hmacFile.encoding.encodes_encode held).decode
      change (if _ then Slot.hmacFile.encoding.decode L _ else Keycache.fileWriteHmac target) = _
      simp only [member, true_and, number, asked]
      rw [decoded, ← present]
      rfl
    · have notMember : Slot.hmacFileWrite ∉ slots := fun member =>
        ((members _).mp member).elim (fun same => own same.symm) fun both => here both.2
      have notNumber : Slot.hmacFile.key ≠ key := fun same =>
        here (Slot.key_injective (number.trans same.symm))
      rw [if_neg fun all => notNumber all.1]
      exact if_neg fun both => notMember both.1

/-- What importing exported keys makes of a cache. -/
structure Merged (cache : Keycache L) (mask1 mask2 : BitVec 32) (target result : Keycache L) :
    Prop where
  /-- A key of both masks is that which was exported, each other one is as it was. -/
  slots : ∀ s, s ≠ .hmacFileWrite →
    result s = if mask1.getLsbD s.key = true ∧ mask2.getLsbD s.key = true then cache s
      else target s
  /-- The file write HMAC is the file HMAC that was exported if the second mask asks for it. -/
  fileWrite : result.fileWriteHmac =
    if mask1.getLsbD Slot.hmacFile.key = true ∧ mask2.getLsbD Slot.hmacFileWrite.key = true then
      cache.fileHmac
    else target.fileWriteHmac

/-- What the records of one key do to a part of the cache, the records of several keys do. -/
theorem stored_part {α : Type} (part : Keycache L → α) (value : α) (number : Nat) {asks : Prop}
    [Decidable asks] (one : ∀ key (target : Keycache L),
      part ((recordsOf cache mask1 key).foldl (KeyRecord.stored mask2) target) =
        if number = key ∧ mask1.getLsbD key = true ∧ asks then value else part target)
    (numbers : List Nat) : ∀ target : Keycache L,
      part ((numbers.flatMap (recordsOf cache mask1)).foldl (KeyRecord.stored mask2) target) =
        if number ∈ numbers ∧ mask1.getLsbD number = true ∧ asks then value else part target := by
  induction numbers with
  | nil => exact fun target => (if_neg fun all => absurd all.1 List.not_mem_nil).symm
  | cons key numbers ih =>
    intro target
    rw [List.flatMap_cons, List.foldl_append, ih, one key target]
    by_cases later : number ∈ numbers ∧ mask1.getLsbD number = true ∧ asks
    · rw [if_pos later, if_pos ⟨List.mem_cons_of_mem key later.1, later.2⟩]
    · rw [if_neg later]
      by_cases here : number = key
      · subst here
        simp only [true_and, List.mem_cons, true_or]
      · rw [if_neg fun all => here all.1, if_neg fun all => later
          ⟨(List.mem_cons.mp all.1).resolve_left here, all.2⟩]

/-- Importing the records of the keys of the first mask. -/
theorem stored_merged (exportable : Exportable cache mask1) (mask2 : BitVec 32)
    (target : Keycache L) :
    Merged cache mask1 mask2 target
      ((exportedRecords cache mask1).foldl (KeyRecord.stored mask2) target) where
  slots s other := by
    have small : s.key ∈ List.range 32 := by cases s <;> decide
    have result := stored_part (fun cache => cache s) (cache s) s.key
      (fun key target => stored_slot exportable mask2 key target other)
      (List.range 32) target
    simp only [small, true_and] at result
    exact result
  fileWrite := by
    have small : Slot.hmacFile.key ∈ List.range 32 := by decide
    have result := stored_part Keycache.fileWriteHmac (Keycache.fileHmac cache) Slot.hmacFile.key
      (fun key target => stored_fileWrite exportable mask2 key target)
      (List.range 32) target
    simp only [small, true_and] at result
    exact result

/-- Each exported record is accepted, whatever the mask of the import asks for. -/
theorem exported_accepted (exportable : Exportable cache mask1) :
    ∀ r ∈ exportedRecords cache mask1, r.Accepted L mask2 := by
  intro r member
  obtain ⟨key, _, member⟩ := List.mem_flatMap.mp member
  unfold recordsOf at member
  by_cases asked : mask1.getLsbD key = true
  · obtain ⟨s, held, slot, present⟩ := exportable key asked
    obtain ⟨_, small, _, slots, known, members⟩ := exportSlot_eq_some slot
    unfold recordOf at member
    rw [if_pos asked, slot, Option.bind_some, present] at member
    obtain rfl := List.mem_singleton.mp member
    have type : (UInt8.ofNat key).toNat = key := UInt8.toNat_ofNat_of_lt' small
    refine ⟨slots, by rw [type]; exact known, ?_⟩
    intro other among _
    rcases (members other).mp among with rfl | ⟨rfl, rfl⟩
    · exact ⟨held, other.encoding.encodes_encode held⟩
    · exact ⟨held, Slot.hmacFile.encoding.encodes_encode held⟩
  · rw [if_neg asked] at member
    exact absurd member List.not_mem_nil

/-- Keys that are exported come back, and an import accepts exactly the sequences of whole records
that are well formed where its mask asks for them. -/
structure KeysRoundTrip (cache : Keycache L) (mask1 : BitVec 32) : Prop where
  /-- The keys are exported, and importing them sets the slots of both masks and no others. -/
  exported : ∃ blob, cryptoKeysExport cache mask1 = .ok blob ∧
    ∀ (mask2 : BitVec 32) (target : Keycache L), ∃ result,
      cryptoKeysImport blob mask2 0 blob.length target = some (0, result) ∧
        Merged cache mask1 mask2 target result
  /-- An import reads nothing outside of its buffer, and accepts exactly such sequences. -/
  accepts : ∀ (mask2 : BitVec 32) (buf : List UInt8) (target : Keycache L), ∃ rc result,
    cryptoKeysImport buf mask2 0 buf.length target = some (rc, result) ∧
      (rc = 0 ↔ ∃ records : List KeyRecord, buf = records.flatMap KeyRecord.encode ∧
        ∀ r ∈ records, r.Accepted L mask2)

/-- Exported keys come back exactly if no integer of the RSA keys among them is zero. -/
theorem crypto_keys_round_trip (exportable : Exportable cache mask1) :
    KeysRoundTrip cache mask1 ↔ NoZeroIntegers cache mask1 := by
  constructor
  · intro roundTrip
    by_contra zero
    obtain ⟨blob, exported, _⟩ := roundTrip.exported
    rw [cryptoKeysExport_zero exportable zero] at exported
    cases exported
  · intro nonzero
    refine ⟨⟨_, cryptoKeysExport_ok exportable nonzero, ?_⟩, cryptoKeysImport_accepts⟩
    intro mask2 target
    refine ⟨_, ?_, stored_merged exportable mask2 target⟩
    exact cryptoKeysImport_ok (exported_accepted exportable) target (At.whole _)

/-- A number of one byte. -/
def byteNumber (byte : UInt8) (nonzero : byte ≠ 0) : Bignum wordLimit where
  bytes := [byte]
  normal := fun zero => nonzero (Option.some.inj zero)
  small := Nat.le_of_ble_eq_true rfl

/-- A cache with a pair of keys for the modulus 3 * 11, and the key of the file HMAC. -/
def signAndHmac : Keycache wordLimit
  | .signPriv => some (byteNumber 33 (by decide) ::ᵥ byteNumber 3 (by decide) ::ᵥ
      byteNumber 7 (by decide) ::ᵥ byteNumber 3 (by decide) ::ᵥ byteNumber 11 (by decide) ::ᵥ
      byteNumber 1 (by decide) ::ᵥ byteNumber 7 (by decide) ::ᵥ byteNumber 2 (by decide) ::ᵥ .nil)
  | .signPub => some (byteNumber 33 (by decide) ::ᵥ byteNumber 3 (by decide) ::ᵥ .nil)
  | .hmacFile => some (List.Vector.replicate 32 0)
  | _ => none

/-- The signing keys and the file HMAC key come back. -/
theorem crypto_keys_round_trip_sign : KeysRoundTrip signAndHmac 19 := by
  have bits : ∀ key, (19 : BitVec 32).getLsbD key = true → key = 0 ∨ key = 1 ∨ key = 4 := by
    intro key set
    have small := BitVec.lt_of_getLsbD set
    have all : ∀ key < 32, (19 : BitVec 32).getLsbD key = true → key = 0 ∨ key = 1 ∨ key = 4 := by
      decide
    exact all key small set
  have exportable : Exportable signAndHmac 19 := by
    intro key asked
    rcases bits key asked with rfl | rfl | rfl
    · exact ⟨.signPriv, _, rfl, rfl⟩
    · exact ⟨.signPub, _, rfl, rfl⟩
    · exact ⟨.hmacFile, _, rfl, rfl⟩
  apply (crypto_keys_round_trip exportable).mpr
  intro key asked s held slot present
  rcases bits key asked with rfl | rfl | rfl
  · cases slot
    cases present
    simp [Slot.encoding, Encoding.NoZero, byteNumber]
  · cases slot
    cases present
    simp [Slot.encoding, Encoding.NoZero, byteNumber]
  · cases slot
    exact trivial

/-- The number zero. -/
def zeroNumber : Bignum wordLimit where
  bytes := []
  normal := by decide
  small := by decide

/-- A cache with one key, a public key with two integers that are zero. -/
def zeroKey : Keycache wordLimit
  | .signPub => some (zeroNumber ::ᵥ zeroNumber ::ᵥ .nil)
  | _ => none

/-- The public key with zeros is imported from a record of 13 bytes. -/
theorem zeroKey_imported : cryptoKeysImport [8, 0, 0, 0, 1, 0, 0, 0, 0, 0, 0, 0, 0] 2 0 13
    (fun _ => none) = some (0, zeroKey) := by
  have encodes : Slot.signPub.encoding.Encodes (zeroNumber ::ᵥ zeroNumber ::ᵥ .nil)
      [0, 0, 0, 0, 0, 0, 0, 0] :=
    ⟨[[], []], .cons zeroNumber.fits (.cons zeroNumber.fits .nil), rfl⟩
  have accepted : ∀ r ∈ [KeyRecord.mk 1 [0, 0, 0, 0, 0, 0, 0, 0] (by decide)],
      r.Accepted wordLimit 2 := by
    intro r member
    obtain rfl := List.mem_singleton.mp member
    refine ⟨[.signPub], rfl, fun s among _ => ?_⟩
    obtain rfl := List.mem_singleton.mp among
    exact ⟨_, encodes⟩
  have result := cryptoKeysImport_ok accepted (fun _ => none) (At.whole _)
  refine result.trans (congrArg (fun cache => some (0, cache)) ?_)
  funext s
  cases s with
  | signPub => exact encodes.decode
  | _ => rfl

/-- The public key with zeros is imported, and does not come back. -/
theorem crypto_keys_round_trip_zero :
    cryptoKeysImport [8, 0, 0, 0, 1, 0, 0, 0, 0, 0, 0, 0, 0] 2 0 13 (fun _ => none) =
      some (0, zeroKey) ∧ ¬ KeysRoundTrip zeroKey 2 := by
  refine ⟨zeroKey_imported, ?_⟩
  have bit : ∀ key, (2 : BitVec 32).getLsbD key = true → key = 1 := by
    intro key set
    have small := BitVec.lt_of_getLsbD set
    have all : ∀ key < 32, (2 : BitVec 32).getLsbD key = true → key = 1 := by decide
    exact all key small set
  have exportable : Exportable zeroKey 2 := by
    intro key asked
    obtain rfl := bit key asked
    exact ⟨.signPub, _, rfl, rfl⟩
  have zero : ¬ NoZeroIntegers zeroKey 2 := fun nonzero =>
    nonzero 1 (by decide) .signPub _ rfl rfl zeroNumber List.mem_cons_self rfl
  intro roundTrip
  obtain ⟨blob, exported, _⟩ := roundTrip.exported
  rw [cryptoKeysExport_zero exportable zero] at exported
  cases exported

end RoundTrip

end Tarsnap.Crypto
