import Tarsnap.Crypto.Keys

/-!
# What an import accepts

An import takes a buffer apart into records. It accepts the buffer if it is a sequence of whole
records of known types, and the data of each is well formed for the slots that the mask asks for.
It never reads past the end of the buffer.
-/

namespace Tarsnap.Crypto

open Tarsnap.Lib

section Buffers

/-- The buffer holds the data at a place. -/
structure At (mem : List UInt8) (pos : Nat) (data : List UInt8) : Prop where
  /-- The data is inside the buffer. -/
  within : pos + data.length ≤ mem.length
  /-- These are its bytes. -/
  bytes : (mem.drop pos).take data.length = data

variable {mem : List UInt8} {pos : Nat} {first second : List UInt8}

/-- A buffer holds all of its data at its start. -/
theorem At.whole (mem : List UInt8) : At mem 0 mem where
  within := le_of_eq (Nat.zero_add _)
  bytes := List.take_length

/-- The first part of the data. -/
theorem At.left (here : At mem pos (first ++ second)) : At mem pos first where
  within := by
    have within := here.within
    rw [List.length_append] at within
    omega
  bytes := by
    have bytes := congrArg (List.take first.length) here.bytes
    rwa [List.take_take, List.length_append, Nat.min_eq_left (Nat.le_add_right _ _),
      List.take_left] at bytes

/-- The second part of the data. -/
theorem At.right (here : At mem pos (first ++ second)) : At mem (pos + first.length) second where
  within := by
    have within := here.within
    rw [List.length_append] at within
    omega
  bytes := by
    have bytes := congrArg (List.drop first.length) here.bytes
    rwa [List.drop_take, List.length_append, Nat.add_sub_cancel_left, List.drop_drop,
      List.drop_left] at bytes

/-- Data that the buffer holds can be read. -/
theorem At.load {data : List UInt8} (here : At mem pos data) {len : Nat}
    (length : data.length = len) : load mem pos len = .ok data := by
  subst length
  unfold Crypto.load
  rw [if_pos here.within, here.bytes]

end Buffers

section Integers

variable {L : BignumLimit}

/-- An integer in a key: the length of its bytes and its bytes, least significant byte first. -/
def encodeInt (bytes : List UInt8) : List UInt8 := leEnc 4 bytes.length ++ bytes

/-- The bytes are those of a number, with zeros at the end. -/
structure Fits (bn : Bignum L) (bytes : List UInt8) : Prop where
  /-- The length is an integer. -/
  length : bytes.length ≤ INT_MAX
  /-- The number has these bytes. -/
  trimmed : trim bytes = bn.bytes

/-- A number is found from its bytes and from no others. -/
theorem bnBin2bn_eq_some {bytes : List UInt8} {bn : Bignum L} :
    bnBin2bn L bytes.reverse = some bn ↔ trim bytes = bn.bytes := by
  unfold bnBin2bn
  simp only [List.reverse_reverse]
  obtain ⟨digits, normal, small⟩ := bn
  constructor
  · intro found
    split at found
    · exact congrArg Bignum.bytes (Option.some.inj found)
    · cases found
  · rintro rfl
    exact dif_pos small

/-- The length before an integer is read back. -/
theorem leDec_length {bytes : List UInt8} (short : bytes.length < 4294967296) :
    leDec (leEnc 4 bytes.length) = bytes.length := by
  rw [leDec_leEnc]
  exact Nat.mod_eq_of_lt short

/-- An integer is imported. -/
theorem importBN_ok {mem : List UInt8} {pos : Nat} {bn : Bignum L} {bytes rest : List UInt8}
    (fits : Fits bn bytes) (here : At mem pos (encodeInt bytes ++ rest)) :
    importBN L mem pos (encodeInt bytes ++ rest).length =
      .ok (bn, pos + (encodeInt bytes).length, rest.length) := by
  have length := fits.length
  have four : (leEnc 4 bytes.length).length = 4 := leEnc_length 4 _
  have field := here.left.left.load four
  have second := here.left.right
  rw [four] at second
  unfold importBN
  unfold INT_MAX at *
  have lengths : (encodeInt bytes ++ rest).length = 4 + bytes.length + rest.length := by
    rw [List.length_append, encodeInt, List.length_append, four]
  rw [lengths, if_neg (by omega), field, ok_bind]
  simp only [leDec_length (show bytes.length < 4294967296 by omega)]
  rw [if_neg (by omega), if_neg (by omega), second.load rfl, ok_bind,
    bnBin2bn_eq_some.mpr fits.trimmed]
  have whole : (encodeInt bytes).length = 4 + bytes.length := by
    rw [encodeInt, List.length_append, four]
  have after : 4 + bytes.length + rest.length - 4 - bytes.length = rest.length := by omega
  simp only [whole, after]
  rw [Nat.add_assoc]

/-- Nothing but an integer is imported. -/
theorem importBN_cases {mem : List UInt8} {pos : Nat} {data : List UInt8} (here : At mem pos data) :
    importBN L mem pos data.length = .error .failed ∨
      ∃ (bn : Bignum L) (bytes rest : List UInt8), Fits bn bytes ∧
        data = encodeInt bytes ++ rest := by
  unfold importBN
  by_cases short : data.length < 4
  · rw [if_pos short]
    exact .inl rfl
  rw [if_neg short]
  have parts := List.take_append_drop 4 data
  rw [← parts] at here
  have four : (data.take 4).length = 4 := by
    rw [List.length_take]
    omega
  rw [here.left.load four, ok_bind]
  simp only
  by_cases large : INT_MAX < leDec (data.take 4)
  · rw [if_pos large]
    exact .inl rfl
  rw [if_neg large]
  by_cases cut : data.length - 4 < leDec (data.take 4)
  · rw [if_pos cut]
    exact .inl rfl
  rw [if_neg cut]
  have inner := List.take_append_drop (leDec (data.take 4)) (data.drop 4)
  have length : ((data.drop 4).take (leDec (data.take 4))).length = leDec (data.take 4) := by
    rw [List.length_take, List.length_drop]
    omega
  have second := here.right
  rw [four, ← inner] at second
  rw [second.left.load length, ok_bind]
  generalize (data.drop 4).take (leDec (data.take 4)) = bytes at *
  cases found : bnBin2bn L bytes.reverse with
  | none => exact .inl rfl
  | some bn =>
    refine .inr ⟨bn, bytes, (data.drop 4).drop (leDec (data.take 4)), ⟨?_, ?_⟩, ?_⟩
    · rw [length]
      exact Nat.not_lt.mp large
    · exact bnBin2bn_eq_some.mp found
    · have field := leEnc_leDec (data.take 4)
      rw [four] at field
      rw [encodeInt, length, field, List.append_assoc, inner, parts]

/-- The integers of a key are imported. -/
theorem importInts_ok {mem : List UInt8} {count : Nat} {ints : List.Vector (Bignum L) count}
    {raw : List (List UInt8)} {rest : List UInt8} (fits : List.Forall₂ Fits ints.toList raw) :
    ∀ {pos : Nat}, At mem pos (raw.flatMap encodeInt ++ rest) →
      importInts L mem count pos (raw.flatMap encodeInt ++ rest).length =
        .ok (ints, pos + (raw.flatMap encodeInt).length, rest.length) := by
  induction count generalizing raw with
  | zero =>
    intro pos here
    rw [List.Vector.eq_nil ints] at fits ⊢
    cases fits
    rfl
  | succ count ih =>
    intro pos here
    obtain ⟨bn, later, rfl⟩ := List.Vector.exists_eq_cons ints
    rw [List.Vector.toList_cons] at fits
    cases fits with
    | cons first others =>
      rw [List.flatMap_cons, List.append_assoc] at here ⊢
      rw [importInts, importBN_ok first here, ok_bind]
      simp only
      rw [ih others here.right, ok_bind, pure_eq_ok, List.length_append, Nat.add_assoc]

/-- Nothing but the integers of a key is imported. -/
theorem importInts_cases {mem : List UInt8} (count : Nat) :
    ∀ {pos : Nat} {data : List UInt8}, At mem pos data →
      importInts L mem count pos data.length = .error .failed ∨
        ∃ (ints : List.Vector (Bignum L) count) (raw : List (List UInt8)) (rest : List UInt8),
          List.Forall₂ Fits ints.toList raw ∧ data = raw.flatMap encodeInt ++ rest := by
  induction count with
  | zero => exact fun _ => .inr ⟨.nil, [], _, .nil, rfl⟩
  | succ count ih =>
    intro pos data here
    rcases importBN_cases (L := L) here with failed | ⟨bn, bytes, middle, fits, rfl⟩
    · rw [importInts, failed]
      exact .inl rfl
    · rcases ih here.right with failed | ⟨ints, raw, rest, others, rfl⟩
      · rw [importInts, importBN_ok fits here, ok_bind]
        simp only
        rw [failed]
        exact .inl rfl
      · refine .inr ⟨bn ::ᵥ ints, bytes :: raw, rest, ?_, ?_⟩
        · rw [List.Vector.toList_cons]
          exact .cons fits others
        · rw [List.flatMap_cons, List.append_assoc]

end Integers

section Keys

variable {L : BignumLimit}

/-- The data is that of a key. -/
def Encoding.Encodes : (e : Encoding) → e.Key L → List UInt8 → Prop
  | rsa _, ints, data =>
    ∃ raw : List (List UInt8), List.Forall₂ Fits ints.toList raw ∧ data = raw.flatMap encodeInt
  | hmac, key, data => data = key.toList

/-- The data of a key is imported. -/
theorem Encoding.importKey_ok {e : Encoding} {key : e.Key L} {mem : List UInt8} {pos : Nat}
    {data : List UInt8} (encodes : e.Encodes key data) (here : At mem pos data) :
    e.importKey L mem pos data.length = .ok key := by
  cases e with
  | rsa count =>
    obtain ⟨raw, fits, rfl⟩ := encodes
    have here : At mem pos (raw.flatMap encodeInt ++ []) := by rwa [List.append_nil]
    have found := importInts_ok fits here
    rw [List.append_nil] at found
    unfold importKey importRSA
    simp only [found, ok_bind]
    rfl
  | hmac =>
    obtain rfl := encodes
    have length : key.toList.length = 32 := key.toList_length
    unfold importKey importHMAC
    simp only [length]
    rw [if_neg (by omega), here.load length, ok_bind]
    simp only [length, dif_pos]
    rfl

/-- Nothing but the data of a key is imported. -/
theorem Encoding.importKey_cases (e : Encoding) {mem : List UInt8} {pos : Nat} {data : List UInt8}
    (here : At mem pos data) :
    e.importKey L mem pos data.length = .error .failed ∨ ∃ key : e.Key L, e.Encodes key data := by
  cases e with
  | rsa count =>
    rcases importInts_cases (L := L) count here with failed | ⟨ints, raw, rest, fits, rfl⟩
    · unfold importKey importRSA
      simp only [failed]
      exact .inl rfl
    · by_cases more : rest.length ≠ 0
      · unfold importKey importRSA
        simp only [importInts_ok fits here, ok_bind, if_pos more]
        exact .inl rfl
      · obtain rfl := List.length_eq_zero_iff.mp (Decidable.not_not.mp more)
        rw [List.append_nil]
        exact .inr ⟨ints, raw, fits, rfl⟩
  | hmac =>
    by_cases wrong : data.length ≠ 32
    · unfold importKey importHMAC
      exact .inl (if_pos wrong)
    · exact .inr ⟨⟨data, Decidable.not_not.mp wrong⟩, rfl⟩

/-- The key with the data, if there is one. -/
def Encoding.decode (L : BignumLimit) (e : Encoding) (data : List UInt8) : Option (e.Key L) :=
  (e.importKey L data 0 data.length).toOption

/-- The data is well formed. -/
def Encoding.WellFormed (L : BignumLimit) (e : Encoding) (data : List UInt8) : Prop :=
  ∃ key : e.Key L, e.Encodes key data

/-- The data of a key is decoded. -/
theorem Encoding.Encodes.decode {e : Encoding} {key : e.Key L} {data : List UInt8}
    (encodes : e.Encodes key data) : e.decode L data = some key := by
  unfold Encoding.decode
  rw [Encoding.importKey_ok encodes (At.whole data)]
  rfl

end Keys

section Slots

variable {L : BignumLimit} {mem : List UInt8} {pos : Nat} {data : List UInt8}

/-- The cache after a key is imported into those of some slots that the mask asks for. -/
def imported (keys : BitVec 32) (slots : List Slot) (data : List UInt8) (cache : Keycache L) :
    Keycache L := fun s =>
  if s ∈ slots ∧ keys.getLsbD s.key = true then s.encoding.decode L data else cache s

/-- The data is well formed for those of some slots that the mask asks for. -/
def Selected (L : BignumLimit) (keys : BitVec 32) (slots : List Slot) (data : List UInt8) : Prop :=
  ∀ s ∈ slots, keys.getLsbD s.key = true → s.encoding.WellFormed L data

/-- A slot that the mask does not ask for changes nothing. -/
theorem imported_skip {keys : BitVec 32} {s : Slot} (skipped : keys.getLsbD s.key ≠ true)
    (slots : List Slot) (data : List UInt8) (cache : Keycache L) :
    imported keys (s :: slots) data cache = imported keys slots data cache := by
  funext other
  unfold imported
  by_cases same : other = s
  · subst same
    rw [if_neg fun both => skipped both.2, if_neg fun both => skipped both.2]
  · simp only [List.mem_cons, same, false_or]

/-- A slot that the mask asks for is set first. -/
theorem imported_set {keys : BitVec 32} {s : Slot} (asked : keys.getLsbD s.key = true)
    (slots : List Slot) {key : s.encoding.Key L} (encodes : s.encoding.Encodes key data)
    (cache : Keycache L) :
    imported keys (s :: slots) data cache =
      imported keys slots data (Function.update cache s (some key)) := by
  funext other
  unfold imported
  by_cases same : other = s
  · subst same
    rw [if_pos ⟨List.mem_cons_self, asked⟩, Function.update_self, encodes.decode]
    split <;> rfl
  · simp only [List.mem_cons, same, false_or, Function.update_of_ne same]

/-- The key is imported if the data is well formed where the mask asks for it. -/
theorem importSlots_ok {keys : BitVec 32} {slots : List Slot} (here : At mem pos data)
    (selected : Selected L keys slots data) (cache : Keycache L) :
    importSlots keys mem pos data.length slots cache =
      some (0, imported keys slots data cache) := by
  induction slots generalizing cache with
  | nil =>
    unfold importSlots imported
    simp only [List.not_mem_nil, false_and, if_false]
  | cons s slots ih =>
    have later := ih fun other member => selected other (List.mem_cons_of_mem s member)
    unfold importSlots
    by_cases asked : keys.getLsbD s.key = true
    · obtain ⟨key, encodes⟩ := selected s List.mem_cons_self asked
      rw [if_pos asked, imported_set asked slots encodes]
      unfold importInto
      rw [Encoding.importKey_ok encodes here]
      exact later _
    · rw [if_neg asked, imported_skip asked]
      exact later cache

/-- Otherwise it is refused. -/
theorem importSlots_refused {keys : BitVec 32} {slots : List Slot} (here : At mem pos data)
    (malformed : ¬ Selected L keys slots data) (cache : Keycache L) :
    ∃ cache', importSlots keys mem pos data.length slots cache = some (-1, cache') := by
  induction slots generalizing cache with
  | nil => exact absurd (fun s member => absurd member List.not_mem_nil) malformed
  | cons s slots ih =>
    unfold importSlots
    by_cases asked : keys.getLsbD s.key = true
    · rw [if_pos asked]
      unfold importInto
      rcases s.encoding.importKey_cases (L := L) here with failed | ⟨key, encodes⟩
      · rw [failed]
        exact ⟨_, rfl⟩
      · rw [Encoding.importKey_ok encodes here]
        refine ih ?_ _
        intro selected
        apply malformed
        intro other member bit
        rcases List.mem_cons.mp member with rfl | member
        · exact ⟨key, encodes⟩
        · exact selected other member bit
    · rw [if_neg asked]
      refine ih ?_ cache
      intro selected
      apply malformed
      intro other member bit
      rcases List.mem_cons.mp member with rfl | member
      · exact absurd bit asked
      · exact selected other member bit

end Slots

section Records

variable {L : BignumLimit} {mem : List UInt8} {pos : Nat}

/-- A record of exported keys. -/
structure KeyRecord where
  /-- The type of the key. -/
  type : UInt8
  /-- The data of the key. -/
  data : List UInt8
  /-- The length of the data has 32 bits. -/
  short : data.length < 4294967296

/-- The bytes of a record: length, type and data. -/
def KeyRecord.encode (r : KeyRecord) : List UInt8 := leEnc 4 r.data.length ++ [r.type] ++ r.data

/-- The type is known, and the data is well formed where the mask asks for it. -/
def KeyRecord.Accepted (L : BignumLimit) (keys : BitVec 32) (r : KeyRecord) : Prop :=
  ∃ slots, slotsOf r.type.toNat = some slots ∧ Selected L keys slots r.data

/-- The cache after a record is imported. -/
def KeyRecord.stored (keys : BitVec 32) (cache : Keycache L) (r : KeyRecord) : Keycache L :=
  imported keys ((slotsOf r.type.toNat).getD []) r.data cache

/-- The header of a record. -/
theorem keyHeader_length (r : KeyRecord) :
    (leEnc 4 r.data.length ++ [r.type]).length = KEYHEADER_LEN := by
  rw [List.length_append, leEnc_length]
  rfl

/-- A buffer with a record at its front gets to the slots of its type. -/
theorem cryptoKeysImport_front {keys : BitVec 32} {r : KeyRecord} {rest : List UInt8}
    (here : At mem pos (r.encode ++ rest)) (cache : Keycache L) :
    cryptoKeysImport mem keys pos (r.encode ++ rest).length cache =
      (slotsOf r.type.toNat).elim (some (-1, cache)) fun slots =>
        (importSlots keys mem (pos + KEYHEADER_LEN) r.data.length slots cache).bind fun result =>
          if result.1 ≠ 0 then some (-1, result.2)
          else cryptoKeysImport mem keys (pos + r.encode.length) rest.length result.2 := by
  have four : (leEnc 4 r.data.length).length = 4 := leEnc_length 4 _
  have header := keyHeader_length r
  have whole : r.encode.length = KEYHEADER_LEN + r.data.length := by
    rw [KeyRecord.encode, List.length_append, header]
  have lengths : (r.encode ++ rest).length = KEYHEADER_LEN + r.data.length + rest.length := by
    rw [List.length_append, whole]
  have loaded := here.left.left.load header
  have len : leDec ((leEnc 4 r.data.length ++ [r.type]).take 4) = r.data.length := by
    rw [List.take_left' four]
    exact leDec_length r.short
  have type : leDec ((leEnc 4 r.data.length ++ [r.type]).drop 4) = r.type.toNat := by
    rw [List.drop_left' four]
    exact Nat.add_zero _
  rw [cryptoKeysImport, lengths, if_neg (by unfold KEYHEADER_LEN; omega), if_neg (by omega), loaded]
  simp only [Except.toOption, Option.bind_eq_bind, Option.bind_some, len, type]
  rw [if_neg (by omega)]
  have next : pos + KEYHEADER_LEN + r.data.length = pos + r.encode.length := by omega
  have left : KEYHEADER_LEN + r.data.length + rest.length - KEYHEADER_LEN - r.data.length =
      rest.length := by omega
  cases slotsOf r.type.toNat with
  | none => rfl
  | some slots =>
    simp only [next, left]
    rfl

/-- Where the data of a record is. -/
theorem At.data {r : KeyRecord} {rest : List UInt8} (here : At mem pos (r.encode ++ rest)) :
    At mem (pos + KEYHEADER_LEN) r.data := by
  have data := here.left.right
  rwa [keyHeader_length] at data

/-- An accepted record is imported. -/
theorem cryptoKeysImport_record {keys : BitVec 32} {r : KeyRecord} {rest : List UInt8}
    (here : At mem pos (r.encode ++ rest)) (accepted : r.Accepted L keys) (cache : Keycache L) :
    cryptoKeysImport mem keys pos (r.encode ++ rest).length cache =
      cryptoKeysImport mem keys (pos + r.encode.length) rest.length (r.stored keys cache) := by
  obtain ⟨slots, known, selected⟩ := accepted
  rw [cryptoKeysImport_front here, known, Option.elim_some,
    importSlots_ok here.data selected cache]
  unfold KeyRecord.stored
  rw [known]
  rfl

/-- Accepted records are imported. -/
theorem cryptoKeysImport_ok {keys : BitVec 32} {records : List KeyRecord}
    (accepted : ∀ r ∈ records, r.Accepted L keys) :
    ∀ {pos : Nat} (cache : Keycache L), At mem pos (records.flatMap KeyRecord.encode) →
      cryptoKeysImport mem keys pos (records.flatMap KeyRecord.encode).length cache =
        some (0, records.foldl (KeyRecord.stored keys) cache) := by
  induction records with
  | nil =>
    intro pos cache here
    rw [cryptoKeysImport]
    exact if_pos rfl
  | cons r records ih =>
    intro pos cache here
    rw [List.flatMap_cons] at here ⊢
    rw [cryptoKeysImport_record here (accepted r List.mem_cons_self)]
    exact ih (fun other member => accepted other (List.mem_cons_of_mem r member)) _ here.right

/-- Data that is long enough is a record and what follows, or the record is cut short. -/
theorem record_front {data : List UInt8} (long : KEYHEADER_LEN ≤ data.length) :
    data.length - KEYHEADER_LEN < leDec (data.take 4) ∨
      ∃ (r : KeyRecord) (rest : List UInt8), data = r.encode ++ rest := by
  by_cases cut : data.length - KEYHEADER_LEN < leDec (data.take 4)
  · exact .inl cut
  refine .inr ?_
  unfold KEYHEADER_LEN at *
  have four : (data.take 4).length = 4 := by
    rw [List.length_take]
    omega
  have bounded := leDec_lt (data.take 4)
  have field := leEnc_leDec (data.take 4)
  rw [four] at bounded field
  have outer := List.take_append_drop 4 data
  cases tail : data.drop 4 with
  | nil =>
    have length := congrArg List.length tail
    rw [List.length_drop, List.length_nil] at length
    omega
  | cons type body =>
    rw [tail] at outer
    have length := congrArg List.length tail
    rw [List.length_drop, List.length_cons] at length
    have bytes : (body.take (leDec (data.take 4))).length = leDec (data.take 4) := by
      rw [List.length_take]
      omega
    refine ⟨⟨type, body.take (leDec (data.take 4)), by rw [bytes]; exact bounded⟩,
      body.drop (leDec (data.take 4)), ?_⟩
    unfold KeyRecord.encode
    simp only [bytes, field]
    rw [List.append_assoc, List.append_assoc, List.take_append_drop]
    exact outer.symm

/-- A buffer is refused, or it is a sequence of accepted records. -/
theorem cryptoKeysImport_cases {keys : BitVec 32} (data : List UInt8) :
    ∀ {pos : Nat} (cache : Keycache L), At mem pos data →
      (∃ cache', cryptoKeysImport mem keys pos data.length cache = some (-1, cache')) ∨
        ∃ records : List KeyRecord, data = records.flatMap KeyRecord.encode ∧
          ∀ r ∈ records, r.Accepted L keys := by
  induction length : data.length using Nat.strong_induction_on generalizing data with
  | _ n ih =>
    intro pos cache here
    subst length
    by_cases empty : data.length = 0
    · obtain rfl := List.length_eq_zero_iff.mp empty
      exact .inr ⟨[], rfl, fun r member => absurd member List.not_mem_nil⟩
    by_cases short : data.length < KEYHEADER_LEN
    · refine .inl ⟨cache, ?_⟩
      rw [cryptoKeysImport, if_neg empty, if_pos short]
    rcases record_front (Nat.not_lt.mp short) with cut | ⟨r, rest, rfl⟩
    · have parts := List.take_append_drop KEYHEADER_LEN data
      rw [← parts] at here
      have five : (data.take KEYHEADER_LEN).length = KEYHEADER_LEN := by
        rw [List.length_take]
        omega
      refine .inl ⟨cache, ?_⟩
      rw [cryptoKeysImport, if_neg empty, if_neg short, here.left.load five]
      simp only [Except.toOption, Option.bind_eq_bind, Option.bind_some, List.take_take]
      exact if_pos cut
    · rw [cryptoKeysImport_front here]
      cases known : slotsOf r.type.toNat with
      | none => exact .inl ⟨cache, rfl⟩
      | some slots =>
        rw [Option.elim_some]
        by_cases selected : Selected L keys slots r.data
        · rw [importSlots_ok here.data selected cache]
          have less : rest.length < (r.encode ++ rest).length := by
            rw [List.length_append, KeyRecord.encode, List.length_append, keyHeader_length]
            unfold KEYHEADER_LEN
            omega
          rcases ih _ less rest rfl (imported keys slots r.data cache) here.right with
            refused | ⟨records, rfl, accepted⟩
          · exact .inl refused
          · refine .inr ⟨r :: records, rfl, ?_⟩
            intro other member
            rcases List.mem_cons.mp member with rfl | member
            · exact ⟨slots, known, selected⟩
            · exact accepted other member
        · obtain ⟨cache', refused⟩ := importSlots_refused here.data selected cache
          rw [refused]
          exact .inl ⟨cache', rfl⟩

/-- An import reads nothing outside of the buffer, and it accepts a buffer if and only if it is a
sequence of whole records of known types with data that is well formed where the mask asks for
it. -/
theorem cryptoKeysImport_accepts (keys : BitVec 32) (buf : List UInt8) (cache : Keycache L) :
    ∃ (rc : Int) (cache' : Keycache L),
      cryptoKeysImport buf keys 0 buf.length cache = some (rc, cache') ∧
        (rc = 0 ↔ ∃ records : List KeyRecord, buf = records.flatMap KeyRecord.encode ∧
          ∀ r ∈ records, r.Accepted L keys) := by
  by_cases sequence : ∃ records : List KeyRecord, buf = records.flatMap KeyRecord.encode ∧
      ∀ r ∈ records, r.Accepted L keys
  · obtain ⟨records, rfl, accepted⟩ := sequence
    exact ⟨0, _, cryptoKeysImport_ok accepted cache (At.whole _),
      iff_of_true rfl ⟨records, rfl, accepted⟩⟩
  · obtain ⟨cache', refused⟩ :=
      (cryptoKeysImport_cases buf cache (At.whole buf)).resolve_right sequence
    exact ⟨-1, cache', refused, iff_of_false (by decide) sequence⟩

end Records

end Tarsnap.Crypto
