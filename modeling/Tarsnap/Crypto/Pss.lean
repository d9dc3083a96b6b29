import Tarsnap.Crypto.Oaep

/-!
# PSS signing and verification agree

The masked part of a block for a signature starts with a bit that is cleared, on both sides. A block
is verified if and only if it is the block that signing makes of the hash of the data for some salt.
The salt is found in the block, so blocks for two hashes are the same only if SHA256 has a
collision.
-/

namespace Tarsnap.Crypto

open Tarsnap.Lib Tarsnap.Netpacket

section Top

/-- A byte whose highest bit is clear. -/
theorem byte_clear (byte : UInt8) : byte &&& 0x80 = 0 ↔ byte &&& 0x7f = byte := by
  have all : ∀ n < 256, ((UInt8.ofNat n &&& 0x80 = 0) ↔
      UInt8.ofNat n &&& 0x7f = UInt8.ofNat n) := by decide +kernel
  have known := all byte.toNat byte.toNat_lt
  rwa [UInt8.ofNat_toNat] at known

/-- Clearing the highest bit keeps the length. -/
@[simp] theorem clearTop_length (bytes : List UInt8) : (clearTop bytes).length = bytes.length := by
  cases bytes <;> rfl

/-- The highest bit of a string is clear. -/
theorem clearTop_eq_self {bytes : List UInt8} : clearTop bytes = bytes ↔ bytes.getD 0 0 &&& 0x80 =
    0 := by
  cases bytes with
  | nil => exact ⟨fun _ => by decide, fun _ => rfl⟩
  | cons first rest =>
    have start : (first :: rest).getD 0 0 = first := rfl
    rw [start, byte_clear, clearTop, List.cons.injEq]
    exact ⟨And.left, fun same => ⟨same, rfl⟩⟩

/-- Clearing the bit twice is clearing it once. -/
theorem clearTop_clearTop (bytes : List UInt8) : clearTop (clearTop bytes) = clearTop bytes := by
  cases bytes with
  | nil => rfl
  | cons first rest =>
    rw [clearTop, clearTop, UInt8.and_assoc]
    rfl

/-- Masking, and clearing the bit afterwards. -/
theorem clearTop_xor {left right : List UInt8} (lengths : left.length = right.length) :
    clearTop (xorBytes (clearTop left) right) = clearTop (xorBytes left right) := by
  cases left with
  | nil => rfl
  | cons first left =>
    cases right with
    | nil => cases lengths
    | cons second right =>
      have bits : ((first &&& 0x7f) ^^^ second) &&& 0x7f = (first ^^^ second) &&& 0x7f := by
        rw [← UInt8.toNat_inj]
        simp only [UInt8.toNat_and, UInt8.toNat_xor, Nat.and_xor_distrib_right, Nat.and_assoc]
        rfl
      unfold xorBytes
      rw [clearTop, List.zipWith_cons_cons, List.zipWith_cons_cons, clearTop, clearTop, bits]

/-- Masked strings with a clear highest bit: each is the other one masked. -/
theorem clearTop_masked {left right mask : List UInt8} (lengths : left.length = mask.length)
    (lengths' : right.length = mask.length) (clear : clearTop left = left)
    (clear' : clearTop right = right) :
    clearTop (xorBytes left mask) = right ↔ left = clearTop (xorBytes right mask) := by
  constructor
  · intro same
    rw [← same, clearTop_xor (by rw [xorBytes_length lengths, lengths]), xorBytes_cancel lengths,
      clear]
  · intro same
    rw [same, clearTop_xor (by rw [xorBytes_length lengths', lengths']), xorBytes_cancel lengths',
      clear']

end Top

section Blocks

variable {sha256 : List UInt8 → Bytes32} {maskedDB H : List UInt8} {last : UInt8}

/-- The parts of a block. -/
theorem pssBlock_parts (maskedLength : maskedDB.length = 223) (hashLength : H.length = 32) :
    (maskedDB ++ H ++ [last]).take 223 = maskedDB ∧
      ((maskedDB ++ H ++ [last]).drop 223).take 32 = H ∧
        (maskedDB ++ H ++ [last]).getD 255 0 = last := by
  have front : (maskedDB ++ H).length = 255 := by
    rw [List.length_append, maskedLength, hashLength]
  refine ⟨?_, ?_, ?_⟩
  · rw [List.append_assoc, List.take_left' maskedLength]
  · rw [List.append_assoc, List.drop_left' maskedLength, List.take_left' hashLength]
  · rw [List.getD_eq_getElem?_getD, List.getElem?_append_right (Nat.le_of_eq front), front]
    rfl

/-- The data that is masked has the right padding if it is made of a salt. -/
theorem padding_salt {DB : List UInt8} (length : DB.length = 223) :
    ((DB.take 190).any (· ≠ 0) = false ∧ DB.getD 190 0 = 1) ↔
      DB = List.replicate 190 0 ++ [1] ++ DB.drop 191 := by
  have one : DB.drop 190 = DB.getD 190 0 :: DB.drop 191 := by
    rw [List.getD_eq_getElem _ _ (by omega), List.drop_eq_getElem_cons (by omega)]
  constructor
  · rintro ⟨zeros, single⟩
    have zeroes : DB.take 190 = List.replicate 190 0 := by
      rw [List.eq_replicate_iff, List.length_take]
      refine ⟨by omega, fun byte member => ?_⟩
      have known := List.any_eq_false.mp zeros byte member
      simpa using known
    conv => lhs; rw [← List.take_append_drop 190 DB, one, single, zeroes]
    rw [List.append_assoc, List.singleton_append]
  · intro shape
    rw [shape]
    refine ⟨?_, ?_⟩
    · rw [List.append_assoc, List.take_left' (List.length_replicate), List.any_replicate]
      decide
    · rw [List.append_assoc, List.getD_eq_getElem?_getD,
        List.getElem?_append_right (by rw [List.length_replicate]), List.length_replicate]
      rfl

/-- The masked part of a block has 223 bytes. -/
theorem maskedDB_length (H : List UInt8) (salt : Bytes32) :
    (clearTop (xorBytes (List.replicate 190 0 ++ [1] ++ salt.toList)
      (cryptoMGF1 sha256 H 223))).length = 223 := by
  have total : (List.replicate 190 (0 : UInt8) ++ [1] ++ salt.toList).length = 223 := by
    rw [List.length_append, List.length_append, List.length_replicate, Vector.length_toList]
    rfl
  rw [clearTop_length, xorBytes_length (by rw [cryptoMGF1_length, total]), total]

/-- A block is the one of a hash for a salt if its parts are. -/
theorem block_eq_pssBlock (maskedLength : maskedDB.length = 223) (hashLength : H.length = 32)
    {mHash : List UInt8} {salt : Bytes32} :
    maskedDB ++ H ++ [last] = pssBlock sha256 mHash salt.toList ↔
      last = 0xbc ∧ H = (sha256 (pssMprime mHash salt.toList)).toList ∧
        maskedDB = clearTop (xorBytes (List.replicate 190 0 ++ [1] ++ salt.toList)
          (cryptoMGF1 sha256 H 223)) := by
  rw [pssBlock]
  constructor
  · intro same
    obtain ⟨front, trailer⟩ := List.append_inj same (by
      rw [List.length_append, List.length_append, maskedLength, hashLength, maskedDB_length,
        Vector.length_toList])
    obtain ⟨masked, hash⟩ := List.append_inj front (by rw [maskedLength, maskedDB_length])
    refine ⟨List.singleton_inj.mp trailer, hash, ?_⟩
    rw [masked, hash]
  · rintro ⟨trailer, hash, masked⟩
    rw [trailer, masked, ← hash]

/-- A check that fails if a condition holds. -/
theorem check_iff {bad : Prop} [Decidable bad] {rest : Bool} :
    (if bad then false else rest) = true ↔ ¬bad ∧ rest = true := by
  by_cases fails : bad
  · simp [fails]
  · simp [fails]

/-- What is masked for a salt. -/
theorem saltDB_spec (salt : Bytes32) :
    (List.replicate 190 (0 : UInt8) ++ [1] ++ salt.toList).length = 223 ∧
      (List.replicate 190 (0 : UInt8) ++ [1] ++ salt.toList).drop 191 = salt.toList ∧
      clearTop (List.replicate 190 (0 : UInt8) ++ [1] ++ salt.toList) =
        List.replicate 190 (0 : UInt8) ++ [1] ++ salt.toList := by
  refine ⟨?_, List.drop_left' (by rw [List.length_append, List.length_replicate]; rfl), rfl⟩
  rw [List.length_append, List.length_append, List.length_replicate, Vector.length_toList]
  rfl

/-- Equal blocks have the same salt, and what is hashed for them has the same hash. -/
theorem pssBlock_inj {mHash mHash' : List UInt8} {salt salt' : Bytes32}
    (same : pssBlock sha256 mHash salt.toList = pssBlock sha256 mHash' salt'.toList) :
    salt' = salt ∧
      sha256 (pssMprime mHash salt.toList) = sha256 (pssMprime mHash' salt.toList) := by
  obtain ⟨sizes, body, top⟩ := saltDB_spec salt
  obtain ⟨sizes', body', top'⟩ := saltDB_spec salt'
  rw [pssBlock, block_eq_pssBlock (maskedDB_length _ _) Vector.length_toList] at same
  obtain ⟨_, hash, masked⟩ := same
  have maskLength := cryptoMGF1_length sha256 (sha256 (pssMprime mHash salt.toList)).toList 223
  generalize cryptoMGF1 sha256 (sha256 (pssMprime mHash salt.toList)).toList 223 = mask at *
  have lengths : (List.replicate 190 (0 : UInt8) ++ [1] ++ salt.toList).length = mask.length := by
    rw [sizes, maskLength]
  have unmasked : List.replicate 190 (0 : UInt8) ++ [1] ++ salt'.toList =
      List.replicate 190 (0 : UInt8) ++ [1] ++ salt.toList := by
    have maskedSize : (clearTop (xorBytes (List.replicate 190 0 ++ [1] ++ salt.toList)
        mask)).length = mask.length := by
      rw [clearTop_length, xorBytes_length lengths, lengths]
    rw [← (clearTop_masked maskedSize (by rw [sizes', maskLength]) (clearTop_clearTop _)
      top').mpr masked]
    exact (clearTop_masked maskedSize lengths (clearTop_clearTop _) top).mpr rfl
  have salts : salt' = salt := Vector.toList_inj.mp (List.append_cancel_left unmasked)
  rw [salts] at hash
  exact ⟨salts, Vector.toList_inj.mp hash⟩

/-- A block is accepted if and only if it is the one of the hash for some salt. -/
theorem pssVerify_block (maskedLength : maskedDB.length = 223) (hashLength : H.length = 32)
    {mHash : List UInt8} :
    pssVerify sha256 mHash (maskedDB ++ H ++ [last]) = true ↔
      ∃ salt : Bytes32, maskedDB ++ H ++ [last] = pssBlock sha256 mHash salt.toList := by
  obtain ⟨masked, hash, trailer⟩ := @pssBlock_parts maskedDB H last maskedLength hashLength
  have maskLength : (cryptoMGF1 sha256 H 223).length = 223 := cryptoMGF1_length sha256 H 223
  have dbLength : (clearTop (xorBytes maskedDB (cryptoMGF1 sha256 H 223))).length = 223 := by
    rw [clearTop_length, xorBytes_length (by rw [maskLength, maskedLength]), maskedLength]
  have saltLength : ((clearTop (xorBytes maskedDB (cryptoMGF1 sha256 H 223))).drop 191).length =
      32 := by
    rw [List.length_drop, dbLength]
  have verify : pssVerify sha256 mHash (maskedDB ++ H ++ [last]) = true ↔
      last = 0xbc ∧ clearTop maskedDB = maskedDB ∧
        clearTop (xorBytes maskedDB (cryptoMGF1 sha256 H 223)) = List.replicate 190 0 ++ [1] ++
          (clearTop (xorBytes maskedDB (cryptoMGF1 sha256 H 223))).drop 191 ∧
        H = (sha256 (pssMprime mHash
          ((clearTop (xorBytes maskedDB (cryptoMGF1 sha256 H 223))).drop 191))).toList := by
    rw [pssVerify, masked, hash, trailer, ← padding_salt dbLength, clearTop_eq_self,
      ← cryptoVerifyBytes_eq_zero (by rw [hashLength, Vector.length_toList])]
    simp only [check_iff, not_not, Bool.not_eq_true, decide_eq_true_eq, and_assoc]
  rw [verify]
  constructor
  · rintro ⟨isTrailer, clear, shape, isHash⟩
    have chosen : ∃ salt : Bytes32, salt.toList =
        (clearTop (xorBytes maskedDB (cryptoMGF1 sha256 H 223))).drop 191 :=
      ⟨⟨List.toArray _, by rw [List.size_toArray]; exact saltLength⟩, rfl⟩
    obtain ⟨salt, isSalt⟩ := chosen
    obtain ⟨sizes, body, top⟩ := saltDB_spec salt
    rw [← isSalt] at shape isHash
    have isMasked := (clearTop_masked (by rw [maskLength, maskedLength])
      (by rw [sizes, maskLength]) clear top).mp shape
    exact ⟨salt, (block_eq_pssBlock maskedLength hashLength).mpr ⟨isTrailer, isHash, isMasked⟩⟩
  · rintro ⟨salt, same⟩
    obtain ⟨isTrailer, isHash, isMasked⟩ := (block_eq_pssBlock maskedLength hashLength).mp same
    obtain ⟨sizes, body, top⟩ := saltDB_spec salt
    have clear : clearTop maskedDB = maskedDB := by rw [isMasked, clearTop_clearTop]
    have found := (clearTop_masked (by rw [maskLength, maskedLength])
      (by rw [sizes, maskLength]) clear top).mpr isMasked
    rw [found, body]
    exact ⟨isTrailer, clear, rfl, isHash⟩

end Blocks

section Exact

variable {sha256 : List UInt8 → Bytes32}

/-- A block of 256 bytes is accepted if and only if it is the one of the hash for some salt. -/
theorem pssVerify_exact {EM : List UInt8} (length : EM.length = 256) {mHash : List UInt8} :
    pssVerify sha256 mHash EM = true ↔
      ∃ salt : Bytes32, EM = pssBlock sha256 mHash salt.toList := by
  have parts : EM.take 223 ++ (EM.drop 223).take 32 ++ [EM.getD 255 0] = EM := by
    have later : EM.drop 255 = [EM.getD 255 0] := by
      rw [List.getD_eq_getElem _ _ (by omega), List.drop_eq_getElem_cons (by omega),
        List.drop_of_length_le (by omega)]
    have inner : (EM.drop 223).drop 32 = EM.drop 255 := by rw [List.drop_drop]
    rw [List.append_assoc, ← later, ← inner, List.take_append_drop, List.take_append_drop]
  have maskedLength : (EM.take 223).length = 223 := by
    rw [List.length_take]
    omega
  have hashLength : ((EM.drop 223).take 32).length = 32 := by
    rw [List.length_take, List.length_drop]
    omega
  have known := @pssVerify_block sha256 _ _ (EM.getD 255 0) maskedLength hashLength mHash
  rwa [parts] at known

/-- The block for a hash has 256 bytes, and is a number below the modulus. -/
theorem pssBlock_fits (mHash : List UInt8) (salt : Bytes32) :
    (pssBlock sha256 mHash salt.toList).length = 256 ∧
      beDec (pssBlock sha256 mHash salt.toList) < 2 ^ 2047 := by
  rw [pssBlock]
  generalize (sha256 (pssMprime mHash salt.toList)) = H
  have masked := @maskedDB_length sha256 H.toList salt
  generalize xorBytes (List.replicate 190 0 ++ [1] ++ salt.toList)
    (cryptoMGF1 sha256 H.toList 223) = bytes at masked
  rw [clearTop_length] at masked
  cases bytes with
  | nil => cases masked
  | cons first rest =>
    rw [List.length_cons] at masked
    have restLength : (rest ++ (H.toList ++ [0xbc])).length = 255 := by
      rw [List.length_append, List.length_append, Vector.length_toList, List.length_singleton]
      omega
    have top : (first &&& 0x7f).toNat ≤ 127 := by
      rw [UInt8.toNat_and]
      exact Nat.and_le_right
    have small := beDec_lt (rest ++ (H.toList ++ [0xbc]))
    rw [clearTop, List.append_assoc, List.cons_append]
    refine ⟨by rw [List.length_cons, restLength], ?_⟩
    rw [beDec_cons, restLength]
    rw [restLength] at small
    have product : (first &&& 0x7f).toNat * 256 ^ 255 ≤ 127 * 256 ^ 255 :=
      Nat.mul_le_mul_right _ top
    have seven : (128 : Nat) = 2 ^ 7 := rfl
    calc (first &&& 0x7f).toNat * 256 ^ 255 + beDec (rest ++ (H.toList ++ [0xbc]))
        < 128 * 256 ^ 255 := by omega
      _ ≤ 128 * 2 ^ 2040 := Nat.mul_le_mul_left 128 (bytes_le_bits (by decide))
      _ = 2 ^ 2047 := by rw [seven, ← pow_add]

/-- With a key of the right size: what is signed is verified. If RSA yields a block, the signature
is valid exactly if the block is the one of the hash of the data for some salt, and is invalid
otherwise. A block that is accepted for two hashes is the block of both for the salt in it, which
shows two different strings of one hash. -/
theorem cryptoRsaVerify_exact (rsa : RsaPair) :
    (∀ (data : List UInt8) (salt : Bytes32), ∃ sig,
      cryptoRsaSign sha256 (some (true, rsa)) (some salt) data 256 = .success sig ∧
        cryptoRsaVerify sha256 (some (true, rsa)) data sig = .success ()) ∧
    (∀ data sig EM, sig.length = 256 → EM.length = 256 → rsa.rsaPublic sig = .block EM →
      (cryptoRsaVerify sha256 (some (true, rsa)) data sig = .success () ↔
        ∃ salt : Bytes32, EM = pssBlock sha256 (sha256 data).toList salt.toList) ∧
      ((∀ salt : Bytes32, EM ≠ pssBlock sha256 (sha256 data).toList salt.toList) →
        cryptoRsaVerify sha256 (some (true, rsa)) data sig = .bad)) ∧
    ∀ (data data' EM : List UInt8), EM.length = 256 →
      pssVerify sha256 (sha256 data).toList EM = true →
      pssVerify sha256 (sha256 data').toList EM = true → sha256 data ≠ sha256 data' →
      ∃ salt : Bytes32, EM = pssBlock sha256 (sha256 data).toList salt.toList ∧
        EM = pssBlock sha256 (sha256 data').toList salt.toList ∧
        pssMprime (sha256 data).toList salt.toList ≠ pssMprime (sha256 data').toList salt.toList ∧
          sha256 (pssMprime (sha256 data).toList salt.toList) =
            sha256 (pssMprime (sha256 data').toList salt.toList) := by
  have verifies : ∀ data sig EM, sig.length = 256 → rsa.rsaPublic sig = .block EM →
      cryptoRsaVerify sha256 (some (true, rsa)) data sig =
        if pssVerify sha256 (sha256 data).toList EM then .success () else .bad := by
    intro data sig EM size same
    simp only [cryptoRsaVerify]
    rw [if_neg (by decide), if_neg (by omega), same]
  refine ⟨?_, ?_, ?_⟩
  · intro data salt
    obtain ⟨length, small⟩ := @pssBlock_fits sha256 (sha256 data).toList salt
    obtain ⟨sig, size, signed, verified⟩ := rsa.verifies _ length small
    have accepted := (pssVerify_exact length).mpr ⟨salt, rfl⟩
    refine ⟨sig, ?_, ?_⟩
    · simp only [cryptoRsaSign]
      rw [if_neg (by decide), if_neg (by decide), signed]
    · rw [verifies data sig _ size verified, if_pos accepted]
  · intro data sig EM size length same
    rw [verifies data sig EM size same, ← pssVerify_exact length]
    constructor
    · by_cases accepted : pssVerify sha256 (sha256 data).toList EM = true
      · rw [if_pos accepted]
        exact ⟨fun _ => accepted, fun _ => rfl⟩
      · rw [if_neg accepted]
        exact ⟨fun absurdity => (nomatch absurdity), fun known => absurd known accepted⟩
    · intro none
      rw [if_neg]
      intro accepted
      obtain ⟨salt, shape⟩ := (pssVerify_exact length).mp accepted
      exact none salt shape
  · intro data data' EM length accepted accepted' different
    obtain ⟨salt, shape⟩ := (pssVerify_exact length).mp accepted
    obtain ⟨salt', shape'⟩ := (pssVerify_exact length).mp accepted'
    obtain ⟨salts, collision⟩ := pssBlock_inj (shape.symm.trans shape')
    rw [salts] at shape'
    refine ⟨salt, shape, shape', ?_, collision⟩
    intro same
    apply different
    have hashes := List.append_cancel_left (List.append_cancel_right same)
    exact Vector.toList_inj.mp hashes

/-- In place of a hash: the first byte, and zero for what is hashed for a signature. -/
def headHash (data : List UInt8) : Bytes32 :=
  if data.length = 72 then Vector.replicate 32 0 else Vector.replicate 32 (data.getD 0 0)

/-- With a hash that has collisions, one block is accepted for two different hashes of data. -/
theorem pssVerify_collision : ¬∀ (sha256 : List UInt8 → Bytes32) (data data' EM : List UInt8),
    EM.length = 256 → pssVerify sha256 (sha256 data).toList EM = true →
    pssVerify sha256 (sha256 data').toList EM = true → sha256 data = sha256 data' := by
  intro agree
  have hashed : ∀ data, headHash (pssMprime (headHash data).toList (headHash []).toList) =
      headHash [] := by
    intro data
    have size : (pssMprime (headHash data).toList (headHash []).toList).length = 72 := by
      rw [pssMprime, List.length_append, List.length_append, List.length_replicate,
        Vector.length_toList, Vector.length_toList]
    rw [headHash, if_pos size]
    rfl
  have block : ∀ data, pssBlock headHash (headHash data).toList (headHash []).toList =
      pssBlock headHash (headHash []).toList (headHash []).toList := by
    intro data
    rw [pssBlock, pssBlock, hashed, hashed]
  obtain ⟨length, _⟩ := @pssBlock_fits headHash (headHash []).toList (headHash [])
  have same := agree headHash [] [1] _ length ((pssVerify_exact length).mpr ⟨headHash [], rfl⟩)
    ((pssVerify_exact length).mpr ⟨headHash [], (block [1]).symm⟩)
  have first := congrArg (fun hash : Bytes32 => hash[0]) same
  exact absurd first (by decide)

end Exact

end Tarsnap.Crypto
