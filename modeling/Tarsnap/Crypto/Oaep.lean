import Tarsnap.Crypto.Rsa
import Tarsnap.Lib.ByteOrder
import Tarsnap.Lib.Exponents
import Tarsnap.Lib.Generators
import Mathlib

/-!
# OAEP decoding accepts exactly the encodings

The padding is read without branches: a mask of eight ones says that it goes on, and is also a
signed decrement of the length of the message. Up to the end of the padding nothing bad is found,
the mask stays, and the length goes down by one for each byte; afterwards nothing changes. So a
block is decoded if and only if it is the encoding of a message, for the seed that it contains.
-/

namespace Tarsnap.Crypto

open Tarsnap.Lib Tarsnap.Netpacket

section Bytes

/-- A byte without bits above the lowest one. -/
theorem byte_small (byte : UInt8) (none : 0xff &&& byte &&& 0xfe = 0) : byte = 0 ∨ byte = 1 := by
  have all : ∀ n < 256, (0xff &&& UInt8.ofNat n &&& 0xfe : UInt8) = 0 →
      UInt8.ofNat n = 0 ∨ UInt8.ofNat n = 1 := by decide +kernel
  have known := all byte.toNat byte.toNat_lt
  rw [UInt8.ofNat_toNat] at known
  exact known none

end Bytes

section Padding

/-- Behind the padding nothing changes. -/
theorem padding_after (rest : List UInt8) (baddata : UInt8) {msglen : Nat}
    (small : msglen < 18446744073709551616) :
    rest.foldl paddingStep ⟨baddata, 0, msglen⟩ = ⟨baddata, 0, msglen⟩ := by
  induction rest with
  | nil => rfl
  | cons byte rest ih =>
    have step : paddingStep ⟨baddata, 0, msglen⟩ byte = ⟨baddata, 0, msglen⟩ := by
      have zero : signExtend 0 = 0 := rfl
      simp only [paddingStep, UInt8.zero_and, UInt8.or_zero, zero, Nat.add_zero,
        Nat.mod_eq_of_lt small]
    rw [List.foldl_cons, step, ih]

/-- Bad data stays bad. -/
theorem padding_bad (rest : List UInt8) {s : Padding} (bad : s.baddata ≠ 0) :
    (rest.foldl paddingStep s).baddata ≠ 0 := by
  induction rest generalizing s with
  | nil => exact bad
  | cons byte rest ih =>
    rw [List.foldl_cons]
    apply ih
    intro good
    exact bad (or_eq_zero.mp good).1

/-- The bytes are padding: zeros, a one, and a message. -/
def PaddedMessage (bytes message : List UInt8) : Prop :=
  ∃ zeros, bytes = List.replicate zeros 0 ++ 1 :: message

/-- The scan of the padding finds where the message starts, or that the data is bad. -/
theorem padding_scan (bytes : List UInt8) {msglen : Nat} (room : bytes.length ≤ msglen)
    (small : msglen < 18446744073709551616) :
    let s := bytes.foldl paddingStep ⟨0, 0xff, msglen⟩
    (∀ message, PaddedMessage bytes message →
      s = ⟨0, 0, msglen - (bytes.length - message.length)⟩) ∧
    (s.baddata ||| s.paddingmask = 0 → ∃ message, PaddedMessage bytes message) := by
  induction bytes generalizing msglen with
  | nil =>
    refine ⟨?_, ?_⟩
    · rintro message ⟨zeros, same⟩
      exact absurd same.symm (List.append_ne_nil_of_right_ne_nil _ (List.cons_ne_nil _ _))
    · intro none
      have mask : (0 ||| 0xff : UInt8) ≠ 0 := by decide
      exact absurd none mask
  | cons byte rest ih =>
    rw [List.length_cons] at room
    have ones : signExtend 0xff = 18446744073709551615 := rfl
    have less : (msglen + 18446744073709551615) % 18446744073709551616 = msglen - 1 := by omega
    by_cases zero : byte = 0
    · have step : paddingStep ⟨0, 0xff, msglen⟩ byte = ⟨0, 0xff, msglen - 1⟩ := by
        have kept : (0 ||| (0xff &&& 0 &&& 0xfe) : UInt8) = 0 := by decide
        have mask : (0xff &&& (0 - 1) : UInt8) = 0xff := by decide
        simp only [paddingStep, zero, ones, less, kept, mask]
      have fits : rest.length ≤ msglen - 1 := by omega
      obtain ⟨found, padded⟩ := ih fits (by omega)
      rw [List.foldl_cons, step, zero]
      refine ⟨?_, ?_⟩
      · rintro message ⟨zeros, same⟩
        cases zeros with
        | zero =>
          rw [List.replicate_zero, List.nil_append, List.cons.injEq] at same
          exact absurd same.1 (by decide)
        | succ zeros =>
          rw [List.replicate_succ, List.cons_append, List.cons.injEq] at same
          have shorter : message.length < rest.length := by
            rw [same.2, List.length_append, List.length_cons]
            omega
          have count : msglen - 1 - (rest.length - message.length) =
              msglen - (rest.length + 1 - message.length) := by omega
          rw [found message ⟨zeros, same.2⟩, List.length_cons, count]
      · intro none
        obtain ⟨message, zeros, same⟩ := padded none
        exact ⟨message, zeros + 1, by rw [same, List.replicate_succ, List.cons_append]⟩
    · by_cases one : byte = 1
      · have step : paddingStep ⟨0, 0xff, msglen⟩ byte = ⟨0, 0, msglen - 1⟩ := by
          have kept : (0 ||| (0xff &&& 1 &&& 0xfe) : UInt8) = 0 := by decide
          have mask : (0xff &&& (1 - 1) : UInt8) = 0 := by decide
          simp only [paddingStep, one, ones, less, kept, mask]
        rw [List.foldl_cons, step, padding_after rest 0 (by omega), one]
        refine ⟨?_, fun _ => ⟨rest, 0, rfl⟩⟩
        rintro message ⟨zeros, same⟩
        cases zeros with
        | zero =>
          rw [List.replicate_zero, List.nil_append, List.cons.injEq] at same
          have count : msglen - 1 = msglen - (message.length + 1 - message.length) := by omega
          rw [same.2, List.length_cons, ← count]
        | succ zeros =>
          rw [List.replicate_succ, List.cons_append, List.cons.injEq] at same
          exact absurd same.1 (by decide)
      · have step : (paddingStep ⟨0, 0xff, msglen⟩ byte).baddata ≠ 0 := by
          intro good
          have none := (or_eq_zero.mp good).2
          rcases byte_small byte none with small | small
          · exact zero small
          · exact one small
        rw [List.foldl_cons]
        refine ⟨?_, ?_⟩
        · rintro message ⟨zeros, same⟩
          cases zeros with
          | zero =>
            rw [List.replicate_zero, List.nil_append, List.cons.injEq] at same
            exact absurd same.1 one
          | succ zeros =>
            rw [List.replicate_succ, List.cons_append, List.cons.injEq] at same
            exact absurd same.1 zero
        · intro none
          exact absurd (or_eq_zero.mp none).1 (padding_bad rest step)

end Padding

section Blocks

variable {sha256 : List UInt8 → Bytes32} {first : UInt8} {maskedSeed maskedDB : List UInt8}

variable (sha256) in
/-- The seed that a block contains. -/
def blockSeed (maskedSeed maskedDB : List UInt8) : List UInt8 :=
  xorBytes maskedSeed (cryptoMGF1 sha256 maskedDB 32)

variable (sha256) in
/-- The hash of the label, padding and message that a block contains. -/
def blockDB (maskedSeed maskedDB : List UInt8) : List UInt8 :=
  xorBytes maskedDB (cryptoMGF1 sha256 (blockSeed sha256 maskedSeed maskedDB) 223)

/-- The seed has 32 bytes. -/
theorem blockSeed_length (seedLength : maskedSeed.length = 32) :
    (blockSeed sha256 maskedSeed maskedDB).length = 32 := by
  rw [blockSeed, xorBytes_length (by rw [cryptoMGF1_length, seedLength]), seedLength]

/-- The hash of the label, padding and message have 223 bytes. -/
theorem blockDB_length (dbLength : maskedDB.length = 223) :
    (blockDB sha256 maskedSeed maskedDB).length = 223 := by
  rw [blockDB, xorBytes_length (by rw [cryptoMGF1_length, dbLength]), dbLength]

/-- A block is the encoding of a message for a seed if it starts with zero and contains the seed,
the hash of the label, the padding and the message. -/
theorem block_eq_oaepBlock (seedLength : maskedSeed.length = 32) (dbLength : maskedDB.length = 223)
    {seed message : List UInt8} (size : seed.length = 32) (short : message.length ≤ 190) :
    [first] ++ maskedSeed ++ maskedDB = oaepBlock sha256 seed message ↔
      first = 0 ∧ blockSeed sha256 maskedSeed maskedDB = seed ∧
        blockDB sha256 maskedSeed maskedDB = (sha256 []).toList ++
          List.replicate (190 - message.length) 0 ++ [1] ++ message := by
  have total : ((sha256 []).toList ++ List.replicate (190 - message.length) 0 ++ [1] ++
      message).length = 223 := by
    simp only [List.length_append, Vector.length_toList, List.length_replicate,
      List.length_singleton]
    omega
  rw [oaepBlock]
  generalize (sha256 []).toList ++ List.replicate (190 - message.length) 0 ++ [1] ++
    message = DB at total
  have masked : (xorBytes DB (cryptoMGF1 sha256 seed 223)).length = 223 := by
    rw [xorBytes_length (by rw [cryptoMGF1_length, total]), total]
  have maskedSize : (xorBytes seed (cryptoMGF1 sha256
      (xorBytes DB (cryptoMGF1 sha256 seed 223)) 32)).length = 32 := by
    rw [xorBytes_length (by rw [cryptoMGF1_length, size]), size]
  constructor
  · intro same
    obtain ⟨front, same⟩ := List.append_inj same (by
      rw [List.length_append, List.length_append, seedLength, maskedSize]
      rfl)
    obtain ⟨zero, inner⟩ := List.append_inj front rfl
    have seeds : blockSeed sha256 maskedSeed maskedDB = seed := by
      rw [blockSeed, inner, same, xorBytes_cancel (by rw [cryptoMGF1_length, size])]
    refine ⟨List.singleton_inj.mp zero, seeds, ?_⟩
    rw [blockDB, seeds, same, xorBytes_cancel (by rw [cryptoMGF1_length, total])]
  · rintro ⟨zero, seeds, contents⟩
    rw [blockDB, seeds, xorBytes_eq_iff (by rw [cryptoMGF1_length, dbLength])
      (by rw [cryptoMGF1_length, total])] at contents
    rw [blockSeed, xorBytes_eq_iff (by rw [cryptoMGF1_length, seedLength])
      (by rw [cryptoMGF1_length, size])] at seeds
    rw [zero, ← contents, ← seeds]

/-- The message that a block contains is found, and a block without one is bad. -/
theorem oaepDecode_block (seedLength : maskedSeed.length = 32) (dbLength : maskedDB.length = 223)
    {outlen : Nat} (room : 256 ≤ outlen) :
    (∀ message, first = 0 → (blockDB sha256 maskedSeed maskedDB).take 32 = (sha256 []).toList →
      PaddedMessage ((blockDB sha256 maskedSeed maskedDB).drop 32) message →
      oaepDecode sha256 ([first] ++ maskedSeed ++ maskedDB) outlen = .success message) ∧
    (¬(first = 0 ∧ (blockDB sha256 maskedSeed maskedDB).take 32 = (sha256 []).toList ∧
      ∃ message, PaddedMessage ((blockDB sha256 maskedSeed maskedDB).drop 32) message) →
      oaepDecode sha256 ([first] ++ maskedSeed ++ maskedDB) outlen = .bad) := by
  have dbSize : (blockDB sha256 maskedSeed maskedDB).length = 223 := blockDB_length dbLength
  have seedPart : (([first] ++ maskedSeed ++ maskedDB).drop 1).take 32 = maskedSeed := by
    change (maskedSeed ++ maskedDB).take 32 = maskedSeed
    exact List.take_left' seedLength
  have dbPart : (([first] ++ maskedSeed ++ maskedDB).drop 33).take 223 = maskedDB := by
    rw [List.drop_left' (by rw [List.length_append, seedLength]; rfl),
      List.take_of_length_le (Nat.le_of_eq dbLength)]
  have start : ([first] ++ maskedSeed ++ maskedDB).getD 0 0 = first := rfl
  have label : ((blockDB sha256 maskedSeed maskedDB).take 32).length =
      (sha256 []).toList.length := by
    rw [List.length_take, dbSize, Vector.length_toList]
    rfl
  have rest : ((blockDB sha256 maskedSeed maskedDB).drop 32).length = 191 := by
    rw [List.length_drop, dbSize]
  obtain ⟨found, padded⟩ := padding_scan ((blockDB sha256 maskedSeed maskedDB).drop 32)
    (Nat.le_of_eq rest) (by decide)
  rw [rest] at found
  have decode : oaepDecode sha256 ([first] ++ maskedSeed ++ maskedDB) outlen =
      (let s := ((blockDB sha256 maskedSeed maskedDB).drop 32).foldl paddingStep
        ⟨first ||| cryptoVerifyBytes ((blockDB sha256 maskedSeed maskedDB).take 32)
          (sha256 []).toList, 0xff, 191⟩
      if s.baddata ||| s.paddingmask ≠ 0 then .bad
      else if outlen < s.msglen then .error
      else .success (((blockDB sha256 maskedSeed maskedDB).drop (223 - s.msglen)).take
        s.msglen)) := by
    rw [oaepDecode, start, seedPart, dbPart]
    rfl
  rw [decode]
  have checked : (first ||| cryptoVerifyBytes ((blockDB sha256 maskedSeed maskedDB).take 32)
      (sha256 []).toList) = 0 ↔
        first = 0 ∧ (blockDB sha256 maskedSeed maskedDB).take 32 = (sha256 []).toList := by
    rw [or_eq_zero, cryptoVerifyBytes_eq_zero label]
  generalize first ||| cryptoVerifyBytes ((blockDB sha256 maskedSeed maskedDB).take 32)
    (sha256 []).toList = baddata at checked
  simp only
  constructor
  · intro message zero hash padding
    have clean : baddata = 0 := checked.mpr ⟨zero, hash⟩
    have shape := padding
    obtain ⟨zeros, split⟩ := shape
    have sizes := congrArg List.length split
    rw [rest, List.length_append, List.length_replicate, List.length_cons] at sizes
    have count : 191 - (191 - message.length) = message.length := by omega
    have body : ((blockDB sha256 maskedSeed maskedDB).drop (223 - message.length)).take
        message.length = message := by
      have later : 223 - message.length = 32 + (zeros + 1) := by omega
      have tail : (List.replicate zeros (0 : UInt8) ++ 1 :: message).drop (zeros + 1) =
          message := by
        rw [← List.singleton_append, ← List.append_assoc, List.drop_left' (by simp)]
      rw [later, ← List.drop_drop, split, tail, List.take_of_length_le (Nat.le_refl _)]
    have good : ¬ (0 ||| 0 : UInt8) ≠ 0 := by decide
    rw [clean, found message padding, count]
    simp only
    rw [if_neg good, if_neg (by omega), body]
  · intro none
    rw [if_pos]
    intro good
    apply none
    have clean : baddata = 0 := by
      by_contra bad
      exact padding_bad _ bad (or_eq_zero.mp good).1
    rw [clean] at good
    obtain ⟨zero, hash⟩ := checked.mp clean
    exact ⟨zero, hash, padded good⟩

end Blocks

section Exact

variable {sha256 : List UInt8 → Bytes32}

/-- A block is decoded exactly if it is the encoding of a message for some seed, and then to this
message. -/
theorem oaepDecode_exact {EM : List UInt8} (length : EM.length = 256) {outlen : Nat}
    (room : 256 ≤ outlen) :
    (∀ message, oaepDecode sha256 EM outlen = .success message ↔
      message.length ≤ 190 ∧ ∃ seed : Bytes32, EM = oaepBlock sha256 seed.toList message) ∧
    ((∀ (message : List UInt8) (seed : Bytes32), message.length ≤ 190 →
      EM ≠ oaepBlock sha256 seed.toList message) → oaepDecode sha256 EM outlen = .bad) := by
  obtain ⟨first, maskedSeed, maskedDB, rfl, seedLength, dbLength⟩ : ∃ first maskedSeed maskedDB,
      EM = [first] ++ maskedSeed ++ maskedDB ∧ maskedSeed.length = 32 ∧ maskedDB.length = 223 := by
    cases EM with
    | nil => cases length
    | cons first tail =>
      rw [List.length_cons] at length
      refine ⟨first, tail.take 32, tail.drop 32, ?_, ?_, ?_⟩
      · rw [List.append_assoc, List.take_append_drop, List.singleton_append]
      · rw [List.length_take]
        omega
      · rw [List.length_drop]
        omega
  obtain ⟨found, bad⟩ := @oaepDecode_block sha256 first maskedSeed maskedDB seedLength dbLength
    outlen room
  have encodes : ∀ (message : List UInt8) (seed : Bytes32), message.length ≤ 190 →
      [first] ++ maskedSeed ++ maskedDB = oaepBlock sha256 seed.toList message →
      first = 0 ∧ (blockDB sha256 maskedSeed maskedDB).take 32 = (sha256 []).toList ∧
        PaddedMessage ((blockDB sha256 maskedSeed maskedDB).drop 32) message := by
    intro message seed short same
    obtain ⟨zero, _, contents⟩ :=
      (block_eq_oaepBlock seedLength dbLength Vector.length_toList short).mp same
    rw [List.append_assoc, List.append_assoc] at contents
    refine ⟨zero, ?_, 190 - message.length, ?_⟩
    · rw [contents, List.take_left' Vector.length_toList]
    · rw [contents, List.drop_left' Vector.length_toList, List.singleton_append]
  by_cases good : first = 0 ∧
      (blockDB sha256 maskedSeed maskedDB).take 32 = (sha256 []).toList ∧
      ∃ message, PaddedMessage ((blockDB sha256 maskedSeed maskedDB).drop 32) message
  · obtain ⟨zero, hash, message, padding⟩ := good
    have decoded := found message zero hash padding
    have own : ∃ seed : Bytes32, message.length ≤ 190 ∧
        [first] ++ maskedSeed ++ maskedDB = oaepBlock sha256 seed.toList message := by
      have shape := padding
      obtain ⟨zeros, split⟩ := shape
      have sizes := congrArg List.length split
      rw [List.length_drop, blockDB_length dbLength, List.length_append, List.length_replicate,
        List.length_cons] at sizes
      have seedSize : (blockSeed sha256 maskedSeed maskedDB).length = 32 :=
        blockSeed_length seedLength
      have count : zeros = 190 - message.length := by omega
      refine ⟨⟨(blockSeed sha256 maskedSeed maskedDB).toArray, by simp [seedSize]⟩, by omega, ?_⟩
      apply (block_eq_oaepBlock seedLength dbLength Vector.length_toList (by omega)).mpr
      refine ⟨zero, rfl, ?_⟩
      rw [← hash, ← count, List.append_assoc, List.append_assoc, List.singleton_append, ← split,
        List.take_append_drop]
    obtain ⟨seed, short, same⟩ := own
    refine ⟨?_, fun none => absurd same (none message seed short)⟩
    intro other
    rw [decoded]
    constructor
    · intro equal
      cases equal
      exact ⟨short, seed, same⟩
    · rintro ⟨otherShort, otherSeed, otherSame⟩
      obtain ⟨_, _, otherPadding⟩ := encodes other otherSeed otherShort otherSame
      rw [← decoded, ← found other zero hash otherPadding]
  · have decoded := bad good
    refine ⟨?_, fun _ => decoded⟩
    intro message
    rw [decoded]
    constructor
    · intro absurdity
      cases absurdity
    · rintro ⟨short, seed, same⟩
      obtain ⟨zero, hash, padding⟩ := encodes message seed short same
      exact absurd ⟨zero, hash, message, padding⟩ good

/-- A number of some bytes has eight times as many bits. -/
theorem bytes_eq_bits (n : Nat) : 256 ^ n = 2 ^ (8 * n) := by
  rw [pow_mul]
  norm_num

/-- Some bytes fit into enough bits. -/
theorem bytes_le_bits {n m : Nat} (enough : 8 * n ≤ m) : 256 ^ n ≤ 2 ^ m := by
  rw [bytes_eq_bits]
  exact Nat.pow_le_pow_right (by decide) enough

/-- The block for a message has 256 bytes, and is a number below the modulus. -/
theorem oaepBlock_fits (seed : Bytes32) {message : List UInt8} (short : message.length ≤ 190) :
    (oaepBlock sha256 seed.toList message).length = 256 ∧
      beDec (oaepBlock sha256 seed.toList message) < 2 ^ 2047 := by
  have total : ((sha256 []).toList ++ List.replicate (190 - message.length) 0 ++ [1] ++
      message).length = 223 := by
    simp only [List.length_append, Vector.length_toList, List.length_replicate,
      List.length_singleton]
    omega
  rw [oaepBlock]
  generalize (sha256 []).toList ++ List.replicate (190 - message.length) 0 ++ [1] ++
    message = DB at total
  have masked : (xorBytes DB (cryptoMGF1 sha256 seed.toList 223)).length = 223 := by
    rw [xorBytes_length (by rw [cryptoMGF1_length, total]), total]
  generalize xorBytes DB (cryptoMGF1 sha256 seed.toList 223) = maskedDB at masked
  have maskedSize : (xorBytes seed.toList (cryptoMGF1 sha256 maskedDB 32)).length = 32 := by
    rw [xorBytes_length (by rw [cryptoMGF1_length, Vector.length_toList]), Vector.length_toList]
  generalize xorBytes seed.toList (cryptoMGF1 sha256 maskedDB 32) = maskedSeed at maskedSize
  have rest : (maskedSeed ++ maskedDB).length = 255 := by
    rw [List.length_append, masked, maskedSize]
  rw [List.append_assoc, List.singleton_append]
  refine ⟨by rw [List.length_cons, rest], ?_⟩
  have small := beDec_lt (maskedSeed ++ maskedDB)
  rw [rest] at small
  have zero : (0 : UInt8).toNat = 0 := rfl
  rw [beDec_cons, zero, Nat.zero_mul, Nat.zero_add]
  exact Nat.lt_of_lt_of_le small (bytes_le_bits (by decide))

/-- With a key of the right size: if RSA yields a block, it is decrypted to a message exactly if it
is the encoding of the message for some seed, and is invalid if it is the encoding of none. What is
encrypted is decrypted to the message. -/
theorem cryptoRsaDecrypt_exact (rsa : RsaPair) (outlen : Nat) (room : 256 ≤ outlen) :
    (∀ data EM, data.length = 256 → EM.length = 256 → rsa.rsaPrivate data = .block EM →
      (∀ message, cryptoRsaDecrypt sha256 (some (true, rsa)) data outlen = .success message ↔
        message.length ≤ 190 ∧ ∃ seed : Bytes32, EM = oaepBlock sha256 seed.toList message) ∧
      ((∀ (message : List UInt8) (seed : Bytes32), message.length ≤ 190 →
        EM ≠ oaepBlock sha256 seed.toList message) →
          cryptoRsaDecrypt sha256 (some (true, rsa)) data outlen = .bad)) ∧
    ∀ (message : List UInt8) (seed : Bytes32), message.length ≤ 190 → ∃ c,
      cryptoRsaEncrypt sha256 (some (true, rsa)) (some seed) message 256 = .success c ∧
        cryptoRsaDecrypt sha256 (some (true, rsa)) c outlen = .success message := by
  have decrypts : ∀ data EM, data.length = 256 → rsa.rsaPrivate data = .block EM →
      cryptoRsaDecrypt sha256 (some (true, rsa)) data outlen = oaepDecode sha256 EM outlen := by
    intro data EM size same
    simp only [cryptoRsaDecrypt]
    rw [if_neg (by decide), if_neg (by omega), if_neg (by omega), same]
  refine ⟨?_, ?_⟩
  · intro data EM size length same
    rw [decrypts data EM size same]
    exact oaepDecode_exact length room
  · intro message seed short
    obtain ⟨length, small⟩ := @oaepBlock_fits sha256 seed message short
    obtain ⟨c, size, encrypted, decrypted⟩ := rsa.decrypts _ length small
    refine ⟨c, ?_, ?_⟩
    · simp only [cryptoRsaEncrypt]
      rw [if_neg (by decide), if_neg (by decide), if_neg (by omega), encrypted]
    · rw [decrypts c _ size decrypted]
      exact ((oaepDecode_exact length room).1 message).mpr ⟨short, seed, rfl⟩

end Exact

section Example

/-- Different primes whose product has 2048 bits. -/
def keyPrimes : List Nat := (List.range 1482).filter fun p =>
  1 < p ∧ p ≠ 431 ∧ ∀ d ∈ List.range 39, 2 ≤ d → d * d ≤ p → p % d ≠ 0

/-- Each of them is prime. -/
theorem keyPrimes_prime {p : Nat} (member : p ∈ keyPrimes) : p.Prime := by
  obtain ⟨small, passes⟩ := List.mem_filter.mp member
  obtain ⟨large, _, trials⟩ := of_decide_eq_true passes
  refine (prime_iff_trial p).mpr ⟨large, fun d positive square => ?_⟩
  have below : d < 39 := by
    have limit := List.mem_range.mp small
    by_contra beyond
    have larger : 39 * 39 ≤ d * d := Nat.mul_le_mul (by omega) (by omega)
    omega
  exact trials d (List.mem_range.mpr below) positive square

/-- The modulus. -/
def keyModulus : Nat := keyPrimes.prod

/-- It has 2048 bits. -/
theorem keyModulus_bits : 2 ^ 2047 ≤ keyModulus ∧ keyModulus < 2 ^ 2048 := by decide +kernel

/-- A multiple of every prime of the modulus less one. -/
@[irreducible] def keyOrder : Nat := Nat.factorial 1500

/-- The public exponent. -/
def keyE : Nat := 65537

/-- The private exponent. -/
@[irreducible] def keyD : Nat := (1 + 64572 * keyOrder) / keyE

/-- The exponents undo each other. -/
theorem key_exponents : keyE * keyD = 1 + 64572 * keyOrder := by
  have divides : keyE ∣ 1 + 64572 * keyOrder := by
    apply Nat.dvd_of_mod_eq_zero
    decide +kernel
  obtain ⟨exponent, multiple⟩ := divides
  have positive : 0 < keyE := Nat.succ_pos 65536
  rw [keyD, multiple, Nat.mul_div_cancel_left _ positive]

/-- Powers with both exponents, one after the other, change nothing below the modulus. -/
theorem key_powers {number : Nat} (small : number < keyModulus) {first second : Nat}
    (product : first * second = keyE * keyD) :
    (number ^ first % keyModulus) ^ second % keyModulus = number := by
  have divides : ∀ p ∈ keyPrimes, p - 1 ∣ keyOrder := by
    intro p member
    have limit := List.mem_range.mp (List.mem_filter.mp member).1
    have large := (keyPrimes_prime member).two_le
    have divides : p - 1 ∣ Nat.factorial 1500 := Nat.dvd_factorial (by omega) (by omega)
    unfold keyOrder
    exact divides
  have distinct : keyPrimes.Nodup := List.nodup_range.filter _
  have back := pow_modEq_of_primes (fun p => keyPrimes_prime) distinct divides number 64572
  rw [← Nat.pow_mod, ← pow_mul, product, key_exponents]
  exact Nat.mod_eq_of_modEq back small

/-- The block of a power. -/
def keyPower (exponent : Nat) (EM : List UInt8) : RsaResult :=
  if keyModulus ≤ beDec EM then .tooLarge
  else .block (beEnc 256 (beDec EM ^ exponent % keyModulus))

/-- A block that is a number below the modulus comes back. -/
theorem keyPower_inverts {first second : Nat} (product : first * second = keyE * keyD)
    {EM : List UInt8} (length : EM.length = 256) (small : beDec EM < 2 ^ 2047) :
    ∃ c, c.length = 256 ∧ keyPower first EM = .block c ∧ keyPower second c = .block EM := by
  have below : beDec EM < keyModulus := Nat.lt_of_lt_of_le small keyModulus_bits.1
  have positive : 0 < keyModulus := Nat.lt_of_le_of_lt (Nat.zero_le _) below
  have residue : beDec EM ^ first % keyModulus < keyModulus := Nat.mod_lt _ positive
  refine ⟨_, beEnc_length 256 _, if_neg (Nat.not_le_of_lt below), ?_⟩
  have decoded : beDec (beEnc 256 (beDec EM ^ first % keyModulus)) =
      beDec EM ^ first % keyModulus := by
    rw [beDec_beEnc, bytes_eq_bits]
    have bits : 8 * 256 = 2048 := rfl
    rw [bits]
    exact Nat.mod_eq_of_lt (residue.trans keyModulus_bits.2)
  have whole : beEnc 256 (beDec EM) = EM := by
    rw [← length, beEnc, beDec, ← List.length_reverse, leEnc_leDec, List.reverse_reverse]
  rw [keyPower, decoded, if_neg (Nat.not_le_of_lt residue), key_powers below product, whole]

/-- A pair of keys with these exponents. -/
def primesRsa : RsaPair where
  rsaPublic := keyPower keyE
  rsaPrivate := keyPower keyD
  decrypts _ length small := keyPower_inverts rfl length small
  verifies _ length small := keyPower_inverts (Nat.mul_comm _ _) length small

/-- A hash that depends on the order of the bytes. -/
def orderedHash (data : List UInt8) : Bytes32 :=
  Vector.ofFn fun i => data.foldl (fun sum byte => sum * 31 + byte) (UInt8.ofNat i.val)

/-- The longest message comes back. -/
theorem cryptoRsaDecrypt_exact_long : ∃ c,
    cryptoRsaEncrypt orderedHash (some (true, primesRsa)) (some (orderedHash [1]))
        ((List.range 190).map UInt8.ofNat) 256 = .success c ∧
      cryptoRsaDecrypt orderedHash (some (true, primesRsa)) c 256 =
        .success ((List.range 190).map UInt8.ofNat) :=
  (cryptoRsaDecrypt_exact primesRsa 256 (by decide)).2 ((List.range 190).map UInt8.ofNat)
    (orderedHash [1]) (by rw [List.length_map, List.length_range])

end Example

end Tarsnap.Crypto
