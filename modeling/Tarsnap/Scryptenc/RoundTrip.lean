import Tarsnap.Scryptenc.Agreement

/-!
# Decryption inverts encryption

The header of an encrypted block has the parameters and the salt that were used, so that the same
passphrase gives the same keys, and the checksum and both signatures are right. Only the limits for
the parameters are checked again.
-/

namespace Tarsnap.Scryptenc

open Tarsnap.Lib Tarsnap.Netpacket Tarsnap.Crypto

variable {S : ScryptPrimitives} {M : Machine} {passwd : List UInt8} {force : Bool}
  {P : ScryptencParams} {salt : Bytes32} {dk : Vector UInt8 64}

section Header

/-- The length of the part with the parameters and the salt. -/
theorem headerStart_length : (headerStart P salt).length = 48 := by
  simp only [headerStart, scryptMagic, List.length_append, List.length_cons, List.length_nil,
    beEnc_length, Vector.length_toList]

/-- The length of the header with its checksum. -/
theorem headerChecked_length : (headerChecked S P salt).length = 64 := by
  rw [headerChecked, List.length_append, headerStart_length, List.length_take,
    Vector.length_toList]
  rfl

/-- The length of a header. -/
theorem headerSigned_length : (headerSigned S P salt dk).length = 96 := by
  rw [headerSigned, List.length_append, headerChecked_length, Vector.length_toList]

/-- A 32-bit parameter is read as it was written. -/
theorem ofNat_beDec_beEnc (value : UInt32) :
    UInt32.ofNat (beDec (beEnc 4 value.toNat)) = value := by
  have small : value.toNat % 256 ^ 4 = value.toNat := Nat.mod_eq_of_lt value.toNat_lt
  rw [beDec_beEnc, small, UInt32.ofNat_toNat]

/-- What a header has behind the version number. -/
theorem headerSigned_drop : (headerSigned S P salt dk).drop 8 =
    beEnc 4 P.r.toNat ++ (beEnc 4 P.p.toNat ++ (salt.toList ++
      ((S.sha256 (headerStart P salt)).toList.take 16 ++
        (S.hmac (dk.toList.drop 32) (headerChecked S P salt)).toList))) := by
  rw [headerSigned, headerChecked, headerStart]
  simp only [List.append_assoc]
  rfl

/-- The parameters of a header are those that were written to it. -/
theorem headerParams_headerSigned (sane : P.Sane) :
    headerParams (headerSigned S P salt dk) = P := by
  have low := sane.low
  have high := sane.high
  have behind := @headerSigned_drop S P salt dk
  have behind' : (headerSigned S P salt dk).drop 12 = beEnc 4 P.p.toNat ++ (salt.toList ++
      ((S.sha256 (headerStart P salt)).toList.take 16 ++
        (S.hmac (dk.toList.drop 32) (headerChecked S P salt)).toList)) := by
    rw [show 12 = 8 + 4 from rfl, ← List.drop_drop, behind, List.drop_left' (beEnc_length 4 _)]
  have exponent : (headerSigned S P salt dk).getD 7 0 = UInt8.ofNat (P.logN % 256).toNat := by
    rw [headerSigned, headerChecked, headerStart]
    simp only [List.append_assoc]
    rfl
  have logN : ((UInt8.ofNat (P.logN % 256).toNat).toNat : Int) = P.logN := by
    rw [UInt8.toNat_ofNat']
    omega
  rw [headerParams, exponent, logN, behind, List.take_left' (beEnc_length 4 _),
    ofNat_beDec_beEnc, behind', List.take_left' (beEnc_length 4 _), ofNat_beDec_beEnc]

/-- A header is accepted with the passphrase that it was made with, if its parameters are within
the limits. -/
theorem scryptdecSetup_headerSigned (sane : P.Sane)
    (keys : S.scrypt passwd salt.toList (2 ^ P.logN.toNat) P.r.toNat P.p.toNat = some dk)
    (within : checkparams M.limits P force = .ok ()) :
    scryptdecSetup S M (headerSigned S P salt dk) passwd force = .ok dk := by
  have behind : (headerSigned S P salt dk).drop 16 = salt.toList ++
      ((S.sha256 (headerStart P salt)).toList.take 16 ++
        (S.hmac (dk.toList.drop 32) (headerChecked S P salt)).toList) := by
    rw [show 16 = 8 + (4 + 4) from rfl, ← List.drop_drop, headerSigned_drop, ← List.drop_drop,
      List.drop_left' (beEnc_length 4 _), List.drop_left' (beEnc_length 4 _)]
  have saltBytes : ((headerSigned S P salt dk).drop 16).take 32 = salt.toList := by
    rw [behind]
    exact List.take_left' Vector.length_toList
  have start : (headerSigned S P salt dk).take 48 = headerStart P salt := by
    rw [headerSigned, headerChecked, List.append_assoc]
    exact List.take_left' headerStart_length
  have sum : ((headerSigned S P salt dk).drop 48).take 16 =
      (S.sha256 (headerStart P salt)).toList.take 16 := by
    rw [headerSigned, headerChecked, List.append_assoc, List.drop_left' headerStart_length]
    apply List.take_left'
    rw [List.length_take, Vector.length_toList]
    rfl
  have text : (headerSigned S P salt dk).take 64 = headerChecked S P salt :=
    List.take_left' headerChecked_length
  have signature : ((headerSigned S P salt dk).drop 64).take 32 =
      (S.hmac (dk.toList.drop 32) (headerChecked S P salt)).toList := by
    rw [headerSigned, List.drop_left' headerChecked_length]
    exact List.take_of_length_le (Nat.le_of_eq Vector.length_toList)
  rw [scryptdecSetup]
  simp only [headerParams_headerSigned sane, saltBytes, start, sum, text, signature]
  rw [(cryptoVerifyBytes_eq_zero rfl).mpr rfl, if_neg (not_not.mpr rfl)]
  simp only [within, keys, pure_eq_ok, ok_bind]
  rw [(cryptoVerifyBytes_eq_zero rfl).mpr rfl, if_neg (not_not.mpr rfl)]

end Header

section Block

/-- An encrypted block. -/
def blockOf (S : ScryptPrimitives) (P : ScryptencParams) (salt : Bytes32) (dk : Vector UInt8 64)
    (inbuf : List UInt8) : List UInt8 :=
  let signed := headerSigned S P salt dk ++ xorStream (keystreamOf S dk) 0 inbuf
  signed ++ (S.hmac (dk.toList.drop 32) signed).toList

/-- An encryption that succeeds gives a block, with parameters that are sane and the keys that are
derived with them. -/
theorem scryptencBuf_spec {E : Machine} {given : Option Bytes32} {inbuf : List UInt8}
    (encrypted : (scryptencBuf S E given passwd P force inbuf).rc = .ok ()) :
    ∃ chosen salt dk, chosen.Sane ∧
      S.scrypt passwd salt.toList (2 ^ chosen.logN.toNat) chosen.r.toNat chosen.p.toNat = some dk ∧
      scryptencBuf S E given passwd P force inbuf =
        ⟨.ok (), chosen, some (blockOf S chosen salt dk inbuf)⟩ := by
  rw [scryptencBuf, scryptencSetup] at encrypted ⊢
  cases choose : chooseParams E.limits P force with
  | error rc =>
    rw [choose] at encrypted
    cases encrypted
  | ok chosen =>
    rw [choose] at encrypted
    cases given with
    | none => cases encrypted
    | some salt =>
      simp only at encrypted ⊢
      cases keys : S.scrypt passwd salt.toList (2 ^ chosen.logN.toNat) chosen.r.toNat
          chosen.p.toNat with
      | none =>
        rw [keys] at encrypted
        cases encrypted
      | some dk =>
        rw [keys] at encrypted
        simp only at encrypted ⊢
        by_cases expand : E.expand = false
        · rw [if_pos expand] at encrypted
          cases encrypted
        by_cases stream : E.stream = false
        · rw [if_neg expand, if_pos stream] at encrypted
          cases encrypted
        rw [if_neg expand, if_neg stream]
        exact ⟨chosen, salt, dk, chooseParams_sane choose, keys, rfl⟩

/-- The parts of an encrypted block, and its signature. -/
theorem blockOf_parts (inbuf : List UInt8) :
    (blockOf S P salt dk inbuf).length = inbuf.length + 128 ∧
      (blockOf S P salt dk inbuf).take 96 = headerSigned S P salt dk ∧
      blockData S dk (blockOf S P salt dk inbuf) = inbuf ∧
      SignedBlock S dk (blockOf S P salt dk inbuf) := by
  have signedLength : (headerSigned S P salt dk ++ xorStream (keystreamOf S dk) 0 inbuf).length =
      inbuf.length + 96 := by
    rw [List.length_append, headerSigned_length, xorStream_length, Nat.add_comm]
  have length : (blockOf S P salt dk inbuf).length = inbuf.length + 128 := by
    rw [blockOf, List.length_append, signedLength, Vector.length_toList]
  have total : inbuf.length + 128 - 32 = inbuf.length + 96 := by omega
  have body : inbuf.length + 128 - 128 = inbuf.length := by omega
  refine ⟨length, ?_, ?_, ?_⟩
  · rw [blockOf, List.append_assoc]
    exact List.take_left' headerSigned_length
  · rw [blockData, length, body, blockOf, List.append_assoc, List.drop_left' headerSigned_length,
      List.take_left' (xorStream_length _ _), xorStream_xorStream]
  · rw [SignedBlock, length, total, blockOf, List.take_left' signedLength,
      List.drop_left' signedLength]

/-- The header of an encrypted block is accepted, if its parameters are within the limits. -/
theorem blockOf_opened (sane : P.Sane)
    (keys : S.scrypt passwd salt.toList (2 ^ P.logN.toNat) P.r.toNat P.p.toNat = some dk)
    (within : checkparams M.limits P force = .ok ()) (inbuf : List UInt8) :
    Opened S M passwd force (blockOf S P salt dk inbuf) dk := by
  have parts := (@blockOf_parts S P salt dk inbuf).2.1
  refine ⟨?_, ?_, ?_⟩
  · rw [blockOf, headerSigned, headerChecked, headerStart]
    simp only [List.append_assoc]
    rfl
  · rw [blockOf, headerSigned, headerChecked, headerStart]
    simp only [List.append_assoc]
    rfl
  · rw [parts]
    exact scryptdecSetup_headerSigned sane keys within

/-- Decryption in memory inverts encryption. -/
theorem scryptdecBuf_blockOf (sane : P.Sane)
    (keys : S.scrypt passwd salt.toList (2 ^ P.logN.toNat) P.r.toNat P.p.toNat = some dk)
    (within : checkparams M.limits P force = .ok ()) (expand : M.expand = true)
    (stream : M.stream = true) (inbuf : List UInt8) :
    scryptdecBuf S M passwd force (blockOf S P salt dk inbuf) = ⟨.ok (), P, some inbuf⟩ := by
  obtain ⟨length, header, data, signature⟩ := @blockOf_parts S P salt dk inbuf
  obtain ⟨outbuf, params, accepted⟩ :=
    scryptdecBuf_opened (blockOf_opened sane keys within inbuf) (by omega) expand stream
  generalize scryptdecBuf S M passwd force (blockOf S P salt dk inbuf) = buffer
    at outbuf params accepted ⊢
  obtain ⟨status, params', outbuf'⟩ := buffer
  simp only at outbuf params accepted
  rw [outbuf, params, accepted.mpr signature, data, header, headerParams_headerSigned sane]

end Block

/-- Encryption succeeds exactly if parameters can be chosen, and there are a salt, keys, and what a
stream needs. -/
theorem scryptencBuf_ok {S : ScryptPrimitives} {E : Machine} {salt : Option Bytes32}
    {passwd inbuf : List UInt8} {P : ScryptencParams} {force : Bool} :
    (scryptencBuf S E salt passwd P force inbuf).rc = .ok () ↔
      ∃ chosen bytes dk, chooseParams E.limits P force = .ok chosen ∧ salt = some bytes ∧
        S.scrypt passwd bytes.toList (2 ^ chosen.logN.toNat) chosen.r.toNat chosen.p.toNat =
          some dk ∧ E.expand = true ∧ E.stream = true := by
  unfold scryptencBuf scryptencSetup
  constructor
  · intro succeeds
    cases chose : chooseParams E.limits P force with
    | error rc =>
      rw [chose] at succeeds
      cases succeeds
    | ok chosen =>
      cases given : salt with
      | none =>
        simp only [chose, given] at succeeds
        cases succeeds
      | some bytes =>
        simp only [chose, given] at succeeds
        cases keys : S.scrypt passwd bytes.toList (2 ^ chosen.logN.toNat) chosen.r.toNat
            chosen.p.toNat with
        | none =>
          rw [keys] at succeeds
          cases succeeds
        | some dk =>
          simp only [keys] at succeeds
          split_ifs at succeeds with unexpanded unstreamed
          exact ⟨chosen, bytes, dk, rfl, rfl, keys, Bool.eq_true_of_not_eq_false unexpanded,
            Bool.eq_true_of_not_eq_false unstreamed⟩
  · rintro ⟨chosen, bytes, dk, chose, given, keys, expand, stream⟩
    simp only [chose, given, keys, expand, stream]
    rfl

/-- However a file is read, its decryption stays inside its buffer and writes only data of the
block, and it succeeds exactly if decryption in memory does, with the same parameters and data,
unless there is no memory or a read or a write fails. Both invert encryption with the same
passphrase, as far as the parameters are within the limits, which they are when decryption is
forced; and encryption succeeds if it has what it needs. -/
theorem scryptdec_agrees (S : ScryptPrimitives) (M : Machine) (passwd : List UInt8)
    (force : Bool) :
    (∀ malloc infile outfile, Conforms infile.plan → ∃ run out,
      scryptdecFile S M malloc passwd force infile outfile = .ok run ∧
        Agrees S M malloc passwd force infile outfile run out) ∧
    (∀ E salt P force' inbuf, (scryptencBuf S E salt passwd P force' inbuf).rc = .ok () →
      ∃ chosen text, scryptencBuf S E salt passwd P force' inbuf = ⟨.ok (), chosen, some text⟩ ∧
        checkparams M.limits chosen true = .ok () ∧
        (M.expand = true → M.stream = true → checkparams M.limits chosen force = .ok () →
          scryptdecBuf S M passwd force text = ⟨.ok (), chosen, some inbuf⟩ ∧
          ∀ infile outfile, infile.rest = text → Conforms infile.plan → Faultless infile.plan →
            outfile.room = none → ∃ outfile',
              scryptdecFile S M true passwd force infile outfile =
                .ok ⟨.ok (), chosen, outfile'⟩ ∧ outfile'.data = outfile.data ++ inbuf)) ∧
    (∀ E salt P force' inbuf, (scryptencBuf S E salt passwd P force' inbuf).rc = .ok () ↔
      ∃ chosen bytes dk, chooseParams E.limits P force' = .ok chosen ∧ salt = some bytes ∧
        S.scrypt passwd bytes.toList (2 ^ chosen.logN.toNat) chosen.r.toNat chosen.p.toNat =
          some dk ∧ E.expand = true ∧ E.stream = true) := by
  refine ⟨?_, ?_, fun E salt P force' inbuf => scryptencBuf_ok⟩
  · intro malloc infile outfile conforms
    exact scryptdecFile_spec conforms malloc outfile
  · intro E salt P force' inbuf encrypted
    obtain ⟨chosen, salt', dk, sane, keys, result⟩ := scryptencBuf_spec encrypted
    refine ⟨chosen, _, result, checkparams_forced sane, ?_⟩
    intro expand stream within
    have inverted := scryptdecBuf_blockOf sane keys within expand stream inbuf
    refine ⟨inverted, ?_⟩
    intro infile outfile text conforms faultless room
    obtain ⟨⟨rc, params, outfile'⟩, out, run, agrees⟩ :=
      @scryptdecFile_spec S M passwd force infile conforms true outfile
    have accepted : (scryptdecBuf S M passwd force infile.rest).rc = .ok () := by
      rw [text, inverted]
    have success : rc = .ok () := agrees.complete rfl faultless room accepted
    have same := agrees.sound success
    rw [text, inverted] at same
    cases same
    exact ⟨outfile', success ▸ run, agrees.data⟩

end Tarsnap.Scryptenc
