import Tarsnap.Scryptenc.Copying

/-!
# Decryption in memory and of a file

A block is accepted if its header is, and if the signature at its end is right. Both decryptions
decide this on the same bytes: the file gives its header first, and its body is what is behind it.
A block that was encrypted has the header that the decryption expects, and the same keys.
-/

namespace Tarsnap.Scryptenc

open Tarsnap.Lib Tarsnap.Netpacket Tarsnap.Crypto

variable {S : ScryptPrimitives} {M : Machine} {passwd : List UInt8} {force : Bool}

section Accepted

/-- The header of a block is accepted, and gives some keys. -/
structure Opened (S : ScryptPrimitives) (M : Machine) (passwd : List UInt8) (force : Bool)
    (inbuf : List UInt8) (dk : Vector UInt8 64) : Prop where
  /-- The magic string. -/
  magic : inbuf.take 6 = scryptMagic
  /-- The version number. -/
  version : inbuf.getD 6 0 = 0
  /-- The checksum, the parameters and the signature of the header. -/
  setup : scryptdecSetup S M (inbuf.take 96) passwd force = .ok dk

/-- The signature at the end of a block. -/
def SignedBlock (S : ScryptPrimitives) (dk : Vector UInt8 64) (inbuf : List UInt8) : Prop :=
  (S.hmac (dk.toList.drop 32) (inbuf.take (inbuf.length - 32))).toList =
    inbuf.drop (inbuf.length - 32)

/-- The data of a block, decrypted. -/
def blockData (S : ScryptPrimitives) (dk : Vector UInt8 64) (inbuf : List UInt8) : List UInt8 :=
  xorStream (keystreamOf S dk) 0 ((inbuf.drop 96).take (inbuf.length - 128))

/-- A block in memory that is long enough is decrypted with the keys of its header. -/
theorem scryptdecBuf_opened {inbuf : List UInt8} {dk : Vector UInt8 64}
    (opened : Opened S M passwd force inbuf dk) (long : 128 ≤ inbuf.length)
    (expand : M.expand = true) (stream : M.stream = true) :
    (scryptdecBuf S M passwd force inbuf).outbuf = some (blockData S dk inbuf) ∧
      (scryptdecBuf S M passwd force inbuf).params = headerParams (inbuf.take 96) ∧
      ((scryptdecBuf S M passwd force inbuf).rc = .ok () ↔ SignedBlock S dk inbuf) := by
  have lengths : (S.hmac (dk.toList.drop 32) (inbuf.take (inbuf.length - 32))).toList.length =
      (inbuf.drop (inbuf.length - 32)).length := by
    rw [Vector.length_toList, List.length_drop]
    omega
  have start : ¬(inbuf.length < 7 ∨ inbuf.take 6 ≠ scryptMagic) :=
    not_or.mpr ⟨by omega, not_not.mpr opened.magic⟩
  rw [scryptdecBuf, if_neg start, if_neg (not_not.mpr opened.version),
    if_neg (Nat.not_lt_of_le long)]
  simp only [opened.setup, expand, stream, Bool.true_eq_false, if_false]
  rw [SignedBlock, ← cryptoVerifyBytes_eq_zero lengths]
  split
  · rename_i differs
    exact ⟨rfl, rfl, (fun absurdity => nomatch absurdity), fun same => absurd same differs⟩
  · rename_i same
    exact ⟨rfl, rfl, fun _ => not_not.mp same, fun _ => rfl⟩

/-- A block that is decrypted in memory is long enough, and has a header that is accepted. -/
theorem scryptdecBuf_accepts {inbuf : List UInt8}
    (accepted : (scryptdecBuf S M passwd force inbuf).rc = .ok ()) :
    ∃ dk, Opened S M passwd force inbuf dk ∧ 128 ≤ inbuf.length ∧ M.expand = true ∧
      M.stream = true := by
  rw [scryptdecBuf] at accepted
  by_cases start : inbuf.length < 7 ∨ inbuf.take 6 ≠ scryptMagic
  · rw [if_pos start] at accepted
    cases accepted
  · rw [if_neg start] at accepted
    by_cases version : inbuf.getD 6 0 ≠ 0
    · rw [if_pos version] at accepted
      cases accepted
    · rw [if_neg version] at accepted
      by_cases short : inbuf.length < 128
      · rw [if_pos short] at accepted
        cases accepted
      · rw [if_neg short] at accepted
        simp only at accepted
        rw [not_or, not_not] at start
        cases setup : scryptdecSetup S M (inbuf.take 96) passwd force with
        | error rc =>
          rw [setup] at accepted
          cases accepted
        | ok dk =>
          rw [setup] at accepted
          simp only at accepted
          refine ⟨dk, ⟨start.2, not_not.mp version, setup⟩, Nat.le_of_not_lt short, ?_, ?_⟩
          · by_contra expand
            rw [if_pos (Bool.eq_false_of_not_eq_true expand)] at accepted
            cases accepted
          · by_contra stream
            rw [if_pos (Bool.eq_false_of_not_eq_true stream)] at accepted
            split at accepted <;> cases accepted

end Accepted

section Prepared

/-- The version number is among the bytes that are read first. -/
theorem getD_take (bytes : List UInt8) : (bytes.take 7).getD 6 0 = bytes.getD 6 0 := by
  rw [List.getD_eq_getElem?_getD, List.getD_eq_getElem?_getD, List.getElem?_take_of_lt (by decide)]

/-- The magic string is among the bytes that are read first. -/
theorem take_magic (bytes : List UInt8) : (bytes.take 7).take 6 = bytes.take 6 :=
  List.take_take

/-- A header is read in two parts. -/
theorem take_header (bytes : List UInt8) :
    bytes.take 7 ++ (bytes.drop 7).take 89 = bytes.take 96 := List.take_add.symm

/-- A header that is loaded is the beginning of the file, with the magic string and the version
number. -/
theorem scryptdecFileLoadHeader_loads {infile rest : File} {header : List UInt8}
    (loaded : scryptdecFileLoadHeader infile = (.ok header, rest)) :
    infile.rest.take 6 = scryptMagic ∧ infile.rest.getD 6 0 = 0 ∧ 96 ≤ infile.rest.length ∧
      header = infile.rest.take 96 ∧ rest = ⟨infile.rest.drop 96, infile.plan⟩ := by
  rw [scryptdecFileLoadHeader] at loaded
  simp only at loaded
  by_cases first : (freadItem infile 7).1.bytes.length < 7
  · rw [if_pos first] at loaded
    cases loaded
  · obtain ⟨bytes, behind⟩ := freadItem_whole first
    rw [if_neg first, bytes, behind, take_magic, getD_take] at loaded
    by_cases magic : infile.rest.take 6 = scryptMagic
    · rw [if_neg (not_not.mpr magic)] at loaded
      by_cases version : infile.rest.getD 6 0 = 0
      · rw [if_neg (not_not.mpr version)] at loaded
        by_cases second : (freadItem ⟨infile.rest.drop 7, infile.plan⟩ 89).1.bytes.length < 89
        · rw [if_pos second] at loaded
          cases loaded
        · obtain ⟨bytes', behind'⟩ := freadItem_whole second
          rw [if_neg second, bytes', behind', take_header, List.drop_drop] at loaded
          cases loaded
          refine ⟨magic, version, ?_, rfl, rfl⟩
          rw [bytes', List.length_take, List.length_drop] at second
          omega
      · rw [if_pos version] at loaded
        cases loaded
    · rw [if_pos magic] at loaded
      cases loaded

/-- The header of a file is loaded if it is long enough and there are no errors. -/
theorem scryptdecFileLoadHeader_long {infile : File} (magic : infile.rest.take 6 = scryptMagic)
    (version : infile.rest.getD 6 0 = 0) (long : 96 ≤ infile.rest.length)
    (faultless : Faultless infile.plan) :
    scryptdecFileLoadHeader infile =
      (.ok (infile.rest.take 96), ⟨infile.rest.drop 96, infile.plan⟩) := by
  have first : ¬(freadItem infile 7).1.bytes.length < 7 := by
    rw [freadItem_long faultless (by omega)]
    exact Nat.lt_irrefl 7
  have second : ¬(freadItem ⟨infile.rest.drop 7, infile.plan⟩ 89).1.bytes.length < 89 := by
    have left : 89 ≤ (infile.rest.drop 7).length := by
      rw [List.length_drop]
      omega
    rw [@freadItem_long ⟨infile.rest.drop 7, infile.plan⟩ 89 faultless left]
    exact Nat.lt_irrefl 89
  obtain ⟨bytes, behind⟩ := freadItem_whole first
  obtain ⟨bytes', behind'⟩ := freadItem_whole second
  rw [scryptdecFileLoadHeader]
  simp only
  rw [if_neg first, bytes, behind, take_magic, getD_take, if_neg (not_not.mpr magic),
    if_neg (not_not.mpr version), if_neg second, bytes', behind', take_header, List.drop_drop]

/-- A file that is prepared has a header that is accepted. -/
theorem scryptdecFilePrep_accepts {malloc : Bool} {infile : File} {P : ScryptencParams}
    {C : Cookie} (prepared : scryptdecFilePrep S M malloc passwd force infile = (P, .ok C)) :
    Opened S M passwd force infile.rest C.dk ∧ 96 ≤ infile.rest.length ∧
      P = headerParams (infile.rest.take 96) ∧
      C = ⟨⟨infile.rest.drop 96, infile.plan⟩, infile.rest.take 96, C.dk⟩ := by
  rw [scryptdecFilePrep] at prepared
  by_cases memory : malloc = false
  · rw [if_pos memory] at prepared
    cases prepared
  · rw [if_neg memory] at prepared
    obtain ⟨loaded, rest⟩ : ∃ result, scryptdecFileLoadHeader infile = result := ⟨_, rfl⟩
    rw [rest] at prepared
    obtain ⟨header | header, behind⟩ := loaded
    · cases prepared
    · obtain ⟨magic, version, long, rfl, rfl⟩ := scryptdecFileLoadHeader_loads rest
      simp only at prepared
      cases setup : scryptdecSetup S M (infile.rest.take 96) passwd force with
      | error rc =>
        rw [setup] at prepared
        cases prepared
      | ok dk =>
        rw [setup] at prepared
        cases prepared
        exact ⟨⟨magic, version, setup⟩, long, rfl, rfl⟩

/-- A file with a header that is accepted is prepared if there are no errors. -/
theorem scryptdecFilePrep_opened {infile : File} {dk : Vector UInt8 64}
    (opened : Opened S M passwd force infile.rest dk) (long : 96 ≤ infile.rest.length)
    (faultless : Faultless infile.plan) :
    scryptdecFilePrep S M true passwd force infile =
      (headerParams (infile.rest.take 96),
        .ok ⟨⟨infile.rest.drop 96, infile.plan⟩, infile.rest.take 96, dk⟩) := by
  have loaded := scryptdecFileLoadHeader_long opened.magic opened.version long faultless
  rw [scryptdecFilePrep, if_neg (Ne.symm Bool.false_ne_true), loaded]
  simp only [opened.setup]
  rfl

end Prepared

section Agreement

/-- The data in the body of a file are the data of the block. -/
theorem bodyData_drop (inbuf : List UInt8) :
    bodyData (inbuf.drop 96) = (inbuf.drop 96).take (inbuf.length - 128) := by
  have count : (inbuf.drop 96).length - 32 = inbuf.length - 128 := by
    rw [List.length_drop]
    omega
  rw [bodyData, count]

/-- The body of a file is signed with its header if the block is. -/
theorem signed_iff {infile : File} {dk : Vector UInt8 64} :
    Signed S M ⟨⟨infile.rest.drop 96, infile.plan⟩, infile.rest.take 96, dk⟩ ↔
      M.expand = true ∧ M.stream = true ∧ 128 ≤ infile.rest.length ∧
        SignedBlock S dk infile.rest := by
  have count : (infile.rest.drop 96).length = infile.rest.length - 96 := List.length_drop
  have text (long : 128 ≤ infile.rest.length) :
      infile.rest.take 96 ++ bodyData (infile.rest.drop 96) =
        infile.rest.take (infile.rest.length - 32) := by
    have total : infile.rest.length - 32 = 96 + (infile.rest.length - 128) := by omega
    rw [bodyData_drop, total, List.take_add]
  have last (long : 128 ≤ infile.rest.length) :
      (infile.rest.drop 96).drop ((infile.rest.drop 96).length - 32) =
        infile.rest.drop (infile.rest.length - 32) := by
    have total : 96 + (infile.rest.length - 96 - 32) = infile.rest.length - 32 := by omega
    rw [List.drop_drop, count, total]
  constructor
  · intro signed
    have long : 128 ≤ infile.rest.length := by
      have body := signed.long
      simp only [count] at body
      omega
    refine ⟨signed.expand, signed.stream, long, ?_⟩
    have signature := signed.signature
    simp only at signature
    rw [text long, last long] at signature
    exact signature
  · rintro ⟨expand, stream, long, signature⟩
    refine ⟨expand, stream, ?_, ?_⟩
    · simp only [count]
      omega
    · simp only
      rw [text long, last long]
      exact signature

/-- What the decryption of a file does, beside the decryption of the same bytes in memory. -/
structure Agrees (S : ScryptPrimitives) (M : Machine) (malloc : Bool) (passwd : List UInt8)
    (force : Bool) (infile : File) (outfile : Outfile) (run : FileResult) (out : List UInt8) :
    Prop where
  /-- What is written to the file. -/
  data : run.outfile.data = outfile.data ++ out
  /-- Only data of the block are written. -/
  window : out <+: ((scryptdecBuf S M passwd force infile.rest).outbuf.getD [])
  /-- A file that is accepted is accepted in memory, with the same parameters and data. -/
  sound : run.rc = .ok () →
    scryptdecBuf S M passwd force infile.rest = ⟨.ok (), run.params, some out⟩
  /-- A block that is accepted in memory is accepted as a file if nothing goes wrong. -/
  complete : malloc = true → Faultless infile.plan → outfile.room = none →
    (scryptdecBuf S M passwd force infile.rest).rc = .ok () → run.rc = .ok ()

/-- Decryption of a file agrees with decryption in memory, however the file is read. -/
theorem scryptdecFile_spec {infile : File} (conforms : Conforms infile.plan) (malloc : Bool)
    (outfile : Outfile) : ∃ run out,
      scryptdecFile S M malloc passwd force infile outfile = .ok run ∧
        Agrees S M malloc passwd force infile outfile run out := by
  rw [scryptdecFile]
  obtain ⟨result, prepared⟩ :
    ∃ result, scryptdecFilePrep S M malloc passwd force infile = result := ⟨_, rfl⟩
  rw [prepared]
  obtain ⟨P, rc | C⟩ := result
  · refine ⟨_, [], rfl, (List.append_nil _).symm, List.nil_prefix,
      (fun absurdity => nomatch absurdity), ?_⟩
    rintro rfl faultless _ accepted
    obtain ⟨dk, opened, long, _, _⟩ := scryptdecBuf_accepts accepted
    rw [scryptdecFilePrep_opened opened (by omega) faultless] at prepared
    cases prepared
  · obtain ⟨opened, long, rfl, same⟩ := scryptdecFilePrep_accepts prepared
    generalize C.dk = dk at opened same
    subst same
    obtain ⟨rc, outfile', out, copied, result⟩ :=
      @scryptdecFileCopy_spec S M ⟨⟨infile.rest.drop 96, infile.plan⟩, infile.rest.take 96, dk⟩
        conforms outfile
    have window := result.window
    have sound := result.sound
    simp only [bodyData_drop] at window sound
    simp only
    rw [copied, ok_bind]
    refine ⟨_, out, rfl, result.data, ?_, ?_, ?_⟩
    · by_cases none : out = []
      · rw [none]
        exact List.nil_prefix
      · obtain ⟨expand, stream⟩ := result.memory none
        have enough : 128 ≤ infile.rest.length := by
          by_contra short
          have zero : infile.rest.length - 128 = 0 := by omega
          rw [zero] at window
          exact none (List.prefix_nil.mp window)
        rw [(scryptdecBuf_opened opened enough expand stream).1, Option.getD_some, blockData]
        exact window
    · intro success
      have same : rc = .ok () := success
      subst same
      obtain ⟨signed, all⟩ := sound rfl
      obtain ⟨expand, stream, enough, signature⟩ := signed_iff.mp signed
      obtain ⟨outbuf, params, accepted⟩ := scryptdecBuf_opened opened enough expand stream
      rw [all]
      generalize scryptdecBuf S M passwd force infile.rest = buffer at outbuf params accepted ⊢
      obtain ⟨status, params', outbuf'⟩ := buffer
      simp only at outbuf params accepted
      rw [outbuf, params, accepted.mpr signature]
      rfl
    · intro _ faultless room accepted
      obtain ⟨dk', opened', enough, expand, stream⟩ := scryptdecBuf_accepts accepted
      obtain rfl : dk' = dk := Except.ok.inj (opened'.setup.symm.trans opened.setup)
      have signature := (scryptdecBuf_opened opened enough expand stream).2.2.mp accepted
      have signed := (@signed_iff S M infile dk').mpr ⟨expand, stream, enough, signature⟩
      exact result.complete faultless room signed

end Agreement

end Tarsnap.Scryptenc
