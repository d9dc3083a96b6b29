import Tarsnap.Scryptenc.Scryptenc

/-!
# Decrypting a file as it is read

Before each read of the loop, what was read of the file is what was decrypted, followed by at most
32 bytes at the beginning of the buffer. The bytes that are held back are fewer than 32 only while
nothing was decrypted. So the loop stays inside its buffer however the file is read, and what it
decrypts never contains one of the last 32 bytes.
-/

namespace Tarsnap.Scryptenc

open Tarsnap.Lib Tarsnap.Netpacket Tarsnap.Crypto

section Loop

variable {keystream : UInt64 → UInt8} {header start : List UInt8}

/-- What holds before each read: what was decrypted and what is held back. -/
structure Holding (keystream : UInt64 → UInt8) (header start : List UInt8) (c : Copying)
    (emitted held : List UInt8) : Prop where
  /-- The buffer has room for a block and a signature. -/
  length : c.buf.length = ENCBLOCK + 32
  /-- What is held back is at the beginning of the buffer. -/
  cells : held.map some <+: c.buf
  /-- How much is held back. -/
  buflen : c.buflen = held.length
  /-- No more than a signature is held back. -/
  window : held.length ≤ 32
  /-- Less than a signature is held back only while nothing was decrypted. -/
  full : emitted ≠ [] → held.length = 32
  /-- What was decrypted was hashed behind the header. -/
  hctx : c.hctx = header ++ emitted
  /-- The position in the keystream. -/
  bytectr : c.bytectr = UInt64.ofNat emitted.length
  /-- What was decrypted was written. -/
  outfile : c.outfile.data = start ++ xorStream keystream 0 emitted

/-- A block is decrypted in place, hashed and written. -/
theorem outputBlock_spec {c : Copying} {block held : List UInt8}
    (holds : (block ++ held).map some <+: c.buf) (buflen : c.buflen = block.length + 32) :
    ∃ written c', outputBlock keystream c = .ok (written, c') ∧
      c'.buf.length = c.buf.length ∧
      (xorStream keystream c.bytectr block ++ held).map some <+: c'.buf ∧
      c'.buflen = c.buflen ∧ c'.hctx = c.hctx ++ block ∧
      c'.bytectr = c.bytectr + UInt64.ofNat block.length ∧
      c'.infile = c.infile ∧ c'.ferror = c.ferror ∧
      (written, c'.outfile) = fwrite c.outfile (xorStream keystream c.bytectr block) := by
  have amount : c.buflen - 32 = block.length := by omega
  have loaded : loadBytes c.buf 0 block.length = .ok block := loadBytes_front holds
  have lengths : (xorStream keystream c.bytectr block).length = block.length :=
    xorStream_length _ _
  obtain ⟨buf, stored, same, replaced⟩ := storeBytes_over holds lengths
  have written : loadBytes buf 0 block.length = .ok (xorStream keystream c.bytectr block) := by
    rw [← lengths]
    exact loadBytes_front replaced
  rw [outputBlock, amount, loaded, ok_bind, stored, ok_bind, written, ok_bind]
  exact ⟨_, _, rfl, same, replaced, rfl, rfl, rfl, rfl, rfl, rfl⟩

/-- How the loop ends: what was read is what was decrypted, what is held back, and what is still to
be read. -/
structure Copied (keystream : UInt64 → UInt8) (header start : List UInt8) (body : List UInt8)
    (rc : Except ScryptError Unit) (c : Copying) (emitted held : List UInt8) : Prop where
  /-- The parts of the file. -/
  parts : emitted ++ held ++ c.infile.rest = body
  /-- What was decrypted is followed by a signature at least. -/
  behind : emitted ≠ [] → 32 ≤ held.length
  /-- What was written is a beginning of what was decrypted. -/
  written : ∃ out, c.outfile.data = start ++ out ∧ out <+: xorStream keystream 0 emitted
  /-- A loop that succeeds leaves what holds before a read, and the file at its end unless reading
  failed. -/
  succeeds : rc = .ok () → Holding keystream header start c emitted held ∧
    (c.ferror = false → c.infile.rest = [])

/-- All but the final 32 bytes are decrypted and written. The loop ends if writing falls short, and
is ready to read again if not. -/
theorem outputBlock_holding {c : Copying} {emitted behind : List UInt8}
    (length : c.buf.length = ENCBLOCK + 32) (cells : behind.map some <+: c.buf)
    (buflen : c.buflen = behind.length) (many : 32 < behind.length)
    (hctx : c.hctx = header ++ emitted) (bytectr : c.bytectr = UInt64.ofNat emitted.length)
    (outfile : c.outfile.data = start ++ xorStream keystream 0 emitted) :
    ∃ written c' block held, outputBlock keystream c = .ok (written, c') ∧
      behind = block ++ held ∧ c'.buflen = c.buflen ∧ c'.infile = c.infile ∧
      c'.ferror = c.ferror ∧
      (written < c.buflen - 32 → c.outfile.room ≠ none ∧
        Copied keystream header start (emitted ++ behind ++ c.infile.rest) (.error .ewrfile) c'
          (emitted ++ block) held) ∧
      (¬written < c.buflen - 32 → ∃ buf, moveCells c'.buf (c.buflen - 32) 32 = .ok buf ∧
        Holding keystream header start { c' with buf, buflen := 32 } (emitted ++ block) held ∧
        (c.outfile.room = none → c'.outfile.room = none)) := by
  obtain ⟨block, held, split, short⟩ : ∃ block held, behind = block ++ held ∧
      held.length = 32 := by
    refine ⟨_, _, (List.take_append_drop (c.buflen - 32) _).symm, ?_⟩
    rw [List.length_drop, ← buflen]
    omega
  have amount : c.buflen = block.length + 32 := by
    rw [buflen, split, List.length_append, short]
  have less : c.buflen - 32 = block.length := by omega
  rw [split] at cells
  obtain ⟨written, c', output, sameLength, replaced, sameLen, hashed, position, sameFile, sameError,
    result⟩ := @outputBlock_spec keystream c block held cells amount
  have stream : xorStream keystream 0 (emitted ++ block) =
      xorStream keystream 0 emitted ++ xorStream keystream c.bytectr block := by
    rw [xorStream_append, UInt64.zero_add, bytectr]
  obtain ⟨data, unlimited⟩ := fwrite_spec c.outfile (xorStream keystream c.bytectr block)
  rw [← result] at data unlimited
  simp only at data unlimited
  rw [xorStream_length] at unlimited
  refine ⟨written, c', block, held, output, split, sameLen, sameFile, sameError, ?_, ?_⟩
  · intro failed
    constructor
    · intro free
      have all := (unlimited free).1
      omega
    · refine ⟨?_, fun _ => Nat.le_of_eq short.symm, ⟨xorStream keystream 0 emitted ++
        (xorStream keystream c.bytectr block).take written, ?_, ?_⟩,
        fun absurdity => nomatch absurdity⟩
      · rw [sameFile, split, List.append_assoc emitted]
      · rw [data, outfile, List.append_assoc]
      · rw [stream]
        exact List.prefix_append_right_inj _ |>.mpr (List.take_prefix _ _)
  · intro whole
    obtain ⟨moved, move, movedLength, movedCells⟩ := moveCells_at replaced
    rw [xorStream_length, short] at move
    have all : (xorStream keystream c.bytectr block).take written =
        xorStream keystream c.bytectr block := by
      apply List.take_of_length_le
      rw [xorStream_length]
      omega
    refine ⟨moved, by rw [less, move], ⟨movedLength.trans (sameLength.trans length), movedCells,
      short.symm, Nat.le_of_eq short, fun _ => short, ?_, ?_, ?_⟩, fun free => (unlimited free).2⟩
    · show c'.hctx = header ++ (emitted ++ block)
      rw [hashed, hctx, List.append_assoc]
    · show c'.bytectr = UInt64.ofNat (emitted ++ block).length
      rw [position, bytectr, ← UInt64.ofNat_add, List.length_append]
    · show c'.outfile.data = start ++ xorStream keystream 0 (emitted ++ block)
      rw [data, all, stream, outfile, List.append_assoc]

/-- The loop stays inside its buffer, and ends. It succeeds if there are no errors. -/
theorem copyLoop_spec {fuel : Nat} {c : Copying} {emitted held : List UInt8}
    (holding : Holding keystream header start c emitted held) (conforms : Conforms c.infile.plan)
    (enough : c.infile.rest.length < fuel) :
    ∃ rc c' emitted' held', copyLoop keystream fuel c = .ok (rc, c') ∧
      Copied keystream header start (emitted ++ held ++ c.infile.rest) rc c' emitted' held' ∧
      (c.ferror = false → Faultless c.infile.plan → c.outfile.room = none →
        rc = .ok () ∧ c'.ferror = false) := by
  induction fuel generalizing c emitted held with
  | zero => exact absurd enough (Nat.not_lt_zero _)
  | succ fuel ih =>
    have buflen := holding.buflen
    have window := holding.window
    have length := holding.length
    have wanted : 0 < ENCBLOCK + 32 - c.buflen := by
      unfold ENCBLOCK
      omega
    rw [copyLoop]
    obtain ⟨whole, bound, _⟩ := fread_spec c.infile (ENCBLOCK + 32 - c.buflen)
    have planned := fread_plan c.infile (ENCBLOCK + 32 - c.buflen)
    have unfailed := @fread_ferror c.infile
    have nothing := fread_nothing conforms wanted
    have unfailed' := fun faultless => unfailed faultless (ENCBLOCK + 32 - c.buflen)
    generalize fread c.infile (ENCBLOCK + 32 - c.buflen) = result
      at whole bound planned unfailed' nothing ⊢
    obtain ⟨read, infile⟩ := result
    simp only at whole bound planned unfailed' nothing ⊢
    have conforms' : Conforms infile.plan := fun amount member =>
      conforms amount (planned _ member)
    by_cases none : read.bytes.length = 0
    · have empty : read.bytes = [] := List.eq_nil_of_length_eq_zero none
      rw [if_pos none, pure_eq_ok]
      rw [empty, List.nil_append] at whole
      refine ⟨.ok (), _, emitted, held, rfl, ⟨?_, fun some => Nat.le_of_eq (holding.full some).symm,
        ⟨_, holding.outfile, List.prefix_refl _⟩, fun _ => ⟨?_, ?_⟩⟩, ?_⟩
      · rw [← whole]
      · exact ⟨length, holding.cells, buflen, window, holding.full, holding.hctx, holding.bytectr,
          holding.outfile⟩
      · intro succeeded
        rw [Bool.or_eq_false_iff] at succeeded
        exact nothing none succeeded.2
      · intro before faultless _
        refine ⟨rfl, ?_⟩
        rw [before, unfailed' faultless]
        rfl
    · rw [if_neg none]
      have room : held.length + read.bytes.length ≤ c.buf.length := by omega
      obtain ⟨buf, stored, same, cells⟩ := storeBytes_behind holding.cells room
      have shorter : infile.rest.length < fuel := by
        have total := congrArg List.length whole
        rw [List.length_append] at total
        omega
      have total : emitted ++ held ++ c.infile.rest =
          emitted ++ (held ++ read.bytes) ++ infile.rest := by
        rw [← whole]
        simp only [List.append_assoc]
      have count : c.buflen + read.bytes.length = (held ++ read.bytes).length := by
        rw [List.length_append, buflen]
      have unfailed : c.ferror = false → Faultless c.infile.plan →
          (c.ferror || read.ferror) = false ∧ Faultless infile.plan := by
        intro before faultless
        rw [before, unfailed' faultless]
        exact ⟨rfl, fun amount member => faultless amount (planned _ member)⟩
      rw [← buflen] at stored
      rw [stored, ok_bind, total]
      by_cases few : c.buflen + read.bytes.length ≤ 32
      · have nothing : emitted = [] := by
          by_contra some
          have held := holding.full some
          omega
        subst nothing
        have grown : Holding keystream header start { c with
            buf, buflen := c.buflen + read.bytes.length, infile
            ferror := c.ferror || read.ferror } [] (held ++ read.bytes) :=
          ⟨same.trans length, cells, count, count ▸ few, fun absurdity => (absurdity rfl).elim,
            holding.hctx, holding.bytectr, holding.outfile⟩
        rw [if_pos few]
        obtain ⟨rc, c', emitted', held', run, copied, clear⟩ := ih grown conforms' shorter
        refine ⟨rc, c', emitted', held', run, copied, ?_⟩
        intro before faultless unlimited
        have both := unfailed before faultless
        exact clear both.1 both.2 unlimited
      · rw [if_neg few]
        have many : 32 < (held ++ read.bytes).length := by omega
        obtain ⟨written, c', block, held', output, split, sameLen, sameFile, sameError, failing,
          going⟩ := @outputBlock_holding keystream header start { c with
            buf, buflen := c.buflen + read.bytes.length, infile
            ferror := c.ferror || read.ferror } emitted (held ++ read.bytes) (same.trans length)
            cells count many holding.hctx holding.bytectr holding.outfile
        simp only at sameLen sameFile sameError failing going
        rw [output, ok_bind]
        simp only [sameLen]
        by_cases failed : written < c.buflen + read.bytes.length - 32
        · rw [if_pos failed]
          obtain ⟨limited, copied⟩ := failing failed
          exact ⟨_, c', _, held', rfl, copied, fun _ _ free => absurd free limited⟩
        · rw [if_neg failed]
          obtain ⟨moved, move, next, unlimited⟩ := going failed
          rw [move, ok_bind]
          have nextConforms : Conforms c'.infile.plan := sameFile ▸ conforms'
          have nextShorter : c'.infile.rest.length < fuel := sameFile ▸ shorter
          obtain ⟨rc, c'', emitted', held'', run, copied, clear⟩ := ih next nextConforms nextShorter
          rw [sameFile, List.append_assoc emitted, ← split] at copied
          refine ⟨rc, c'', emitted', held'', run, copied, ?_⟩
          intro before faultless free
          have both := unfailed before faultless
          exact clear (sameError.trans both.1) (sameFile ▸ both.2) (unlimited free)

end Loop

section Copy

variable (S : ScryptPrimitives) (M : Machine)

/-- The keystream under derived keys. -/
def keystreamOf (dk : Vector UInt8 64) : UInt64 → UInt8 := S.aesctr (dk.toList.take 32) 0

/-- The data of a body: all but its signature. -/
def bodyData (body : List UInt8) : List UInt8 := body.take (body.length - 32)

/-- There is memory to decrypt a file, and its signature is right. -/
structure Signed (C : Cookie) : Prop where
  /-- The key can be expanded. -/
  expand : M.expand = true
  /-- There is memory for the stream. -/
  stream : M.stream = true
  /-- There is a signature. -/
  long : 32 ≤ C.infile.rest.length
  /-- The signature of the header and the data. -/
  signature : (S.hmac (C.dk.toList.drop 32) (C.header ++ bodyData C.infile.rest)).toList =
    C.infile.rest.drop (C.infile.rest.length - 32)

/-- What a decryption writes, and when it succeeds. -/
structure CopyResult (C : Cookie) (outfile outfile' : Outfile) (rc : Except ScryptError Unit)
    (out : List UInt8) : Prop where
  /-- What is written. -/
  data : outfile'.data = outfile.data ++ out
  /-- Nothing is written without memory. -/
  memory : out ≠ [] → M.expand = true ∧ M.stream = true
  /-- Only data are written. -/
  window : out <+: xorStream (keystreamOf S C.dk) 0 (bodyData C.infile.rest)
  /-- A file that is accepted is signed, and all of its data are written. -/
  sound : rc = .ok () →
    Signed S M C ∧ out = xorStream (keystreamOf S C.dk) 0 (bodyData C.infile.rest)
  /-- A file that is signed is accepted if there are no errors. -/
  complete : Faultless C.infile.plan → outfile.room = none → Signed S M C → rc = .ok ()

variable {S M}

/-- The data and the signature of a body of which all but 32 bytes were decrypted. -/
theorem bodyData_append {emitted held : List UInt8} (short : held.length = 32) :
    bodyData (emitted ++ held) = emitted ∧
      (emitted ++ held).drop ((emitted ++ held).length - 32) = held := by
  have count : (emitted ++ held).length - 32 = emitted.length := by
    rw [List.length_append]
    omega
  rw [bodyData, count]
  exact ⟨List.take_left, List.drop_left⟩

/-- A file is decrypted inside the buffer, however it is read. -/
theorem scryptdecFileCopy_spec {C : Cookie} (conforms : Conforms C.infile.plan)
    (outfile : Outfile) : ∃ rc outfile' out,
      scryptdecFileCopy S M C outfile = .ok (rc, outfile') ∧
        CopyResult S M C outfile outfile' rc out := by
  have refused (rc : ScryptError) (why : ¬Signed S M C) :
      CopyResult S M C outfile outfile (.error rc) [] := by
    refine ⟨(List.append_nil _).symm, fun absurdity => (absurdity rfl).elim, List.nil_prefix,
      (fun absurdity => nomatch absurdity), fun _ _ signed => absurd signed why⟩
  rw [scryptdecFileCopy]
  by_cases expand : M.expand = false
  · rw [if_pos expand]
    refine ⟨_, _, _, rfl, refused _ fun signed => ?_⟩
    exact nomatch expand.symm.trans signed.expand
  by_cases stream : M.stream = false
  · rw [if_neg expand, if_pos stream]
    refine ⟨_, _, _, rfl, refused _ fun signed => ?_⟩
    exact nomatch stream.symm.trans signed.stream
  rw [if_neg expand, if_neg stream]
  rw [Bool.not_eq_false] at expand stream
  have initial : Holding (keystreamOf S C.dk) C.header outfile.data
      ⟨List.replicate (ENCBLOCK + 32) none, 0, C.header, 0, C.infile, false, outfile⟩ [] [] :=
    ⟨List.length_replicate, List.nil_prefix, rfl, Nat.zero_le _, fun absurdity =>
      (absurdity rfl).elim, (List.append_nil _).symm, rfl, (List.append_nil _).symm⟩
  obtain ⟨rc, c, emitted, held, run, copied, clear⟩ :=
    copyLoop_spec initial conforms (Nat.lt_succ_self _)
  obtain ⟨out, written, part⟩ := copied.written
  have parts := copied.parts
  simp only [List.nil_append] at parts clear
  unfold keystreamOf at run
  have window : out <+: xorStream (keystreamOf S C.dk) 0 (bodyData C.infile.rest) := by
    refine List.IsPrefix.trans part (xorStream_initial 0 ?_)
    by_cases none : emitted = []
    · rw [none]
      exact List.nil_prefix
    · have behind := copied.behind none
      rw [← parts, bodyData, List.append_assoc]
      apply List.prefix_take_iff.mpr
      refine ⟨List.prefix_append _ _, ?_⟩
      rw [List.length_append, List.length_append]
      omega
  have failed (reason : ScryptError)
      (why : Faultless C.infile.plan → outfile.room = none → ¬Signed S M C) :
      CopyResult S M C outfile c.outfile (.error reason) out :=
    ⟨written, fun _ => ⟨expand, stream⟩, window, (fun absurdity => nomatch absurdity),
      fun faultless free signed => absurd signed (why faultless free)⟩
  rw [run, ok_bind]
  cases rc with
  | error reason =>
    refine ⟨_, _, _, rfl, failed reason fun faultless free => ?_⟩
    exact nomatch (clear trivial faultless free).1
  | ok _ =>
    obtain ⟨holding, ended⟩ := copied.succeeds rfl
    simp only
    cases error : c.ferror with
    | true =>
      refine ⟨_, _, _, rfl, failed .erdfile fun faultless free => ?_⟩
      exact nomatch error.symm.trans (clear trivial faultless free).2
    | false =>
      have whole : emitted ++ held = C.infile.rest := by
        rw [← parts, ended error, List.append_nil]
      rw [if_neg Bool.false_ne_true]
      by_cases few : c.buflen < 32
      · rw [if_pos few]
        refine ⟨_, _, _, rfl, failed .einval fun _ _ signed => ?_⟩
        have none : emitted = [] := by
          by_contra some
          have full := holding.full some
          have buflen := holding.buflen
          omega
        have long := signed.long
        rw [← whole, none, List.nil_append, ← holding.buflen] at long
        omega
      · have short : held.length = 32 := by
          have window := holding.window
          have buflen := holding.buflen
          omega
        obtain ⟨data, last⟩ := @bodyData_append emitted held short
        rw [whole] at data last
        have cells : (held ++ []).map some <+: c.buf := by
          rw [List.append_nil]
          exact holding.cells
        have loaded : loadBytes c.buf 0 32 = .ok held := by
          rw [← short]
          exact loadBytes_front cells
        have compared : cryptoVerifyBytes (S.hmac (C.dk.toList.drop 32) c.hctx).toList held = 0 ↔
            (S.hmac (C.dk.toList.drop 32) (C.header ++ bodyData C.infile.rest)).toList =
              C.infile.rest.drop (C.infile.rest.length - 32) := by
          rw [cryptoVerifyBytes_eq_zero (by rw [Vector.length_toList, short]), holding.hctx, data,
            last]
        rw [if_neg few, loaded, ok_bind]
        by_cases differs : cryptoVerifyBytes (S.hmac (C.dk.toList.drop 32) c.hctx).toList held ≠ 0
        · rw [if_pos differs]
          refine ⟨_, _, _, rfl, failed .einval fun _ _ signed => ?_⟩
          exact differs (compared.mpr signed.signature)
        · rw [if_neg differs]
          rw [not_not] at differs
          have all : out = xorStream (keystreamOf S C.dk) 0 (bodyData C.infile.rest) := by
            have outfile := holding.outfile
            rw [written, data] at *
            exact List.append_cancel_left outfile
          have signed : Signed S M C := by
            refine ⟨expand, stream, ?_, compared.mp differs⟩
            rw [← whole, List.length_append]
            omega
          exact ⟨_, _, _, rfl, written, fun _ => ⟨expand, stream⟩, window, fun _ => ⟨signed, all⟩,
            fun _ _ _ => rfl⟩

end Copy

end Tarsnap.Scryptenc
