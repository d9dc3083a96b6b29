import Tarsnap.Keyfile.KeyfileLines

/-!
# Writing and reading key files

What is read of a file that was written are the machine number and the keys that it was written
for, with or without a passphrase, if the file is not larger than a reader takes it to be
reasonable. No other text brings the reader outside of its buffers.
-/

namespace Tarsnap.Keyfile

open Tarsnap.Lib Tarsnap.Scryptenc Tarsnap.Crypto

section Safety

variable {L : BignumLimit} {S : ScryptPrimitives}

/-- A buffer that is decrypted is an encrypted block, and it is longer than its data. -/
theorem scryptdecBuf_block {M : Machine} {passwd inbuf : List UInt8} {force : Bool}
    {params : ScryptencParams} {outbuf : Option (List UInt8)}
    (decrypted : scryptdecBuf S M passwd force inbuf = ⟨.ok (), params, outbuf⟩) :
    inbuf.take 6 = scryptMagic ∧ ∃ data, outbuf = some data ∧ data.length + 128 ≤ inbuf.length := by
  rw [scryptdecBuf] at decrypted
  split at decrypted
  · cases decrypted
  rename_i magic
  split at decrypted
  · cases decrypted
  split at decrypted
  · cases decrypted
  rename_i long
  simp only at decrypted
  split at decrypted
  · cases decrypted
  split at decrypted
  · cases decrypted
  split at decrypted
  · cases decrypted
  split at decrypted
  · cases decrypted
  · cases decrypted
    refine ⟨not_not.mp (not_or.mp magic).2, _, rfl, ?_⟩
    rw [xorStream_length, List.length_take, List.length_drop]
    omega

variable (S) (R : Reader) (keybuf : List UInt8) (loaded : Loaded L)

/-- Reading the keys stays inside the buffer. -/
theorem readRaw_total : ∃ rc loaded', readRaw R keybuf loaded = .ok (rc, loaded') := by
  rw [readRaw]
  split
  · exact ⟨_, _, rfl⟩
  · obtain ⟨rc, cache, read, _⟩ := cryptoKeysImport_accepts R.keys (keybuf.drop 8) loaded.cache
    rw [read]
    exact ⟨_, _, rfl⟩

/-- Reading a plaintext key file stays inside the buffer. -/
theorem readPlaintext_total : ∃ rc loaded', readPlaintext R keybuf loaded = .ok (rc, loaded') := by
  rw [readPlaintext]
  split
  · exact ⟨_, _, rfl⟩
  split
  · exact ⟨_, _, rfl⟩
  · exact readRaw_total R _ _

/-- Reading an encrypted key file stays inside the buffers. -/
theorem readEncrypted_total :
    ∃ rc loaded', readEncrypted S R keybuf loaded = .ok (rc, loaded') := by
  rw [readEncrypted]
  split
  · exact ⟨_, _, rfl⟩
  cases R.passwd with
  | none => exact ⟨_, _, rfl⟩
  | some passwd =>
    simp only
    generalize decrypted : scryptdecBuf S R.machine passwd R.force keybuf = result
    obtain ⟨status, params, outbuf⟩ := result
    cases status with
    | error rc => exact ⟨_, _, rfl⟩
    | ok success =>
      obtain ⟨_, data, rfl, short⟩ := scryptdecBuf_block decrypted
      simp only
      rw [if_neg (by omega)]
      exact readPlaintext_total R _ _

/-- Reading a decoded key file stays inside the buffer. -/
theorem readBase256_total :
    ∃ rc loaded', readBase256 S R keybuf loaded = .ok (rc, loaded') := by
  rw [readBase256]
  split
  · exact ⟨_, _, rfl⟩
  split
  · exact readEncrypted_total S R _ _
  · exact readPlaintext_total R _ _

/-- Reading a key file stays inside the buffers. -/
theorem keyfileRead_total (f : File) :
    ∃ rc loaded', keyfileRead S R f loaded = .ok (rc, loaded') := by
  rw [keyfileRead]
  simp only
  split
  · exact ⟨_, _, rfl⟩
  split
  · exact ⟨_, _, rfl⟩
  split
  · exact readRaw_total R _ _
  · have given := splitLines_lines [] (freadItem f f.rest.length).1.bytes
      (fun _ member => nomatch member : IsLine false [])
    rw [List.nil_append] at given
    rw [readBase64_spec R given, readPayloads]
    split
    · exact ⟨_, _, rfl⟩
    split
    · exact ⟨_, _, rfl⟩
    · exact readBase256_total S R _ _

end Safety

section Writing

variable {L : BignumLimit} {S : ScryptPrimitives} {f f' : Outfile} {line : List UInt8}

/-- A line that is printed is written with a line feed behind it. -/
theorem fprintLine_true (printed : fprintLine f line = (true, f')) :
    f'.data = f.data ++ (line ++ [10]) := by
  obtain ⟨written, _⟩ := fwrite_spec f (line ++ [10])
  have all : (fwrite f (line ++ [10])).1 = line.length + 1 :=
    of_decide_eq_true (congrArg Prod.fst printed)
  have whole : (line ++ [10]).length = line.length + 1 := List.length_append
  have same : (fwrite f (line ++ [10])).2 = f' := congrArg Prod.snd printed
  rw [← same, written, all, ← whole, List.take_length]

/-- Where there is room, lines are printed. -/
theorem fprintLine_room (room : f.room = none) (line : List UInt8) : ∃ f',
    fprintLine f line = (true, f') ∧ f'.room = none := by
  obtain ⟨_, spacious⟩ := fwrite_spec f (line ++ [10])
  obtain ⟨all, room'⟩ := spacious room
  refine ⟨_, ?_, room'⟩
  rw [fprintLine]
  simp only [all, List.length_append, List.length_singleton, decide_true]

variable (S) in
/-- The lines of a file between the first and the last one. -/
def chunkLines (tskeybuf : List UInt8) : List (List UInt8) :=
  if tskeybuf = [] then []
  else b64encode (hashedLine S (tskeybuf.take 48)) :: chunkLines (tskeybuf.drop 48)
termination_by tskeybuf.length
decreasing_by
  rename_i more
  have positive := List.length_pos_iff.mpr more
  rw [List.length_drop]
  omega

/-- Six bytes of a hash are written behind the bytes of a line. -/
theorem hashedLine_length (chunk : List UInt8) :
    (hashedLine S chunk).length = chunk.length + 6 := by
  rw [hashedLine, List.length_append, List.length_take, Vector.length_toList]
  rfl

/-- A line fits into the buffers, and it has no zero. -/
theorem chunkLine_fits (tskeybuf : List UInt8) :
    ¬(54 < (hashedLine S (tskeybuf.take 48)).length ∨
      72 < (b64encode (hashedLine S (tskeybuf.take 48))).length) ∧
    (b64encode (hashedLine S (tskeybuf.take 48))).takeWhile (· ≠ 0) =
      b64encode (hashedLine S (tskeybuf.take 48)) := by
  have short : (tskeybuf.take 48).length ≤ 48 := List.length_take_le _ _
  constructor
  · obtain ⟨_, _, _, _, length, _⟩ := b64encode_spec (hashedLine S (tskeybuf.take 48))
    rw [length, hashedLine_length]
    omega
  · apply List.takeWhile_eq_self_iff.mpr
    intro char member
    have clean := b64encode_clean member
    rw [List.mem_cons, not_or] at clean
    exact decide_eq_true clean.1

/-- Writing the lines stays inside the buffers, and if it succeeds, all of them are written. -/
theorem writeLines_spec (tskeybuf : List UInt8) : ∀ f : Outfile,
    ∃ rc f', writeLines S tskeybuf f = .ok (rc, f') ∧
      (rc = 0 → f'.data = f.data ++ (chunkLines S tskeybuf).flatMap (· ++ [10])) ∧
      (f.room = none → rc = 0 ∧ f'.room = none) := by
  induction size : tskeybuf.length using Nat.strongRecOn generalizing tskeybuf with
  | ind length ih =>
    intro f
    rw [writeLines, chunkLines]
    by_cases done : tskeybuf = []
    · rw [if_pos done, if_pos done]
      refine ⟨0, f, rfl, fun _ => ?_, fun room => ⟨rfl, room⟩⟩
      rw [List.flatMap_nil, List.append_nil]
    · have positive := List.length_pos_iff.mpr done
      obtain ⟨fits, clean⟩ := chunkLine_fits (S := S) tskeybuf
      rw [if_neg done, if_neg done]
      simp only
      rw [if_neg fits, clean]
      generalize b64encode (hashedLine S (tskeybuf.take 48)) = line
      generalize printed : fprintLine f line = result
      obtain ⟨written, f₁⟩ := result
      cases written with
      | false =>
        refine ⟨-1, f₁, rfl, fun absurdity => absurd absurdity (by decide), fun room => ?_⟩
        obtain ⟨f₂, success, _⟩ := fprintLine_room room line
        rw [printed] at success
        cases success
      | true =>
        obtain ⟨rc, f', later, data, spacious⟩ :=
          ih (tskeybuf.drop 48).length (by rw [List.length_drop]; omega) _ rfl f₁
        refine ⟨rc, f', later, fun success => ?_, fun room => ?_⟩
        · rw [data success, fprintLine_true printed, List.flatMap_cons, List.append_assoc]
        · obtain ⟨f₂, success, room'⟩ := fprintLine_room room line
          rw [printed] at success
          obtain ⟨_, rfl⟩ := Prod.mk.inj success
          exact spacious room'

variable (S) in
/-- The text of a key file. -/
def fileText (tskeybuf : List UInt8) : List UInt8 :=
  (startLine :: (chunkLines S tskeybuf ++ [endLine])).flatMap (· ++ [10])

variable {W : Writer} {machinenum : UInt64} {cache : Keycache L}

/-- A key file that is written has the text for the keys that were exported. -/
theorem keyfileWriteFile_written
    (written : keyfileWriteFile S W f machinenum cache = .ok (0, f')) : ∃ keybuf tskeybuf,
      cryptoKeysExport cache W.keys = .ok keybuf ∧
      cookedKeys S W machinenum keybuf = some tskeybuf ∧
      f'.data = f.data ++ fileText S tskeybuf := by
  rw [keyfileWriteFile] at written
  split at written
  · cases written
  · cases written
  rename_i keybuf exported
  split at written
  · cases written
  rename_i tskeybuf cooked
  refine ⟨keybuf, tskeybuf, exported, cooked, ?_⟩
  split at written
  · cases written
  rename_i f₁ first
  obtain ⟨rc, f₂, lines, data, _⟩ := writeLines_spec (S := S) tskeybuf f₁
  rw [lines] at written
  simp only at written
  split at written
  · cases written
  rename_i success
  split at written
  · cases written
  rename_i f₃ last
  cases written
  rw [fprintLine_true last, data (not_not.mp success), fprintLine_true first, fileText,
    List.flatMap_cons, List.flatMap_append, List.flatMap_singleton]
  simp only [List.append_assoc]

/-- Where there is room, a key file is written for keys that are exported and, if there is a
passphrase, encrypted. -/
theorem keyfileWriteFile_room {keybuf tskeybuf : List UInt8} (room : f.room = none)
    (exported : cryptoKeysExport cache W.keys = .ok keybuf)
    (cooked : cookedKeys S W machinenum keybuf = some tskeybuf) :
    ∃ f', keyfileWriteFile S W f machinenum cache = .ok (0, f') := by
  obtain ⟨f₁, first, room₁⟩ := fprintLine_room room startLine
  obtain ⟨rc, f₂, lines, _, spacious⟩ := writeLines_spec (S := S) tskeybuf f₁
  obtain ⟨success, room₂⟩ := spacious room₁
  obtain ⟨f₃, last, _⟩ := fprintLine_room room₂ endLine
  refine ⟨f₃, ?_⟩
  rw [keyfileWriteFile, exported]
  simp only [cooked, first, lines]
  rw [if_neg (not_not.mpr success), last]

end Writing

section Text

variable {S : ScryptPrimitives}

/-- Lines with line feeds behind them are the lines of the text. -/
theorem lines_newlines {lines : List (List UInt8)} (whole : ∀ line ∈ lines, IsLine false line) :
    Lines false (lines.flatMap (· ++ [10])) lines := by
  induction lines with
  | nil => exact .empty
  | cons line lines ih =>
    have later := ih fun other member => whole other (List.mem_cons_of_mem line member)
    exact .line (whole line List.mem_cons_self) (.inl rfl) later

/-- The lines between the first and the last one are lines. -/
theorem chunkLines_isLine (tskeybuf : List UInt8) :
    ∀ line ∈ chunkLines S tskeybuf, IsLine false line := by
  induction size : tskeybuf.length using Nat.strongRecOn generalizing tskeybuf with
  | ind length ih =>
    intro line member
    rw [chunkLines] at member
    split at member
    · cases member
    rename_i more
    have positive := List.length_pos_iff.mpr more
    rcases List.mem_cons.mp member with rfl | member
    · intro char inside ends
      have clean := b64encode_clean inside
      rcases List.mem_cons.mp ends with rfl | ends
      · exact clean (by decide)
      · rw [List.mem_singleton.mp ends] at clean
        exact clean (by decide)
    · exact ih (tskeybuf.drop 48).length (by rw [List.length_drop]; omega) _ rfl line member

/-- The payload of a line that is written is what was encoded. -/
theorem payload_b64encode {chunk : List UInt8} (nonempty : chunk ≠ []) :
    payload S (b64encode (hashedLine S chunk)) = some chunk := by
  obtain ⟨_, _, _, _, length, _⟩ := b64encode_spec (hashedLine S chunk)
  rw [hashedLine_length] at length
  have nonblank : 0 < (b64encode (hashedLine S chunk)).length := by omega
  apply (payload_eq_some nonblank _).mpr
  · exact ⟨nonempty, decoded_b64encode _⟩
  · intro comment
    have clean := b64encode_clean (List.mem_of_mem_head? comment)
    exact clean (by decide)

/-- The payloads of the lines between the first and the last one are what was encoded. -/
theorem payloads_chunkLines (tskeybuf : List UInt8) : ∀ lnum,
    payloads S lnum (chunkLines S tskeybuf ++ [endLine]) = .ok tskeybuf := by
  induction size : tskeybuf.length using Nat.strongRecOn generalizing tskeybuf with
  | ind length ih =>
    intro lnum
    rw [chunkLines]
    by_cases done : tskeybuf = []
    · rw [if_pos done, done]
      rfl
    · have positive := List.length_pos_iff.mpr done
      have chunk : tskeybuf.take 48 ≠ [] := by
        intro empty
        have length := congrArg List.length empty
        rw [List.length_take, List.length_nil] at length
        omega
      rw [if_neg done, List.cons_append, payloads, payload_b64encode chunk]
      simp only
      rw [ih (tskeybuf.drop 48).length (by rw [List.length_drop]; omega) _ rfl]
      show Except.ok (tskeybuf.take 48 ++ tskeybuf.drop 48) = _
      rw [List.take_append_drop]

/-- The text of a key file is read as what was encoded. -/
theorem readBase64_fileText {L : BignumLimit} (R : Reader) (tskeybuf : List UInt8)
    (loaded : Loaded L) :
    readBase64 S R (fileText S tskeybuf) loaded = readBase256 S R tskeybuf loaded := by
  have start : IsLine false startLine := isLine_of_all (by decide)
  have stop : IsLine false endLine := isLine_of_all (by decide)
  have whole : ∀ line ∈ startLine :: (chunkLines S tskeybuf ++ [endLine]), IsLine false line := by
    intro line member
    rcases List.mem_cons.mp member with rfl | member
    · exact start
    rcases List.mem_append.mp member with inside | last
    · exact chunkLines_isLine tskeybuf line inside
    · rw [List.mem_singleton.mp last]
      exact stop
  have long : ¬(fileText S tskeybuf).length < 4 := by
    rw [fileText, List.flatMap_cons, List.length_append, List.length_append]
    have first : startLine.length = 27 := rfl
    omega
  have comment : payload S startLine = some [] := rfl
  have given : Lines false (fileText S tskeybuf) _ := lines_newlines whole
  rw [readBase64_spec R given, if_neg long, readPayloads, payloads, comment]
  simp only
  rw [payloads_chunkLines]
  rfl

end Text

section RoundTrip

variable {L : BignumLimit} {S : ScryptPrimitives} {W : Writer} {R : Reader} {machinenum : UInt64}
  {cache : Keycache L}

variable (S W R) in
/-- Decryption inverts encryption with the same passphrase. -/
def Inverts (passphrase : List UInt8) : Prop :=
  ∀ inbuf chosen outbuf,
    scryptencBuf S W.machine W.salt passphrase noParams false inbuf =
      ⟨.ok (), chosen, some outbuf⟩ →
    ∃ params, scryptdecBuf S R.machine passphrase R.force outbuf = ⟨.ok (), params, some inbuf⟩

/-- Decryption inverts encryption if it is forced and there is memory. -/
theorem inverts_forced (force : R.force = true) (expand : R.machine.expand = true)
    (stream : R.machine.stream = true) (passphrase : List UInt8) :
    Inverts S W R passphrase := by
  intro inbuf chosen outbuf encrypted
  obtain ⟨chosen', salt, dk, sane, keys, result⟩ := scryptencBuf_spec
    (congrArg BufResult.rc encrypted)
  rw [encrypted] at result
  cases result
  refine ⟨chosen, ?_⟩
  apply scryptdecBuf_blockOf sane keys _ expand stream
  rw [force]
  exact checkparams_forced sane

/-- The machine number and the keys behind it are read. -/
theorem readPlaintext_cooked {keybuf : List UInt8} {loaded : Loaded L} {result : Keycache L}
    (imported : cryptoKeysImport keybuf R.keys 0 keybuf.length loaded.cache = some (0, result)) :
    readPlaintext R (keyfileMagic ++ beEnc 8 machinenum.toNat ++ keybuf) loaded =
      .ok (.ok (), ⟨machinenum, result⟩) := by
  have magic : keyfileMagic.length = 8 := rfl
  have number : (beEnc 8 machinenum.toNat).length = 8 := beEnc_length _ _
  have value : UInt64.ofNat (beDec (beEnc 8 machinenum.toNat)) = machinenum := by
    rw [beDec_beEnc, Nat.mod_eq_of_lt (Nat.lt_of_lt_of_le machinenum.toNat_lt (by decide))]
    exact UInt64.ofNat_toNat
  rw [readPlaintext, readRaw, List.append_assoc, List.length_append, List.length_append, magic,
    number, if_neg (by omega), List.take_left' magic, if_neg (not_not.mpr rfl),
    List.drop_left' magic, List.length_append, number, if_neg (by omega), List.take_left' number,
    List.drop_left' number, value]
  simp only [imported, ne_eq, not_true_eq_false, if_false]

/-- What is encoded is read as the machine number and the keys. -/
theorem readBase256_cooked {keybuf tskeybuf : List UInt8}
    (cooked : cookedKeys S W machinenum keybuf = some tskeybuf)
    (passphrase : ∀ passphrase, W.passphrase = some passphrase →
      R.passwd = some passphrase ∧ Inverts S W R passphrase) (loaded : Loaded L) :
    readBase256 S R tskeybuf loaded =
      readPlaintext R (keyfileMagic ++ beEnc 8 machinenum.toNat ++ keybuf) loaded := by
  rw [cookedKeys] at cooked
  cases given : W.passphrase with
  | none =>
    rw [given] at cooked
    obtain rfl := Option.some.inj cooked
    have number : (beEnc 8 machinenum.toNat).length = 8 := beEnc_length _ _
    have magic : keyfileMagic.length = 8 := rfl
    have different : (keyfileMagic ++ beEnc 8 machinenum.toNat ++ keybuf).take 6 ≠ scryptMagic := by
      rw [List.append_assoc, List.take_append_of_le_length (by decide)]
      decide
    rw [readBase256, if_neg, if_neg different]
    rw [List.length_append, List.length_append, magic, number]
    omega
  | some text =>
    rw [given] at cooked
    simp only at cooked
    obtain ⟨passwd, inverts⟩ := passphrase text given
    generalize encrypted : scryptencBuf S W.machine W.salt text noParams false
      (keyfileMagic ++ beEnc 8 machinenum.toNat ++ keybuf) = result at cooked
    obtain ⟨status, chosen, outbuf⟩ := result
    cases status with
    | error rc => cases cooked
    | ok success =>
      simp only at cooked
      subst cooked
      obtain ⟨params, decrypted⟩ := inverts _ _ _ encrypted
      obtain ⟨magic, data, same, short⟩ := scryptdecBuf_block decrypted
      obtain rfl := Option.some.inj same
      rw [readBase256, if_neg (by omega), if_pos magic, readEncrypted, if_neg (by omega), passwd]
      simp only [decrypted]
      rw [if_neg (by omega)]

/-- Each key whose length is counted is in the cache. -/
theorem lengthLoop_present {keys : BitVec 32} {numbers : List Nat} :
    ∀ {buflen total : Nat}, numbers.foldlM (lengthStep cache keys) buflen = .ok total →
      ∀ key ∈ numbers, keys.getLsbD key = true →
        ∃ s held, exportSlot key = some s ∧ cache s = some held := by
  induction numbers with
  | nil => exact fun _ _ member => nomatch member
  | cons first numbers ih =>
    intro buflen total counted key member asked
    rw [List.foldlM_cons] at counted
    obtain ⟨next, here, later⟩ := bind_eq_ok.mp counted
    rcases List.mem_cons.mp member with rfl | member
    · rw [lengthStep, if_pos asked] at here
      obtain ⟨_, exported, _⟩ := bind_eq_ok.mp here
      rw [exportKey] at exported
      split at exported
      · cases exported
      rename_i s slot
      split at exported
      · cases exported
      rename_i held present
      exact ⟨s, held, slot, present⟩
    · exact ih later key member asked

/-- Each key that is exported is in the cache. -/
theorem exportable_of_export {keys : BitVec 32} {keybuf : List UInt8}
    (exported : cryptoKeysExport cache keys = .ok keybuf) : Exportable cache keys := by
  obtain ⟨_, counted, _⟩ := bind_eq_ok.mp exported
  intro key asked
  exact lengthLoop_present counted key (List.mem_range.mpr (BitVec.lt_of_getLsbD asked)) asked

/-- Every file is read inside the buffers. A text is handed on as the payloads of its lines, or it
is rejected for the first line that has none. -/
theorem keyfileRead_spec (R : Reader) {f : File} (faultless : Faultless f.plan)
    {lines : List (List UInt8)} (given : Lines false f.rest lines) (loaded : Loaded L) :
    (∃ rc loaded', keyfileRead S R f loaded = .ok (rc, loaded')) ∧
    keyfileRead S R f loaded =
      if f.rest.length = 0 ∨ 1000000 < f.rest.length then .ok (.error .size, loaded)
      else if f.rest.head? = some 0 ∨ f.rest.head? = some 255 then readRaw R f.rest loaded
      else if f.rest.length < 4 then .ok (.error .truncated, loaded)
      else readPayloads S R lines loaded := by
  refine ⟨keyfileRead_total S R loaded f, ?_⟩
  have whole := freadItem_long faultless (Nat.le_refl f.rest.length)
  have bytes := (freadItem_whole (Nat.not_lt.mpr (Nat.le_of_eq whole.symm))).1
  rw [keyfileRead]
  simp only
  rw [whole, if_neg (Nat.lt_irrefl _), bytes, List.take_length, readBase64_spec R given]

/-- A key file that was written is read as the machine number and the keys that it was written for,
with the same passphrase, unless it is larger than a megabyte. -/
theorem keyfile_round_trip {room : Option Nat} {f : Outfile}
    (written : keyfileWriteFile S W ⟨[], room⟩ machinenum cache = .ok (0, f))
    (passphrase : ∀ passphrase, W.passphrase = some passphrase →
      R.passwd = some passphrase ∧ Inverts S W R passphrase)
    {plan : List Segment} (faultless : Faultless plan) (loaded : Loaded L) :
    if 1000000 < f.data.length then
      keyfileRead S R ⟨f.data, plan⟩ loaded = .ok (.error .size, loaded)
    else ∃ result, keyfileRead S R ⟨f.data, plan⟩ loaded = .ok (.ok (), ⟨machinenum, result⟩) ∧
      Merged cache W.keys R.keys loaded.cache result := by
  obtain ⟨keybuf, tskeybuf, exported, cooked, data⟩ := keyfileWriteFile_written written
  rw [List.nil_append] at data
  split
  · rename_i large
    rw [keyfileRead]
    exact if_pos (.inr large)
  · rename_i reasonable
    have head : f.data.head? = some 35 := by
      rw [data]
      rfl
    have some : f.data.length ≠ 0 := by
      intro none
      rw [List.eq_nil_of_length_eq_zero none] at head
      cases head
    have exportable := exportable_of_export exported
    have nonzero : NoZeroIntegers cache W.keys := by
      by_contra zero
      rw [cryptoKeysExport_zero exportable zero] at exported
      cases exported
    rw [cryptoKeysExport_ok exportable nonzero] at exported
    cases exported
    have imported := cryptoKeysImport_ok (@exported_accepted _ _ _ R.keys exportable)
      loaded.cache (At.whole _)
    refine ⟨_, ?_, stored_merged exportable R.keys loaded.cache⟩
    have whole := @freadItem_long ⟨f.data, plan⟩ _ faultless (Nat.le_refl f.data.length)
    have bytes := (freadItem_whole (Nat.not_lt.mpr (Nat.le_of_eq whole.symm))).1
    rw [keyfileRead]
    simp only
    rw [if_neg (not_or.mpr ⟨some, reasonable⟩), whole, if_neg (Nat.lt_irrefl _), bytes,
      List.take_length, head, if_neg (by decide), data, readBase64_fileText,
      readBase256_cooked cooked passphrase, readPlaintext_cooked imported]

end RoundTrip

section Instance

/-- Functions whose results are zeros. -/
def plainScrypt : ScryptPrimitives where
  sha256 _ := Vector.replicate 32 0
  hmac _ _ := Vector.replicate 32 0
  scrypt _ _ _ _ _ := some (Vector.replicate 64 0)
  aesctr _ _ _ := 0

/-- A mebibyte may be used, and little time; doubles do not round. -/
def plainMachine : Machine where
  limits :=
    { memlimit := some 1048576
      memlimit_min := fun _ same => Nat.le_of_eq (Option.some.inj same)
      opslimit := .ok 0
      toDouble := fun n => n
      toDouble_mono := Nat.mono_cast
      toDouble_scale := fun n => by push_cast; ring
      toDouble_small := fun _ _ => rfl
      tooSlow := fun _ _ => false }
  expand := true
  stream := true

/-- A writer of the file HMAC key with a passphrase of one letter. -/
def plainWriter : Writer := ⟨plainMachine, some (Vector.replicate 32 0), some [112], 16⟩

/-- A reader with the same passphrase. -/
def plainReader : Reader := ⟨plainMachine, true, some [112], 16⟩

/-- The buffer is encrypted, with a header, a checksum and two signatures. -/
theorem plainWriter_cooked (keybuf : List UInt8) : ∃ tskeybuf,
    cookedKeys plainScrypt plainWriter 1 keybuf = some tskeybuf ∧
      tskeybuf.length = keybuf.length + 144 := by
  have picked : ∃ chosen, chooseParams plainMachine.limits noParams false = .ok chosen := by
    show ∃ chosen, pickparams plainMachine.limits = .ok chosen
    unfold pickparams
    simp only [plainMachine]
    split
    · split
      · exact ⟨_, rfl⟩
      · exact ⟨_, rfl⟩
    · split
      · exact ⟨_, rfl⟩
      · exact ⟨_, rfl⟩
  obtain ⟨chosen, picked⟩ := picked
  have encrypted : (scryptencBuf plainScrypt plainWriter.machine plainWriter.salt [112] noParams
      false (keyfileMagic ++ beEnc 8 (1 : UInt64).toNat ++ keybuf)).rc = .ok () := by
    have same : chooseParams plainWriter.machine.limits noParams false = .ok chosen := picked
    rw [scryptencBuf, scryptencSetup, same]
    rfl
  obtain ⟨chosen', salt, dk, _, _, result⟩ := scryptencBuf_spec encrypted
  refine ⟨blockOf plainScrypt chosen' salt dk
    (keyfileMagic ++ beEnc 8 (1 : UInt64).toNat ++ keybuf), ?_, ?_⟩
  · have given : plainWriter.passphrase = some [112] := rfl
    rw [cookedKeys, given]
    simp only [result]
  · have magic : keyfileMagic.length = 8 := rfl
    rw [(blockOf_parts _).1, List.length_append, List.length_append, beEnc_length, magic]
    omega

/-- A cache with one key, that of the file HMAC, whose bytes are zero. -/
def hmacOnly : Keycache wordLimit
  | .hmacFile => some (List.Vector.replicate 32 0)
  | _ => none

/-- A comment and a line of one character: the second line is corrupt. -/
theorem keyfileRead_corrupt :
    keyfileRead plainScrypt plainReader ⟨[35, 13, 10, 65], []⟩ ⟨0, hmacOnly⟩ =
      .ok (.error (.line 2), ⟨0, hmacOnly⟩) := by
  have comment : IsLine false [35] := isLine_of_all (by decide)
  have short : IsLine false [65] := isLine_of_all (by decide)
  have given : Lines false [35, 13, 10, 65] [[35], [65]] :=
    .line comment (.inr (.inl rfl)) (.last (List.cons_ne_nil _ _) short)
  have faultless : Faultless [] := fun _ member => nomatch member
  exact (keyfileRead_spec (f := ⟨[35, 13, 10, 65], []⟩) plainReader faultless given
    ⟨0, hmacOnly⟩).2

/-- The file of a reasonable key is reasonably large. -/
theorem fileText_length (S : ScryptPrimitives) (tskeybuf : List UInt8) :
    (fileText S tskeybuf).length ≤ 54 + (tskeybuf.length + 47) / 48 * 73 := by
  have chunks : ((chunkLines S tskeybuf).flatMap (· ++ [10])).length ≤
      (tskeybuf.length + 47) / 48 * 73 := by
    induction size : tskeybuf.length using Nat.strongRecOn generalizing tskeybuf with
    | ind length ih =>
      rw [chunkLines]
      split
      · exact Nat.zero_le _
      rename_i more
      have positive := List.length_pos_iff.mpr more
      have rest : (tskeybuf.drop 48).length = tskeybuf.length - 48 := List.length_drop
      have later := ih (tskeybuf.drop 48).length (by omega) _ rfl
      have fits := (not_or.mp (chunkLine_fits (S := S) tskeybuf).1).2
      rw [List.flatMap_cons, List.length_append, List.length_append, List.length_singleton]
      omega
  have first : startLine.length = 27 := rfl
  have last : endLine.length = 25 := rfl
  rw [fileText, List.flatMap_cons, List.flatMap_append, List.flatMap_singleton]
  simp only [List.length_append, List.length_singleton, first, last]
  omega

/-- The only key that the mask asks for can be exported. -/
theorem hmacOnly_exports :
    cryptoKeysExport hmacOnly 16 =
      .ok ((exportedRecords hmacOnly 16).flatMap KeyRecord.encode) := by
  have bit : ∀ key < 32, (16 : BitVec 32).getLsbD key = true → key = 4 := by decide
  apply cryptoKeysExport_ok
  · intro key asked
    obtain rfl := bit key (BitVec.lt_of_getLsbD asked) asked
    exact ⟨.hmacFile, _, rfl, rfl⟩
  · intro key asked s held slot _
    obtain rfl := bit key (BitVec.lt_of_getLsbD asked) asked
    cases slot
    exact trivial

/-- A key file with an encrypted HMAC key is read. -/
theorem keyfile_round_trip_hmac : ∃ f result,
    keyfileWriteFile plainScrypt plainWriter ⟨[], none⟩ 1 hmacOnly = .ok (0, f) ∧
    keyfileRead plainScrypt plainReader ⟨f.data, []⟩ ⟨0, fun _ => none⟩ =
      .ok (.ok (), ⟨1, result⟩) ∧
    Merged hmacOnly 16 16 (fun _ => none) result := by
  obtain ⟨tskeybuf, cooked, length⟩ :=
    plainWriter_cooked ((exportedRecords hmacOnly 16).flatMap KeyRecord.encode)
  obtain ⟨f, written⟩ := @keyfileWriteFile_room _ _ ⟨[], none⟩ plainWriter _ _ _ _ rfl
    hmacOnly_exports cooked
  have small : ((exportedRecords hmacOnly 16).flatMap KeyRecord.encode).length = 37 := by decide
  have reasonable : ¬1000000 < f.data.length := by
    obtain ⟨keybuf, tskeybuf', exported, cooked', data⟩ := keyfileWriteFile_written written
    have same : cryptoKeysExport hmacOnly plainWriter.keys = _ := hmacOnly_exports
    rw [same] at exported
    cases exported
    rw [cooked] at cooked'
    cases cooked'
    have bound := fileText_length plainScrypt tskeybuf
    rw [data, List.nil_append]
    omega
  have inverts : ∀ passphrase, plainWriter.passphrase = some passphrase →
      plainReader.passwd = some passphrase ∧
        Inverts plainScrypt plainWriter plainReader passphrase := by
    intro passphrase given
    exact ⟨given, inverts_forced rfl rfl rfl passphrase⟩
  have faultless : Faultless [] := fun _ member => nomatch member
  have read := keyfile_round_trip written inverts faultless ⟨0, fun _ => none⟩
  rw [if_neg reasonable] at read
  obtain ⟨result, read, merged⟩ := read
  exact ⟨f, result, written, read, merged⟩

end Instance

end Tarsnap.Keyfile
