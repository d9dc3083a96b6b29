import Tarsnap.Keyfile.Keyfile

/-!
# The lines of a key file

What is handed on of a text are the payloads of its lines, one after the other, or the text is
rejected for the first line that has none. The buffer for them is large enough for every text.
-/

namespace Tarsnap.Keyfile

open Tarsnap.Lib Tarsnap.Scryptenc
open Tarsnap.Crypto (BignumLimit Keycache)

section Payloads

variable (S : ScryptPrimitives)

/-- The payload of a line: nothing if it is blank or a comment, else the bytes that it encodes
without their checksum, which has to be right. -/
def payload (line : List UInt8) : Option (List UInt8) :=
  if 0 < line.length ∧ line.head? ≠ some 35 then
    (decoded line).bind fun bytes =>
      if bytes.length < 7 then none
      else if (S.sha256 (bytes.take (bytes.length - 6))).toList.take 6 ≠
          bytes.drop (bytes.length - 6) then none
      else some (bytes.take (bytes.length - 6))
  else some []

/-- The payloads of some lines, or the number of the first line that has none. -/
def payloads (lnum : Nat) : List (List UInt8) → Except Nat (List UInt8)
  | [] => .ok []
  | line :: lines =>
    match payload S line with
    | none => .error lnum
    | some bytes => (payloads (lnum + 1) lines).map (bytes ++ ·)

variable {S} {line bytes : List UInt8}

/-- A line that is neither blank nor a comment has the payload that it encodes together with its
checksum. -/
theorem payload_eq_some (nonblank : 0 < line.length) (code : line.head? ≠ some 35) :
    payload S line = some bytes ↔
      bytes ≠ [] ∧ decoded line = some (bytes ++ (S.sha256 bytes).toList.take 6) := by
  rw [payload, if_pos ⟨nonblank, code⟩, Option.bind_eq_some_iff]
  have six (data : List UInt8) : ((S.sha256 data).toList.take 6).length = 6 := by
    rw [List.length_take, Vector.length_toList]
    rfl
  constructor
  · rintro ⟨all, decodes, checked⟩
    split at checked
    · cases checked
    rename_i long
    split at checked
    · cases checked
    rename_i same
    obtain rfl := Option.some.inj checked
    constructor
    · intro empty
      have length := congrArg List.length empty
      rw [List.length_take, List.length_nil] at length
      omega
    · rw [not_not.mp same, List.take_append_drop]
      exact decodes
  · rintro ⟨some, decodes⟩
    have positive := List.length_pos_iff.mpr some
    refine ⟨_, decodes, ?_⟩
    have body : bytes.length + 6 - 6 = bytes.length := Nat.add_sub_cancel _ _
    rw [List.length_append, six, if_neg (by omega), body, List.take_left, List.drop_left,
      if_neg (not_not.mpr rfl)]

/-- A payload is shorter than what its line encodes. -/
theorem payload_length (found : payload S line = some bytes) :
    bytes.length ≤ line.length / 4 * 3 := by
  by_cases keyline : 0 < line.length ∧ line.head? ≠ some 35
  · obtain ⟨_, decodes⟩ := (payload_eq_some keyline.1 keyline.2).mp found
    have short := decoded_length decodes
    rw [List.length_append] at short
    omega
  · rw [payload, if_neg keyline] at found
    obtain rfl := Option.some.inj found
    exact Nat.zero_le _

end Payloads

section Reading

variable {S : ScryptPrimitives} {front line text : List UInt8} {decbuf : Cells}

/-- The payload of a line is decoded behind what is in the buffer. -/
theorem readLine_spec (holds : front.map some <+: decbuf)
    (room : front.length + line.length / 4 * 3 ≤ decbuf.length) :
    (payload S line = none ∧ readLine S line decbuf front.length = .ok none) ∨
    ∃ bytes decbuf', payload S line = some bytes ∧
      readLine S line decbuf front.length = .ok (some (decbuf', (front ++ bytes).length)) ∧
      decbuf'.length = decbuf.length ∧ (front ++ bytes).map some <+: decbuf' := by
  rw [payload, readLine]
  by_cases keyline : 0 < line.length ∧ line.head? ≠ some 35
  · rw [if_pos keyline, if_pos keyline]
    rcases b64decode_spec holds room with ⟨invalid, refused⟩ | ⟨all, dead, decbuf', decodes,
      written, length', holds'⟩
    · rw [invalid, refused]
      exact .inl ⟨rfl, rfl⟩
    · rw [decodes, written, Option.bind_some]
      simp only [ok_bind]
      by_cases short : all.length < 7
      · rw [if_pos short, if_pos short]
        exact .inl ⟨rfl, rfl⟩
      rw [if_neg short, if_neg short]
      have split := List.take_append_drop (all.length - 6) all
      have body : (all.take (all.length - 6)).length = all.length - 6 := by
        rw [List.length_take]
        omega
      have tail : (all.drop (all.length - 6)).length = 6 := by
        rw [List.length_drop]
        omega
      generalize all.take (all.length - 6) = data at split body
      generalize all.drop (all.length - 6) = sum at split tail
      rw [← split, List.append_assoc] at holds'
      have whole : (front ++ data ++ (sum ++ dead)).map some <+: decbuf' := by
        rw [List.append_assoc]
        exact holds'
      have readData : loadBytes decbuf' front.length (all.length - 6) = .ok data := by
        rw [← body]
        exact loadBytes_behind holds'
      have readSum : loadBytes decbuf' (front.length + all.length - 6) 6 = .ok sum := by
        have position : front.length + all.length - 6 = (front ++ data).length := by
          rw [List.length_append, body]
          omega
        rw [position, ← tail]
        exact loadBytes_behind whole
      rw [readData, ok_bind, readSum, ok_bind]
      by_cases checked : (S.sha256 data).toList.take 6 ≠ sum
      · rw [if_pos checked, if_pos checked]
        exact .inl ⟨rfl, rfl⟩
      · rw [if_neg checked, if_neg checked]
        refine .inr ⟨data, decbuf', rfl, ?_, length', ?_⟩
        · rw [List.length_append, body]
          rfl
        · rw [List.map_append] at whole
          exact (List.prefix_append _ _).trans whole
  · rw [if_neg keyline, if_neg keyline]
    refine .inr ⟨[], decbuf, rfl, ?_, rfl, ?_⟩
    · rw [List.append_nil]
    · rw [List.append_nil]
      exact holds

/-- A line has no EOL characters. -/
theorem isLine_of_all (all : line.all (fun byte => byte ∉ [10, 13]) = true) :
    IsLine false line := fun byte member => of_decide_eq_true (List.all_eq_true.mp all byte member)

/-- The bytes of a line are no EOL characters. -/
theorem takeWhile_line (whole : IsLine false line) (rest : List UInt8) :
    (line ++ rest).takeWhile (fun c => c ≠ 13 ∧ c ≠ 10) =
      line ++ rest.takeWhile (fun c => c ≠ 13 ∧ c ≠ 10) := by
  apply List.takeWhile_append_of_pos
  intro c member
  have outside : c ∉ [10, 13] := whole c member
  rw [List.mem_cons, List.mem_singleton, not_or] at outside
  exact decide_eq_true ⟨outside.2, outside.1⟩

/-- A separator ends a line, and it is skipped. -/
theorem separator_spec {separator rest : List UInt8} (ends : IsSeparator false separator rest) :
    (separator ++ rest).takeWhile (fun c => c ≠ 13 ∧ c ≠ 10) = [] ∧
      skipEol (separator ++ rest) = rest := by
  rcases ends with rfl | rfl | ⟨rfl, other⟩
  · cases rest with
    | nil => exact ⟨rfl, rfl⟩
    | cons byte rest =>
      refine ⟨rfl, ?_⟩
      show skipEol (10 :: byte :: rest) = byte :: rest
      rw [skipEol, if_neg fun pair => absurd pair.1 (by decide)]
  · refine ⟨rfl, ?_⟩
    show skipEol (13 :: 10 :: rest) = rest
    rw [skipEol, if_pos ⟨rfl, rfl⟩]
  · cases rest with
    | nil => exact ⟨rfl, rfl⟩
    | cons byte rest =>
      refine ⟨rfl, ?_⟩
      show skipEol (13 :: byte :: rest) = byte :: rest
      rw [skipEol, if_neg fun pair => other (congrArg some pair.2)]

/-- At the end of the file nothing is left to handle. -/
theorem lineLoop_nil (lnum decpos : Nat) (decbuf : Cells) :
    lineLoop S lnum [] decbuf decpos = .ok (.ok (decbuf, decpos)) := by
  rw [lineLoop, if_pos List.length_nil]

variable {lines : List (List UInt8)}

/-- All lines are handled: either one of them is corrupt, or what is decoded are the payloads. -/
theorem lineLoop_spec (given : Lines false text lines) (lnum : Nat)
    (holds : front.map some <+: decbuf)
    (room : front.length + text.length / 4 * 3 ≤ decbuf.length) :
    (∃ corrupt, payloads S lnum lines = .error corrupt ∧
      lineLoop S lnum text decbuf front.length = .ok (.error corrupt)) ∨
    ∃ bytes decbuf', payloads S lnum lines = .ok bytes ∧
      lineLoop S lnum text decbuf front.length = .ok (.ok (decbuf', (front ++ bytes).length)) ∧
      (front ++ bytes).map some <+: decbuf' := by
  induction given generalizing lnum front decbuf with
  | empty =>
    refine .inr ⟨[], decbuf, rfl, ?_, ?_⟩
    · rw [lineLoop_nil, List.append_nil]
    · rw [List.append_nil]
      exact holds
  | @last line nonempty whole =>
    have some := List.length_pos_iff.mpr nonempty
    have length : lineLength line = line.length := by
      have all := takeWhile_line whole []
      rw [List.append_nil, List.takeWhile_nil, List.append_nil] at all
      rw [lineLength, all]
    rw [payloads, payloads, lineLoop, if_neg (Nat.ne_of_gt some)]
    simp only [length, List.take_length, List.drop_length]
    rcases readLine_spec holds room with ⟨corrupt, refused⟩ | ⟨bytes, decbuf', found, read,
      _, holds'⟩
    · rw [corrupt, refused]
      exact .inl ⟨lnum, rfl, rfl⟩
    · rw [found, read]
      refine .inr ⟨bytes, decbuf', ?_, ?_, holds'⟩
      · show Except.ok (bytes ++ []) = _
        rw [List.append_nil]
      · simp only [skipEol]
        rw [lineLoop_nil]
  | @line line separator rest later whole ends more ih =>
    have length : lineLength (line ++ separator ++ rest) = line.length := by
      rw [lineLength, List.append_assoc, takeWhile_line whole, (separator_spec ends).1,
        List.append_nil]
    have some : (line ++ separator ++ rest).length ≠ 0 := by
      have positive : 0 < separator.length := by
        rcases ends with rfl | rfl | ⟨rfl, _⟩
        · exact Nat.one_pos
        · exact Nat.two_pos
        · exact Nat.one_pos
      simp only [List.length_append]
      omega
    have total : (line ++ separator ++ rest).length =
        line.length + separator.length + rest.length := by
      rw [List.length_append, List.length_append]
    rw [payloads, lineLoop, if_neg some]
    simp only [length]
    rw [List.append_assoc, List.take_left, List.drop_left, (separator_spec ends).2]
    rcases @readLine_spec S front line decbuf holds (by omega) with
      ⟨corrupt, refused⟩ | ⟨bytes, decbuf', found, read, length', holds'⟩
    · rw [corrupt, refused]
      exact .inl ⟨lnum, rfl, rfl⟩
    · have short := payload_length found
      rw [found, read]
      simp only
      have room' : (front ++ bytes).length + rest.length / 4 * 3 ≤ decbuf'.length := by
        rw [List.length_append]
        omega
      rcases ih (lnum + 1) holds' room' with ⟨corrupt, none, refused⟩ | ⟨rest', decbuf'', all, done,
        holds''⟩
      · rw [none]
        exact .inl ⟨corrupt, rfl, refused⟩
      · rw [all]
        refine .inr ⟨bytes ++ rest', decbuf'', rfl, ?_, ?_⟩
        · rw [done, List.append_assoc]
        · rw [← List.append_assoc]
          exact holds''

variable {L : BignumLimit}

variable (S) in
/-- What is handed on of some lines are their payloads, unless one of them has none. -/
def readPayloads (R : Reader) (lines : List (List UInt8)) (loaded : Loaded L) : ReadResult L :=
  match payloads S 1 lines with
  | .error lnum => .ok (.error (.line lnum), loaded)
  | .ok bytes => readBase256 S R bytes loaded

/-- What is handed on of a text are the payloads of its lines, or it is rejected for the first line
that has none. A text of fewer than four bytes is rejected first. -/
theorem readBase64_spec (R : Reader) (given : Lines false text lines) (loaded : Loaded L) :
    readBase64 S R text loaded =
      if text.length < 4 then .ok (.error .truncated, loaded)
      else readPayloads S R lines loaded := by
  rw [readBase64]
  by_cases short : text.length < 4
  · rw [if_pos short, if_pos short]
  rw [if_neg short, if_neg short, readPayloads]
  have empty : ([] : List UInt8).map some <+: List.replicate (text.length / 4 * 3) none :=
    List.nil_prefix
  have room : ([] : List UInt8).length + text.length / 4 * 3 ≤
      (List.replicate (text.length / 4 * 3) (none : Option UInt8)).length := by
    rw [List.length_nil, List.length_replicate, Nat.zero_add]
  rcases @lineLoop_spec S _ _ _ _ given 1 empty room with
    ⟨corrupt, none, refused⟩ | ⟨bytes, decbuf', all, done, holds⟩
  · rw [none]
    rw [List.length_nil] at refused
    rw [refused]
    rfl
  · rw [all]
    rw [List.length_nil, List.nil_append] at done
    rw [done, ok_bind]
    have whole : (bytes ++ []).map some <+: decbuf' := by
      rw [List.append_nil]
      exact holds
    simp only
    rw [loadBytes_front whole, ok_bind]

end Reading

end Tarsnap.Keyfile
