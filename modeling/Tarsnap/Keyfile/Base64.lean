import Tarsnap.Lib.Cells
import Tarsnap.Lib.Word

/-!
# Base-64 encoding

Three bytes are written as four characters of six bits each. At the end, one or two bytes are
written with one or two equals signs. The decoder checks a text first and then writes all bytes to a
buffer, those that the equals signs stand for included, and says how many of them count.
-/

namespace Tarsnap.Keyfile

open Tarsnap.Lib

section Model

/-- The characters of the encoding; the last one is the equals sign. -/
def b64chars : List UInt8 :=
  (List.range 26).map (fun i => UInt8.ofNat (65 + i)) ++
    (List.range 26).map (fun i => UInt8.ofNat (97 + i)) ++
    (List.range 10).map (fun i => UInt8.ofNat (48 + i)) ++ [43, 47, 61]

/-- The equals sign. -/
def pad : UInt8 := 61

/-- Read up to three bytes. -/
def gather (input : List UInt8) : Nat :=
  [0, 1, 2].foldl (fun t j => word (t * 256) + (input.getD j 0).toNat) 0

/-- Write characters, when so many bytes remain. -/
def emit (len : Nat) : Nat → List Nat → List UInt8
  | _, [] => []
  | t, j :: js =>
    (if j ≤ len then b64chars.getD (t / 262144 % 64) 0 else pad) :: emit len (word (t * 64)) js

/-- Convert bytes into RFC 1421 base-64 encoding. -/
def b64encode (input : List UInt8) : List UInt8 :=
  if input = [] then []
  else emit input.length (gather input) [0, 1, 2, 3] ++ b64encode (input.drop 3)
termination_by input.length
decreasing_by
  rename_i some
  have positive := List.length_pos_iff.mpr some
  rw [List.length_drop]
  omega

/-- Check that we have valid input and count trailing equals signs. -/
def countDead (deadbytes : Nat) : List UInt8 → Option Nat
  | [] => some deadbytes
  | c :: input =>
    if c = 0 ∨ c ∉ b64chars then none
    else
      let deadbytes := if c = pad then deadbytes + 1 else deadbytes
      if c ≠ pad ∧ 0 < deadbytes then none else countDead deadbytes input

/-- Parse four bytes. -/
def parse (input : List UInt8) : Nat :=
  input.foldl (fun t c => word (t * 64) + b64chars.idxOf c % 64) 0

/-- Decode four bytes after the other into a buffer. -/
def b64Loop (buf : Cells) (out outlen : Nat) : List UInt8 → Except Fault (Cells × Nat)
  | [] => .ok (buf, outlen)
  | c0 :: c1 :: c2 :: c3 :: input => do
    let t := parse [c0, c1, c2, c3]
    let buf ← store buf out (UInt8.ofNat (t / 65536))
    let t := word (t * 256)
    let buf ← store buf (out + 1) (UInt8.ofNat (t / 65536))
    let t := word (t * 256)
    let buf ← store buf (out + 2) (UInt8.ofNat (t / 65536))
    b64Loop buf (out + 3) (outlen + 3) input
  | _ => .error .outOfBounds

/-- Convert RFC 1421 base-64 encoding, writing the bytes to a buffer at a position. Return how many
bytes there are, unless the input is not valid. -/
def b64decode (input : List UInt8) (buf : Cells) (out : Nat) :
    Except Fault (Option (Nat × Cells)) :=
  if input.length % 4 ≠ 0 then .ok none
  else
    match countDead 0 input with
    | none => .ok none
    | some deadbytes =>
      if 2 < deadbytes then .ok none
      else do
        let (buf, outlen) ← b64Loop buf out 0 input
        return some (outlen - deadbytes, buf)

end Model

section Validity

/-- The bytes of four characters. -/
def quad (c0 c1 c2 c3 : UInt8) : List UInt8 :=
  let t := parse [c0, c1, c2, c3]
  [UInt8.ofNat (t / 65536), UInt8.ofNat (word (t * 256) / 65536),
    UInt8.ofNat (word (word (t * 256) * 256) / 65536)]

/-- The bytes that are written. -/
def quads : List UInt8 → List UInt8
  | c0 :: c1 :: c2 :: c3 :: input => quad c0 c1 c2 c3 ++ quads input
  | _ => []

/-- The bytes of a valid text. -/
def decoded (input : List UInt8) : Option (List UInt8) :=
  if input.length % 4 ≠ 0 then none
  else
    match countDead 0 input with
    | none => none
    | some deadbytes =>
      if 2 < deadbytes then none
      else some ((quads input).take ((quads input).length - deadbytes))

/-- A character that is not an equals sign is counted only in front of all equals signs. -/
theorem countDead_char {c : UInt8} (valid : c ∈ b64chars) (other : c ≠ pad) (deadbytes : Nat)
    (input : List UInt8) : countDead deadbytes (c :: input) =
      if 0 < deadbytes then none else countDead deadbytes input := by
  have zero : (0 : UInt8) ∉ b64chars := by decide
  have accepted : ¬(c = 0 ∨ c ∉ b64chars) := by
    rintro (rfl | outside)
    · exact zero valid
    · exact outside valid
  rw [countDead, if_neg accepted]
  simp only [other, ne_eq, not_false_eq_true, true_and, if_false]

/-- An equals sign is counted. -/
theorem countDead_pad (deadbytes : Nat) (input : List UInt8) :
    countDead deadbytes (pad :: input) = countDead (deadbytes + 1) input := by
  have accepted : ¬(pad = 0 ∨ pad ∉ b64chars) := by decide
  rw [countDead, if_neg accepted]
  simp only [if_true, ne_eq, not_true_eq_false, false_and, if_false]

/-- Any other character is not accepted. -/
theorem countDead_invalid {c : UInt8} (invalid : c ∉ b64chars) (deadbytes : Nat)
    (input : List UInt8) : countDead deadbytes (c :: input) = none := by
  rw [countDead, if_pos (.inr invalid)]

/-- After an equals sign there are only equals signs. -/
theorem countDead_after {deadbytes dead : Nat} {input : List UInt8} (after : 0 < deadbytes) :
    countDead deadbytes input = some dead ↔
      input = List.replicate input.length pad ∧ dead = deadbytes + input.length := by
  induction input generalizing deadbytes with
  | nil =>
    rw [countDead, Option.some.injEq]
    exact ⟨fun same => ⟨rfl, same.symm⟩, fun both => both.2.symm⟩
  | cons c input ih =>
    by_cases equals : c = pad
    · rw [equals, countDead_pad, ih (Nat.succ_pos _), List.length_cons, List.replicate_succ,
        List.cons.injEq]
      constructor
      · rintro ⟨rest, total⟩
        exact ⟨⟨rfl, rest⟩, by omega⟩
      · rintro ⟨⟨_, rest⟩, total⟩
        exact ⟨rest, by omega⟩
    · have refused : countDead deadbytes (c :: input) = none := by
        by_cases valid : c ∈ b64chars
        · rw [countDead_char valid equals, if_pos after]
        · exact countDead_invalid valid _ _
      rw [refused]
      refine iff_of_false (fun absurdity => nomatch absurdity) ?_
      rintro ⟨same, _⟩
      rw [List.length_cons, List.replicate_succ, List.cons.injEq] at same
      exact equals same.1

/-- The equals signs are counted if they are at the end, behind characters of the encoding. -/
theorem countDead_iff {dead : Nat} {input : List UInt8} : countDead 0 input = some dead ↔
    ∃ body, input = body ++ List.replicate dead pad ∧ ∀ c ∈ body, c ∈ b64chars ∧ c ≠ pad := by
  induction input with
  | nil =>
    rw [countDead, Option.some.injEq]
    constructor
    · rintro rfl
      exact ⟨[], rfl, fun _ member => nomatch member⟩
    · rintro ⟨body, same, _⟩
      have none := (List.append_eq_nil_iff.mp same.symm).2
      exact (List.replicate_eq_nil_iff pad |>.mp none).symm
  | cons c input ih =>
    by_cases valid : c ∈ b64chars
    · by_cases equals : c = pad
      · rw [equals, countDead_pad, countDead_after Nat.zero_lt_one]
        constructor
        · rintro ⟨rest, total⟩
          refine ⟨[], ?_, fun _ member => nomatch member⟩
          rw [total, Nat.add_comm, List.replicate_succ, ← rest]
          rfl
        · rintro ⟨body, same, inside⟩
          cases body with
          | nil =>
            cases dead with
            | zero => cases same
            | succ dead =>
              rw [List.nil_append, List.replicate_succ, List.cons.injEq] at same
              rw [same.2, List.length_replicate]
              exact ⟨rfl, Nat.add_comm _ _⟩
          | cons first body =>
            have head : pad = first := (List.cons.inj same).1
            exact absurd head.symm (inside first List.mem_cons_self).2
      · rw [countDead_char valid equals, if_neg (Nat.lt_irrefl 0), ih]
        constructor
        · rintro ⟨body, same, inside⟩
          refine ⟨c :: body, by rw [same]; rfl, ?_⟩
          intro other member
          rcases List.mem_cons.mp member with rfl | member
          · exact ⟨valid, equals⟩
          · exact inside other member
        · rintro ⟨body, same, inside⟩
          cases body with
          | nil =>
            cases dead with
            | zero => cases same
            | succ dead =>
              rw [List.nil_append, List.replicate_succ, List.cons.injEq] at same
              exact absurd same.1 equals
          | cons first body =>
            exact ⟨body, (List.cons.inj same).2,
              fun other member => inside other (List.mem_cons_of_mem _ member)⟩
    · rw [countDead_invalid valid]
      refine iff_of_false (fun absurdity => nomatch absurdity) ?_
      rintro ⟨body, same, inside⟩
      cases body with
      | nil =>
        cases dead with
        | zero => cases same
        | succ dead =>
          rw [List.nil_append, List.replicate_succ, List.cons.injEq] at same
          have equals : pad ∈ b64chars := by decide
          exact valid (same.1 ▸ equals)
      | cons first body =>
        have head : c = first := (List.cons.inj same).1
        exact valid (head ▸ (inside first List.mem_cons_self).1)

end Validity

section Buffer

/-- Fewer than four characters are no group. -/
theorem quads_short {input : List UInt8} (short : input.length < 4) : quads input = [] := by
  rcases input with _ | ⟨c0, _ | ⟨c1, _ | ⟨c2, _ | ⟨c3, input⟩⟩⟩⟩
  · rfl
  · rfl
  · rfl
  · rfl
  · simp only [List.length_cons] at short
    omega

/-- A text that is not shorter starts with a group. -/
theorem long_cases {input : List UInt8} (long : 4 ≤ input.length) :
    ∃ c0 c1 c2 c3 rest, input = c0 :: c1 :: c2 :: c3 :: rest := by
  rcases input with _ | ⟨c0, _ | ⟨c1, _ | ⟨c2, _ | ⟨c3, rest⟩⟩⟩⟩
  · cases long
  · simp only [List.length_cons, List.length_nil] at long
    omega
  · simp only [List.length_cons, List.length_nil] at long
    omega
  · simp only [List.length_cons, List.length_nil] at long
    omega
  · exact ⟨c0, c1, c2, c3, rest, rfl⟩

/-- Three bytes are written for four characters. -/
theorem quads_length (input : List UInt8) : (quads input).length = input.length / 4 * 3 := by
  induction size : input.length using Nat.strongRecOn generalizing input with
  | ind length ih =>
    by_cases long : 4 ≤ input.length
    · obtain ⟨c0, c1, c2, c3, rest, rfl⟩ := long_cases long
      have three : (quad c0 c1 c2 c3).length = 3 := rfl
      simp only [List.length_cons] at size
      rw [quads, List.length_append, three, ih rest.length (by omega) rest rfl]
      omega
    · rw [quads_short (Nat.lt_of_not_le long), List.length_nil]
      omega

/-- The bytes of a text are at most three for four characters. -/
theorem decoded_length {input bytes : List UInt8} (decodes : decoded input = some bytes) :
    bytes.length ≤ input.length / 4 * 3 := by
  rw [← quads_length]
  rw [decoded] at decodes
  split at decodes
  · cases decodes
  split at decodes
  · cases decodes
  split at decodes
  · cases decodes
  · obtain rfl := Option.some.inj decodes
    exact List.length_take_le' _ _

/-- Three bytes are written one after the other. -/
theorem store_three {front : List UInt8} {buf : Cells} (first second third : UInt8)
    (holds : front.map some <+: buf) (room : front.length + 3 ≤ buf.length) : ∃ buf1 buf2 buf3,
      store buf front.length first = .ok buf1 ∧ store buf1 (front.length + 1) second = .ok buf2 ∧
      store buf2 (front.length + 2) third = .ok buf3 ∧ buf3.length = buf.length ∧
      (front ++ [first, second, third]).map some <+: buf3 := by
  obtain ⟨buf1, store1, length1, holds1⟩ := @store_behind front buf first holds (by omega)
  have here1 : (front ++ [first]).length = front.length + 1 := List.length_append
  obtain ⟨buf2, store2, length2, holds2⟩ := @store_behind _ buf1 second holds1 (by omega)
  have here2 : (front ++ [first] ++ [second]).length = front.length + 2 := by
    rw [List.length_append, here1]
    rfl
  obtain ⟨buf3, store3, length3, holds3⟩ := @store_behind _ buf2 third holds2 (by omega)
  rw [here1] at store2
  rw [here2] at store3
  refine ⟨buf1, buf2, buf3, store1, store2, store3, by omega, ?_⟩
  rw [List.append_assoc, List.append_assoc] at holds3
  exact holds3

/-- The bytes are written behind what is in the buffer. -/
theorem b64Loop_spec {front : List UInt8} {buf : Cells} {input : List UInt8} (outlen : Nat)
    (whole : input.length % 4 = 0) (holds : front.map some <+: buf)
    (room : front.length + (quads input).length ≤ buf.length) : ∃ buf',
      b64Loop buf front.length outlen input = .ok (buf', outlen + (quads input).length) ∧
      buf'.length = buf.length ∧ (front ++ quads input).map some <+: buf' := by
  induction size : input.length using Nat.strongRecOn generalizing input front buf outlen with
  | ind length ih =>
    by_cases long : 4 ≤ input.length
    · obtain ⟨c0, c1, c2, c3, rest, rfl⟩ := long_cases long
      have three : (quad c0 c1 c2 c3).length = 3 := rfl
      simp only [List.length_cons] at size whole
      rw [quads, List.length_append, three] at room
      obtain ⟨buf1, buf2, buf3, store1, store2, store3, length3, holds3⟩ := store_three
        (UInt8.ofNat (parse [c0, c1, c2, c3] / 65536))
        (UInt8.ofNat (word (parse [c0, c1, c2, c3] * 256) / 65536))
        (UInt8.ofNat (word (word (parse [c0, c1, c2, c3] * 256) * 256) / 65536)) holds (by omega)
      have behind : (front ++ quad c0 c1 c2 c3).length = front.length + 3 := by
        rw [List.length_append, three]
      obtain ⟨buf', later, length', holds'⟩ := @ih rest.length (by omega)
        (front ++ quad c0 c1 c2 c3) buf3 rest (outlen + 3) (by omega) holds3 (by omega) rfl
      refine ⟨buf', ?_, by omega, ?_⟩
      · rw [b64Loop]
        simp only
        rw [store1, ok_bind, store2, ok_bind, store3, ok_bind, ← behind, later, quads,
          List.length_append, three, Nat.add_assoc]
      · rw [quads, ← List.append_assoc]
        exact holds'
    · have none : input = [] := List.eq_nil_of_length_eq_zero (by omega)
      rw [none]
      refine ⟨buf, rfl, rfl, ?_⟩
      rw [quads_short (by decide), List.append_nil]
      exact holds

/-- A text is decoded behind what is in the buffer. -/
theorem b64decode_spec {front : List UInt8} {buf : Cells} {input : List UInt8}
    (holds : front.map some <+: buf)
    (room : front.length + input.length / 4 * 3 ≤ buf.length) :
    (decoded input = none ∧ b64decode input buf front.length = .ok none) ∨
    ∃ bytes dead buf', decoded input = some bytes ∧
      b64decode input buf front.length = .ok (some (bytes.length, buf')) ∧
      buf'.length = buf.length ∧ (front ++ (bytes ++ dead)).map some <+: buf' := by
  rw [decoded, b64decode]
  by_cases whole : input.length % 4 = 0
  · rw [if_neg (not_not.mpr whole), if_neg (not_not.mpr whole)]
    cases counted : countDead 0 input with
    | none => exact .inl ⟨rfl, rfl⟩
    | some dead =>
      simp only
      by_cases more : 2 < dead
      · rw [if_pos more, if_pos more]
        exact .inl ⟨rfl, rfl⟩
      · rw [if_neg more, if_neg more]
        rw [← quads_length] at room
        obtain ⟨buf', written, length', holds'⟩ := b64Loop_spec 0 whole holds room
        refine .inr ⟨_, (quads input).drop ((quads input).length - dead), buf', rfl, ?_, length',
          ?_⟩
        · rw [written, ok_bind, Nat.zero_add, List.length_take, Nat.min_eq_left (Nat.sub_le _ _)]
          rfl
        · rw [List.take_append_drop]
          exact holds'
  · rw [if_pos whole, if_pos whole]
    exact .inl ⟨rfl, rfl⟩

end Buffer

section RoundTrip

/-- The character of a digit. -/
def symbol (digit : Nat) : UInt8 := b64chars.getD digit 0

/-- The characters of digits are found at their positions, and none of them is an equals sign. -/
theorem symbol_spec {digit : Nat} (small : digit < 64) : b64chars.idxOf (symbol digit) = digit ∧
    symbol digit ∈ b64chars ∧ symbol digit ≠ pad := by
  have all : ∀ digit < 64, b64chars.idxOf (symbol digit) = digit ∧
    symbol digit ∈ b64chars ∧ symbol digit ≠ pad := by decide
  exact all digit small

/-- The characters that are written for three bytes. -/
theorem emit_digits {len t : Nat} (small : t < 16777216) : emit len t [0, 1, 2, 3] =
    [symbol (t / 262144), if 1 ≤ len then symbol (t / 4096 % 64) else pad,
      if 2 ≤ len then symbol (t / 64 % 64) else pad,
      if 3 ≤ len then symbol (t % 64) else pad] := by
  have first : t / 262144 % 64 = t / 262144 := by omega
  have second : word (t * 64) / 262144 % 64 = t / 4096 % 64 := by
    unfold word
    omega
  have third : word (word (t * 64) * 64) / 262144 % 64 = t / 64 % 64 := by
    unfold word
    omega
  have fourth : word (word (word (t * 64) * 64) * 64) / 262144 % 64 = t % 64 := by
    unfold word
    omega
  simp only [emit, first, second, third, fourth, Nat.zero_le, if_true, symbol]

/-- The number of three bytes. -/
theorem gather_eq (input : List UInt8) : gather input =
    (input.getD 0 0).toNat * 65536 + (input.getD 1 0).toNat * 256 + (input.getD 2 0).toNat := by
  have first := (input.getD 0 0).toNat_lt
  have second := (input.getD 1 0).toNat_lt
  have third := (input.getD 2 0).toNat_lt
  simp only [gather, List.foldl_cons, List.foldl_nil]
  unfold word
  omega

/-- The number of four characters with the given digits. -/
theorem parse_digits {c0 c1 c2 c3 : UInt8} {t : Nat} (small : t < 16777216)
    (first : b64chars.idxOf c0 % 64 = t / 262144) (second : b64chars.idxOf c1 % 64 = t / 4096 % 64)
    (third : b64chars.idxOf c2 % 64 = t / 64 % 64) (fourth : b64chars.idxOf c3 % 64 = t % 64) :
    parse [c0, c1, c2, c3] = t := by
  simp only [parse, List.foldl_cons, List.foldl_nil, first, second, third, fourth]
  unfold word
  omega

/-- The three bytes of a number. -/
theorem quad_parse {c0 c1 c2 c3 a b c : UInt8}
    (number : parse [c0, c1, c2, c3] = a.toNat * 65536 + b.toNat * 256 + c.toNat) :
    quad c0 c1 c2 c3 = [a, b, c] := by
  have first := a.toNat_lt
  have second := b.toNat_lt
  have third := c.toNat_lt
  have high : (a.toNat * 65536 + b.toNat * 256 + c.toNat) / 65536 = a.toNat := by omega
  have middle : word ((a.toNat * 65536 + b.toNat * 256 + c.toNat) * 256) / 65536 % 256 =
      b.toNat := by
    unfold word
    omega
  have low : word (word ((a.toNat * 65536 + b.toNat * 256 + c.toNat) * 256) * 256) / 65536 % 256 =
      c.toNat := by
    unfold word
    omega
  have byte (value : Nat) (x : UInt8) (same : value % 256 = x.toNat) : UInt8.ofNat value = x := by
    apply UInt8.toNat_inj.mp
    rw [UInt8.toNat_ofNat', same]
  rw [quad]
  simp only [number]
  rw [high, byte _ b middle, byte _ c low, byte _ a (Nat.mod_eq_of_lt first)]

/-- The position of the equals sign counts as zero. -/
theorem idxOf_pad : b64chars.idxOf pad % 64 = 0 := by decide

/-- Three bytes are written as four characters. -/
theorem b64encode_three (a b c : UInt8) (rest : List UInt8) : ∃ c0 c1 c2 c3,
    b64encode (a :: b :: c :: rest) = c0 :: c1 :: c2 :: c3 :: b64encode rest ∧
    (∀ char ∈ [c0, c1, c2, c3], char ∈ b64chars ∧ char ≠ pad) ∧
    quad c0 c1 c2 c3 = [a, b, c] := by
  have first := a.toNat_lt
  have second := b.toNat_lt
  have third := c.toNat_lt
  have number : gather (a :: b :: c :: rest) = a.toNat * 65536 + b.toNat * 256 + c.toNat :=
    gather_eq _
  have small : gather (a :: b :: c :: rest) < 16777216 := by omega
  have whole : ∀ j ≤ 3, j ≤ (a :: b :: c :: rest).length := by
    intro j three
    simp only [List.length_cons]
    omega
  rw [b64encode, if_neg (List.cons_ne_nil _ _), emit_digits small, if_pos (whole 1 (by decide)),
    if_pos (whole 2 (by decide)), if_pos (whole 3 (by decide))]
  generalize gather (a :: b :: c :: rest) = t at number small
  obtain ⟨index0, valid0⟩ := @symbol_spec (t / 262144) (by omega)
  obtain ⟨index1, valid1⟩ := @symbol_spec (t / 4096 % 64) (by omega)
  obtain ⟨index2, valid2⟩ := @symbol_spec (t / 64 % 64) (by omega)
  obtain ⟨index3, valid3⟩ := @symbol_spec (t % 64) (by omega)
  refine ⟨_, _, _, _, rfl, ?_, ?_⟩
  · simp only [List.forall_mem_cons]
    exact ⟨valid0, valid1, valid2, valid3, List.forall_mem_nil _⟩
  · apply quad_parse
    rw [← number]
    apply parse_digits small
    · rw [index0]
      omega
    · rw [index1]
      omega
    · rw [index2]
      omega
    · rw [index3]
      omega

/-- The last one or two bytes are written with equals signs. -/
theorem b64encode_last {input : List UInt8} (some : input ≠ []) (short : input.length < 3) :
    ∃ body dead, b64encode input = body ++ List.replicate dead pad ∧
      (b64encode input).length = 4 ∧ dead + input.length = 3 ∧
      (∀ char ∈ body, char ∈ b64chars ∧ char ≠ pad) ∧
      quads (b64encode input) = input ++ List.replicate dead 0 := by
  have number := gather_eq input
  rcases input with _ | ⟨a, _ | ⟨b, _ | ⟨c, rest⟩⟩⟩
  · exact absurd rfl some
  · have first := a.toNat_lt
    replace number : gather [a] = a.toNat * 65536 + (0 : UInt8).toNat * 256 + (0 : UInt8).toNat :=
      number
    have zero : (0 : UInt8).toNat = 0 := rfl
    have small : gather [a] < 16777216 := by omega
    have done : b64encode [] = [] := by rw [b64encode, if_pos rfl]
    have text : b64encode [a] =
        [symbol (gather [a] / 262144), symbol (gather [a] / 4096 % 64), pad, pad] := by
      rw [b64encode, if_neg some, emit_digits small, List.length_singleton, if_pos (Nat.le_refl 1),
        if_neg (by decide), if_neg (by decide),
        List.drop_eq_nil_of_le (show 1 ≤ 3 by decide), done]
      rfl
    rw [text]
    generalize gather [a] = t at number small
    obtain ⟨index0, valid0⟩ := @symbol_spec (t / 262144) (by omega)
    obtain ⟨index1, valid1⟩ := @symbol_spec (t / 4096 % 64) (by omega)
    refine ⟨[symbol (t / 262144), symbol (t / 4096 % 64)], 2, rfl, rfl, rfl, ?_, ?_⟩
    · simp only [List.forall_mem_cons]
      exact ⟨valid0, valid1, List.forall_mem_nil _⟩
    · have bytes : quad (symbol (t / 262144)) (symbol (t / 4096 % 64)) pad pad = [a, 0, 0] := by
        apply quad_parse
        rw [← number]
        apply parse_digits small
        · rw [index0]
          omega
        · rw [index1]
          omega
        · rw [idxOf_pad]
          omega
        · rw [idxOf_pad]
          omega
      rw [quads, bytes]
      rfl
  · have first := a.toNat_lt
    have second := b.toNat_lt
    replace number : gather [a, b] = a.toNat * 65536 + b.toNat * 256 + (0 : UInt8).toNat :=
      number
    have zero : (0 : UInt8).toNat = 0 := rfl
    have small : gather [a, b] < 16777216 := by omega
    have done : b64encode [] = [] := by rw [b64encode, if_pos rfl]
    have two : [a, b].length = 2 := rfl
    have text : b64encode [a, b] = [symbol (gather [a, b] / 262144),
        symbol (gather [a, b] / 4096 % 64), symbol (gather [a, b] / 64 % 64), pad] := by
      rw [b64encode, if_neg some, emit_digits small, two, if_pos (by decide),
        if_pos (by decide), if_neg (by decide),
        List.drop_eq_nil_of_le (show 2 ≤ 3 by decide), done]
      rfl
    rw [text]
    generalize gather [a, b] = t at number small
    obtain ⟨index0, valid0⟩ := @symbol_spec (t / 262144) (by omega)
    obtain ⟨index1, valid1⟩ := @symbol_spec (t / 4096 % 64) (by omega)
    obtain ⟨index2, valid2⟩ := @symbol_spec (t / 64 % 64) (by omega)
    refine ⟨[symbol (t / 262144), symbol (t / 4096 % 64), symbol (t / 64 % 64)], 1, rfl, rfl,
      rfl, ?_, ?_⟩
    · simp only [List.forall_mem_cons]
      exact ⟨valid0, valid1, valid2, List.forall_mem_nil _⟩
    · have bytes : quad (symbol (t / 262144)) (symbol (t / 4096 % 64)) (symbol (t / 64 % 64)) pad =
          [a, b, 0] := by
        apply quad_parse
        rw [← number]
        apply parse_digits small
        · rw [index0]
          omega
        · rw [index1]
          omega
        · rw [index2]
          omega
        · rw [idxOf_pad]
          omega
      rw [quads, bytes]
      rfl
  · simp only [List.length_cons] at short
    omega

/-- What is written consists of characters of the encoding with equals signs at the end, and it
stands for the bytes, with a zero for each equals sign. -/
theorem b64encode_spec (input : List UInt8) : ∃ body dead,
    b64encode input = body ++ List.replicate dead pad ∧ dead ≤ 2 ∧
    (b64encode input).length = (input.length + 2) / 3 * 4 ∧
    (∀ char ∈ body, char ∈ b64chars ∧ char ≠ pad) ∧
    quads (b64encode input) = input ++ List.replicate dead 0 := by
  induction size : input.length using Nat.strongRecOn generalizing input with
  | ind length ih =>
    rcases input with _ | ⟨a, _ | ⟨b, _ | ⟨c, rest⟩⟩⟩
    · have done : b64encode [] = [] := by rw [b64encode, if_pos rfl]
      rw [done]
      rw [List.length_nil] at size
      rw [← size]
      exact ⟨[], 0, rfl, Nat.zero_le 2, rfl, List.forall_mem_nil _, rfl⟩
    · obtain ⟨body, dead, text, long, total, valid, bytes⟩ :=
        @b64encode_last [a] (List.cons_ne_nil _ _) (show 1 < 3 by decide)
      rw [List.length_singleton] at size total
      exact ⟨body, dead, text, by omega, by rw [long, ← size], valid, bytes⟩
    · obtain ⟨body, dead, text, long, total, valid, bytes⟩ :=
        @b64encode_last [a, b] (List.cons_ne_nil _ _) (show 2 < 3 by decide)
      have two : [a, b].length = 2 := rfl
      rw [two] at size total
      exact ⟨body, dead, text, by omega, by rw [long, ← size], valid, bytes⟩
    · obtain ⟨c0, c1, c2, c3, text, valid, three⟩ := b64encode_three a b c rest
      simp only [List.length_cons] at size
      obtain ⟨body, dead, text', few, long, valid', bytes⟩ := ih rest.length (by omega) rest rfl
      refine ⟨[c0, c1, c2, c3] ++ body, dead, ?_, few, ?_, ?_, ?_⟩
      · rw [text, text']
        rfl
      · rw [text]
        simp only [List.length_cons, long]
        omega
      · exact fun char member => (List.mem_append.mp member).elim (valid char) (valid' char)
      · rw [text, quads, three, bytes]
        rfl

/-- Decoding inverts encoding. -/
theorem decoded_b64encode (input : List UInt8) : decoded (b64encode input) = some input := by
  obtain ⟨body, dead, text, few, long, valid, bytes⟩ := b64encode_spec input
  have counted := countDead_iff.mpr ⟨body, text, valid⟩
  have written : (input ++ List.replicate dead (0 : UInt8)).length - dead = input.length := by
    rw [List.length_append, List.length_replicate]
    omega
  rw [decoded, if_neg (by omega), counted]
  simp only
  rw [if_neg (by omega), bytes, written, List.take_left]

/-- No character that is written is a zero, ends a line or starts a comment. -/
theorem b64encode_clean {input : List UInt8} {char : UInt8} (member : char ∈ b64encode input) :
    char ∉ [0, 10, 13, 35] := by
  obtain ⟨body, dead, text, _, _, valid, _⟩ := b64encode_spec input
  have all : b64chars.all (fun char => char ∉ [0, 10, 13, 35]) = true := by decide
  rw [text] at member
  rcases List.mem_append.mp member with front | back
  · exact of_decide_eq_true (List.all_eq_true.mp all char (valid char front).1)
  · rw [List.eq_of_mem_replicate back]
    decide

end RoundTrip
end Tarsnap.Keyfile
