import Tarsnap.Lib.Prefix
import Tarsnap.Multitape.Metadata
import Mathlib.Data.List.TakeWhile

/-!
# The codec of archive metadata

The writer lays out the fields one after the other and signs them. The reader accepts exactly the
files laid out in this way under a good signature, and what it reads is what was laid out. It walks
the buffer with a position and a count of the bytes left; the walk never leaves the buffer.
-/

namespace Tarsnap.Multitape

open Tarsnap.Lib Tarsnap.Chunks

/-- The signing key that belongs to the verification key. -/
structure RsaSigner (K : Crypto) where
  /-- Sign some data, or fail. -/
  rsaSign : List UInt8 → Option (List UInt8)
  /-- A signature takes 256 bytes. -/
  length : ∀ {data signature}, rsaSign data = some signature → signature.length = 256
  /-- A signature is good. -/
  verifies : ∀ {data signature}, rsaSign data = some signature → K.rsaVerify data signature = true

/-- The length of a signature of zeros. -/
theorem zeroSignature_length {signature : List UInt8}
    (signed : some (List.replicate 256 0) = some signature) : signature.length = 256 := by
  cases signed
  exact List.length_replicate

/-- The metadata before the signature. -/
def TapeMetadata.signed (mdat : TapeMetadata) : List UInt8 :=
  (mdat.name ++ [0]) ++ (leEnc 8 mdat.ctime ++ (leEnc 4 mdat.argv.length ++
    (mdat.argv.flatMap (· ++ [0]) ++ (mdat.indexhash.bytes.toList ++ leEnc 8 mdat.indexlen))))

/-- The length that is allocated for the metadata. -/
def TapeMetadata.buflen (mdat : TapeMetadata) : Nat :=
  mdat.name.length + 1 + 8 + 4 + (mdat.argv.map (·.length + 1)).sum + 32 + 8 + 256

/-- Encode metadata into a buffer, and return the buffer and its length. -/
def multitapeMetadataEnc {K : Crypto} (rsa : RsaSigner K) (mdat : TapeMetadata) :
    Option (List UInt8 × Nat) :=
  if 4294967295 < mdat.argv.length then none
  else do
    let signature ← rsa.rsaSign mdat.signed
    return (mdat.signed ++ signature, mdat.buflen)

/-- The fields are values of their types: strings without a NUL, an `int`, and 64-bit words. -/
structure TapeMetadata.Valid (mdat : TapeMetadata) : Prop where
  /-- The name is a string. -/
  name : 0 ∉ mdat.name
  /-- The arguments are strings. -/
  argv : ∀ arg ∈ mdat.argv, 0 ∉ arg
  /-- The number of arguments is an `int`. -/
  argc : mdat.argv.length < 2147483648
  /-- The creation time is a 64-bit word. -/
  ctime : mdat.ctime < 256 ^ 8
  /-- The length of the metaindex is a 64-bit word. -/
  indexlen : mdat.indexlen < 256 ^ 8

/-- A buffer holds laid out fields and a good signature of them, and nothing else. -/
def WellFormed (K : Crypto) (buf : List UInt8) : Prop :=
  ∃ mdat : TapeMetadata, ∃ signature : List UInt8, mdat.Valid ∧ signature.length = 256 ∧
    K.rsaVerify mdat.signed signature = true ∧ buf = mdat.signed ++ signature

section Fields

/-- A field is read exactly. -/
theorem takeField_exact (width : Nat) :
    Exact (fun field : List UInt8 => field.length = width) id (takeField width) where
  reads := by
    intro field rest length
    have enough : ¬(field ++ rest).length < width := by
      rw [List.length_append]
      omega
    rw [takeField, id_eq, if_neg enough, List.take_left' length, List.drop_left' length]
  sound := by
    intro buf field rest read
    rw [takeField] at read
    split at read
    · exact nomatch read
    · cases read
      exact ⟨by rw [List.length_take]; omega, (List.take_append_drop width buf).symm⟩

/-- A buffer with a NUL is a string, its NUL and the rest. -/
theorem string_split {buf : List UInt8} (terminated : 0 ∈ buf) :
    0 ∉ buf.takeWhile (· ≠ 0) ∧
      buf = buf.takeWhile (· ≠ 0) ++ 0 :: (buf.dropWhile (· ≠ 0)).drop 1 := by
  induction buf with
  | nil => exact absurd terminated List.not_mem_nil
  | cons byte rest ih =>
    by_cases zero : byte = 0
    · subst zero
      exact ⟨by simp, by simp⟩
    · have later : 0 ∈ rest := (List.mem_cons.mp terminated).resolve_left (Ne.symm zero)
      obtain ⟨clean, split⟩ := ih later
      rw [List.takeWhile_cons_of_pos (by simpa using zero),
        List.dropWhile_cons_of_pos (by simpa using zero)]
      refine ⟨?_, ?_⟩
      · intro member
        exact (List.mem_cons.mp member).elim (Ne.symm zero) clean
      · rw [List.cons_append, ← split]

/-- A string is read exactly. -/
theorem takeString_exact :
    Exact (fun string : List UInt8 => 0 ∉ string) (· ++ [0]) takeString where
  reads := by
    intro string rest clean
    have nonzero : ∀ byte ∈ string, (byte ≠ 0 : Bool) = true := by
      intro byte member
      exact decide_eq_true fun zero => clean (zero ▸ member)
    rw [takeString, if_pos (by simp), List.append_assoc, List.takeWhile_append_of_pos nonzero,
      List.dropWhile_append_of_pos nonzero, List.singleton_append,
      List.takeWhile_cons_of_neg (by simp), List.dropWhile_cons_of_neg (by simp), List.append_nil,
      List.drop_one, List.tail_cons]
  sound := by
    intro buf string rest read
    rw [takeString] at read
    split at read
    · rename_i terminated
      obtain ⟨clean, split⟩ := string_split terminated
      cases read
      refine ⟨clean, ?_⟩
      rw [List.append_assoc, List.singleton_append]
      exact split
    · exact nomatch read

/-- Strings are read one after the other. -/
theorem takeStrings_eq (argc : Nat) : takeStrings argc = readMany takeString argc := by
  induction argc with
  | zero =>
    funext buf
    rfl
  | succ argc ih =>
    funext buf
    rw [takeStrings, readMany, ih]

/-- A hash is read back from its bytes. -/
theorem hash_bytes (hash : Hash) :
    (⟨Vector.ofFn fun i => hash.bytes.toList.getD i.val 0⟩ : Hash) = hash := by
  have whole := hash_ofFn hash []
  rwa [List.append_nil] at whole

/-- The bytes of a hash that is read from them. -/
theorem bytes_hash {bytes : List UInt8} (length : bytes.length = 32) :
    (⟨Vector.ofFn fun i => bytes.getD i.val 0⟩ : Hash).bytes.toList = bytes := by
  apply List.ext_getElem
  · rw [Vector.length_toList, length]
  · intro i left right
    rw [Vector.getElem_toList, Vector.getElem_ofFn, List.getD_eq_getElem _ _ right]

end Fields

/-- Each argument takes a byte at least. -/
theorem length_le_flatMap (argv : List (List UInt8)) :
    argv.length ≤ (argv.flatMap (· ++ [0])).length := by
  induction argv with
  | nil => exact Nat.zero_le _
  | cons arg argv ih =>
    rw [List.flatMap_cons, List.length_append, List.length_append, List.length_cons,
      List.length_singleton]
    omega

section Codec

variable {K : Crypto}

/-- An encoding is the laid out fields and their signature. -/
theorem multitapeMetadataEnc_cases {rsa : RsaSigner K} {mdat : TapeMetadata} {buf : List UInt8}
    {buflen : Nat} (encoded : multitapeMetadataEnc rsa mdat = some (buf, buflen)) :
    ∃ signature, rsa.rsaSign mdat.signed = some signature ∧ buf = mdat.signed ++ signature ∧
      buflen = mdat.buflen := by
  rw [multitapeMetadataEnc] at encoded
  split at encoded
  · exact nomatch encoded
  obtain ⟨signature, signed, same⟩ := Option.bind_eq_some_iff.mp encoded
  cases same
  exact ⟨signature, signed, rfl, rfl⟩

/-- The decoder reads the laid out fields back when the signature is good. -/
theorem multitapeMetadataDec_signed {mdat : TapeMetadata} {signature : List UInt8}
    (valid : mdat.Valid) (length : signature.length = 256)
    (good : K.rsaVerify mdat.signed signature = true) :
    multitapeMetadataDec K (mdat.signed ++ signature) =
      .ok { mdat with metadatalen := (mdat.signed ++ signature).length } := by
  have argc : leDec (leEnc 4 mdat.argv.length) = mdat.argv.length := by
    rw [leDec_leEnc, Nat.mod_eq_of_lt]
    have := valid.argc
    omega
  have name := takeString_exact.reads (leEnc 8 mdat.ctime ++ (leEnc 4 mdat.argv.length ++
    (mdat.argv.flatMap (· ++ [0]) ++ (mdat.indexhash.bytes.toList ++
      (leEnc 8 mdat.indexlen ++ signature))))) valid.name
  have ctime := (takeField_exact 8).reads (leEnc 4 mdat.argv.length ++
    (mdat.argv.flatMap (· ++ [0]) ++ (mdat.indexhash.bytes.toList ++
      (leEnc 8 mdat.indexlen ++ signature)))) (leEnc_length 8 mdat.ctime)
  have count := (takeField_exact 4).reads (mdat.argv.flatMap (· ++ [0]) ++
    (mdat.indexhash.bytes.toList ++ (leEnc 8 mdat.indexlen ++ signature)))
    (leEnc_length 4 mdat.argv.length)
  have argv := (takeString_exact.many mdat.argv.length).reads
    (mdat.indexhash.bytes.toList ++ (leEnc 8 mdat.indexlen ++ signature)) ⟨rfl, valid.argv⟩
  have hash := (takeField_exact 32).reads (leEnc 8 mdat.indexlen ++ signature)
    (show mdat.indexhash.bytes.toList.length = 32 by simp)
  have indexlen := (takeField_exact 8).reads signature (leEnc_length 8 mdat.indexlen)
  have last := (takeField_exact 256).reads [] length
  simp only [id_eq] at ctime count hash indexlen last
  rw [List.append_nil] at last
  have layout : mdat.signed ++ signature = (mdat.name ++ [0]) ++ (leEnc 8 mdat.ctime ++
      (leEnc 4 mdat.argv.length ++ (mdat.argv.flatMap (· ++ [0]) ++
        (mdat.indexhash.bytes.toList ++ (leEnc 8 mdat.indexlen ++ signature))))) := by
    simp only [TapeMetadata.signed, List.append_assoc]
  have front : (mdat.signed ++ signature).take
      ((mdat.signed ++ signature).length - signature.length) = mdat.signed := by
    rw [List.length_append, Nat.add_sub_cancel, List.take_left']
    rfl
  have small : ¬(2147483648 ≤ mdat.argv.length ∨ (mdat.argv.flatMap (· ++ [0]) ++
      (mdat.indexhash.bytes.toList ++ (leEnc 8 mdat.indexlen ++ signature))).length <
        mdat.argv.length) := by
    have most := valid.argc
    have each := length_le_flatMap mdat.argv
    rw [List.length_append]
    omega
  rw [multitapeMetadataDec, layout, name, ok_bind]
  simp only []
  rw [ctime, ok_bind]
  simp only []
  rw [count, ok_bind]
  simp only []
  rw [argc, if_neg small, takeStrings_eq, argv, ok_bind]
  simp only []
  rw [hash, ok_bind]
  simp only []
  rw [indexlen, ok_bind]
  simp only []
  rw [last, ok_bind]
  simp only []
  rw [← layout, front, good, if_neg (by decide), if_neg (by decide), hash_bytes,
    leDec_leEnc, leDec_leEnc, Nat.mod_eq_of_lt valid.ctime, Nat.mod_eq_of_lt valid.indexlen]

/-- What the decoder accepts is laid out and signed. -/
theorem multitapeMetadataDec_sound {buf : List UInt8} {mdat : TapeMetadata}
    (decoded : multitapeMetadataDec K buf = .ok mdat) :
    mdat.Valid ∧ ∃ signature : List UInt8, signature.length = 256 ∧
      K.rsaVerify mdat.signed signature = true ∧ buf = mdat.signed ++ signature := by
  obtain ⟨⟨name, afterName⟩, readName, decoded⟩ := bind_eq_ok.mp decoded
  obtain ⟨⟨ctime, afterCtime⟩, readCtime, decoded⟩ := bind_eq_ok.mp decoded
  obtain ⟨⟨argc, afterArgc⟩, readArgc, decoded⟩ := bind_eq_ok.mp decoded
  simp only [] at readCtime readArgc decoded
  split at decoded
  · exact nomatch decoded
  rename_i small
  obtain ⟨⟨argv, afterArgv⟩, readArgv, decoded⟩ := bind_eq_ok.mp decoded
  obtain ⟨⟨indexhash, afterHash⟩, readHash, decoded⟩ := bind_eq_ok.mp decoded
  obtain ⟨⟨indexlen, afterIndexlen⟩, readIndexlen, decoded⟩ := bind_eq_ok.mp decoded
  obtain ⟨⟨signature, rest⟩, readSignature, decoded⟩ := bind_eq_ok.mp decoded
  simp only [] at readHash readIndexlen readSignature decoded
  split at decoded
  · exact nomatch decoded
  rename_i verified
  split at decoded
  · exact nomatch decoded
  rename_i ended
  rw [takeStrings_eq] at readArgv
  obtain ⟨nameClean, nameBytes⟩ := takeString_exact.sound readName
  obtain ⟨ctimeLength, ctimeBytes⟩ := (takeField_exact 8).sound readCtime
  obtain ⟨argcLength, argcBytes⟩ := (takeField_exact 4).sound readArgc
  obtain ⟨⟨count, argvClean⟩, argvBytes⟩ := (takeString_exact.many (leDec argc)).sound readArgv
  obtain ⟨hashLength, hashBytes⟩ := (takeField_exact 32).sound readHash
  obtain ⟨indexlenLength, indexlenBytes⟩ := (takeField_exact 8).sound readIndexlen
  obtain ⟨signatureLength, signatureBytes⟩ := (takeField_exact 256).sound readSignature
  have noRest : rest = [] := List.eq_nil_of_length_eq_zero (Decidable.not_not.mp ended)
  rw [noRest, List.append_nil, id_eq] at signatureBytes
  rw [id_eq] at ctimeBytes argcBytes hashBytes indexlenBytes
  have layout : mdat.signed = (name ++ [0]) ++ (ctime ++ (argc ++
      (argv.flatMap (· ++ [0]) ++ (indexhash ++ indexlen)))) := by
    cases decoded
    rw [TapeMetadata.signed]
    simp only []
    rw [bytes_hash hashLength, count]
    have encodeArgc := leEnc_leDec argc
    have encodeCtime := leEnc_leDec ctime
    have encodeIndexlen := leEnc_leDec indexlen
    rw [argcLength] at encodeArgc
    rw [ctimeLength] at encodeCtime
    rw [indexlenLength] at encodeIndexlen
    rw [encodeArgc, encodeCtime, encodeIndexlen]
  have whole : buf = mdat.signed ++ signature := by
    rw [layout, nameBytes, ctimeBytes, argcBytes, argvBytes, hashBytes, indexlenBytes,
      signatureBytes]
    simp only [List.append_assoc]
  have front : buf.take (buf.length - afterIndexlen.length) = mdat.signed := by
    rw [signatureBytes, whole, List.length_append, Nat.add_sub_cancel, List.take_left' rfl]
  rw [front] at verified
  have ctimeBound := leDec_lt ctime
  have indexlenBound := leDec_lt indexlen
  rw [ctimeLength] at ctimeBound
  rw [indexlenLength] at indexlenBound
  cases decoded
  exact ⟨⟨nameClean, argvClean, show argv.length < 2147483648 by omega, ctimeBound, indexlenBound⟩,
    signature, signatureLength, Bool.eq_true_of_not_eq_false verified, whole⟩

end Codec

section Walk

/-- How the walk over the buffer ends without a result. -/
inductive WalkError where
  /-- A byte outside the buffer is read, or the count of the bytes left wraps around. -/
  | overread
  /-- The metadata is refused. -/
  | refused (failure : ReadError)
deriving DecidableEq

/-- The position in the buffer and the number of bytes left. -/
structure Cursor where
  /-- Offset of the pointer into the buffer. -/
  p : Nat
  /-- Bytes left. -/
  buflen : Nat

variable (buf : List UInt8)

/-- Read some bytes of the buffer. -/
def load (p len : Nat) : Except WalkError (List UInt8) :=
  if p + len ≤ buf.length then .ok ((buf.drop p).take len) else .error .overread

/-- The loop `for (i = 0; i < buflen; i++) if (p[i] == '\0') break;`. -/
def scanLoop (p : Nat) : Nat → Nat → Except WalkError Nat
  | 0, i => .ok i
  | left + 1, i => do
    let byte ← load buf (p + i) 1
    if byte = [0] then return i
    scanLoop p left (i + 1)

/-- `strlen` reads bytes until it finds a NUL. -/
def strlenLoop (p : Nat) : Nat → Nat → Except WalkError Nat
  | 0, _ => .error .overread
  | fuel + 1, i => do
    let byte ← load buf (p + i) 1
    if byte = [0] then return i
    strlenLoop p fuel (i + 1)

/-- Move the pointer forward. -/
def Cursor.advance (c : Cursor) (len : Nat) : Except WalkError Cursor :=
  if c.buflen < len then .error .overread else .ok ⟨c.p + len, c.buflen - len⟩

/-- Copy a string and move on to the next field. -/
def walkString (c : Cursor) : Except WalkError (List UInt8 × Cursor) := do
  let i ← scanLoop buf c.p c.buflen 0
  if i = c.buflen then .error (.refused .corrupt)
  else do
    let len ← strlenLoop buf c.p (buf.length + 1) 0
    let string ← load buf c.p len
    let c ← c.advance (len + 1)
    return (string, c)

/-- Copy a field and move on to the next one. -/
def walkField (width : Nat) (c : Cursor) : Except WalkError (List UInt8 × Cursor) :=
  if c.buflen < width then .error (.refused .corrupt)
  else do
    let field ← load buf c.p width
    let c ← c.advance width
    return (field, c)

/-- Copy the given number of strings. -/
def walkStrings : Nat → Cursor → Except WalkError (List (List UInt8) × Cursor)
  | 0, c => .ok ([], c)
  | argc + 1, c => do
    let (arg, c) ← walkString buf c
    let (argv, c) ← walkStrings argc c
    return (arg :: argv, c)

/-- Parse metadata with a pointer into the buffer and a count of the bytes left. -/
def multitapeMetadataDecWalk (K : Crypto) : Except WalkError TapeMetadata := do
  let (name, c) ← walkString buf ⟨0, buf.length⟩
  let (ctime, c) ← walkField buf 8 c
  let (argc, c) ← walkField buf 4 c
  if 2147483648 ≤ leDec argc ∨ c.buflen < leDec argc then .error (.refused .corrupt)
  else do
    let (argv, c) ← walkStrings buf (leDec argc) c
    let (indexhash, c) ← walkField buf 32 c
    let (indexlen, c) ← walkField buf 8 c
    let signed ← load buf 0 c.p
    let (signature, c) ← walkField buf 256 c
    if K.rsaVerify signed signature = false then .error (.refused .corrupt)
    else if c.buflen ≠ 0 then .error (.refused .corrupt)
    else .ok {
      name
      ctime := leDec ctime
      argv
      indexhash := ⟨Vector.ofFn fun i => indexhash.getD i.val 0⟩
      indexlen := leDec indexlen
      metadatalen := buf.length }

/-- The cursor before the given end of the buffer. -/
def cursorAt (rest : List UInt8) : Cursor := ⟨buf.length - rest.length, rest.length⟩

/-- What a reader returns, with a cursor for the rest of the buffer. -/
def located {α : Type} : Except ReadError (α × List UInt8) → Except WalkError (α × Cursor)
  | .ok (value, rest) => .ok (value, cursorAt buf rest)
  | .error failure => .error (.refused failure)

/-- The walk follows the reader at every end of the buffer, and stays in the buffer. -/
structure Follows {α : Type} (read : Reader ReadError α)
    (walk : Cursor → Except WalkError (α × Cursor)) : Prop where
  /-- The walk does what the reader does. -/
  same : ∀ {rest : List UInt8}, rest <:+ buf → walk (cursorAt buf rest) = located buf (read rest)
  /-- What is left is an end of the buffer. -/
  suffix : ∀ {rest after : List UInt8} {value : α}, rest <:+ buf → read rest = .ok (value, after) →
    after <:+ buf

variable {buf}

/-- Bytes of the rest of the buffer are read inside the buffer. -/
theorem load_cursorAt {rest : List UInt8} (suffix : rest <:+ buf) {i len : Nat}
    (inside : i + len ≤ rest.length) :
    load buf ((cursorAt buf rest).p + i) len = .ok ((rest.drop i).take len) := by
  obtain ⟨front, rfl⟩ := suffix
  have start : (cursorAt (front ++ rest) rest).p = front.length := by
    rw [cursorAt, List.length_append, Nat.add_sub_cancel]
  rw [load, start, if_pos (by rw [List.length_append]; omega), ← List.drop_drop,
    List.drop_left' rfl]

/-- The cursor moves to the end of the buffer that is left. -/
theorem advance_cursorAt {rest : List UInt8} (suffix : rest <:+ buf) {len : Nat}
    (inside : len ≤ rest.length) :
    (cursorAt buf rest).advance len = .ok (cursorAt buf (rest.drop len)) := by
  have whole := suffix.length_le
  have position : buf.length - rest.length + len = buf.length - (rest.length - len) := by omega
  rw [Cursor.advance, cursorAt, if_neg (by simp only []; omega), cursorAt, List.length_drop,
    position]

/-- The next byte of the rest of the buffer. -/
theorem load_byte {rest : List UInt8} (suffix : rest <:+ buf) {i : Nat} {byte : UInt8}
    {after : List UInt8} (next : rest.drop i = byte :: after) :
    load buf ((cursorAt buf rest).p + i) 1 = .ok [byte] ∧ rest.drop (i + 1) = after := by
  have size : (rest.drop i).length = after.length + 1 := by rw [next, List.length_cons]
  rw [List.length_drop] at size
  refine ⟨?_, ?_⟩
  · rw [load_cursorAt suffix (by omega), next]
    rfl
  · rw [← List.drop_drop, next]
    rfl

/-- The scan counts the bytes before the first NUL. -/
theorem scanLoop_eq {rest : List UInt8} (suffix : rest <:+ buf) (tail : List UInt8) (i : Nat)
    (position : rest.drop i = tail) :
    scanLoop buf (cursorAt buf rest).p tail.length i =
      .ok (i + (tail.takeWhile (· ≠ 0)).length) := by
  induction tail generalizing i with
  | nil => rfl
  | cons byte tail ih =>
    obtain ⟨loaded, next⟩ := load_byte suffix position
    rw [List.length_cons, scanLoop, loaded, ok_bind]
    by_cases zero : byte = 0
    · subst zero
      simp
    · rw [if_neg (by simpa using zero), ih (i + 1) next,
        List.takeWhile_cons_of_pos (by simpa using zero), List.length_cons]
      congr 1
      omega

/-- `strlen` counts the bytes before the first NUL, if there is one. -/
theorem strlenLoop_eq {rest : List UInt8} (suffix : rest <:+ buf) (tail : List UInt8)
    (fuel i : Nat) (position : rest.drop i = tail) (terminated : 0 ∈ tail)
    (enough : tail.length < fuel) :
    strlenLoop buf (cursorAt buf rest).p fuel i =
      .ok (i + (tail.takeWhile (· ≠ 0)).length) := by
  induction tail generalizing i fuel with
  | nil => exact absurd terminated List.not_mem_nil
  | cons byte tail ih =>
    obtain ⟨loaded, next⟩ := load_byte suffix position
    obtain ⟨fuel, rfl⟩ : ∃ less, fuel = less + 1 := ⟨fuel - 1, by omega⟩
    rw [List.length_cons] at enough
    rw [strlenLoop, loaded, ok_bind]
    by_cases zero : byte = 0
    · subst zero
      simp
    · have later : 0 ∈ tail := (List.mem_cons.mp terminated).resolve_left (Ne.symm zero)
      rw [if_neg (by simpa using zero), ih fuel (i + 1) next later (by omega),
        List.takeWhile_cons_of_pos (by simpa using zero), List.length_cons]
      congr 1
      omega

/-- The walk over a field follows the reader. -/
theorem walkField_follows (width : Nat) : Follows buf (takeField width) (walkField buf width) where
  same := by
    intro rest suffix
    rw [walkField, takeField]
    by_cases short : rest.length < width
    · rw [if_pos short, if_pos (show (cursorAt buf rest).buflen < width from short)]
      rfl
    · have loaded := load_cursorAt suffix (show 0 + width ≤ rest.length by omega)
      rw [Nat.add_zero, List.drop_zero] at loaded
      rw [if_neg short, if_neg (show ¬(cursorAt buf rest).buflen < width from short), loaded,
        ok_bind, advance_cursorAt suffix (by omega)]
      rfl
  suffix := by
    intro rest after value suffix read
    obtain ⟨_, bytes⟩ := (takeField_exact width).sound read
    exact (show after <:+ rest from ⟨value, bytes.symm⟩).trans suffix

/-- The walk over a string follows the reader. -/
theorem walkString_follows : Follows buf takeString (walkString buf) where
  same := by
    intro rest suffix
    have scanned := scanLoop_eq suffix rest 0 rfl
    rw [Nat.zero_add] at scanned
    rw [walkString, takeString, show (cursorAt buf rest).buflen = rest.length from rfl, scanned,
      ok_bind]
    by_cases terminated : 0 ∈ rest
    · obtain ⟨_, split⟩ := string_split terminated
      have inside : (rest.takeWhile (· ≠ 0)).length + 1 ≤ rest.length := by
        have size := congrArg List.length split
        rw [List.length_append, List.length_cons] at size
        omega
      have counted := strlenLoop_eq suffix rest (buf.length + 1) 0 rfl terminated
        (Nat.lt_succ_of_le suffix.length_le)
      have loaded := load_cursorAt suffix
        (show 0 + (rest.takeWhile (· ≠ 0)).length ≤ rest.length by omega)
      have string : rest.take (rest.takeWhile (· ≠ 0)).length = rest.takeWhile (· ≠ 0) :=
        (List.prefix_iff_eq_take.mp (List.takeWhile_prefix _)).symm
      have left : rest.drop ((rest.takeWhile (· ≠ 0)).length + 1) =
          (rest.dropWhile (· ≠ 0)).drop 1 :=
        calc rest.drop ((rest.takeWhile (· ≠ 0)).length + 1)
          _ = (rest.takeWhile (· ≠ 0) ++ 0 :: (rest.dropWhile (· ≠ 0)).drop 1).drop
              ((rest.takeWhile (· ≠ 0)).length + 1) := by rw [← split]
          _ = (rest.dropWhile (· ≠ 0)).drop 1 := by
            rw [← List.drop_drop, List.drop_left' rfl, List.drop_one, List.tail_cons]
      rw [Nat.zero_add] at counted
      rw [Nat.add_zero, List.drop_zero, string] at loaded
      rw [if_neg (by omega), if_pos terminated, counted, ok_bind, loaded, ok_bind,
        advance_cursorAt suffix inside, ok_bind, left]
      rfl
    · have all : rest.takeWhile (· ≠ 0) = rest := by
        rw [List.takeWhile_eq_self_iff]
        intro byte member
        exact decide_eq_true fun zero => terminated (zero ▸ member)
      rw [if_pos (by rw [all]), if_neg terminated]
      rfl
  suffix := by
    intro rest after value suffix read
    obtain ⟨_, bytes⟩ := takeString_exact.sound read
    exact (show after <:+ rest from ⟨value ++ [0], bytes.symm⟩).trans suffix

/-- The walk over the arguments follows the reader. -/
theorem walkStrings_follows (argc : Nat) :
    Follows buf (takeStrings argc) (walkStrings buf argc) := by
  induction argc with
  | zero =>
    refine ⟨fun _ => rfl, ?_⟩
    intro rest after value suffix read
    cases read
    exact suffix
  | succ argc ih =>
    refine ⟨?_, ?_⟩
    · intro rest suffix
      rw [walkStrings, takeStrings, walkString_follows.same suffix]
      cases first : takeString rest with
      | error failure => rfl
      | ok result =>
        obtain ⟨arg, middle⟩ := result
        rw [located, ok_bind, ok_bind]
        simp only []
        rw [ih.same (walkString_follows.suffix suffix first)]
        cases takeStrings argc middle with
        | error failure => rfl
        | ok result => rfl
    · intro rest after value suffix read
      rw [takeStrings] at read
      obtain ⟨⟨arg, middle⟩, first, read⟩ := bind_eq_ok.mp read
      obtain ⟨⟨argv, last⟩, later, same⟩ := bind_eq_ok.mp read
      cases same
      exact ih.suffix (walkString_follows.suffix suffix first) later

/-- The walk returns what the decoder returns, and never leaves the buffer. -/
theorem multitapeMetadataDecWalk_eq (K : Crypto) (buf : List UInt8) :
    multitapeMetadataDecWalk buf K = (multitapeMetadataDec K buf).mapError .refused := by
  have start : (⟨0, buf.length⟩ : Cursor) = cursorAt buf buf := by
    rw [cursorAt, Nat.sub_self]
  rw [multitapeMetadataDecWalk, multitapeMetadataDec, start,
    walkString_follows.same (List.suffix_refl buf)]
  cases readName : takeString buf with
  | error failure => rfl
  | ok result =>
  obtain ⟨name, afterName⟩ := result
  have nameSuffix := walkString_follows.suffix (List.suffix_refl buf) readName
  rw [located, ok_bind, ok_bind]
  simp only []
  rw [(walkField_follows 8).same nameSuffix]
  cases readCtime : takeField 8 afterName with
  | error failure => rfl
  | ok result =>
  obtain ⟨ctime, afterCtime⟩ := result
  have ctimeSuffix := (walkField_follows 8).suffix nameSuffix readCtime
  rw [located, ok_bind, ok_bind]
  simp only []
  rw [(walkField_follows 4).same ctimeSuffix]
  cases readArgc : takeField 4 afterCtime with
  | error failure => rfl
  | ok result =>
  obtain ⟨argc, afterArgc⟩ := result
  have argcSuffix := (walkField_follows 4).suffix ctimeSuffix readArgc
  rw [located, ok_bind, ok_bind]
  simp only []
  by_cases large : 2147483648 ≤ leDec argc ∨ afterArgc.length < leDec argc
  · rw [if_pos large, if_pos (show _ ∨ (cursorAt buf afterArgc).buflen < leDec argc from large)]
    rfl
  rw [if_neg large, if_neg (show ¬(_ ∨ (cursorAt buf afterArgc).buflen < leDec argc) from large),
    (walkStrings_follows (leDec argc)).same argcSuffix]
  cases readArgv : takeStrings (leDec argc) afterArgc with
  | error failure => rfl
  | ok result =>
  obtain ⟨argv, afterArgv⟩ := result
  have argvSuffix := (walkStrings_follows (leDec argc)).suffix argcSuffix readArgv
  rw [located, ok_bind, ok_bind]
  simp only []
  rw [(walkField_follows 32).same argvSuffix]
  cases readHash : takeField 32 afterArgv with
  | error failure => rfl
  | ok result =>
  obtain ⟨indexhash, afterHash⟩ := result
  have hashSuffix := (walkField_follows 32).suffix argvSuffix readHash
  rw [located, ok_bind, ok_bind]
  simp only []
  rw [(walkField_follows 8).same hashSuffix]
  cases readIndexlen : takeField 8 afterHash with
  | error failure => rfl
  | ok result =>
  obtain ⟨indexlen, afterIndexlen⟩ := result
  have indexlenSuffix := (walkField_follows 8).suffix hashSuffix readIndexlen
  have signed : load buf 0 (cursorAt buf afterIndexlen).p =
      .ok (buf.take (buf.length - afterIndexlen.length)) := by
    rw [load, if_pos (by rw [cursorAt]; simp only []; omega), List.drop_zero]
    rfl
  rw [located, ok_bind, ok_bind]
  simp only []
  rw [signed, ok_bind, (walkField_follows 256).same indexlenSuffix]
  cases readSignature : takeField 256 afterIndexlen with
  | error failure => rfl
  | ok result =>
  obtain ⟨signature, rest⟩ := result
  rw [located, ok_bind, ok_bind]
  simp only []
  by_cases bad : K.rsaVerify (buf.take (buf.length - afterIndexlen.length)) signature = false
  · rw [if_pos bad, if_pos bad]
    rfl
  rw [if_neg bad, if_neg bad]
  by_cases more : rest.length ≠ 0
  · rw [if_pos more, if_pos (show (cursorAt buf rest).buflen ≠ 0 from more)]
    rfl
  · rw [if_neg more, if_neg (show ¬(cursorAt buf rest).buflen ≠ 0 from more)]
    rfl

end Walk

/-- The codec of archive metadata loses nothing, admits nothing else and stays in its buffers. -/
structure MetadataCodec (K : Crypto) : Prop where
  /-- The buffer has the length that was computed for it, and holds the same fields. -/
  decode_encode : ∀ (rsa : RsaSigner K) (mdat : TapeMetadata) (buf : List UInt8) (buflen : Nat),
    mdat.Valid → multitapeMetadataEnc rsa mdat = some (buf, buflen) →
      buf.length = buflen ∧
        multitapeMetadataDec K buf = .ok { mdat with metadatalen := buf.length }
  /-- Encoding fails only when signing fails. -/
  encodes : ∀ (rsa : RsaSigner K) (mdat : TapeMetadata), mdat.Valid →
    ((multitapeMetadataEnc rsa mdat).isSome ↔ (rsa.rsaSign mdat.signed).isSome)
  /-- Exactly the well-formed buffers are accepted. -/
  accepts_iff : ∀ buf, (∃ mdat, multitapeMetadataDec K buf = .ok mdat) ↔ WellFormed K buf
  /-- The fields that are read encode to the signed bytes. -/
  encode_decode : ∀ (rsa : RsaSigner K) (buf : List UInt8) (mdat : TapeMetadata),
    multitapeMetadataDec K buf = .ok mdat → mdat.Valid ∧ 256 ≤ buf.length ∧
      ∀ (again : List UInt8) (buflen : Nat), multitapeMetadataEnc rsa mdat = some (again, buflen) →
        again.length = buf.length ∧ again.take (buf.length - 256) = buf.take (buf.length - 256)
  /-- The walk over the buffer returns this and reads no byte outside the buffer. -/
  inBounds : ∀ buf, multitapeMetadataDecWalk buf K = (multitapeMetadataDec K buf).mapError .refused

/-- The length that is allocated is the length that is filled. -/
theorem signed_length (mdat : TapeMetadata) : mdat.signed.length + 256 = mdat.buflen := by
  have argv : (mdat.argv.flatMap (· ++ [0])).length = (mdat.argv.map (·.length + 1)).sum := by
    rw [List.length_flatMap]
    simp only [List.length_append, List.length_singleton]
  simp only [TapeMetadata.signed, TapeMetadata.buflen, List.length_append, List.length_singleton,
    leEnc_length, argv, Vector.length_toList]
  omega

/-- The codec of archive metadata is exact. -/
theorem metadataCodec (K : Crypto) : MetadataCodec K where
  decode_encode := by
    intro rsa mdat buf buflen valid encoded
    obtain ⟨signature, signed, rfl, rfl⟩ := multitapeMetadataEnc_cases encoded
    refine ⟨?_, multitapeMetadataDec_signed valid (rsa.length signed) (rsa.verifies signed)⟩
    rw [List.length_append, rsa.length signed, signed_length]
  encodes := by
    intro rsa mdat valid
    have small := valid.argc
    rw [multitapeMetadataEnc, if_neg (by omega)]
    cases rsa.rsaSign mdat.signed with
    | none => exact Iff.rfl
    | some signature => exact ⟨fun _ => rfl, fun _ => rfl⟩
  accepts_iff := by
    intro buf
    constructor
    · rintro ⟨mdat, decoded⟩
      obtain ⟨valid, signature, length, good, layout⟩ := multitapeMetadataDec_sound decoded
      exact ⟨mdat, signature, valid, length, good, layout⟩
    · rintro ⟨mdat, signature, valid, length, good, rfl⟩
      exact ⟨_, multitapeMetadataDec_signed valid length good⟩
  encode_decode := by
    intro rsa buf mdat decoded
    obtain ⟨valid, signature, length, good, rfl⟩ := multitapeMetadataDec_sound decoded
    refine ⟨valid, by rw [List.length_append]; omega, ?_⟩
    intro again buflen encoded
    obtain ⟨second, signed, rfl, _⟩ := multitapeMetadataEnc_cases encoded
    refine ⟨by rw [List.length_append, List.length_append, length, rsa.length signed], ?_⟩
    rw [List.length_append, length, Nat.add_sub_cancel, List.take_left' rfl, List.take_left' rfl]
  inBounds := multitapeMetadataDecWalk_eq K

end Tarsnap.Multitape
