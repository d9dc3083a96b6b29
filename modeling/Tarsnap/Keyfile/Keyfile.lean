import Tarsnap.Crypto.KeyRoundTrip
import Tarsnap.Keyfile.Base64
import Tarsnap.Lib.Lines
import Tarsnap.Scryptenc.RoundTrip

/-!
# Key files

A key file is a text. Each line that is neither blank nor a comment is a part of the file in
base-64 encoding, with the first six bytes of its SHA256 behind it. All parts together are the
exported keys behind a magic string and the machine number, or this encrypted with a passphrase. For
historical reasons a file can also be the machine number and the keys themselves.

The text is decoded line after line into one buffer, whose size is computed from the size of the
file. What is written behind a part, its checksum and the bytes that equals signs stand for, is
overwritten by the next part.
-/

namespace Tarsnap.Keyfile

open Tarsnap.Lib Tarsnap.Scryptenc
open Tarsnap.Crypto (BignumLimit Keycache cryptoKeysExport cryptoKeysImport)
open Tarsnap.Netpacket (Bytes32)

/-- Why a key file is not read. -/
inductive KeyfileError where
  /-- It is empty, or too large. -/
  | size
  /-- It cannot be read. -/
  | fread
  /-- It is corrupt or truncated. -/
  | truncated
  /-- It is corrupt on a line. -/
  | line (lnum : Nat)
  /-- It does not start with the magic string. -/
  | magic
  /-- There is no passphrase. -/
  | passphrase
  /-- It cannot be decrypted. -/
  | decrypt (rc : ScryptError)
  /-- Its keys cannot be imported. -/
  | keys
deriving DecidableEq

/-- What reading a key file sets. -/
structure Loaded (L : BignumLimit) where
  /-- The machine number. -/
  machinenum : UInt64
  /-- The keys. -/
  cache : Keycache L

/-- What reading a key file gives: success or an error, and what it has set. -/
abbrev ReadResult (L : BignumLimit) : Type := Except Fault (Except KeyfileError Unit × Loaded L)

/-- What reading a key file depends on besides its contents. -/
structure Reader where
  /-- What decryption has. -/
  machine : Machine
  /-- Whether the limits of decryption are not checked. -/
  force : Bool
  /-- The passphrase, if it can be read. -/
  passwd : Option (List UInt8)
  /-- The keys that are asked for. -/
  keys : BitVec 32

/-- The magic string "tarsnap" with the zero behind it. -/
def keyfileMagic : List UInt8 := [116, 97, 114, 115, 110, 97, 112, 0]

section Reading

variable {L : BignumLimit} (S : ScryptPrimitives) (R : Reader)

/-- Read the machine number and the keys. -/
def readRaw (keybuf : List UInt8) (loaded : Loaded L) : ReadResult L :=
  if keybuf.length < 8 then .ok (.error .truncated, loaded)
  else
    let machinenum := UInt64.ofNat (beDec (keybuf.take 8))
    match cryptoKeysImport (keybuf.drop 8) R.keys 0 (keybuf.drop 8).length loaded.cache with
    | none => .error .outOfBounds
    | some (rc, cache) =>
      .ok (if rc ≠ 0 then .error .keys else .ok (), ⟨machinenum, cache⟩)

/-- Read a plaintext key file. -/
def readPlaintext (keybuf : List UInt8) (loaded : Loaded L) : ReadResult L :=
  if keybuf.length < 8 then .ok (.error .truncated, loaded)
  else if keybuf.take 8 ≠ keyfileMagic then .ok (.error .magic, loaded)
  else readRaw R (keybuf.drop 8) loaded

/-- Read an encrypted key file. -/
def readEncrypted (keybuf : List UInt8) (loaded : Loaded L) : ReadResult L :=
  if keybuf.length = 0 then .ok (.error .truncated, loaded)
  else
    match R.passwd with
    | none => .ok (.error .passphrase, loaded)
    | some passwd =>
      match scryptdecBuf S R.machine passwd R.force keybuf with
      | ⟨.error rc, _, _⟩ => .ok (.error (.decrypt rc), loaded)
      | ⟨.ok (), _, none⟩ => .error .uninitialized
      | ⟨.ok (), _, some deckeybuf⟩ =>
        if keybuf.length < deckeybuf.length then .error .outOfBounds
        else readPlaintext R deckeybuf loaded

/-- Read a key file that has been decoded. -/
def readBase256 (keybuf : List UInt8) (loaded : Loaded L) : ReadResult L :=
  if keybuf.length < 6 then .ok (.error .truncated, loaded)
  else if keybuf.take 6 = scryptMagic then readEncrypted S R keybuf loaded
  else readPlaintext R keybuf loaded

/-- Look for an EOL character. -/
def lineLength (keybuf : List UInt8) : Nat :=
  (keybuf.takeWhile fun c => c ≠ 13 ∧ c ≠ 10).length

/-- Skip past the EOL if we're not at EOF. -/
def skipEol : List UInt8 → List UInt8
  | [] => []
  | [_] => []
  | first :: second :: keybuf =>
    if first = 13 ∧ second = 10 then keybuf else second :: keybuf

/-- Decode a line behind the bytes that are decoded already, unless it is corrupt. -/
def readLine (line : List UInt8) (decbuf : Cells) (decpos : Nat) :
    Except Fault (Option (Cells × Nat)) :=
  if 0 < line.length ∧ line.head? ≠ some 35 then do
    match ← b64decode line decbuf decpos with
    | none => return none
    | some (len, decbuf) =>
      if len < 7 then return none
      else
        let data ← loadBytes decbuf decpos (len - 6)
        let hash ← loadBytes decbuf (decpos + len - 6) 6
        if (S.sha256 data).toList.take 6 ≠ hash then return none
        else return some (decbuf, decpos + (len - 6))
  else .ok (some (decbuf, decpos))

/-- Less is left behind the end of a line. -/
theorem skipEol_length (keybuf : List UInt8) : (skipEol keybuf).length ≤ keybuf.length - 1 := by
  rcases keybuf with _ | ⟨first, _ | ⟨second, keybuf⟩⟩
  · exact Nat.le_refl 0
  · exact Nat.le_refl 0
  · rw [skipEol]
    split
    · simp only [List.length_cons]
      omega
    · simp only [List.length_cons]
      omega

/-- Handle one line at once. Return the number of a line that is corrupt, or what is decoded. -/
def lineLoop (lnum : Nat) (keybuf : List UInt8) (decbuf : Cells) (decpos : Nat) :
    Except Fault (Except Nat (Cells × Nat)) :=
  if keybuf.length = 0 then .ok (.ok (decbuf, decpos))
  else
    let llen := lineLength keybuf
    match readLine S (keybuf.take llen) decbuf decpos with
    | .error fault => .error fault
    | .ok none => .ok (.error lnum)
    | .ok (some (decbuf, decpos)) =>
      lineLoop (lnum + 1) (skipEol (keybuf.drop llen)) decbuf decpos
termination_by keybuf.length
decreasing_by
  have less := skipEol_length (keybuf.drop (lineLength keybuf))
  rw [List.length_drop] at less
  omega

/-- Read a key file that is a text. -/
def readBase64 (keybuf : List UInt8) (loaded : Loaded L) : ReadResult L :=
  if keybuf.length < 4 then .ok (.error .truncated, loaded)
  else do
    match ← lineLoop S 1 keybuf (List.replicate (keybuf.length / 4 * 3) none) 0 with
    | .error lnum => return (.error (.line lnum), loaded)
    | .ok (decbuf, decpos) =>
      let keybuf ← loadBytes decbuf 0 decpos
      readBase256 S R keybuf loaded

/-- Read keys from a key file. -/
def keyfileRead (f : File) (loaded : Loaded L) : ReadResult L :=
  let keyfilelen := f.rest.length
  if keyfilelen = 0 ∨ 1000000 < keyfilelen then .ok (.error .size, loaded)
  else
    let keybuf := (freadItem f keyfilelen).1.bytes
    if keybuf.length < keyfilelen then .ok (.error .fread, loaded)
    else if keybuf.head? = some 0 ∨ keybuf.head? = some 255 then readRaw R keybuf loaded
    else readBase64 S R keybuf loaded

end Reading

section Writing

/-- What writing a key file depends on besides the keys. -/
structure Writer where
  /-- What encryption has. -/
  machine : Machine
  /-- The salt, if there is one. -/
  salt : Option Bytes32
  /-- The passphrase, if there is one. -/
  passphrase : Option (List UInt8)
  /-- The keys that are asked for. -/
  keys : BitVec 32

variable {L : BignumLimit} (S : ScryptPrimitives) (W : Writer)

/-- The text of the first line, "# START OF TARSNAP KEY FILE". -/
def startLine : List UInt8 :=
  [35, 32, 83, 84, 65, 82, 84, 32, 79, 70, 32, 84, 65, 82, 83, 78, 65, 80, 32, 75, 69, 89, 32,
    70, 73, 76, 69]

/-- The text of the last line, "# END OF TARSNAP KEY FILE". -/
def endLine : List UInt8 :=
  [35, 32, 69, 78, 68, 32, 79, 70, 32, 84, 65, 82, 83, 78, 65, 80, 32, 75, 69, 89, 32, 70, 73,
    76, 69]

/-- Print a line; say whether all of it is written. -/
def fprintLine (f : Outfile) (line : List UInt8) : Bool × Outfile :=
  let (written, f) := fwrite f (line ++ [10])
  (written = line.length + 1, f)

/-- Some bytes with the first bytes of their hash behind them. -/
def hashedLine (chunk : List UInt8) : List UInt8 :=
  chunk ++ (S.sha256 chunk).toList.take 6

/-- Base64-encode a buffer, writing it out as we go. -/
def writeLines (tskeybuf : List UInt8) (f : Outfile) : Except Fault (Int × Outfile) :=
  if tskeybuf = [] then .ok (0, f)
  else
    let linebuf256 := hashedLine S (tskeybuf.take 48)
    let linebuf64 := b64encode linebuf256
    -- The buffers have 54 and 73 bytes, the second one with a zero at the end.
    if 54 < linebuf256.length ∨ 72 < linebuf64.length then .error .outOfBounds
    else
      match fprintLine f (linebuf64.takeWhile (· ≠ 0)) with
      | (false, f) => .ok (-1, f)
      | (true, f) => writeLines (tskeybuf.drop 48) f
termination_by tskeybuf.length
decreasing_by
  rename_i more _
  have positive := List.length_pos_iff.mpr more
  rw [List.length_drop]
  omega

/-- Construct a key file, encrypted if there is a passphrase. -/
def cookedKeys (machinenum : UInt64) (keybuf : List UInt8) : Option (List UInt8) :=
  let tskeybuf := keyfileMagic ++ beEnc 8 machinenum.toNat ++ keybuf
  match W.passphrase with
  | none => some tskeybuf
  | some passphrase =>
    match scryptencBuf S W.machine W.salt passphrase noParams false tskeybuf with
    | ⟨.ok (), _, outbuf⟩ => outbuf
    | ⟨.error _, _, _⟩ => none

/-- Write a key file. -/
def keyfileWriteFile (f : Outfile) (machinenum : UInt64) (cache : Keycache L) :
    Except Fault (Int × Outfile) :=
  match cryptoKeysExport cache W.keys with
  | .error .outside => .error .outOfBounds
  | .error .failed => .ok (-1, f)
  | .ok keybuf =>
    match cookedKeys S W machinenum keybuf with
    | none => .ok (-1, f)
    | some tskeybuf =>
      match fprintLine f startLine with
      | (false, f) => .ok (-1, f)
      | (true, f) =>
        match writeLines S tskeybuf f with
        | .error fault => .error fault
        | .ok (rc, f) =>
          if rc ≠ 0 then .ok (-1, f)
          else
            match fprintLine f endLine with
            | (false, f) => .ok (-1, f)
            | (true, f) => .ok (0, f)

end Writing

end Tarsnap.Keyfile
