import Tarsnap.Lib.Cells
import Tarsnap.Lib.Lines
import Tarsnap.Lib.Stdio
import Mathlib

/-!
# Processing the lines of a file

Configuration files, lists of patterns and lists of names are read through a buffer that holds the
line so far and what was read behind it. A line that ends is passed to a callback in place, with a
zero stored over its separator. Before the next read, the rest of the buffer is moved to its
beginning, or the buffer is doubled when it holds a single unfinished line.

The cells of the buffer are bytes or uninitialized. Reading an uninitialized cell, touching a cell
outside the buffer, failing an assertion and a loop that does not end are faults; errors that the
program reports end it.
-/

namespace Tarsnap.Tar.ProcessLines

open Tarsnap.Lib

/-- An error that ends the program with a message. -/
inductive Exit where
  /-- The file cannot be opened. -/
  | notOpened
  /-- There is no memory for the buffer. -/
  | noBuffer
  /-- Reading the file fails. -/
  | notRead
  /-- There is no memory for a larger buffer. -/
  | lineTooLong
deriving DecidableEq, Repr

/-- How the processing ends: with a return value, or with the end of the program. -/
inductive Ending (σ : Type) where
  /-- The function returns. -/
  | returned (ret : Int) (bsdtar : σ)
  /-- The program ends. -/
  | exit (reason : Exit) (bsdtar : σ)

/-- What the program is given besides the file. -/
structure Environment where
  /-- Whether the file can be opened. -/
  opens : Bool
  /-- Whether there is memory for the buffer. -/
  malloc : Bool
  /-- Whether a buffer can be enlarged to a length. -/
  realloc : Nat → Bool

/-- The variables of the loop. -/
structure Reader where
  /-- The buffer. -/
  buff : Cells
  /-- Where the line starts. -/
  lineStart : Nat
  /-- How far the line was looked at. -/
  lineEnd : Nat
  /-- Where what was read ends. -/
  buffEnd : Nat
  /-- Whether the last line ended with a carriage return just before. -/
  lastcharwasr : Bool
  /-- The value to be returned. -/
  ret : Int

section Process

variable {σ : Type} (null : Bool) (process : σ → List UInt8 → Int × σ)

/-- Pass a line to the callback. -/
def deliver (state : Int × σ) (line : List UInt8) : Int × σ :=
  ((if (process state.2 line).1 ≠ 0 then -1 else state.1), (process state.2 line).2)

/-- Look at the byte at the end of the line. -/
def scanByte (r : Reader) (bsdtar : σ) : Except Fault (Reader × σ) := do
  let byte ← load r.buff r.lineEnd
  if r.lastcharwasr ∧ byte = 10 then
    return ({ r with
      lineStart := r.lineStart + 1, lineEnd := r.lineEnd + 1, lastcharwasr := false }, bsdtar)
  if byte ∈ lineEnds null then
    let buff ← store r.buff r.lineEnd 0
    let line ← cString (buff.drop r.lineStart)
    let (ret, bsdtar) := deliver process (r.ret, bsdtar) line
    return ({ r with
      buff, lineStart := r.lineEnd + 1, lineEnd := r.lineEnd + 1
      lastcharwasr := byte = 13, ret }, bsdtar)
  return ({ r with lineEnd := r.lineEnd + 1, lastcharwasr := false }, bsdtar)

/-- Process all complete lines in the buffer. -/
def scan : Nat → Reader → σ → Except Fault (Reader × σ)
  | 0, _, _ => .error .diverges
  | fuel + 1, r, bsdtar =>
    if r.lineEnd < r.buffEnd then do
      let (r, bsdtar) ← scanByte null process r bsdtar
      scan fuel r bsdtar
    else .ok (r, bsdtar)

/-- At the end of the file, handle the final line. -/
def finalLine (r : Reader) (bsdtar : σ) : Except Fault (Ending σ) :=
  if r.lineStart < r.lineEnd then do
    let buff ← store r.buff r.lineEnd 0
    let line ← cString (buff.drop r.lineStart)
    let (ret, bsdtar) := deliver process (r.ret, bsdtar) line
    return .returned ret bsdtar
  else .ok (.returned r.ret bsdtar)

/-- Get some more data into the buffer, process the lines in it, and make room for more. -/
def readLoop (env : Environment) : Nat → File → Reader → σ → Except Fault (Ending σ)
  | 0, _, _, _ => .error .diverges
  | fuel + 1, file, r, bsdtar => do
    let wanted := r.buff.length - r.buffEnd
    let (read, file) := fread file wanted
    let buff ← storeBytes r.buff r.buffEnd read.bytes
    let r := { r with buff, buffEnd := r.buffEnd + read.bytes.length }
    let (r, bsdtar) ← scan null process (r.buff.length + 1) r bsdtar
    if read.feof then
      if read.bytes.length < wanted then finalLine process r bsdtar else .error .aborted
    else if read.ferror then return .exit .notRead bsdtar
    else if 0 < r.lineStart then
      let buff ← moveCells r.buff r.lineStart (r.buffEnd - r.lineStart)
      readLoop env fuel file { r with
        buff, lineStart := 0, lineEnd := r.lineEnd - r.lineStart
        buffEnd := r.buffEnd - r.lineStart } bsdtar
    else
      let length := r.buff.length * 2 % 2 ^ 64
      if length ≤ r.buff.length then return .exit .lineTooLong bsdtar
      if env.realloc length then
        readLoop env fuel file
          { r with buff := r.buff ++ List.replicate (length - r.buff.length) none } bsdtar
      else return .exit .lineTooLong bsdtar

/-- Read lines from a file and do something with each one. -/
def processLines (env : Environment) (file : File) (bsdtar : σ) : Except Fault (Ending σ) :=
  if ¬env.opens then .ok (.exit .notOpened bsdtar)
  else if ¬env.malloc then .ok (.exit .noBuffer bsdtar)
  else readLoop null process env (file.plan.length + file.rest.length + 1) file
    ⟨List.replicate 8192 none, 0, 0, 0, false, 0⟩ bsdtar

end Process

end Tarsnap.Tar.ProcessLines
