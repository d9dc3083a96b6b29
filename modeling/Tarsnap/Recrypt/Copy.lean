import Mathlib.Algebra.BigOperators.Group.Finset.Basic
import Mathlib.Algebra.BigOperators.Fin
import Mathlib.Algebra.Order.BigOperators.Group.Finset
import Tarsnap.Recrypt.Compare
import Tarsnap.Storage.ReadLru

/-!
# Copying blocks

Eight readers take turns. When the turn of a reader comes, the program waits until the reader has
its block, writes the block, and assigns the next block to the reader. The network completes reads
at any time and in any order. A read that fails, metadata that cannot be encrypted again and a write
that fails end the program.
-/

namespace Tarsnap.Recrypt

open Tarsnap.Lib

/-- Number of connections, one for each reader. -/
abbrev NCONNS : Nat := 8

/-- A reader. -/
structure Reader where
  /-- Whether the reader is not reading. -/
  status : Bool
  /-- The block that is read or to be written. -/
  b : Option Block
  /-- The data of the block. -/
  buf : List UInt8

/-- Where the program is. -/
inductive Phase where
  /-- If all the blocks have been written, stop. -/
  | check
  /-- Spin until this reader is not reading. -/
  | wait
  /-- If we have a block, write it. -/
  | write
  /-- If we have blocks to read, read one. -/
  | read
  /-- All blocks are copied. -/
  | done
  /-- The program has given up. -/
  | exited
deriving DecidableEq, Repr

/-- What blocks are read as, how metadata is encrypted again, and which blocks are written. -/
structure Machines where
  /-- The contents of a block on the old machine, if it is read. -/
  contents : Block → Option (List UInt8)
  /-- The contents of a metadata block for the new machine, if it can be encrypted. -/
  recrypt : List UInt8 → Option (List UInt8)
  /-- Whether a block is written. -/
  writes : Block → List UInt8 → Bool

/-- What a block is read as by a request to the storage layer, which allocates the buffer: the
contents, if the reply has them. -/
def storageContents (K : Netpacket.Keys) (decrypt : List UInt8 → Storage.Decrypted)
    (reply : Block → Storage.Reply) (block : Block) : Option (List UInt8) :=
  match Storage.uncached K decrypt ⟨block.cls, block.name, none⟩ true (reply block) with
  | (0, buf) => buf
  | _ => none

/-- The state of copying. -/
structure Copying where
  /-- The readers. -/
  R : Fin NCONNS → Reader
  /-- Whose turn it is. -/
  i : Fin NCONNS
  /-- Where the program is. -/
  phase : Phase
  /-- How many blocks are left to be written. -/
  wleft : Nat
  /-- The blocks that are not assigned. -/
  blist : List Block
  /-- The reads that are outstanding: for which reader, and of which block. -/
  reading : List (Fin NCONNS × Block)
  /-- The blocks that were written. -/
  written : List (Block × List UInt8)

/-- Something that happens. -/
inductive CopyEvent where
  /-- The program goes on. -/
  | program
  /-- The network completes one of the outstanding reads. -/
  | completes (number : Nat)
deriving DecidableEq, Repr

/-- Nothing is read yet. -/
def copyStart (blist : List Block) : Copying where
  R := fun _ => ⟨true, none, []⟩
  i := 0
  phase := .check
  wleft := blist.length
  blist
  reading := []
  written := []

section Events

variable (M : Machines)

/-- The data to write for a block. -/
def recrypted (block : Block) (buf : List UInt8) : Option (List UInt8) :=
  if block.cls = 109 then M.recrypt buf else some buf

/-- The next reader. -/
def nextReader (i : Fin NCONNS) : Fin NCONNS := ⟨(i.val + 1) % NCONNS, Nat.mod_lt _ (by decide)⟩

/-- Write the block of the reader, if it has one. -/
def writeBlock (s : Copying) : Copying :=
  match (s.R s.i).b with
  | none => { s with phase := .read }
  | some block =>
    match recrypted M block (s.R s.i).buf with
    | none => { s with phase := .exited }
    | some buf =>
      if M.writes block buf = false then { s with phase := .exited }
      else
        { s with
          R := Function.update s.R s.i { s.R s.i with b := none, buf }
          phase := .read
          wleft := s.wleft - 1
          written := s.written ++ [(block, buf)] }

/-- Assign a block to the reader and read it, if there is one left. The turn passes on. -/
def readBlock (s : Copying) : Copying :=
  match s.blist with
  | [] => { s with i := nextReader s.i, phase := .check }
  | block :: blist =>
    { s with
      R := Function.update s.R s.i { s.R s.i with status := false, b := some block }
      i := nextReader s.i
      phase := .check
      blist
      reading := s.reading ++ [(s.i, block)] }

/-- The program goes on, unless it waits or has ended. -/
def copyProgram (s : Copying) : Option Copying :=
  match s.phase with
  | .check => some { s with phase := if s.wleft = 0 then .done else .wait }
  | .wait => if (s.R s.i).status then some { s with phase := .write } else none
  | .write => some (writeBlock M s)
  | .read => some (readBlock s)
  | .done => none
  | .exited => none

/-- A read is completed: store the returned buffer, or fail. -/
def callbackRead (s : Copying) (j : Fin NCONNS) (block : Block) : Copying :=
  match M.contents block with
  | none => { s with phase := .exited }
  | some buf => { s with R := Function.update s.R j { s.R j with buf, status := true } }

/-- What an event does, if it can happen. -/
def copyEvent (s : Copying) : CopyEvent → Option Copying
  | .program => copyProgram M s
  | .completes number =>
    if s.phase = .exited then none
    else
      match s.reading[number]? with
      | none => none
      | some (j, block) =>
        some (callbackRead M { s with reading := s.reading.eraseIdx number } j block)

/-- What a sequence of events does. -/
def copyEvents (s : Copying) (events : List CopyEvent) : Option Copying :=
  events.foldlM (copyEvent M) s

/-- What is written for a block. -/
def copyOf (block : Block) : Option (List UInt8) :=
  (M.contents block).bind (recrypted M block)

/-- A block cannot be read, encrypted again or written. -/
def Fails (block : Block) : Prop := ∀ buf, copyOf M block = some buf → M.writes block buf = false

end Events

end Tarsnap.Recrypt
