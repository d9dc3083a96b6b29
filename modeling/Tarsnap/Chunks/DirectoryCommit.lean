import Tarsnap.Lib.Delayed
import Tarsnap.Lib.Program

/-!
# Moving a chunk directory file into place

The chunk directory file of a transaction is moved to its final name by system calls on the cache
directory, each of which may fail: the file gets a second name with a hard link, the directory is
synchronized, and the first name is removed. A file system without hard links renames the file
instead. The process may be killed, or the power may fail, between any two of the calls, and the
move is then tried again.
-/

namespace Tarsnap.Chunks

open Tarsnap.Lib Program

section Calls

/-- Names of chunk directory files, which differ in their suffix. -/
inductive Name where
  /-- `directory`. -/
  | directory
  /-- `directory.tmp`. -/
  | tmp
  /-- `directory.ckpt`. -/
  | ckpt
deriving DecidableEq, Repr

/-- How `link` ends. -/
inductive LinkResult where
  /-- The link was made. -/
  | linked
  /-- `ENOSYS` or `EPERM`: the file system has no hard links. -/
  | unsupported
  /-- Any other error. -/
  | failed
deriving DecidableEq, Repr

/-- System calls on the cache directory, by the types of their results. -/
inductive DirCall : Type → Type where
  /-- `lstat`: an error, or the inode number if the file exists. -/
  | lstat (path : Name) : DirCall (Option (Option Nat))
  /-- `unlink`. -/
  | unlink (path : Name) : DirCall Bool
  /-- `link`. -/
  | link (path1 path2 : Name) : DirCall LinkResult
  /-- `rename`. -/
  | rename (old new : Name) : DirCall Bool
  /-- `dirutil_fsyncdir`. -/
  | fsyncdir : DirCall Bool

/-- The names in the cache directory and the contents of inodes. -/
structure FileSystem (File : Type) where
  /-- The inodes of the names. -/
  names : Delayed Name Nat
  /-- The contents of the inodes. -/
  contents : Nat → Option File

variable {File : Type}

/-- The inode that a name stands for. -/
def FileSystem.entry (fs : FileSystem File) (path : Name) : Option Nat := fs.names.current path

/-- Change names. -/
def FileSystem.change (fs : FileSystem File) (change : Change Name Nat) : FileSystem File :=
  { fs with names := fs.names.note change }

/-- What a system call does. -/
def dirDoes : ∀ {β : Type}, DirCall β → FileSystem File → Option β → FileSystem File → Prop
  | _, .lstat path, before, answer, after =>
    after = before ∧ (answer = some none ∨ answer = some (some (before.entry path)))
  | _, .unlink path, before, answer, after =>
    (answer = some false ∧ after = before) ∨
      answer = some true ∧ before.entry path ≠ none ∧ after = before.change [(path, none)]
  | _, .link path1 path2, before, answer, after =>
    (answer = some .unsupported ∨ answer = some .failed) ∧ after = before ∨
      answer = some .linked ∧ before.entry path2 = none ∧ ∃ ino, before.entry path1 = some ino ∧
        after = before.change [(path2, some ino)]
  | _, .rename old new, before, answer, after =>
    (answer = some false ∧ after = before) ∨
      answer = some true ∧ ∃ ino, before.entry old = some ino ∧
        after = if before.entry new = some ino then before
          else before.change [(new, some ino), (old, none)]
  | _, .fsyncdir, before, answer, after =>
    (answer = some false ∧ after = before) ∨
      answer = some true ∧ after = { before with names := before.names.sync }

/-- System calls, when nothing else happens in the cache directory. -/
def dirMachine (File : Type) : Machine DirCall (FileSystem File) where
  step := dirDoes
  rely _ _ := False

end Calls

section Routines

/-- Remove the old name of a file that has its new name. -/
def linkdone (osuff : Name) : Program DirCall Bool :=
  ensure (call .fsyncdir) (ensure (call (.unlink osuff)) (call .fsyncdir))

/-- Give a file its new name, with a hard link if the file system has them. -/
def linkOrRename (osuff nsuff : Name) : Program DirCall Bool := do
  match ← call (.link osuff nsuff) with
  | .linked => linkdone osuff
  | .unsupported => ensure (call (.rename osuff nsuff)) (call .fsyncdir)
  | .failed => return false

/-- If the file with the old suffix exists, move it to the new suffix, replacing anything already
there. -/
def chunksDirectoryCommit (osuff nsuff : Name) : Program DirCall Bool := do
  match ← call (.lstat osuff) with
  | none => return false
  | some none => return true
  | some (some sbt) =>
    match ← call (.lstat nsuff) with
    | none => return false
    | some none => linkOrRename osuff nsuff
    | some (some sbs) =>
      if sbs ≠ sbt then ensure (call (.unlink nsuff)) (linkOrRename osuff nsuff)
      else linkdone osuff

end Routines

section Attempts

variable {File : Type}

/-- What can be reached by attempts to run a program, each of which ends, is killed at any point,
or is cut off when the power fails. The caller may synchronize the directory before an attempt. -/
inductive Attempted (program : Program DirCall Bool) (start : FileSystem File) :
    FileSystem File → Prop where
  /-- Before the first attempt. -/
  | start : Attempted program start start
  /-- An attempt, up to any of its system calls. -/
  | run {fs fs' : FileSystem File} {rest : Program DirCall Bool}
    (before : Attempted program start fs) (runs : (dirMachine File).Runs (program, fs)
      (rest, fs')) :
    Attempted program start fs'
  /-- The caller synchronizes the directory. -/
  | sync {fs : FileSystem File} (before : Attempted program start fs) :
    Attempted program start { fs with names := fs.names.sync }
  /-- The power fails. -/
  | power {fs : FileSystem File} {names : Delayed Name Nat}
    (before : Attempted program start fs) (fails : fs.names.PowerFails names) :
    Attempted program start { fs with names }

/-- A run of a program after any number of attempts, that returns zero. -/
def Returns (program : Program DirCall Bool) (start finish : FileSystem File) : Prop :=
  ∃ fs, Attempted program start fs ∧
    (dirMachine File).Runs (program, fs) (.done true, finish)

end Attempts

end Tarsnap.Chunks
