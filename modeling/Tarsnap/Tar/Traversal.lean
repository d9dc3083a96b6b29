import Tarsnap.Lib.Cells
import Tarsnap.Lib.Filesystem
import Mathlib

/-!
# Traversing a directory tree

The traversal changes the current directory: a file is accessed by its name in its directory. The
directories that the caller wants to have visited are kept on a stack, until the directory in which
they are has been read to its end. The canonical path of the current directory is asked for after
each change, so that the one of a file is known once its name is appended.

The tree does not change. Besides, a system call may fail for a reason that is not in the tree; when
this happens is decided in advance.
-/

namespace Tarsnap.Tar.Traversal

open Tarsnap.Lib

/-- What was returned last. -/
inductive Visit where
  /-- There is nothing more. -/
  | finished
  /-- A file. -/
  | regular
  /-- A directory, after descending into it. -/
  | postDescent
  /-- A directory, after ascending from it. -/
  | postAscent
  /-- A directory that could not be descended into. -/
  | errorDir
  /-- The traversal cannot go on. -/
  | errorFatal
deriving DecidableEq, Repr

/-- A directory that requires further attention. -/
structure TreeEntry where
  /-- Its name. -/
  name : List UInt8
  /-- The length of the path of its parent. -/
  dirnameLength : Nat
  /-- The open parent of a symbolic link. -/
  fd : Option (List FileName)
  /-- It is a symbolic link to a directory. -/
  isDirLink : Bool
  /-- It needs to be previsited. -/
  needsPreVisit : Bool
  /-- It needs to be postvisited. -/
  needsPostVisit : Bool

/-- A traversal, with the current directory of the process. -/
structure Tree where
  /-- The directories that require further attention. -/
  stack : List TreeEntry
  /-- What is still to be read from the open directory. -/
  d : Option (List FileName)
  /-- The first entry was not returned yet. -/
  needsReturn : Bool
  /-- What was returned last. -/
  visitType : Visit
  /-- The error of the last operation that failed. -/
  treeErrno : Option Errno
  /-- The full path. -/
  buff : List UInt8
  /-- Where the access path starts in the full path, unless it is the current directory. -/
  basename : Option Nat
  /-- The length of the full path. -/
  pathLength : Nat
  /-- The length of the path of the current directory. -/
  dirnameLength : Nat
  /-- The canonical path. -/
  realpath : Cells
  /-- The length of the canonical path of the current directory. -/
  realpathDirnameLength : Nat
  /-- The canonical path can be used. -/
  realpathValid : Bool
  /-- The canonical path of a symbolic link. -/
  realpathSymlink : Cells
  /-- How deep the current directory is. -/
  depth : Int
  /-- The kind of the entry or of the symbolic link to it, once it is known. -/
  lst : Option FileType
  /-- The kind of the entry, once it is known. -/
  st : Option FileType
  /-- The current directory. -/
  cwd : List FileName
  /-- Whether the system calls to come fail. -/
  fates : List Bool

section Paths

variable (fs : Filesystem) (t : Tree)

/-- The path by which the entry is accessed. -/
def treeCurrentAccessPath : List UInt8 :=
  match t.basename with
  | none => dot
  | some position => t.buff.drop position

/-- The length of a name without the slashes at its end. -/
def strippedLength (name : List UInt8) : Nat → Nat
  | 0 => 0
  | 1 => 1
  | length + 2 =>
    if name[length + 1]? = some slash then strippedLength name (length + 1) else length + 2

/-- The slash between the path of the current directory and a name, if it's needed. -/
def separator : List UInt8 :=
  if 0 < t.dirnameLength ∧ (t.buff.take t.dirnameLength).getLast? ≠ some slash then [slash] else []

/-- Append a name to the current path. -/
def treeAppend (name : List UInt8) : Except Fault Tree := do
  let name := name.take (strippedLength name name.length)
  let t := { t with
    buff := t.buff.take t.dirnameLength ++ separator t ++ name
    pathLength := t.dirnameLength + (separator t).length + name.length
    basename := some (t.dirnameLength + (separator t).length) }
  if t.realpathValid = true ∧ t.realpathDirnameLength + name.length + 1 ≤ fs.pathMax then do
    let realpath ← store t.realpath t.realpathDirnameLength slash
    let realpath ← storeBytes realpath (t.realpathDirnameLength + 1) name
    let realpath ← store realpath (t.realpathDirnameLength + name.length + 1) 0
    return { t with realpath }
  else return { t with realpathValid := false }

/-- Open a directory tree for traversal. -/
def treeOpen (cwd : List FileName) (fates : List Bool) (path : List UInt8) : Except Fault Tree := do
  let zeros := List.replicate (fs.pathMax + 1) (some 0)
  let t ← treeAppend fs ⟨[], none, false, .finished, none, [], none, 0, 0, zeros, 0, false, zeros,
    0, none, none, cwd, fates⟩ path
  return { t with needsReturn := true }

/-- A system call, which may fail for a reason that is not in the tree. -/
def attempted {α : Type} (result : Except Errno α) : Except Errno α × Tree :=
  (if t.fates.headD false then .error .io else result, { t with fates := t.fates.tail })

/-- The length of the canonical path of the current directory. There is none of the root, so that a
slash can be appended. -/
def realpathLength (realpath : Cells) : Except Fault Nat := do
  let name ← cString realpath
  let first ← load realpath 0
  if first = slash then do
    let second ← load realpath 1
    return if second = 0 then 0 else name.length
  else return name.length

/-- Figure out where we are. -/
def whereWeAre : Except Fault Tree :=
  match attempted t (Filesystem.getcwd t.cwd fs.pathMax) with
  | (.error _, t) => .ok { t with realpathValid := false }
  | (.ok cwd, t) => do
    let realpath ← storeBytes t.realpath 0 (cwd ++ [0])
    let realpathDirnameLength ← realpathLength realpath
    return { t with realpath, realpathDirnameLength, realpathValid := true }

/-- Change the current directory to the parent of a directory. -/
def leave (te : TreeEntry) : Except Errno (List FileName) :=
  if te.isDirLink then fs.fchdir te.fd else fs.chdir t.cwd dotDot

/-- We've finished a directory; ascend back to the parent. -/
def treeAscend : Except Fault (Option Visit × Tree) :=
  match t.stack with
  | [] => .error .outOfBounds
  | te :: _ =>
    match attempted t (leave fs t te) with
    | (.error errno, t) => do
      let t ← whereWeAre fs { t with depth := t.depth - 1, treeErrno := some errno }
      return (some .errorFatal, t)
    | (.ok cwd, t) => do
      let t ← whereWeAre fs { t with depth := t.depth - 1, cwd }
      return (none, t)

/-- Pop the working stack. -/
def treePop : Except Fault Tree :=
  match t.stack with
  | [] => .error .outOfBounds
  | te :: stack => .ok { t with
      buff := t.buff.take t.dirnameLength
      stack
      dirnameLength := te.dirnameLength
      basename := some (if 0 < te.dirnameLength then te.dirnameLength + 1 else te.dirnameLength) }

end Paths

section Next

variable (fs : Filesystem) (t : Tree)

/-- What reading an open directory gives. -/
inductive Dirent where
  /-- A name, and what is still to be read. -/
  | entry (name : FileName) (names : List FileName)
  /-- The end of the directory. -/
  | ended
  /-- Reading fails. -/
  | failed

/-- Read an open directory, skipping the directory itself and the one above. -/
def treeReaddir : List FileName → List Bool → Dirent × List Bool
  | [], fates => (if fates.headD false then .failed else .ended, fates.tail)
  | name :: names, fates =>
    if fates.headD false then (.failed, fates.tail)
    else if name = dot ∨ name = dotDot then treeReaddir names fates.tail
    else (.entry name names, fates.tail)

/-- If it is a link, set up a descriptor for the ascent. -/
def openParent (te : TreeEntry) : Option (List FileName) × Tree :=
  if te.isDirLink then
    match attempted t (fs.opendir t.cwd dot) with
    | (.ok (place, _), t) => (some place, t)
    | (.error _, t) => (none, t)
  else (te.fd, t)

/-- The directory was entered: open it, or undo this. -/
def visitDirectory : Except Fault Tree :=
  match attempted t (fs.opendir t.cwd dot) with
  | (.error errno, t) => do
    let (r, t) ← treeAscend fs { t with treeErrno := some errno, d := none }
    let t ← treePop t
    return { t with visitType := r.getD .errorDir }
  | (.ok (_, names), t) => do
    let t ← whereWeAre fs { t with d := some names, lst := none, st := none, basename := none }
    return { t with visitType := .postDescent }

/-- The current directory needs to be visited: set it up. -/
def preVisit (te : TreeEntry) (stack : List TreeEntry) : Except Fault Tree := do
  let t ← treeAppend fs t te.name
  let (fd, t) := openParent fs t te
  let t := { t with
    stack := { te with needsPreVisit := false, fd } :: stack, dirnameLength := t.pathLength }
  match attempted t (fs.chdir t.cwd te.name) with
  | (.error errno, t) => do
    let t ← treePop { t with treeErrno := some errno }
    return { t with visitType := .errorDir }
  | (.ok cwd, t) => visitDirectory fs { t with cwd, depth := t.depth + 1 }

/-- We've done everything necessary for the top stack entry. -/
def postVisit : Except Fault Tree := do
  let (r, t) ← treeAscend fs t
  let t ← treePop t
  return { t with lst := none, st := none, visitType := r.getD .postAscent }

/-- Visit the directory on the top of the stack. -/
def visitTop (te : TreeEntry) (stack : List TreeEntry) : Except Fault Tree :=
  if te.needsPreVisit then preVisit fs t te stack
  else if te.needsPostVisit then postVisit fs t
  else .error .diverges

/-- If there's an open dir, get the next entry from there. -/
def readNext (te : TreeEntry) (stack : List TreeEntry) (names : List FileName) :
    Except Fault Tree :=
  match treeReaddir names t.fates with
  | (.failed, fates) =>
    .ok { t with d := none, treeErrno := some .io, visitType := .errorFatal, fates }
  | (.ended, fates) => visitTop fs { t with d := none, fates } te stack
  | (.entry name names, fates) => do
    let t ← treeAppend fs { t with d := some names, fates } name
    return { t with lst := none, st := none, visitType := .regular }

/-- Get the next item in the tree traversal. -/
def treeNext : Except Fault Tree :=
  if t.visitType = .errorFatal then .error .aborted
  else if t.needsReturn then .ok { t with needsReturn := false, visitType := .regular }
  else
    match t.stack, t.d with
    | [], _ => .ok { t with visitType := .finished }
    | te :: stack, none => visitTop fs t te stack
    | te :: stack, some names => readNext fs t te stack names

end Next

section Current

variable (fs : Filesystem) (t : Tree)

/-- Get the stat data for the entry just returned. -/
def treeCurrentStat : Option FileType × Tree :=
  match t.st with
  | some type => (some type, t)
  | none =>
    match attempted t (fs.stat t.cwd (treeCurrentAccessPath t)) with
    | (.ok type, t) => (some type, { t with st := some type })
    | (.error _, t) => (none, t)

/-- Get the lstat data for the entry just returned. -/
def treeCurrentLstat : Option FileType × Tree :=
  match t.lst with
  | some type => (some type, t)
  | none =>
    match attempted t (fs.lstat t.cwd (treeCurrentAccessPath t)) with
    | (.ok type, t) => (some type, { t with lst := some type })
    | (.error _, t) => (none, t)

/-- Test whether current entry is a dir or link to a dir. -/
def treeCurrentIsDir : Bool × Tree :=
  if t.lst = some .directory then (true, t)
  else if t.lst = some .other then (false, t)
  else
    let (st, t) := treeCurrentStat fs t
    (st = some .directory, t)

/-- Test whether current entry is a physical directory. -/
def treeCurrentIsPhysicalDir : Bool × Tree :=
  if t.st.isSome ∧ t.st ≠ some .directory then (false, t)
  else
    let (lst, t) := treeCurrentLstat fs t
    (lst = some .directory, t)

/-- Test whether current entry is a symbolic link. -/
def treeCurrentIsPhysicalLink : Bool × Tree :=
  let (lst, t) := treeCurrentLstat fs t
  (lst = some .symlink, t)

/-- Call realpath with a buffer for the path. -/
def callRealpath (buff : Cells) : Except Fault (Option (List UInt8) × Cells × Tree) :=
  match attempted t (fs.realpath t.cwd (treeCurrentAccessPath t)) with
  | (.error _, t) => .ok (none, buff, t)
  | (.ok name, t) => do
    let buff ← storeBytes buff 0 (name ++ [0])
    let name ← cString buff
    return (some name, buff, t)

/-- Return what you would get by calling realpath on the access path. -/
def treeCurrentRealpath : Except Fault (Option (List UInt8) × Tree) := do
  let (link, t) := treeCurrentIsPhysicalLink fs t
  if link then do
    let (name, realpathSymlink, t) ← callRealpath fs t t.realpathSymlink
    return (name, { t with realpathSymlink })
  else if t.realpathValid then do
    let name ← cString t.realpath
    return (some name, t)
  else do
    let (name, realpath, t) ← callRealpath fs t t.realpath
    return (name, { t with realpath })

/-- Add a directory to the current stack. -/
def treePush (path : List UInt8) (isDirLink : Bool) : Tree :=
  { t with stack := ⟨path, t.dirnameLength, none, isDirLink, true, true⟩ :: t.stack }

/-- Mark the directory just returned as needing to be visited. -/
def treeDescend : Tree :=
  if t.visitType ≠ .regular then t
  else
    let (physical, t) := treeCurrentIsPhysicalDir fs t
    if physical then treePush t (treeCurrentAccessPath t) false
    else
      let (dir, t) := treeCurrentIsDir fs t
      if dir then treePush t (treeCurrentAccessPath t) true else t

end Current

section Runs

variable (fs : Filesystem)

/-- A call of the caller. -/
inductive Call where
  /-- Get the next item. -/
  | next
  /-- Mark the item as needing to be visited. -/
  | descend
  /-- Get the stat data. -/
  | stat
  /-- Get the lstat data. -/
  | lstat
  /-- Test whether the item is a directory or a link to one. -/
  | isDir
  /-- Test whether the item is a physical directory. -/
  | isPhysicalDir
  /-- Test whether the item is a symbolic link. -/
  | isPhysicalLink
  /-- Get the canonical path. -/
  | realpath
deriving DecidableEq, Repr

/-- The traversal after a call. -/
def call (t : Tree) : Call → Except Fault Tree
  | .next => treeNext fs t
  | .descend => .ok (treeDescend fs t)
  | .stat => .ok (treeCurrentStat fs t).2
  | .lstat => .ok (treeCurrentLstat fs t).2
  | .isDir => .ok (treeCurrentIsDir fs t).2
  | .isPhysicalDir => .ok (treeCurrentIsPhysicalDir fs t).2
  | .isPhysicalLink => .ok (treeCurrentIsPhysicalLink fs t).2
  | .realpath => do
    let (_, t) ← treeCurrentRealpath fs t
    return t

/-- The traversal after some calls. -/
def run (t : Tree) (calls : List Call) : Except Fault Tree := calls.foldlM (call fs) t

end Runs

end Tarsnap.Tar.Traversal
