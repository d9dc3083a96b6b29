import Tarsnap.Tar.Traversal

/-!
# The canonical paths of a traversal

Between two calls the buffer starts with the canonical path of the current directory, as long as it
is said to be valid, and what is still to be read are names in this directory. So the buffer has the
canonical path of the file whose name was appended. The buffer has room for one byte more than a
path may have, and the traversal makes use of it: a path of this length is returned, although it is
too long for realpath.
-/

namespace Tarsnap.Tar.Traversal

open Tarsnap.Lib Filesystem

section Invariant

variable (fs : Filesystem) (t : Tree)

/-- The current directory and the buffers. -/
structure Buffers : Prop where
  /-- The current directory is there. -/
  cwd : (fs.file t.cwd).isSome
  /-- The buffer for the canonical path. -/
  realpath : t.realpath.length = fs.pathMax + 1
  /-- The buffer for the canonical path of a symbolic link. -/
  symlink : t.realpathSymlink.length = fs.pathMax + 1
  /-- The path of the current directory is in front of the full path. -/
  buff : t.dirnameLength ≤ t.buff.length

/-- The buffers, with the canonical path of the current directory. -/
structure Base : Prop extends Buffers fs t where
  /-- The length of the canonical path of the current directory. -/
  length : t.realpathValid = true → t.realpathDirnameLength = (trunk t.cwd).length
  /-- The canonical path of the current directory is in the buffer. -/
  canonical : t.realpathValid = true → (trunk t.cwd).map some <+: t.realpath
  /-- There is a string in the buffer. -/
  string : t.realpathValid = true → ∃ name, cString t.realpath = .ok name

/-- The directories that require further attention, and the lengths of the paths of their
parents. -/
inductive Stacked : Nat → List TreeEntry → Prop
  /-- There are none. -/
  | nil {length : Nat} : Stacked length []
  /-- A directory in another one. -/
  | cons {length : Nat} {te : TreeEntry} {stack : List TreeEntry}
      (visited : te.needsPostVisit = true) (shorter : te.dirnameLength ≤ length)
      (rest : Stacked te.dirnameLength stack) : Stacked length (te :: stack)

/-- Names that are to be read from a directory that can be searched. -/
def Reading (place names : List FileName) : Prop :=
  ∃ entries readable, fs.file place = some (.directory entries readable true) ∧ names ⊆ entries

/-- The entry is a file in the current directory, with its canonical path in the buffer. -/
structure Entry : Prop where
  /-- The current directory can be searched. -/
  directory : ∃ entries readable, fs.file t.cwd = some (.directory entries readable true)
  /-- The file is there. -/
  file : (fs.file (t.cwd ++ [treeCurrentAccessPath t])).isSome
  /-- The canonical path is in the buffer. -/
  canonical : (pathname (t.cwd ++ [treeCurrentAccessPath t]) ++ [0]).map some <+: t.realpath
  /-- The canonical path fits in the buffer. -/
  fits : (pathname (t.cwd ++ [treeCurrentAccessPath t])).length ≤ fs.pathMax

/-- What holds between two calls. -/
structure Inv : Prop where
  /-- The buffers. -/
  base : Base fs t
  /-- The directories that require further attention. -/
  stacked : Stacked t.dirnameLength t.stack
  /-- What is to be read is in the current directory. -/
  reading : ∀ names, t.d = some names → Reading fs t.cwd names
  /-- The canonical path of the first entry is not known. -/
  start : t.needsReturn = true → t.realpathValid = false
  /-- The canonical path of an entry. -/
  entry : t.visitType = .regular → t.realpathValid = true → Entry fs t
  /-- What is known about an entry. -/
  lst : t.visitType = .regular ∨ t.needsReturn = true → ∀ type, t.lst = some type →
    fs.lstat t.cwd (treeCurrentAccessPath t) = .ok type

variable {fs t}

/-- What holds when no entry is returned. -/
theorem inv_of_visit (base : Base fs t) (stacked : Stacked t.dirnameLength t.stack)
    (reading : ∀ names, t.d = some names → Reading fs t.cwd names)
    (returned : t.needsReturn = false) (visit : t.visitType ≠ .regular) : Inv fs t where
  base := base
  stacked := stacked
  reading := reading
  start := fun first => absurd first (by rw [returned]; decide)
  entry := fun regular => absurd regular visit
  lst := fun either => by
    rcases either with regular | first
    · exact absurd regular visit
    · rw [returned] at first
      cases first

end Invariant

section Paths

variable {fs : Filesystem} {t : Tree}

/-- A name without slashes is not stripped. -/
theorem strippedLength_single {name : FileName} (single : slash ∉ name) (length : Nat) :
    strippedLength name length = length := by
  rcases length with _ | _ | length
  · rfl
  · rfl
  · rw [strippedLength, if_neg]
    intro last
    exact single (List.mem_of_getElem? last)

/-- A name without its slashes. -/
def stripped (name : List UInt8) : List UInt8 := name.take (strippedLength name name.length)

/-- A name without slashes is not stripped. -/
theorem stripped_single {name : FileName} (single : slash ∉ name) : stripped name = name := by
  rw [stripped, strippedLength_single single, List.take_length]

/-- The tree after a name is appended to the full path. -/
def appended (t : Tree) (name : List UInt8) : Tree :=
  { t with
    buff := t.buff.take t.dirnameLength ++ separator t ++ stripped name
    pathLength := t.dirnameLength + (separator t).length + (stripped name).length
    basename := some (t.dirnameLength + (separator t).length) }

/-- The length of the path of the current directory. -/
theorem Base.take_length (base : Base fs t) :
    (t.buff.take t.dirnameLength).length = t.dirnameLength :=
  List.length_take_of_le base.buff

/-- The access path is the name that was appended. -/
theorem appended_accessPath (base : Base fs t) (name : List UInt8) :
    treeCurrentAccessPath (appended t name) = stripped name := by
  have front : (t.buff.take t.dirnameLength ++ separator t).length =
      t.dirnameLength + (separator t).length := by
    rw [List.length_append, base.take_length]
  exact List.drop_left' front

/-- The length of the path after a name is appended. -/
theorem appended_length (base : Base fs t) (name : List UInt8) :
    (appended t name).buff.length = (appended t name).pathLength := by
  show (t.buff.take t.dirnameLength ++ separator t ++ stripped name).length = _
  rw [List.length_append, List.length_append, base.take_length]
  rfl

/-- Storing the canonical path of a file in the current directory. -/
theorem store_name (base : Base fs t) (valid : t.realpathValid = true) {name : List UInt8}
    (fits : t.realpathDirnameLength + name.length + 1 ≤ fs.pathMax) : ∃ first second realpath,
      store t.realpath t.realpathDirnameLength slash = .ok first ∧
      storeBytes first (t.realpathDirnameLength + 1) name = .ok second ∧
      store second (t.realpathDirnameLength + name.length + 1) 0 = .ok realpath ∧
      realpath.length = t.realpath.length ∧
      (trunk t.cwd ++ slash :: name ++ [0]).map some <+: realpath := by
  have size := base.realpath
  have length := base.length valid
  rw [length] at fits ⊢
  obtain ⟨first, storeSlash, firstLength, firstHolds⟩ :=
    @store_behind (trunk t.cwd) t.realpath slash (base.canonical valid) (by omega)
  have behindSlash : (trunk t.cwd ++ [slash]).length = (trunk t.cwd).length + 1 := by
    rw [List.length_append, List.length_singleton]
  obtain ⟨second, storeName, secondLength, secondHolds⟩ :=
    @storeBytes_behind (trunk t.cwd ++ [slash]) name first firstHolds (by omega)
  have behindName : (trunk t.cwd ++ [slash] ++ name).length =
      (trunk t.cwd).length + name.length + 1 := by
    rw [List.length_append, behindSlash]
    omega
  obtain ⟨third, storeZero, thirdLength, thirdHolds⟩ :=
    @store_behind (trunk t.cwd ++ [slash] ++ name) second 0 secondHolds (by omega)
  rw [behindSlash] at storeName
  rw [behindName] at storeZero
  refine ⟨first, second, third, storeSlash, storeName, storeZero, by omega, ?_⟩
  rw [List.append_assoc (trunk t.cwd) [slash] name] at thirdHolds
  exact thirdHolds

/-- A name is appended to the canonical path, if there is one and the name fits. -/
theorem treeAppend_spec (base : Base fs t) (name : List UInt8) : ∃ realpath valid,
    treeAppend fs t name = .ok { appended t name with realpath, realpathValid := valid } ∧
    Base fs { appended t name with realpath, realpathValid := valid } ∧
    (valid = true ↔ t.realpathValid = true ∧
      t.realpathDirnameLength + (stripped name).length + 1 ≤ fs.pathMax) ∧
    (valid = true → (trunk t.cwd ++ slash :: stripped name ++ [0]).map some <+: realpath) := by
  have longer : t.dirnameLength ≤ (appended t name).buff.length := by
    rw [appended_length base]
    exact Nat.le_trans (Nat.le_add_right _ _) (Nat.le_add_right _ _)
  by_cases fits : t.realpathValid = true ∧
      t.realpathDirnameLength + (stripped name).length + 1 ≤ fs.pathMax
  · obtain ⟨first, second, realpath, storeSlash, storeName, storeZero, size, holds⟩ :=
      store_name base fits.1 fits.2
    have front : (trunk t.cwd).map some <+:
        (trunk t.cwd ++ slash :: stripped name ++ [0]).map some := by
      rw [List.map_append, List.map_append, List.append_assoc]
      exact List.prefix_append _ _
    refine ⟨realpath, true, ?_, ⟨⟨base.cwd, size.trans base.realpath, base.symlink, longer⟩,
      fun _ => base.length fits.1, fun _ => front.trans holds, fun _ => cString_ends holds⟩,
      iff_of_true rfl fits, fun _ => holds⟩
    rw [treeAppend]
    show (if t.realpathValid = true ∧
      t.realpathDirnameLength + (stripped name).length + 1 ≤ fs.pathMax then _ else _) = _
    rw [if_pos fits]
    show (store t.realpath t.realpathDirnameLength slash >>= fun realpath =>
      storeBytes realpath (t.realpathDirnameLength + 1) (stripped name) >>= fun realpath =>
      store realpath (t.realpathDirnameLength + (stripped name).length + 1) 0 >>= fun realpath =>
      pure { appended t name with realpath }) = _
    rw [storeSlash, ok_bind, storeName, ok_bind, storeZero, ok_bind]
    show Except.ok { appended t name with realpath, realpathValid := t.realpathValid } = _
    rw [fits.1]
  · have never : ∀ {P : Prop}, false = true → P := fun absurdity => nomatch absurdity
    refine ⟨t.realpath, false, ?_, ⟨⟨base.cwd, base.realpath, base.symlink, longer⟩, never, never,
      never⟩, iff_of_false Bool.false_ne_true fits, never⟩
    rw [treeAppend]
    show (if t.realpathValid = true ∧
      t.realpathDirnameLength + (stripped name).length + 1 ≤ fs.pathMax then _ else _) = _
    rw [if_neg fits]
    rfl

/-- The length to which a slash and a name are appended is that below the root. -/
theorem realpathLength_ok {place : List FileName} {realpath : Cells}
    (there : (fs.file place).isSome) (holds : (pathname place ++ [0]).map some <+: realpath) :
    realpathLength realpath = .ok (trunk place).length := by
  have name : cString realpath = .ok (pathname place) := cString_front (pathname_string there) holds
  by_cases root : place = []
  · have bytes : pathname place ++ [0] = [slash, 0] := by
      rw [root]
      rfl
    have first : load realpath 0 = .ok slash := load_front holds (by rw [bytes]; rfl)
    have second : load realpath 1 = .ok 0 := load_front holds (by rw [bytes]; rfl)
    rw [realpathLength, name, ok_bind, first, ok_bind, if_pos rfl, second, ok_bind, if_pos rfl,
      root]
    rfl
  · obtain ⟨byte, bytes, path, string⟩ := pathname_below there root
    have first : load realpath 0 = .ok slash := load_front holds (by rw [path]; rfl)
    have second : load realpath 1 = .ok byte := load_front holds (by rw [path]; rfl)
    have whole : pathname place = trunk place := if_neg root
    rw [realpathLength, name, ok_bind, first, ok_bind, if_pos rfl, second, ok_bind, if_neg string,
      whole]
    rfl

/-- Where the current directory is, is figured out. -/
theorem whereWeAre_spec (buffers : Buffers fs t) : ∃ realpath length valid,
    whereWeAre fs t = .ok { t with
      fates := t.fates.tail, realpath, realpathDirnameLength := length, realpathValid := valid } ∧
    Base fs { t with
      fates := t.fates.tail, realpath, realpathDirnameLength := length, realpathValid := valid } ∧
    (t.fates.headD false = false → (pathname t.cwd).length < fs.pathMax → valid = true) := by
  have never : ∀ {P : Prop}, false = true → P := fun absurdity => nomatch absurdity
  have unknown : Base fs { t with fates := t.fates.tail, realpathValid := false } :=
    ⟨⟨buffers.cwd, buffers.realpath, buffers.symlink, buffers.buff⟩, never, never, never⟩
  by_cases failed : t.fates.headD false = true
  · refine ⟨t.realpath, t.realpathDirnameLength, false, ?_, unknown, ?_⟩
    · rw [whereWeAre, attempted, if_pos failed]
    · intro works
      rw [failed] at works
      cases works
  · by_cases short : (pathname t.cwd).length < fs.pathMax
    · have size := buffers.realpath
      obtain ⟨realpath, stored, length, holds⟩ := @storeBytes_behind [] (pathname t.cwd ++ [0])
        t.realpath List.nil_prefix (by
          rw [List.length_append, List.length_singleton, List.length_nil]
          omega)
      rw [List.nil_append] at holds
      rw [List.length_nil] at stored
      have front : trunk t.cwd <+: pathname t.cwd ++ [0] :=
        (trunk_front t.cwd).trans (List.prefix_append _ _)
      refine ⟨realpath, (trunk t.cwd).length, true, ?_,
        ⟨⟨buffers.cwd, length.trans buffers.realpath, buffers.symlink, buffers.buff⟩, fun _ => rfl,
          fun _ => (front.map some).trans holds, fun _ => cString_ends holds⟩, fun _ _ => rfl⟩
      rw [whereWeAre, attempted, if_neg failed, getcwd, if_pos short]
      simp only
      rw [stored, ok_bind, realpathLength_ok buffers.cwd holds, ok_bind]
      rfl
    · refine ⟨t.realpath, t.realpathDirnameLength, false, ?_, unknown,
        fun _ fits => absurd fits short⟩
      rw [whereWeAre, attempted, if_neg failed, getcwd, if_neg short]

end Paths

section Visits

variable {fs : Filesystem} {t : Tree} {te : TreeEntry} {stack : List TreeEntry}

/-- The directory above a file that is there is left for one that is there. -/
theorem leave_isSome {place : List FileName} (left : leave fs t te = .ok place) :
    (fs.file place).isSome := by
  have found : ∃ entries readable, fs.file place = some (.directory entries readable true) := by
    rw [leave] at left
    split at left
    · exact fchdir_ok left
    · exact chdir_ok left
  obtain ⟨entries, readable, directory⟩ := found
  rw [directory]
  rfl

/-- What ascending from a directory leads to. -/
structure Ascended (fs : Filesystem) (t t' : Tree) : Prop where
  /-- The canonical path is that of the current directory. -/
  base : Base fs t'
  /-- The directories that require further attention. -/
  stack : t'.stack = t.stack
  /-- The path of the current directory. -/
  dirnameLength : t'.dirnameLength = t.dirnameLength
  /-- What is still to be read. -/
  d : t'.d = t.d
  /-- The first entry was returned. -/
  needsReturn : t'.needsReturn = t.needsReturn

/-- A system call that succeeds gives what is in the tree. -/
theorem attempted_spec {α : Type} (t : Tree) (result : Except Errno α) :
    ∃ answer, attempted t result = (answer, { t with fates := t.fates.tail }) ∧
      ∀ value, answer = .ok value → result = .ok value := by
  refine ⟨_, rfl, ?_⟩
  intro value answered
  split at answered
  · cases answered
  · exact answered

/-- Ascending from a directory. -/
theorem treeAscend_spec (buffers : Buffers fs t) (top : t.stack = te :: stack) :
    ∃ r t', treeAscend fs t = .ok (r, t') ∧ Ascended fs t t' ∧ r ≠ some .regular := by
  obtain ⟨answer, attempt, found⟩ := attempted_spec t (leave fs t te)
  rw [treeAscend, top]
  simp only [attempt]
  cases answer with
  | error errno =>
    obtain ⟨realpath, length, valid, figured, base, _⟩ := @whereWeAre_spec fs
      { t with fates := t.fates.tail, depth := t.depth - 1, treeErrno := some errno }
      ⟨buffers.cwd, buffers.realpath, buffers.symlink, buffers.buff⟩
    simp only
    rw [figured, ok_bind]
    exact ⟨_, _, rfl, ⟨base, rfl, rfl, rfl, rfl⟩, by decide⟩
  | ok cwd =>
    obtain ⟨realpath, length, valid, figured, base, _⟩ := @whereWeAre_spec fs
      { t with fates := t.fates.tail, depth := t.depth - 1, cwd }
      ⟨leave_isSome (found cwd rfl), buffers.realpath, buffers.symlink, buffers.buff⟩
    simp only
    rw [figured, ok_bind]
    exact ⟨_, _, rfl, ⟨base, rfl, rfl, rfl, rfl⟩, by decide⟩

/-- The path of the current directory after the working stack is popped. -/
theorem popped_buff (buffers : Buffers fs t) (shorter : te.dirnameLength ≤ t.dirnameLength) :
    te.dirnameLength ≤ (t.buff.take t.dirnameLength).length := by
  rw [List.length_take_of_le buffers.buff]
  exact shorter

/-- Ascending from a directory and popping the working stack. -/
theorem ascend_pop (buffers : Buffers fs t) (top : t.stack = te :: stack)
    (stacked : Stacked t.dirnameLength t.stack) (closed : t.d = none)
    (returned : t.needsReturn = false) {visit : Visit} (other : visit ≠ .regular) :
    ∃ r t' t'', treeAscend fs t = .ok (r, t') ∧ treePop t' = .ok t'' ∧ ∀ lst st,
      Inv fs { t'' with lst, st, visitType := r.getD visit } := by
  obtain ⟨r, t', ascended, after, failed⟩ := treeAscend_spec buffers top
  have here : t'.stack = te :: stack := after.stack.trans top
  rw [top] at stacked
  cases stacked with
  | cons visited shorter rest =>
    refine ⟨r, t', _, ascended, by rw [treePop, here], ?_⟩
    intro lst st
    have shorter' : te.dirnameLength ≤ t'.dirnameLength := by
      rw [after.dirnameLength]
      exact shorter
    have base := after.base
    refine inv_of_visit ⟨⟨base.cwd, base.realpath, base.symlink,
      popped_buff base.toBuffers shorter'⟩, base.length, base.canonical, base.string⟩ rest ?_
      (after.needsReturn.trans returned) ?_
    · intro names open_
      have none : t'.d = Option.none := after.d.trans closed
      rw [show t'.d = some names from open_] at none
      cases none
    · cases r with
      | none => exact other
      | some visit => exact fun same => failed (congrArg some same)

/-- A directory is opened that was entered, or left again. -/
theorem visitDirectory_spec (buffers : Buffers fs t) (top : t.stack = te :: stack)
    (stacked : Stacked t.dirnameLength t.stack) (returned : t.needsReturn = false) :
    ∃ t', visitDirectory fs t = .ok t' ∧ Inv fs t' := by
  obtain ⟨answer, attempt, found⟩ := attempted_spec t (fs.opendir t.cwd dot)
  rw [visitDirectory]
  simp only [attempt]
  cases answer with
  | error errno =>
    have other : Visit.errorDir ≠ .regular := by decide
    obtain ⟨r, t', t'', ascended, popped, inv⟩ := @ascend_pop fs
      { t with fates := t.fates.tail, treeErrno := some errno, d := none } te stack
      ⟨buffers.cwd, buffers.realpath, buffers.symlink, buffers.buff⟩ top stacked rfl returned _
      other
    simp only
    rw [ascended, ok_bind, popped]
    exact ⟨_, rfl, inv t''.lst t''.st⟩
  | ok opened =>
    obtain ⟨place, names⟩ := opened
    obtain ⟨_, readable, directory⟩ := opendir_dot (found (place, names) rfl)
    obtain ⟨realpath, length, valid, figured, base, _⟩ := @whereWeAre_spec fs
      { t with fates := t.fates.tail, d := some names, lst := none, st := none, basename := none }
      ⟨buffers.cwd, buffers.realpath, buffers.symlink, buffers.buff⟩
    simp only
    rw [figured, ok_bind]
    refine ⟨_, rfl, inv_of_visit ⟨⟨base.cwd, base.realpath, base.symlink, base.buff⟩, base.length,
      base.canonical, base.string⟩ stacked ?_ returned (fun regular => nomatch regular)⟩
    intro names' same
    rw [← Option.some.inj same]
    exact ⟨names, readable, directory, List.Subset.refl names⟩

/-- The descriptor of the parent changes nothing but what fails next. -/
theorem openParent_spec (fs : Filesystem) (t : Tree) (te : TreeEntry) :
    ∃ fd fates, openParent fs t te = (fd, { t with fates }) := by
  obtain ⟨answer, attempt, _⟩ := attempted_spec t (fs.opendir t.cwd dot)
  rw [openParent, attempt]
  split
  · cases answer with
    | error errno => exact ⟨_, _, rfl⟩
    | ok opened => exact ⟨_, _, rfl⟩
  · exact ⟨te.fd, t.fates, rfl⟩

/-- A directory is previsited. -/
theorem preVisit_spec (base : Base fs t) (stacked : Stacked t.dirnameLength (te :: stack))
    (closed : t.d = none) (returned : t.needsReturn = false) :
    ∃ t', preVisit fs t te stack = .ok t' ∧ Inv fs t' := by
  obtain ⟨realpath, valid, appending, base', _, _⟩ := treeAppend_spec base te.name
  have whole : (appended t te.name).pathLength ≤ (appended t te.name).buff.length :=
    Nat.le_of_eq (appended_length base te.name).symm
  have longer : t.dirnameLength ≤ (appended t te.name).pathLength :=
    Nat.le_trans (Nat.le_add_right _ _) (Nat.le_add_right _ _)
  have closed' : (appended t te.name).d = none := closed
  have returned' : (appended t te.name).needsReturn = false := returned
  rw [preVisit, appending, ok_bind]
  generalize appended t te.name = t' at *
  obtain ⟨fd, fates, opening⟩ := openParent_spec fs { t' with realpath, realpathValid := valid } te
  rw [opening]
  obtain ⟨answer, attempt, found⟩ := attempted_spec { t' with
    stack := { te with needsPreVisit := false, fd } :: stack, dirnameLength := t'.pathLength
    realpath, realpathValid := valid, fates } (fs.chdir t'.cwd te.name)
  simp only
  rw [attempt]
  cases stacked with
  | cons visited shorter rest =>
    cases answer with
    | error errno =>
      refine ⟨_, rfl, inv_of_visit ⟨⟨base'.cwd, base'.realpath, base'.symlink, ?_⟩, base'.length,
        base'.canonical, base'.string⟩ rest ?_ returned' (fun regular => nomatch regular)⟩
      · show te.dirnameLength ≤ (t'.buff.take t'.pathLength).length
        rw [List.length_take_of_le whole]
        exact Nat.le_trans shorter longer
      · intro names open_
        rw [show t'.d = some names from open_] at closed'
        cases closed'
    | ok cwd =>
      obtain ⟨entries, readable, directory⟩ := chdir_ok (found cwd rfl)
      have there : (fs.file cwd).isSome := by
        rw [directory]
        rfl
      exact visitDirectory_spec ⟨there, base'.realpath, base'.symlink, whole⟩ rfl
        (.cons visited (Nat.le_trans shorter longer) rest) returned'

/-- The directory on the top of the stack is visited. -/
theorem visitTop_spec (base : Base fs t) (top : t.stack = te :: stack)
    (stacked : Stacked t.dirnameLength t.stack) (closed : t.d = none)
    (returned : t.needsReturn = false) : ∃ t', visitTop fs t te stack = .ok t' ∧ Inv fs t' := by
  rw [visitTop]
  split
  · exact preVisit_spec base (top ▸ stacked) closed returned
  · have visited : te.needsPostVisit = true := by
      rw [top] at stacked
      cases stacked with
      | cons visited _ _ => exact visited
    have other : Visit.postAscent ≠ .regular := by decide
    obtain ⟨r, t', t'', ascended, popped, inv⟩ :=
      ascend_pop base.toBuffers top stacked closed returned other
    rw [if_pos visited, postVisit, ascended, ok_bind]
    simp only
    rw [popped, ok_bind]
    exact ⟨_, rfl, inv none none⟩

/-- What is read from an open directory is in it, and neither the directory itself nor the one
above. -/
theorem treeReaddir_entry {names rest : List FileName} {fates fates' : List Bool} {name : FileName}
    (read : treeReaddir names fates = (.entry name rest, fates')) :
    name ∈ names ∧ name ≠ dot ∧ name ≠ dotDot ∧ rest ⊆ names := by
  induction names generalizing fates with
  | nil =>
    rw [treeReaddir] at read
    split at read <;> cases read
  | cons first names ih =>
    rw [treeReaddir] at read
    split at read
    · cases read
    · split at read
      · obtain ⟨inside, notDot, notDotDot, fewer⟩ := ih read
        exact ⟨List.mem_cons_of_mem _ inside, notDot, notDotDot,
          List.Subset.trans fewer (List.subset_cons_self _ _)⟩
      · rename_i other
        rw [not_or] at other
        cases read
        exact ⟨List.mem_cons_self, other.1, other.2, List.subset_cons_self _ _⟩

/-- A file that was read from a directory is returned. -/
theorem entry_of_append {name : FileName} (base : Base fs t) (reading : Reading fs t.cwd [name])
    (notDot : name ≠ dot) (notDotDot : name ≠ dotDot) : ∃ t', treeAppend fs t name = .ok t' ∧
      Base fs t' ∧ t'.stack = t.stack ∧ t'.dirnameLength = t.dirnameLength ∧ t'.d = t.d ∧
      t'.needsReturn = t.needsReturn ∧ t'.cwd = t.cwd ∧
      (t'.realpathValid = true → Entry fs t') := by
  obtain ⟨entries, readable, directory, inside⟩ := reading
  have there : (fs.file (t.cwd ++ [name])).isSome := by
    have listed := fs.listed _ _ _ _ directory name (inside List.mem_cons_self)
    exact (listed.resolve_left notDot).resolve_left notDotDot
  have plain : stripped name = name := stripped_single (fs.named _ _ there).single
  obtain ⟨realpath, valid, appending, base', fits, holds⟩ := treeAppend_spec base name
  refine ⟨_, appending, base', rfl, rfl, rfl, rfl, rfl, ?_⟩
  intro isValid
  have valid' : valid = true := isValid
  have access : treeCurrentAccessPath { appended t name with realpath, realpathValid := valid } =
      name := (appended_accessPath base name).trans plain
  obtain ⟨wasValid, short⟩ := fits.mp valid'
  have path := holds valid'
  rw [plain] at short path
  rw [base.length wasValid] at short
  refine ⟨⟨entries, readable, directory⟩, ?_, ?_, ?_⟩
  · rw [access]
    exact there
  · rw [access]
    show (pathname (t.cwd ++ [name]) ++ [0]).map some <+: realpath
    rw [pathname_append]
    exact path
  · rw [access]
    show (pathname (t.cwd ++ [name])).length ≤ fs.pathMax
    rw [pathname_append, List.length_append, List.length_cons]
    omega

/-- The next entry of the open directory, or what follows when there is none. -/
theorem readNext_spec {names : List FileName} (inv : Inv fs t) (top : t.stack = te :: stack)
    (open_ : t.d = some names) (first : t.needsReturn = false) :
    ∃ t', readNext fs t te stack names = .ok t' ∧ Inv fs t' := by
  have base := inv.base
  rw [readNext]
  rcases read : treeReaddir names t.fates with ⟨dirent, fates⟩
  cases dirent with
  | failed =>
    exact ⟨_, rfl, inv_of_visit ⟨⟨base.cwd, base.realpath, base.symlink, base.buff⟩,
      base.length, base.canonical, base.string⟩ inv.stacked
      (fun _ absurdity => nomatch absurdity) first (fun regular => nomatch regular)⟩
  | ended =>
    exact @visitTop_spec fs { t with d := none, fates } te stack
      ⟨⟨base.cwd, base.realpath, base.symlink, base.buff⟩, base.length, base.canonical,
        base.string⟩ top inv.stacked rfl first
  | entry name rest =>
    obtain ⟨entries, readable, directory, inside⟩ := inv.reading names open_
    obtain ⟨member, notDot, notDotDot, fewer⟩ := treeReaddir_entry read
    have single : Reading fs t.cwd [name] :=
      ⟨entries, readable, directory, List.cons_subset.mpr ⟨inside member, List.nil_subset _⟩⟩
    obtain ⟨t', appending, base', stack', length', d', returned', cwd', entry⟩ :=
      @entry_of_append fs { t with d := some rest, fates } name
        ⟨⟨base.cwd, base.realpath, base.symlink, base.buff⟩, base.length, base.canonical,
          base.string⟩ single notDot notDotDot
    simp only
    rw [appending, ok_bind]
    refine ⟨_, rfl, ⟨⟨base'.cwd, base'.realpath, base'.symlink, base'.buff⟩, base'.length,
      base'.canonical, base'.string⟩, ?_, ?_, ?_, ?_, ?_⟩
    · show Stacked t'.dirnameLength t'.stack
      rw [length', stack']
      exact inv.stacked
    · intro names' same
      have same' : some rest = some names' := d'.symm.trans same
      rw [← Option.some.inj same']
      show Reading fs t'.cwd rest
      rw [cwd']
      exact ⟨entries, readable, directory, List.Subset.trans fewer inside⟩
    · intro again
      have never : t'.needsReturn = false := returned'.trans first
      rw [show t'.needsReturn = true from again] at never
      cases never
    · intro _ valid
      have there := entry valid
      exact ⟨there.directory, there.file, there.canonical, there.fits⟩
    · intro _ type absurdity
      cases absurdity

/-- The next item, unless there was a fatal error. -/
theorem treeNext_spec (inv : Inv fs t) :
    (t.visitType = .errorFatal ∧ treeNext fs t = .error .aborted) ∨
      ∃ t', treeNext fs t = .ok t' ∧ Inv fs t' := by
  have base := inv.base
  rw [treeNext]
  by_cases fatal : t.visitType = .errorFatal
  · exact .inl ⟨fatal, if_pos fatal⟩
  · rw [if_neg fatal]
    refine .inr ?_
    by_cases first : t.needsReturn = true
    · rw [if_pos first]
      refine ⟨_, rfl, ⟨⟨base.cwd, base.realpath, base.symlink, base.buff⟩, base.length,
        base.canonical, base.string⟩, inv.stacked, inv.reading,
        (fun absurdity => nomatch absurdity), ?_, fun _ => inv.lst (.inr first)⟩
      intro _ valid
      have unknown := inv.start first
      rw [show t.realpathValid = true from valid] at unknown
      cases unknown
    · rw [if_neg first]
      rw [Bool.not_eq_true] at first
      cases top : t.stack with
      | nil =>
        have stacked : Stacked t.dirnameLength t.stack := inv.stacked
        exact ⟨_, rfl, inv_of_visit ⟨⟨base.cwd, base.realpath, base.symlink, base.buff⟩,
          base.length, base.canonical, base.string⟩ (top ▸ stacked) inv.reading first
          (fun regular => nomatch regular)⟩
      | cons te stack =>
        cases open_ : t.d with
        | none => exact visitTop_spec base top inv.stacked open_ first
        | some names => exact readNext_spec inv top open_ first

end Visits

section Current

variable {fs : Filesystem} {t : Tree}

/-- What is known about an entry is kept. -/
theorem Inv.withLst {lst : Option FileType} {fates : List Bool} (inv : Inv fs t)
    (known : ∀ type, lst = some type → t.lst = some type ∨
      fs.lstat t.cwd (treeCurrentAccessPath t) = .ok type) : Inv fs { t with lst, fates } := by
  have base := inv.base
  refine ⟨⟨⟨base.cwd, base.realpath, base.symlink, base.buff⟩, base.length, base.canonical,
    base.string⟩, inv.stacked, inv.reading, inv.start, ?_, ?_⟩
  · intro regular valid
    have entry := inv.entry regular valid
    exact ⟨entry.directory, entry.file, entry.canonical, entry.fits⟩
  · intro either type same
    exact (known type same).elim (inv.lst either type) id

/-- What is known about what an entry is resolved to does not matter. -/
theorem Inv.withSt (inv : Inv fs t) (st : Option FileType) (fates : List Bool) :
    Inv fs { t with st, fates } := by
  have base := inv.base
  refine ⟨⟨⟨base.cwd, base.realpath, base.symlink, base.buff⟩, base.length, base.canonical,
    base.string⟩, inv.stacked, inv.reading, inv.start, ?_, inv.lst⟩
  intro regular valid
  have entry := inv.entry regular valid
  exact ⟨entry.directory, entry.file, entry.canonical, entry.fits⟩

/-- A directory is added to the stack. -/
theorem Inv.push (inv : Inv fs t) (path : List UInt8) (isDirLink : Bool) :
    Inv fs (treePush t path isDirLink) := by
  have base := inv.base
  refine ⟨⟨⟨base.cwd, base.realpath, base.symlink, base.buff⟩, base.length, base.canonical,
    base.string⟩, .cons rfl (Nat.le_refl _) inv.stacked, inv.reading, inv.start, ?_, inv.lst⟩
  intro regular valid
  have entry := inv.entry regular valid
  exact ⟨entry.directory, entry.file, entry.canonical, entry.fits⟩

/-- The lstat data that is known after it was asked for. -/
structure Asked (fs : Filesystem) (t : Tree) (lst : Option FileType) : Prop where
  /-- It was known before, or is that of the entry. -/
  known : ∀ type, lst = some type → t.lst = some type ∨
    fs.lstat t.cwd (treeCurrentAccessPath t) = .ok type
  /-- It is unknown only if asking for it failed. -/
  unknown : lst = none → t.lst = none ∧ (t.fates.headD false = true ∨
    ∀ type, fs.lstat t.cwd (treeCurrentAccessPath t) ≠ .ok type)
  /-- When asking for it fails, it stays unknown. -/
  failed : t.lst = none → t.fates.headD false = true → lst = none

/-- The lstat data is what it was, or asked for. -/
theorem treeCurrentLstat_spec (fs : Filesystem) (t : Tree) :
    ∃ lst fates, treeCurrentLstat fs t = (lst, { t with lst, fates }) ∧ Asked fs t lst := by
  rw [treeCurrentLstat]
  cases known : t.lst with
  | some type =>
    have same : { t with lst := some type } = t := by rw [← known]
    refine ⟨some type, t.fates, by rw [same], fun _ same => .inl (known.trans same),
      fun absurdity => (nomatch absurdity), ?_⟩
    intro unknown
    rw [known] at unknown
    cases unknown
  | none =>
    have same : { t with lst := none, fates := t.fates.tail } = { t with fates := t.fates.tail } :=
      by rw [← known]
    rw [attempted]
    by_cases fails : t.fates.headD false = true
    · rw [if_pos fails]
      exact ⟨none, t.fates.tail, by rw [same], fun _ absurdity => (nomatch absurdity),
        fun _ => ⟨known, .inl fails⟩, fun _ _ => rfl⟩
    · rw [if_neg fails]
      cases asked : fs.lstat t.cwd (treeCurrentAccessPath t) with
      | error errno =>
        refine ⟨none, t.fates.tail, by rw [same], fun _ absurdity => (nomatch absurdity),
          fun _ => ⟨known, .inr ?_⟩, fun _ _ => rfl⟩
        intro type absurdity
        rw [asked] at absurdity
        cases absurdity
      | ok type =>
        refine ⟨some type, t.fates.tail, rfl, ?_, fun absurdity => (nomatch absurdity),
          fun _ absurdity => absurd absurdity fails⟩
        intro type' same
        rw [← Option.some.inj same]
        exact .inr asked

/-- The lstat data is asked for. -/
theorem Inv.lstat (inv : Inv fs t) : Inv fs (treeCurrentLstat fs t).2 := by
  obtain ⟨lst, fates, answer, asked⟩ := treeCurrentLstat_spec fs t
  rw [answer]
  exact inv.withLst asked.known

/-- The stat data is asked for. -/
theorem Inv.stat (inv : Inv fs t) : Inv fs (treeCurrentStat fs t).2 := by
  obtain ⟨answer, attempt, _⟩ := attempted_spec t (fs.stat t.cwd (treeCurrentAccessPath t))
  rw [treeCurrentStat]
  split
  · exact inv
  · rw [attempt]
    cases answer with
    | ok type => exact inv.withSt _ _
    | error errno => exact inv.withSt _ _

/-- Whether the entry is a directory or a link to one is asked for. -/
theorem Inv.isDir (inv : Inv fs t) : Inv fs (treeCurrentIsDir fs t).2 := by
  rw [treeCurrentIsDir]
  split
  · exact inv
  · split
    · exact inv
    · exact inv.stat

/-- Whether the entry is a physical directory is asked for. -/
theorem Inv.isPhysicalDir (inv : Inv fs t) : Inv fs (treeCurrentIsPhysicalDir fs t).2 := by
  rw [treeCurrentIsPhysicalDir]
  split
  · exact inv
  · exact inv.lstat

/-- The entry is marked as needing to be visited. -/
theorem Inv.descend (inv : Inv fs t) : Inv fs (treeDescend fs t) := by
  rw [treeDescend]
  split
  · exact inv
  · simp only
    split
    · exact inv.isPhysicalDir.push _ _
    · split
      · exact inv.isPhysicalDir.isDir.push _ _
      · exact inv.isPhysicalDir.isDir

/-- What is returned is what realpath gives, or nothing. -/
def Agrees (fs : Filesystem) (t : Tree) (name : Option (List UInt8)) : Prop :=
  ∀ path, name = some path → fs.realpath t.cwd (treeCurrentAccessPath t) = .ok path

/-- The canonical path of the entry is known, and just too long for realpath. -/
def Full (fs : Filesystem) (t : Tree) : Prop :=
  t.realpathValid = true ∧ fs.lstat t.cwd (treeCurrentAccessPath t) ≠ .ok .symlink ∧
    (pathname (t.cwd ++ [treeCurrentAccessPath t])).length = fs.pathMax

/-- The entry is a symbolic link of which the lstat data cannot be had, although the canonical path
of the current directory is known. -/
def Mistaken (fs : Filesystem) (t : Tree) : Prop :=
  t.realpathValid = true ∧ fs.lstat t.cwd (treeCurrentAccessPath t) = .ok .symlink ∧
    t.lst = none ∧ t.fates.headD false = true

/-- The buffer has room for what realpath writes. -/
theorem callRealpath_spec (fs : Filesystem) (t : Tree) {buff : Cells}
    (size : buff.length = fs.pathMax + 1) : ∃ name buff' fates,
      callRealpath fs t buff = .ok (name, buff', { t with fates }) ∧
      buff'.length = fs.pathMax + 1 ∧ Agrees fs t name := by
  obtain ⟨answer, attempt, found⟩ :=
    attempted_spec t (fs.realpath t.cwd (treeCurrentAccessPath t))
  rw [callRealpath, attempt]
  cases answer with
  | error errno =>
    refine ⟨none, buff, _, rfl, size, ?_⟩
    intro _ absurdity
    cases absurdity
  | ok path =>
    have resolved := found path rfl
    obtain ⟨string, short⟩ := realpath_ok resolved
    obtain ⟨buff', stored, length, holds⟩ := @storeBytes_behind [] (path ++ [0]) buff
      List.nil_prefix (by
        rw [List.length_append, List.length_singleton, List.length_nil]
        omega)
    rw [List.nil_append] at holds
    rw [List.length_nil] at stored
    refine ⟨some path, buff', t.fates.tail, ?_, length.trans size, ?_⟩
    · simp only
      rw [stored, ok_bind, cString_front string holds]
      rfl
    · intro path' same
      rw [← Option.some.inj same]
      exact resolved

/-- The canonical path of an entry is in the buffer. -/
theorem Entry.string (entry : Entry fs t) :
    cString t.realpath = .ok (pathname (t.cwd ++ [treeCurrentAccessPath t])) :=
  cString_front (pathname_string entry.file) entry.canonical

/-- The name of an entry is not too long. -/
theorem Entry.short (entry : Entry fs t) : (treeCurrentAccessPath t).length < fs.pathMax := by
  have fits := entry.fits
  rw [pathname_append, List.length_append, List.length_cons] at fits
  omega

/-- The canonical path of a symbolic link is not what realpath gives. -/
theorem Entry.mistaken (entry : Entry fs t)
    (link : fs.lstat t.cwd (treeCurrentAccessPath t) = .ok .symlink) :
    fs.realpath t.cwd (treeCurrentAccessPath t) ≠
      .ok (pathname (t.cwd ++ [treeCurrentAccessPath t])) := by
  obtain ⟨entries, readable, directory⟩ := entry.directory
  obtain ⟨file, there⟩ := Option.isSome_iff_exists.mp entry.file
  rw [lstat_name directory there entry.short, Except.ok.injEq] at link
  cases file with
  | symlink target => exact realpath_ne_symlink there
  | directory _ _ _ => cases link
  | other => cases link

/-- The canonical path of an entry that is no symbolic link is what realpath gives, unless it is
just too long. -/
theorem Entry.agrees (entry : Entry fs t)
    (plain : fs.lstat t.cwd (treeCurrentAccessPath t) ≠ .ok .symlink) :
    fs.realpath t.cwd (treeCurrentAccessPath t) =
        .ok (pathname (t.cwd ++ [treeCurrentAccessPath t])) ↔
      (pathname (t.cwd ++ [treeCurrentAccessPath t])).length ≠ fs.pathMax := by
  obtain ⟨entries, readable, directory⟩ := entry.directory
  obtain ⟨file, there⟩ := Option.isSome_iff_exists.mp entry.file
  have fits := entry.fits
  have other : file.type ≠ .symlink := by
    intro link
    apply plain
    rw [lstat_name directory there entry.short, link]
  rw [realpath_name directory there entry.short other]
  split
  · rename_i less
    exact iff_of_true rfl (Nat.ne_of_lt less)
  · rename_i full
    refine iff_of_false (fun absurdity => nomatch absurdity) ?_
    intro wrong
    omega

/-- The buffer for a symbolic link does not matter. -/
theorem Inv.withSymlink {realpathSymlink : Cells} {fates : List Bool} (inv : Inv fs t)
    (size : realpathSymlink.length = fs.pathMax + 1) :
    Inv fs { t with realpathSymlink, fates } := by
  have base := inv.base
  refine ⟨⟨⟨base.cwd, base.realpath, size, base.buff⟩, base.length, base.canonical, base.string⟩,
    inv.stacked, inv.reading, inv.start, ?_, inv.lst⟩
  intro regular valid
  have entry := inv.entry regular valid
  exact ⟨entry.directory, entry.file, entry.canonical, entry.fits⟩

/-- What is in the buffer does not matter when it is not valid. -/
theorem Inv.withRealpath {realpath : Cells} {fates : List Bool} (inv : Inv fs t)
    (invalid : t.realpathValid = false) (size : realpath.length = fs.pathMax + 1) :
    Inv fs { t with realpath, fates } := by
  have base := inv.base
  have never {P : Prop} (valid : t.realpathValid = true) : P := by
    rw [invalid] at valid
    cases valid
  exact ⟨⟨⟨base.cwd, size, base.symlink, base.buff⟩, never, never, never⟩, inv.stacked, inv.reading,
    inv.start, fun _ => never, inv.lst⟩

/-- What is returned is a path in the buffer or what realpath gives. It is what realpath gives,
unless the canonical path is known and just too long, or a symbolic link is not known to be one. -/
theorem treeCurrentRealpath_spec (inv : Inv fs t) : ∃ name t',
    treeCurrentRealpath fs t = .ok (name, t') ∧ Inv fs t' ∧
      (t.visitType = .regular → (Agrees fs t name ↔ ¬Full fs t ∧ ¬Mistaken fs t)) := by
  obtain ⟨lst, fates, answer, asked⟩ := treeCurrentLstat_spec fs t
  have inv' : Inv fs { t with lst, fates } := inv.withLst asked.known
  have found (regular : t.visitType = .regular) (type : FileType) (same : lst = some type) :
      fs.lstat t.cwd (treeCurrentAccessPath t) = .ok type :=
    (asked.known type same).elim (inv.lst (.inl regular) type) id
  rw [treeCurrentRealpath, treeCurrentIsPhysicalLink, answer]
  simp only [decide_eq_true_eq]
  by_cases link : lst = some .symlink
  · obtain ⟨name, buff, fates', called, size, agrees⟩ :=
      callRealpath_spec fs { t with lst, fates } inv'.base.symlink
    rw [if_pos link, called, ok_bind]
    refine ⟨name, _, rfl, inv'.withSymlink size, ?_⟩
    intro regular
    refine iff_of_true agrees ⟨?_, ?_⟩
    · rintro ⟨_, plain, _⟩
      exact plain (found regular _ link)
    · rintro ⟨_, _, unread, fails⟩
      rw [asked.failed unread fails] at link
      cases link
  · rw [if_neg link]
    by_cases valid : t.realpathValid = true
    · obtain ⟨name, string⟩ := inv.base.string valid
      rw [if_pos valid, string, ok_bind]
      refine ⟨some name, _, rfl, inv', ?_⟩
      intro regular
      have entry := inv.entry regular valid
      have path : name = pathname (t.cwd ++ [treeCurrentAccessPath t]) :=
        Except.ok.inj (string.symm.trans entry.string)
      have agrees : Agrees fs t (some name) ↔ fs.realpath t.cwd (treeCurrentAccessPath t) =
          .ok (pathname (t.cwd ++ [treeCurrentAccessPath t])) := by
        rw [path]
        exact ⟨fun same => same _ rfl, fun same _ this => Option.some.inj this ▸ same⟩
      rw [agrees]
      by_cases isLink : fs.lstat t.cwd (treeCurrentAccessPath t) = .ok .symlink
      · -- its lstat data would be known, if it could be had
        have unread : lst = none := by
          cases same : lst with
          | none => rfl
          | some type =>
            rw [found regular type same, Except.ok.injEq] at isLink
            exact absurd (same.trans (congrArg some isLink)) link
        obtain ⟨before, failed⟩ := asked.unknown unread
        have fails := failed.resolve_right (fun never => never _ isLink)
        exact iff_of_false (entry.mistaken isLink)
          (fun neither => neither.2 ⟨valid, isLink, before, fails⟩)
      · rw [entry.agrees isLink]
        constructor
        · intro notFull
          exact ⟨fun full => notFull full.2.2, fun mistaken => isLink mistaken.2.1⟩
        · rintro ⟨notFull, _⟩ full
          exact notFull ⟨valid, isLink, full⟩
    · obtain ⟨name, buff, fates', called, size, agrees⟩ :=
        callRealpath_spec fs { t with lst, fates } inv'.base.realpath
      rw [if_neg valid, called, ok_bind]
      refine ⟨name, _, rfl, inv'.withRealpath (Bool.eq_false_iff.mpr valid) size, ?_⟩
      intro _
      exact iff_of_true agrees ⟨fun full => valid full.1, fun mistaken => valid mistaken.1⟩

end Current

section Runs

variable {fs : Filesystem} {t : Tree}

/-- A call keeps what holds between two calls, unless the traversal goes on after a fatal error. -/
theorem call_spec (inv : Inv fs t) (c : Call) :
    (c = .next ∧ t.visitType = .errorFatal ∧ call fs t c = .error .aborted) ∨
      ∃ t', call fs t c = .ok t' ∧ Inv fs t' := by
  cases c with
  | next =>
    rcases treeNext_spec inv with ⟨fatal, aborted⟩ | next
    · exact .inl ⟨rfl, fatal, aborted⟩
    · exact .inr next
  | descend => exact .inr ⟨_, rfl, inv.descend⟩
  | stat => exact .inr ⟨_, rfl, inv.stat⟩
  | lstat => exact .inr ⟨_, rfl, inv.lstat⟩
  | isDir => exact .inr ⟨_, rfl, inv.isDir⟩
  | isPhysicalDir => exact .inr ⟨_, rfl, inv.isPhysicalDir⟩
  | isPhysicalLink => exact .inr ⟨_, rfl, inv.lstat⟩
  | realpath =>
    obtain ⟨name, t', returned, inv', _⟩ := treeCurrentRealpath_spec inv
    refine .inr ⟨t', ?_, inv'⟩
    rw [call, returned]
    rfl

/-- What holds between two calls is kept by a run, unless the traversal goes on after a fatal
error. -/
theorem run_spec {calls : List Call} (inv : Inv fs t) :
    (run fs t calls = .error .aborted ∧ ∃ before after t', calls = before ++ .next :: after ∧
      run fs t before = .ok t' ∧ t'.visitType = .errorFatal) ∨
      ∃ t', run fs t calls = .ok t' ∧ Inv fs t' := by
  induction calls generalizing t with
  | nil => exact .inr ⟨t, rfl, inv⟩
  | cons c calls ih =>
    rcases call_spec inv c with ⟨rfl, fatal, aborted⟩ | ⟨t', called, inv'⟩
    · refine .inl ⟨?_, [], calls, t, rfl, rfl, fatal⟩
      rw [run, List.foldlM_cons, aborted]
      rfl
    · have first (rest : List Call) : run fs t (c :: rest) = run fs t' rest := by
        rw [run, List.foldlM_cons, called, ok_bind]
        rfl
      rw [first]
      rcases ih inv' with ⟨aborted, before, after, t'', split, ran, fatal⟩ | further
      · refine .inl ⟨aborted, c :: before, after, t'', ?_, ?_, fatal⟩
        · rw [split]
          rfl
        · rw [first]
          exact ran
      · exact .inr further

/-- A traversal before the first item. -/
theorem treeOpen_spec (cwd : { place : List FileName // (fs.file place).isSome })
    (fates : List Bool) (path : List UInt8) :
    ∃ t, treeOpen fs cwd.1 fates path = .ok t ∧ Inv fs t := by
  have never {P : Prop} (valid : false = true) : P := nomatch valid
  have zeros : (List.replicate (fs.pathMax + 1) (some 0) : Cells).length = fs.pathMax + 1 :=
    List.length_replicate
  have start : Base fs ⟨[], none, false, .finished, none, [], none, 0, 0,
      List.replicate (fs.pathMax + 1) (some 0), 0, false, List.replicate (fs.pathMax + 1) (some 0),
      0, none, none, cwd.1, fates⟩ :=
    ⟨⟨cwd.2, zeros, zeros, Nat.le_refl _⟩, never, never, never⟩
  obtain ⟨realpath, valid, appending, base, known, _⟩ := treeAppend_spec start path
  rw [treeOpen, appending, ok_bind]
  refine ⟨_, rfl, ⟨⟨base.cwd, base.realpath, base.symlink, base.buff⟩, base.length, base.canonical,
    base.string⟩, .nil, (fun _ absurdity => nomatch absurdity), ?_,
    (fun absurdity => nomatch absurdity), fun _ _ absurdity => nomatch absurdity⟩
  intro _
  cases valid with
  | false => rfl
  | true => exact never (known.mp rfl).1

/-- Whatever the caller does with a tree, nothing is written behind the buffers, and the canonical
path of each item is what realpath gives, unless it is just too long and no longer one of the same
directory was met before, or the item is a symbolic link of which the lstat data cannot be had. -/
theorem treeCurrentRealpath_exact (fs : Filesystem)
    (cwd : { place : List FileName // (fs.file place).isSome }) (fates : List Bool)
    (path : List UInt8) : ∃ t, treeOpen fs cwd.1 fates path = .ok t ∧ ∀ calls,
      (run fs t calls = .error .aborted ∧ ∃ before after t', calls = before ++ .next :: after ∧
        run fs t before = .ok t' ∧ t'.visitType = .errorFatal) ∨
      ∃ t', run fs t calls = .ok t' ∧ ∃ name t'', treeCurrentRealpath fs t' = .ok (name, t'') ∧
        (t'.visitType = .regular → (Agrees fs t' name ↔ ¬Full fs t' ∧ ¬Mistaken fs t')) := by
  obtain ⟨t, opened, inv⟩ := treeOpen_spec cwd fates path
  refine ⟨t, opened, ?_⟩
  intro calls
  rcases @run_spec fs t calls inv with aborted | ⟨t', ran, inv'⟩
  · exact .inl aborted
  · obtain ⟨name, t'', returned, _, exactly⟩ := treeCurrentRealpath_spec inv'
    exact .inr ⟨t', ran, name, t'', returned, exactly⟩

end Runs

section Directory

variable {fs : Filesystem} {place : List FileName} {name : FileName}

/-- The current directory when it was returned as an item. -/
def itself (fs : Filesystem) (place : List FileName) : Tree :=
  ⟨[], none, false, .regular, none, dot, some 0, 1, 0, List.replicate (fs.pathMax + 1) (some 0), 0,
    false, List.replicate (fs.pathMax + 1) (some 0), 0, none, none, place, []⟩

/-- The current directory when it was marked as needing to be visited. -/
def marked (fs : Filesystem) (place : List FileName) : Tree :=
  { itself fs place with
    stack := [⟨dot, 0, none, false, true, true⟩], lst := some .directory }

/-- The current directory is returned first, and can be marked as needing to be visited. -/
theorem run_marked (directory : fs.file place = some (.directory [name] true true))
    (short : 1 < fs.pathMax) : ∃ t, treeOpen fs place [] dot = .ok t ∧
      run fs t [.next, .descend] = .ok (marked fs place) := by
  refine ⟨{ itself fs place with needsReturn := true, visitType := .finished }, rfl, ?_⟩
  have kind : fs.lstat (itself fs place).cwd (treeCurrentAccessPath (itself fs place)) =
      .ok .directory := by
    show fs.lstat place dot = _
    rw [Filesystem.lstat, resolve_self directory short, ok_bind, directory]
    rfl
  have asked : treeCurrentLstat fs (itself fs place) =
      (some .directory, { itself fs place with lst := some .directory }) := by
    have unread : (itself fs place).lst = none := rfl
    simp only [treeCurrentLstat, unread, kind]
    rfl
  have physical : treeCurrentIsPhysicalDir fs (itself fs place) =
      (true, { itself fs place with lst := some .directory }) := by
    rw [treeCurrentIsPhysicalDir, asked]
    rfl
  show Except.ok (treeDescend fs (itself fs place)) = _
  rw [treeDescend, physical]
  rfl

/-- The current directory when it was entered. -/
def entered (fs : Filesystem) (place : List FileName) : Tree :=
  { marked fs place with
    stack := [⟨dot, 0, none, false, false, true⟩], dirnameLength := 1, depth := 1 }

/-- The directory is entered. -/
theorem treeNext_marked (directory : fs.file place = some (.directory [name] true true))
    (short : 1 < fs.pathMax) :
    treeNext fs (marked fs place) = visitDirectory fs (entered fs place) := by
  have moved : fs.chdir place dot = .ok place := by
    rw [chdir, resolve_self directory short, ok_bind, enter, directory]
  show preVisit fs (marked fs place) ⟨dot, 0, none, false, true, true⟩ [] = _
  have appending : treeAppend fs (marked fs place) dot = .ok (marked fs place) := rfl
  have parent : openParent fs (marked fs place) ⟨dot, 0, none, false, true, true⟩ =
      (none, marked fs place) := rfl
  have here : (marked fs place).cwd = place := rfl
  simp only [preVisit, appending, ok_bind, parent, here, moved]
  rfl

/-- The directory that was entered is opened, and its canonical path is known. -/
theorem visitDirectory_entered (directory : fs.file place = some (.directory [name] true true))
    (short : 1 < fs.pathMax) (fits : (pathname place).length < fs.pathMax) : ∃ t,
      visitDirectory fs (entered fs place) = .ok { t with visitType := .postDescent } ∧
      Base fs t ∧ t.realpathValid = true ∧ t.d = some [name] ∧ t.cwd = place ∧
      t.needsReturn = false ∧ t.fates = [] ∧ t.stack ≠ [] := by
  have opened : fs.opendir place dot = .ok (place, [name]) := by
    rw [opendir, resolve_self directory short, ok_bind, directory]
    rfl
  have there : (fs.file place).isSome := by
    rw [directory]
    rfl
  have zeros : (List.replicate (fs.pathMax + 1) (some 0) : Cells).length = fs.pathMax + 1 :=
    List.length_replicate
  obtain ⟨realpath, length, valid, figured, base, known⟩ := @whereWeAre_spec fs
    { entered fs place with d := some [name], lst := none, st := none, basename := none }
    ⟨there, zeros, zeros, Nat.le_refl _⟩
  refine ⟨_, ?_, base, known rfl fits, rfl, rfl, rfl, rfl, List.cons_ne_nil _ _⟩
  have here : (entered fs place).cwd = place := rfl
  simp only [visitDirectory, here, opened]
  show (whereWeAre fs { entered fs place with
    d := some [name], lst := none, st := none, basename := none } >>= _) = _
  rw [figured]
  rfl

/-- The file in the directory is returned, with its canonical path. -/
theorem treeNext_file {t : Tree} (proper : ProperName name)
    (fits : (pathname (place ++ [name])).length ≤ fs.pathMax) (base : Base fs t)
    (valid : t.realpathValid = true) (open_ : t.d = some [name]) (here : t.cwd = place)
    (returned : t.needsReturn = false) (fates : t.fates = []) (some : t.stack ≠ [])
    (visit : t.visitType ≠ .errorFatal) : ∃ t', treeNext fs t = .ok t' ∧
      t'.visitType = .regular ∧ t'.realpathValid = true ∧ t'.cwd = place ∧
      treeCurrentAccessPath t' = name := by
  obtain ⟨te, stack, top⟩ := List.exists_cons_of_ne_nil some
  have read : treeReaddir [name] t.fates = (.entry name [], []) := by
    have other : ¬(name = dot ∨ name = dotDot) := not_or.mpr ⟨proper.notDot, proper.notDotDot⟩
    rw [fates, treeReaddir, if_neg (by decide), if_neg other]
    rfl
  have base' : Base fs { t with d := Option.some [], fates := [] } :=
    ⟨⟨base.cwd, base.realpath, base.symlink, base.buff⟩, base.length, base.canonical, base.string⟩
  obtain ⟨realpath, valid', appending, _, known, _⟩ := treeAppend_spec base' name
  have first : ¬t.needsReturn = true := by
    rw [returned]
    decide
  have stays : stripped name = name := stripped_single proper.single
  have valid'' : valid' = true := by
    apply known.mpr
    refine ⟨valid, ?_⟩
    have length : t.realpathDirnameLength = (trunk place).length := here ▸ base.length valid
    rw [pathname_append, List.length_append, List.length_cons] at fits
    show t.realpathDirnameLength + (stripped name).length + 1 ≤ fs.pathMax
    rw [length, stays]
    omega
  rw [treeNext, if_neg visit, if_neg first, top, open_]
  simp only [readNext, read]
  rw [appending, ok_bind]
  exact ⟨_, rfl, rfl, valid'', here, (appended_accessPath base' name).trans stays⟩

/-- When the canonical path of the only file in the current directory is just too long, it is
returned nevertheless. -/
theorem run_full (directory : fs.file place = some (.directory [name] true true))
    (file : fs.file (place ++ [name]) = some .other)
    (full : (pathname (place ++ [name])).length = fs.pathMax)
    (fits : (pathname place).length < fs.pathMax) : ∃ t t' name' t'',
      treeOpen fs place [] dot = .ok t ∧ run fs t [.next, .descend, .next, .next] = .ok t' ∧
      t'.visitType = .regular ∧ treeCurrentRealpath fs t' = .ok (name', t'') ∧
      ¬Agrees fs t' name' := by
  have there : (fs.file (place ++ [name])).isSome := by
    rw [file]
    rfl
  have proper : ProperName name := fs.named place name there
  have long : name.length < fs.pathMax ∧ 1 < fs.pathMax := by
    have some := List.length_pos_iff.mpr proper.nonempty
    rw [pathname_append, List.length_append, List.length_cons] at full
    omega
  obtain ⟨t, opened, first⟩ := run_marked directory long.2
  obtain ⟨t1, visited, base, valid, open_, here, returned, fates, some⟩ :=
    visitDirectory_entered directory long.2 fits
  obtain ⟨t', next, regular, valid', here', access⟩ := @treeNext_file fs place name
    { t1 with visitType := .postDescent } proper (Nat.le_of_eq full)
    ⟨⟨base.cwd, base.realpath, base.symlink, base.buff⟩, base.length, base.canonical, base.string⟩
    valid open_ here returned fates some (fun absurdity => nomatch absurdity)
  have ran : run fs t [.next, .descend, .next, .next] = .ok t' := by
    have both : run fs t ([.next, .descend] ++ [.next, .next]) =
        run fs t [.next, .descend] >>= fun t => run fs t [.next, .next] := by
      rw [run, List.foldlM_append]
      rfl
    show run fs t ([.next, .descend] ++ [.next, .next]) = _
    rw [both, first, ok_bind, run, List.foldlM_cons]
    show (treeNext fs (marked fs place) >>= fun t => treeNext fs t >>= pure) = _
    rw [treeNext_marked directory long.2, visited, ok_bind, next]
    rfl
  have root : (fs.file place).isSome := by
    rw [directory]
    rfl
  obtain ⟨t0, opened', inv⟩ := @treeOpen_spec fs ⟨place, root⟩ [] dot
  have same : t0 = t := Except.ok.inj (opened'.symm.trans opened)
  rw [same] at inv
  rcases @run_spec fs t [.next, .descend, .next, .next] inv with ⟨aborted, _⟩ | ⟨t2, ran', inv'⟩
  · rw [ran] at aborted
    cases aborted
  · have same' : t2 = t' := Except.ok.inj (ran'.symm.trans ran)
    rw [same'] at inv'
    obtain ⟨name', t'', asked, _, agrees⟩ := treeCurrentRealpath_spec inv'
    refine ⟨t, t', name', t'', opened, ran, regular, asked, ?_⟩
    rw [agrees regular]
    intro neither
    apply neither.1
    rw [Full, here', access]
    refine ⟨valid', ?_, full⟩
    rw [lstat_name directory file long.1]
    exact fun absurdity => nomatch absurdity

/-- A name of 255 bytes. -/
def longName : FileName := List.replicate 255 97

/-- So many directories inside each other, and a file in the last one. -/
def nested : Nat → List FileName → Option Inode
  | 0, [] => some .other
  | 0, _ :: _ => none
  | _ + 1, [] => some (.directory [longName] true true)
  | depth + 1, name :: place => if name = longName then nested depth place else none

/-- What is in one of the directories has the long name. -/
theorem nested_name {depth : Nat} {place : List FileName} {name : FileName}
    (there : (nested depth (place ++ [name])).isSome) : name = longName ∧
      nested depth place = some (.directory [longName] true true) := by
  induction place generalizing depth with
  | nil =>
    cases depth with
    | zero => cases there
    | succ depth =>
      rw [List.nil_append, nested] at there
      split at there
      · rename_i same
        exact ⟨same, rfl⟩
      · cases there
  | cons first place ih =>
    cases depth with
    | zero => cases there
    | succ depth =>
      rw [List.cons_append, nested] at there
      split at there
      · rename_i same
        rw [nested, if_pos same]
        exact ih there
      · cases there

/-- The file in the last directory. -/
theorem nested_replicate (depth more : Nat) :
    nested (depth + more) (List.replicate depth longName) = nested more [] := by
  induction depth with
  | zero => rw [Nat.zero_add, List.replicate_zero]
  | succ depth ih => rw [List.replicate_succ, Nat.succ_add, nested, if_pos rfl, ih]

/-- The long name is a name. -/
theorem longName_proper : ProperName longName := by
  have long : longName.length = 255 := List.length_replicate
  have other {name : FileName} (short : name.length < 255) : longName ≠ name := by
    rintro rfl
    exact absurd long (Nat.ne_of_lt short)
  exact ⟨other (by decide), fun inside => absurd (List.eq_of_mem_replicate inside) (by decide),
    fun inside => absurd (List.eq_of_mem_replicate inside) (by decide), other (by decide),
    other (by decide)⟩

/-- What is read from one of the directories is there. -/
theorem nested_listed {depth : Nat} {place entries : List FileName} {readable searchable : Bool}
    (directory : nested depth place = some (.directory entries readable searchable)) :
    entries = [longName] ∧ (nested depth (place ++ [longName])).isSome := by
  induction place generalizing depth with
  | nil =>
    cases depth with
    | zero => cases directory
    | succ depth =>
      rw [nested, Option.some.injEq, Inode.directory.injEq] at directory
      refine ⟨directory.1.symm, ?_⟩
      rw [List.nil_append, nested, if_pos rfl]
      cases depth <;> rfl
  | cons first place ih =>
    cases depth with
    | zero => cases directory
    | succ depth =>
      rw [nested] at directory
      split at directory
      · rename_i same
        rw [List.cons_append, nested, if_pos same]
        exact ih directory
      · cases directory

/-- Sixteen directories inside each other, on a system where a path may have 4095 bytes. -/
def deep : Filesystem where
  file := nested 16
  above := fun _ _ there => ⟨_, _, _, (nested_name there).2⟩
  named := fun _ _ there => (nested_name there).1 ▸ longName_proper
  listed := fun _ _ _ _ directory name inside => by
    obtain ⟨entries, there⟩ := nested_listed directory
    rw [entries, List.mem_singleton] at inside
    rw [inside]
    exact .inr (.inr there)
  pathMax := 4096
  symloopMax := 40

/-- The length of the path of one of the directories. -/
theorem trunk_replicate (depth : Nat) :
    (trunk (List.replicate depth longName)).length = 256 * depth := by
  induction depth with
  | zero => rfl
  | succ depth ih =>
    have name : longName.length = 255 := List.length_replicate
    rw [List.replicate_succ', trunk_append, List.length_append, List.length_cons, ih, name]
    omega

/-- In the last of sixteen directories with names of 255 bytes, the canonical path of the file has
4096 bytes. It is returned, although realpath fails. -/
theorem treeCurrentRealpath_tooLong : ∃ t t' name t'',
    treeOpen deep (List.replicate 15 longName) [] dot = .ok t ∧
    run deep t [.next, .descend, .next, .next] = .ok t' ∧ t'.visitType = .regular ∧
    treeCurrentRealpath deep t' = .ok (name, t'') ∧ ¬Agrees deep t' name := by
  have last : List.replicate 15 longName ++ [longName] = List.replicate 16 longName :=
    List.replicate_succ'.symm
  have files : deep.file = nested 16 := rfl
  have directory : deep.file (List.replicate 15 longName) =
      some (.directory [longName] true true) := by
    have depth : (16 : Nat) = 15 + 1 := rfl
    rw [files, depth, nested_replicate, nested]
  have file : deep.file (List.replicate 15 longName ++ [longName]) = some .other := by
    have depth : (16 : Nat) = 16 + 0 := rfl
    rw [files, last, depth, nested_replicate, nested]
  have full : (pathname (List.replicate 15 longName ++ [longName])).length = deep.pathMax := by
    rw [pathname_append, ← trunk_append, last, trunk_replicate]
    rfl
  have fits : (pathname (List.replicate 15 longName)).length < deep.pathMax := by
    have below : List.replicate 15 longName ≠ [] := by
      rw [ne_eq, List.replicate_eq_nil_iff]
      decide
    rw [pathname, if_neg below, trunk_replicate]
    decide
  exact run_full directory file full fits

end Directory

end Tarsnap.Tar.Traversal
