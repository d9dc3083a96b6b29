import Mathlib.Data.List.Induction
import Tarsnap.Lib.Except

/-!
# File systems

A file is known by the names of the directories above it and its own name, from the root on. Every
file but the root is in a directory, and has a name that can be part of a path. A path is resolved
one name after the other, symbolic links included, as the system calls do. The canonical path of a
file is the one that is resolved to it without symbolic links, dots and double slashes.
-/

namespace Tarsnap.Lib

/-- The name of a file in its directory. -/
abbrev FileName := List UInt8

/-- The byte that separates the names of a path. -/
def slash : UInt8 := 47

/-- The name of a directory in itself. -/
def dot : FileName := [46]

/-- The name of the directory above. -/
def dotDot : FileName := [46, 46]

/-- Why a system call fails. -/
inductive Errno where
  /-- No such file or directory. -/
  | noent
  /-- Not a directory. -/
  | notdir
  /-- Permission denied. -/
  | acces
  /-- Too many levels of symbolic links. -/
  | loop
  /-- The path is too long. -/
  | nametoolong
  /-- Not an open file. -/
  | badf
  /-- The buffer is too small. -/
  | range
  /-- Something else went wrong. -/
  | io
deriving DecidableEq, Repr

/-- What kind a file is of. -/
inductive FileType where
  /-- A directory. -/
  | directory
  /-- A symbolic link. -/
  | symlink
  /-- Any other file. -/
  | other
deriving DecidableEq, Repr

/-- A file. -/
inductive Inode where
  /-- A directory, in the order in which it is read, and whether it may be read and searched. -/
  | directory (entries : List FileName) (readable searchable : Bool)
  /-- A symbolic link. -/
  | symlink (target : List UInt8)
  /-- Any other file. -/
  | other
deriving DecidableEq, Repr

/-- The kind of a file. -/
def Inode.type : Inode → FileType
  | .directory .. => .directory
  | .symlink _ => .symlink
  | .other => .other

/-- A name that a file can have. -/
structure ProperName (name : FileName) : Prop where
  /-- It is not empty. -/
  nonempty : name ≠ []
  /-- It is one name. -/
  single : slash ∉ name
  /-- It is a string. -/
  string : 0 ∉ name
  /-- It is not the directory itself. -/
  notDot : name ≠ dot
  /-- It is not the directory above. -/
  notDotDot : name ≠ dotDot

/-- A file system, with the limits of the system calls. -/
structure Filesystem where
  /-- The files. -/
  file : List FileName → Option Inode
  /-- Every file but the root is in a directory. -/
  above : ∀ place name, (file (place ++ [name])).isSome →
    ∃ entries readable searchable, file place = some (.directory entries readable searchable)
  /-- Every file but the root has a proper name. -/
  named : ∀ place name, (file (place ++ [name])).isSome → ProperName name
  /-- What is read from a directory is there. -/
  listed : ∀ place entries readable searchable,
    file place = some (.directory entries readable searchable) →
      ∀ name ∈ entries, name = dot ∨ name = dotDot ∨ (file (place ++ [name])).isSome
  /-- How many bytes a path may have, with the zero at its end. -/
  pathMax : Nat
  /-- How many symbolic links may be followed. -/
  symloopMax : Nat

namespace Filesystem

section Resolution

variable (fs : Filesystem)

/-- The names of a path. They are empty at its slashes. -/
def components (path : List UInt8) : List FileName := path.splitOn slash

/-- Where the resolution of a path starts. -/
def origin (cwd : List FileName) (path : List UInt8) : List FileName :=
  if path.head? = some slash then [] else cwd

/-- Resolve names one after the other, up to a symbolic link that is followed. -/
def walk (link : List FileName → List UInt8 → List FileName → Except Errno (List FileName))
    (follow : Bool) : List FileName → List FileName → Except Errno (List FileName)
  | place, [] => .ok place
  | place, name :: names =>
    match fs.file place with
    | some (.directory _ _ searchable) =>
      if name = [] then walk link follow place names
      else if searchable = false then .error .acces
      else if name = dot then walk link follow place names
      else if name = dotDot then walk link follow place.dropLast names
      else
        match fs.file (place ++ [name]) with
        | none => .error .noent
        | some (.symlink target) =>
          if names = [] ∧ follow = false then .ok (place ++ [name]) else link place target names
        | some _ => walk link follow (place ++ [name]) names
    | _ => .error .notdir

/-- Resolve names, following so many symbolic links. -/
def walkLinks (follow : Bool) :
    Nat → List FileName → List FileName → Except Errno (List FileName)
  | 0 => fs.walk (fun _ _ _ => .error .loop) follow
  | links + 1 => fs.walk (fun place target names =>
      if target = [] then .error .noent
      else walkLinks follow links (origin place target) (components target ++ names)) follow

/-- The file that a path is resolved to. -/
def resolve (follow : Bool) (cwd : List FileName) (path : List UInt8) :
    Except Errno (List FileName) :=
  if fs.pathMax ≤ path.length then .error .nametoolong
  else if path = [] then .error .noent
  else fs.walkLinks follow fs.symloopMax (origin cwd path) (components path)

/-- The path of a file below the root. -/
def trunk (place : List FileName) : List UInt8 := place.flatMap fun name => slash :: name

/-- The canonical path of a file. -/
def pathname (place : List FileName) : List UInt8 := if place = [] then [slash] else trunk place

end Resolution

section Calls

variable (fs : Filesystem) (cwd : List FileName) (path : List UInt8)

/-- The kind of a file, or of the symbolic link to it. -/
def lstat : Except Errno FileType := do
  let place ← fs.resolve false cwd path
  match fs.file place with
  | some file => return file.type
  | none => .error .noent

/-- The kind of a file. -/
def stat : Except Errno FileType := do
  let place ← fs.resolve true cwd path
  match fs.file place with
  | some file => return file.type
  | none => .error .noent

/-- Make a directory the current one. -/
def enter (place : List FileName) : Except Errno (List FileName) :=
  match fs.file place with
  | some (.directory _ _ true) => .ok place
  | some (.directory _ _ false) => .error .acces
  | _ => .error .notdir

/-- Change the current directory. -/
def chdir : Except Errno (List FileName) := do
  let place ← fs.resolve true cwd path
  fs.enter place

/-- Change the current directory to an open one. -/
def fchdir (fd : Option (List FileName)) : Except Errno (List FileName) :=
  match fd with
  | none => .error .badf
  | some place => fs.enter place

/-- Open a directory: the directory, and the names that are read from it. -/
def opendir : Except Errno (List FileName × List FileName) := do
  let place ← fs.resolve true cwd path
  match fs.file place with
  | some (.directory entries true _) => return (place, entries)
  | some (.directory _ false _) => .error .acces
  | _ => .error .notdir

/-- The canonical path of what a path is resolved to, if it is not too long. -/
def realpath : Except Errno (List UInt8) := do
  let place ← fs.resolve true cwd path
  if (pathname place).length < fs.pathMax then return pathname place else .error .nametoolong

/-- The canonical path of the current directory, if it fits in so many bytes. -/
def getcwd (size : Nat) : Except Errno (List UInt8) :=
  if (pathname cwd).length < size then .ok (pathname cwd) else .error .range

end Calls

section Existence

variable {fs : Filesystem} {follow : Bool} {place result cwd : List FileName}
  {link : List FileName → List UInt8 → List FileName → Except Errno (List FileName)}

/-- A file is there, and it is no symbolic link if those are followed. -/
def Reached (fs : Filesystem) (follow : Bool) (place : List FileName) : Prop :=
  ∃ file, fs.file place = some file ∧ (follow = true → file.type ≠ .symlink)

/-- The directory above a directory is a directory, and the root is above itself. -/
theorem reached_dropLast {entries : List FileName} {readable searchable : Bool}
    (directory : fs.file place = some (.directory entries readable searchable)) :
    Reached fs follow place.dropLast := by
  rcases List.eq_nil_or_concat place with root | ⟨dir, name, inside⟩
  · rw [root] at directory ⊢
    exact ⟨_, directory, fun _ absurdity => nomatch absurdity⟩
  · rw [List.concat_eq_append] at inside
    rw [inside] at directory ⊢
    obtain ⟨_, _, _, above⟩ := fs.above dir name (by rw [directory]; rfl)
    rw [List.dropLast_concat]
    exact ⟨_, above, fun _ absurdity => nomatch absurdity⟩

/-- Names are resolved to a file, if this is so behind symbolic links. -/
theorem walk_reaches {names : List FileName}
    (linked : ∀ place target names, link place target names = .ok result →
      Reached fs follow result)
    (walked : fs.walk link follow place names = .ok result)
    (start : names ≠ [] ∨ Reached fs follow place) : Reached fs follow result := by
  induction names generalizing place with
  | nil =>
    rw [walk, Except.ok.injEq] at walked
    rw [← walked]
    exact start.resolve_left (fun absurdity => absurdity rfl)
  | cons name names ih =>
    rw [walk] at walked
    split at walked
    · rename_i searchable directory
      have here : Reached fs follow place :=
        ⟨_, directory, fun _ absurdity => nomatch absurdity⟩
      split at walked
      · exact ih walked (.inr here)
      · split at walked
        · cases walked
        · split at walked
          · exact ih walked (.inr here)
          · split at walked
            · exact ih walked (.inr (reached_dropLast directory))
            · split at walked
              · cases walked
              · rename_i there
                split at walked
                · rename_i last
                  rw [Except.ok.injEq] at walked
                  rw [← walked]
                  refine ⟨_, there, ?_⟩
                  intro follows
                  rw [last.2] at follows
                  cases follows
                · exact linked _ _ _ walked
              · rename_i plain there
                refine ih walked (.inr ⟨_, there, ?_⟩)
                intro _ isLink
                rename_i file _
                cases file with
                | symlink target => exact plain target rfl
                | directory _ _ _ => cases isLink
                | other => cases isLink
    · cases walked

/-- A path is resolved to a file. -/
theorem resolve_reaches {path : List UInt8} (resolved : fs.resolve follow cwd path = .ok result) :
    Reached fs follow result := by
  have linked (links : Nat) (place : List FileName) (target : List UInt8)
      (names : List FileName) :
      fs.walkLinks follow links place (components target ++ names) = .ok result →
        Reached fs follow result := by
    have some : components target ++ names ≠ [] :=
      fun none => List.splitOn_ne_nil slash target (List.append_eq_nil_iff.mp none).1
    induction links generalizing place target names with
    | zero =>
      intro walked
      rw [walkLinks] at walked
      refine walk_reaches ?_ walked (.inl some)
      intro _ _ _ further
      cases further
    | succ links ih =>
      intro walked
      refine walk_reaches ?_ walked (.inl some)
      intro place target names further
      split at further
      · cases further
      · apply ih _ _ _ _ further
        exact fun none => List.splitOn_ne_nil slash target (List.append_eq_nil_iff.mp none).1
  rw [resolve] at resolved
  split at resolved
  · cases resolved
  · split at resolved
    · cases resolved
    · apply linked fs.symloopMax (origin cwd path) path []
      rw [List.append_nil]
      exact resolved

/-- A path is resolved to a file. -/
theorem resolve_isSome {path : List UInt8} (resolved : fs.resolve follow cwd path = .ok result) :
    (fs.file result).isSome := by
  obtain ⟨file, there, _⟩ := resolve_reaches resolved
  rw [there]
  rfl

/-- The canonical path of a file is a string. -/
theorem trunk_string (there : (fs.file place).isSome) : 0 ∉ trunk place := by
  induction place using List.reverseRecOn with
  | nil => exact List.not_mem_nil
  | append_singleton place name ih =>
    obtain ⟨entries, readable, searchable, directory⟩ := fs.above place name there
    have outside : 0 ∉ trunk place := ih (by rw [directory]; rfl)
    rw [trunk, List.flatMap_append, List.mem_append, not_or]
    refine ⟨outside, ?_⟩
    rw [List.flatMap_singleton, List.mem_cons, not_or]
    exact ⟨by decide, (fs.named place name there).string⟩

/-- The canonical path of a file is a string. -/
theorem pathname_string (there : (fs.file place).isSome) : 0 ∉ pathname place := by
  rw [pathname]
  split
  · decide
  · exact trunk_string there

/-- What is returned for a path is a string that is not too long. -/
theorem realpath_ok {path name : List UInt8} (returned : fs.realpath cwd path = .ok name) :
    0 ∉ name ∧ name.length < fs.pathMax := by
  rw [realpath] at returned
  cases resolved : fs.resolve true cwd path with
  | error errno =>
    rw [resolved] at returned
    cases returned
  | ok target =>
    rw [resolved, ok_bind] at returned
    split at returned
    · rename_i short
      rw [pure_eq_ok, Except.ok.injEq] at returned
      rw [← returned]
      exact ⟨pathname_string (resolve_isSome resolved), short⟩
    · cases returned

/-- The canonical path of a file below the root has a name behind its first slash. -/
theorem pathname_below (there : (fs.file place).isSome) (below : place ≠ []) :
    ∃ byte bytes, pathname place = slash :: byte :: bytes ∧ byte ≠ 0 := by
  have string := pathname_string there
  rcases List.eq_nil_or_concat place with root | ⟨dir, name, inside⟩
  · exact absurd root below
  · rw [List.concat_eq_append] at inside
    have proper : ProperName name := fs.named dir name (inside ▸ there)
    have long : 2 ≤ (pathname place).length := by
      have some := List.length_pos_iff.mpr proper.nonempty
      rw [pathname, if_neg below, inside, trunk, List.flatMap_append, List.flatMap_singleton,
        List.length_append, List.length_cons]
      omega
    obtain ⟨first, rest, names⟩ := List.exists_cons_of_ne_nil below
    have path : pathname place = slash :: (first ++ trunk rest) := by
      rw [pathname, if_neg below, names]
      rfl
    rw [path] at string long ⊢
    cases tail : first ++ trunk rest with
    | nil =>
      rw [tail] at long
      exact absurd long (by decide)
    | cons byte bytes =>
      refine ⟨byte, bytes, rfl, ?_⟩
      rintro rfl
      rw [tail] at string
      exact string (List.mem_cons_of_mem _ List.mem_cons_self)

/-- The names of a path below the root. -/
theorem components_trunk (there : (fs.file place).isSome) :
    components (trunk place) = [] :: place := by
  induction place using List.reverseRecOn with
  | nil => rfl
  | append_singleton place name ih =>
    obtain ⟨entries, readable, searchable, directory⟩ := fs.above place name there
    have before : (trunk place).splitOn slash = [] :: place := ih (by rw [directory]; rfl)
    have path : trunk (place ++ [name]) = trunk place ++ slash :: name := by
      rw [trunk, List.flatMap_append, List.flatMap_singleton]
      rfl
    rw [components, path, List.splitOn_append_cons_self, before,
      List.splitOn_eq_singleton (fs.named place name there).single]
    rfl

/-- Two files have different canonical paths. -/
theorem pathname_injective {other : List FileName} (there : (fs.file place).isSome)
    (there' : (fs.file other).isSome) (same : pathname place = pathname other) :
    place = other := by
  by_cases root : place = []
  · by_cases root' : other = []
    · rw [root, root']
    · obtain ⟨byte, bytes, path, _⟩ := pathname_below there' root'
      rw [pathname, if_pos root, path] at same
      cases same
  · by_cases root' : other = []
    · obtain ⟨byte, bytes, path, _⟩ := pathname_below there root
      rw [path, pathname, if_pos root'] at same
      cases same
    · rw [pathname, if_neg root, pathname, if_neg root'] at same
      have names := congrArg components same
      rw [components_trunk there, components_trunk there'] at names
      exact (List.cons.inj names).2

/-- The canonical path of a symbolic link is not what is returned for a path. -/
theorem realpath_ne_symlink {path : List UInt8} {target : List UInt8}
    (link : fs.file place = some (.symlink target)) :
    fs.realpath cwd path ≠ .ok (pathname place) := by
  intro returned
  rw [realpath] at returned
  cases resolved : fs.resolve true cwd path with
  | error errno =>
    rw [resolved] at returned
    cases returned
  | ok result =>
    rw [resolved, ok_bind] at returned
    split at returned
    · rw [pure_eq_ok, Except.ok.injEq] at returned
      obtain ⟨file, there, plain⟩ := resolve_reaches resolved
      have same : result = place :=
        pathname_injective (resolve_isSome resolved) (by rw [link]; rfl) returned
      rw [same, link, Option.some.injEq] at there
      apply plain rfl
      rw [← there]
      rfl
    · cases returned

/-- The canonical path of a file starts with its path below the root. -/
theorem trunk_front (place : List FileName) : trunk place <+: pathname place := by
  rw [pathname]
  split
  · rename_i root
    rw [root]
    exact List.nil_prefix
  · exact List.prefix_rfl

end Existence

section Names

variable {fs : Filesystem} {follow : Bool} {place : List FileName} {name : FileName} {file : Inode}
  {entries : List FileName} {readable : Bool}

/-- The path of a file in a directory. -/
theorem trunk_append : trunk (place ++ [name]) = trunk place ++ slash :: name := by
  rw [trunk, List.flatMap_append, List.flatMap_singleton]
  rfl

/-- The canonical path of a file in a directory. -/
theorem pathname_append : pathname (place ++ [name]) = trunk place ++ slash :: name := by
  rw [pathname, if_neg (List.append_ne_nil_of_right_ne_nil place (List.cons_ne_nil name [])),
    trunk_append]

/-- The name of a file in the current directory is resolved to the file, unless it is a symbolic
link that is followed. -/
theorem resolve_name (directory : fs.file place = some (.directory entries readable true))
    (there : fs.file (place ++ [name]) = some file) (short : name.length < fs.pathMax)
    (plain : follow = false ∨ file.type ≠ .symlink) :
    fs.resolve follow place name = .ok (place ++ [name]) := by
  have proper : ProperName name := fs.named place name (by rw [there]; rfl)
  have relative : origin place name = place := by
    rw [origin, if_neg]
    intro absolute
    exact proper.single (List.mem_of_mem_head? absolute)
  have single : components name = [name] := List.splitOn_eq_singleton proper.single
  have walked (link) : fs.walk link follow place [name] = .ok (place ++ [name]) := by
    rw [walk, directory]
    simp only [if_neg proper.nonempty, if_neg proper.notDot, if_neg proper.notDotDot, there]
    cases file with
    | symlink target =>
      have stays : follow = false := plain.resolve_right (fun other => other rfl)
      simp [stays]
    | directory _ _ _ => simp [walk]
    | other => simp [walk]
  rw [resolve, if_neg (Nat.not_le.mpr short), if_neg proper.nonempty, relative, single]
  cases fs.symloopMax with
  | zero => exact walked _
  | succ links => exact walked _

/-- The kind of a file in the current directory. -/
theorem lstat_name (directory : fs.file place = some (.directory entries readable true))
    (there : fs.file (place ++ [name]) = some file) (short : name.length < fs.pathMax) :
    fs.lstat place name = .ok file.type := by
  rw [lstat, resolve_name directory there short (.inl rfl), ok_bind]
  simp only [there]
  rfl

/-- The canonical path of a file in the current directory that is not a symbolic link. -/
theorem realpath_name (directory : fs.file place = some (.directory entries readable true))
    (there : fs.file (place ++ [name]) = some file) (short : name.length < fs.pathMax)
    (plain : file.type ≠ .symlink) : fs.realpath place name =
      if (pathname (place ++ [name])).length < fs.pathMax then .ok (pathname (place ++ [name]))
      else .error .nametoolong := by
  rw [realpath, resolve_name directory there short (.inr plain), ok_bind]
  rfl

end Names

section Directories

variable {fs : Filesystem} {cwd place : List FileName} {path : List UInt8}

/-- A directory that is made the current one can be searched. -/
theorem enter_ok (entered : fs.enter cwd = .ok place) :
    ∃ entries readable, fs.file place = some (.directory entries readable true) := by
  rw [enter] at entered
  split at entered
  · rename_i directory
    rw [Except.ok.injEq] at entered
    rw [← entered]
    exact ⟨_, _, directory⟩
  · cases entered
  · cases entered

/-- Changing the current directory leads to a directory that can be searched. -/
theorem chdir_ok (changed : fs.chdir cwd path = .ok place) :
    ∃ entries readable, fs.file place = some (.directory entries readable true) := by
  rw [chdir] at changed
  cases resolved : fs.resolve true cwd path with
  | error errno =>
    rw [resolved] at changed
    cases changed
  | ok target =>
    rw [resolved, ok_bind] at changed
    exact enter_ok changed

/-- Changing the current directory to an open one leads to a directory that can be searched. -/
theorem fchdir_ok {fd : Option (List FileName)} (changed : fs.fchdir fd = .ok place) :
    ∃ entries readable, fs.file place = some (.directory entries readable true) := by
  cases fd with
  | none => cases changed
  | some target => exact enter_ok changed

/-- The current directory is resolved to itself. -/
theorem resolve_dot (resolved : fs.resolve true cwd dot = .ok place) :
    place = cwd ∧ ∃ entries readable, fs.file cwd = some (.directory entries readable true) := by
  have walked {link} (done : fs.walk link true cwd [dot] = .ok place) :
      place = cwd ∧ ∃ entries readable, fs.file cwd = some (.directory entries readable true) := by
    have other : dot ≠ [] := List.cons_ne_nil _ _
    rw [walk] at done
    split at done
    · rename_i searchable directory
      rw [if_neg other] at done
      cases searchable with
      | false => cases done
      | true =>
        rw [if_neg (by decide), if_pos rfl, walk, Except.ok.injEq] at done
        exact ⟨done.symm, _, _, directory⟩
    · cases done
  have single : components dot = [dot] := List.splitOn_eq_singleton (by decide)
  have relative : origin cwd dot = cwd := if_neg (by decide)
  rw [resolve, single, relative] at resolved
  split at resolved
  · cases resolved
  · split at resolved
    · cases resolved
    · cases links : fs.symloopMax with
      | zero =>
        rw [links] at resolved
        exact walked resolved
      | succ _ =>
        rw [links] at resolved
        exact walked resolved

/-- A directory that can be searched is resolved to itself. -/
theorem resolve_self {follow : Bool} {entries : List FileName} {readable : Bool}
    (directory : fs.file cwd = some (.directory entries readable true)) (short : 1 < fs.pathMax) :
    fs.resolve follow cwd dot = .ok cwd := by
  have walked (link) : fs.walk link follow cwd [dot] = .ok cwd := by
    have other : dot ≠ [] := List.cons_ne_nil _ _
    rw [walk, directory]
    simp only [if_neg other, if_true, walk]
    rfl
  have single : components dot = [dot] := List.splitOn_eq_singleton (by decide)
  have relative : origin cwd dot = cwd := if_neg (by decide)
  have fits : ¬fs.pathMax ≤ dot.length := Nat.not_le.mpr short
  have some : dot ≠ [] := List.cons_ne_nil _ _
  rw [resolve, if_neg fits, if_neg some, single, relative]
  cases fs.symloopMax with
  | zero => exact walked _
  | succ links => exact walked _

/-- What is read from the current directory is in it. -/
theorem opendir_dot {entries : List FileName} (opened : fs.opendir cwd dot = .ok (place, entries)) :
    place = cwd ∧ ∃ readable, fs.file cwd = some (.directory entries readable true) := by
  rw [opendir] at opened
  cases resolved : fs.resolve true cwd dot with
  | error errno =>
    rw [resolved] at opened
    cases opened
  | ok target =>
    obtain ⟨rfl, entries', readable, directory⟩ := resolve_dot resolved
    rw [resolved, ok_bind, directory] at opened
    cases readable with
    | false => cases opened
    | true =>
      simp only at opened
      rw [pure_eq_ok, Except.ok.injEq, Prod.mk.injEq] at opened
      obtain ⟨rfl, rfl⟩ := opened
      exact ⟨rfl, true, directory⟩

end Directories

end Filesystem

end Tarsnap.Lib
