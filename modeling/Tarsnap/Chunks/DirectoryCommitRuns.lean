import Tarsnap.Chunks.DirectoryCommit

/-!
# Moving a chunk directory file is safe against crashes

While a file is moved, the old name stands for it on the disk, with at most changes of the new name
pending, or the new name stands for it and the old name is being removed, or a rename is pending.
Each system call leads from one of these to one of these, whether it succeeds or not, and so does a
failure of the power. Whichever of them an attempt finds, it goes on from there.
-/

namespace Tarsnap.Chunks

open Tarsnap.Lib Program

section Progress

variable {osuff nsuff : Name} {ino : Nat} {D : Delayed Name Nat}

/-- The old name stands for the file, and only the new name is being changed. -/
structure Waiting (osuff nsuff : Name) (ino : Nat) (D : Delayed Name Nat) : Prop where
  /-- The old name stands for the file. -/
  disk : D.disk osuff = some ino
  /-- Only the new name is being changed. -/
  pending : ∀ change ∈ D.pending, ∀ set ∈ change, set.1 = nsuff

/-- How far a move has come. -/
inductive Progress (osuff nsuff : Name) (ino : Nat) (D : Delayed Name Nat) : Prop where
  /-- The file has its old name. -/
  | waiting (waiting : Waiting osuff nsuff ino D)
  /-- The file has its new name, and the old name is removed. -/
  | linked (disk : D.disk nsuff = some ino)
    (old : D.disk osuff = some ino ∨ D.disk osuff = none)
    (pending : ∀ change ∈ D.pending, change = [(osuff, none)])
  /-- The file is renamed. -/
  | renamed (before : List (Change Name Nat)) (disk : D.disk osuff = some ino)
    (last : D.pending = before ++ [[(nsuff, some ino), (osuff, none)]])
    (pending : ∀ change ∈ before, ∀ set ∈ change, set.1 = nsuff)

/-- A name whose removal is pending stands for what it did or for nothing. -/
theorem assignAll_removed {path : Name} {changes : List (Change Name Nat)}
    (removed : ∀ change ∈ changes, change = [(path, none)]) (map : Name → Option Nat) :
    changes = [] ∨ Delayed.assignAll map changes path = none := by
  rcases List.eq_nil_or_concat' changes with rfl | ⟨front, last, rfl⟩
  · exact .inl rfl
  · right
    have here := removed last (List.mem_append_right _ List.mem_cons_self)
    unfold Delayed.assignAll
    rw [List.foldl_append, here]
    exact Function.update_self ..

/-- A rename gives the file its new name and takes its old one. -/
theorem assign_renamed (apart : osuff ≠ nsuff) (map : Name → Option Nat) :
    Delayed.assign map [(nsuff, some ino), (osuff, none)] nsuff = some ino ∧
      Delayed.assign map [(nsuff, some ino), (osuff, none)] osuff = none := by
  constructor
  · change Function.update (Function.update map nsuff (some ino)) osuff none nsuff = some ino
    rw [Function.update_of_ne apart.symm, Function.update_self]
  · exact Function.update_self ..

/-- The old name stands for the file as long as only the new name is changed. -/
theorem Waiting.outcome (waiting : Waiting osuff nsuff ino D) (apart : osuff ≠ nsuff)
    {map : Name → Option Nat} (found : D.Outcome map) : map osuff = some ino := by
  rw [found.of_notMem, waiting.disk]
  intro change member set inside same
  exact apart (same.symm.trans (waiting.pending change member set inside))

/-- Whatever is found on the disk, the move has come this far. -/
theorem Progress.settled (progress : Progress osuff nsuff ino D) (apart : osuff ≠ nsuff)
    {map : Name → Option Nat} (found : D.Outcome map) : Progress osuff nsuff ino ⟨map, []⟩ := by
  have nothing (rule : Change Name Nat → Prop) : ∀ change ∈ [], rule change :=
    fun _ member => nomatch member
  cases progress with
  | waiting waiting => exact .waiting ⟨waiting.outcome apart found, nothing _⟩
  | linked disk old pending =>
    refine .linked ?_ ?_ (nothing _)
    · apply (found.of_notMem ?_).trans disk
      intro change member set inside same
      rw [pending change member, List.mem_singleton] at inside
      rw [inside] at same
      exact apart same
    · obtain ⟨kept, part, rfl⟩ := found
      rcases assignAll_removed (fun change member => pending change (part.subset member))
        D.disk with rfl | removed
      · exact old
      · exact .inr removed
  | renamed before disk last pending =>
    obtain ⟨kept, part, rfl⟩ := found
    rw [last, List.sublist_append_iff] at part
    obtain ⟨first, second, rfl, early, late⟩ := part
    have still : Delayed.assignAll D.disk first osuff = some ino := by
      rw [Delayed.assignAll_of_notMem, disk]
      intro change member set inside same
      exact apart (same.symm.trans (pending change (early.subset member) set inside))
    rcases List.sublist_singleton.mp late with rfl | rfl
    · rw [List.append_nil]
      exact .waiting ⟨still, nothing _⟩
    · have both : Delayed.assign (Delayed.assignAll D.disk first)
          [(nsuff, some ino), (osuff, none)] nsuff = some ino ∧ _ := assign_renamed apart _
      unfold Delayed.assignAll at both ⊢
      rw [List.foldl_append]
      exact .linked both.1 (.inr both.2) (nothing _)

/-- The file is on the disk under one of its names. -/
theorem Progress.durable (progress : Progress osuff nsuff ino D) (apart : osuff ≠ nsuff)
    {map : Name → Option Nat} (found : D.Outcome map) :
    map osuff = some ino ∨ map nsuff = some ino := by
  cases progress.settled apart found with
  | waiting waiting => exact .inl waiting.disk
  | linked disk _ _ => exact .inr disk
  | renamed _ disk _ _ => exact .inl disk

/-- If the old name is there, only the new name is being changed. -/
theorem Progress.here (progress : Progress osuff nsuff ino D) (apart : osuff ≠ nsuff)
    (there : D.current osuff ≠ none) : Waiting osuff nsuff ino D := by
  cases progress with
  | waiting waiting => exact waiting
  | linked disk old pending =>
    rcases assignAll_removed pending D.disk with none | removed
    · refine ⟨?_, by rw [none]; exact fun _ member => nomatch member⟩
      rcases old with old | old
      · exact old
      · unfold Delayed.current at there
        rw [none] at there
        exact absurd old there
    · exact absurd removed there
  | renamed before disk last pending =>
    unfold Delayed.current Delayed.assignAll at there
    rw [last, List.foldl_append] at there
    exact absurd (assign_renamed apart _).2 there

/-- If the old name is gone, the new name stands for the file. -/
theorem Progress.gone (progress : Progress osuff nsuff ino D) (apart : osuff ≠ nsuff)
    (gone : D.current osuff = none) : D.current nsuff = some ino := by
  rcases progress.durable apart D.outcome_current with old | new
  · rw [gone] at old
    cases old
  · exact new

/-- While a file is moved, no other name is changed. -/
theorem Progress.elsewhere (progress : Progress osuff nsuff ino D) {other : Name}
    (notOld : other ≠ osuff) (notNew : other ≠ nsuff) :
    ∀ change ∈ D.pending, ∀ set ∈ change, set.1 ≠ other := by
  cases progress with
  | waiting waiting =>
    rintro change member set inside rfl
    exact notNew (waiting.pending change member set inside)
  | linked disk old pending =>
    rintro change member set inside rfl
    rw [pending change member, List.mem_singleton] at inside
    exact notOld (congrArg Prod.fst inside)
  | renamed before disk last pending =>
    rintro change member set inside rfl
    rw [last] at member
    rcases List.mem_append.mp member with early | late
    · exact notNew (pending change early set inside)
    · rw [List.mem_singleton.mp late] at inside
      rcases List.mem_cons.mp inside with first | rest
      · exact notNew (congrArg Prod.fst first)
      · exact notOld (congrArg Prod.fst (List.mem_singleton.mp rest))

end Progress

section Moves

variable {File : Type} {osuff nsuff : Name} {ino : Nat} {start : FileSystem File}

/-- A move from a state, as far as it has come. -/
structure Moves (osuff nsuff : Name) (ino : Nat) (start fs : FileSystem File) : Prop where
  /-- How far the move has come. -/
  progress : Progress osuff nsuff ino fs.names
  /-- The other names are not changed. -/
  elsewhere : ∀ other, other ≠ osuff → other ≠ nsuff →
    fs.names.disk other = start.names.disk other
  /-- No file is changed. -/
  contents : fs.contents = start.contents

/-- What is found on the disk is a move that has come this far. -/
theorem Moves.settled (moves : Moves osuff nsuff ino start fs) (apart : osuff ≠ nsuff)
    {map : Name → Option Nat} (found : fs.names.Outcome map) :
    Moves osuff nsuff ino start { fs with names := ⟨map, []⟩ } where
  progress := moves.progress.settled apart found
  elsewhere other notOld notNew :=
    (found.of_notMem (moves.progress.elsewhere notOld notNew)).trans
      (moves.elsewhere other notOld notNew)
  contents := moves.contents

/-- A change that is noted. -/
theorem Moves.note (moves : Moves osuff nsuff ino start fs) {change : Change Name Nat}
    (progress : Progress osuff nsuff ino (fs.names.note change)) :
    Moves osuff nsuff ino start (fs.change change) :=
  ⟨progress, moves.elsewhere, moves.contents⟩

/-- A change of the new name leaves the file waiting. -/
theorem Waiting.note {D : Delayed Name Nat} (waiting : Waiting osuff nsuff ino D)
    (value : Option Nat) : Waiting osuff nsuff ino (D.note [(nsuff, value)]) := by
  refine ⟨waiting.disk, ?_⟩
  intro change member set inside
  rcases List.mem_append.mp member with before | new
  · exact waiting.pending change before set inside
  · rw [List.mem_singleton.mp new, List.mem_singleton] at inside
    rw [inside]

/-- A name after a change. -/
theorem entry_change (fs : FileSystem File) (path : Name) (value : Option Nat) :
    (fs.change [(path, value)]).entry path = value := by
  unfold FileSystem.entry FileSystem.change
  rw [Delayed.current_note]
  exact Function.update_self ..

/-- A contract that a move keeps. -/
def moveContract (osuff nsuff : Name) (ino : Nat) (start : FileSystem File) :
    Contract DirCall (FileSystem File) where
  always := Moves osuff nsuff ino start
  each _ _ _ _ := True

/-- A system call always has an answer. -/
theorem dirDoes_answered {β : Type} {c : DirCall β} {before after : FileSystem File} :
    ¬ dirDoes c before none after := by
  intro step
  cases c with
  | lstat =>
    rcases step with ⟨_, absurdity | absurdity⟩ <;> cases absurdity
  | unlink =>
    rcases step with ⟨absurdity, _⟩ | ⟨absurdity, _⟩ <;> cases absurdity
  | link =>
    rcases step with ⟨absurdity | absurdity, _⟩ | ⟨absurdity, _⟩ <;> cases absurdity
  | rename =>
    rcases step with ⟨absurdity, _⟩ | ⟨absurdity, _⟩ <;> cases absurdity
  | fsyncdir =>
    rcases step with ⟨absurdity, _⟩ | ⟨absurdity, _⟩ <;> cases absurdity

/-- A system call, by what it leads to. -/
theorem triple_call {β : Type} {contract : Contract DirCall (FileSystem File)}
    (each : ∀ {β : Type} (c : DirCall β) before value after, contract.each c before value after)
    {c : DirCall β} {pre : FileSystem File → Prop} {ends : β → FileSystem File → Prop}
    (here : ∀ fs, pre fs → contract.always fs)
    (answer : ∀ before value after, pre before → dirDoes c before (some value) after →
      contract.always after ∧ ends value after) :
    (dirMachine File).Triple contract pre (call c) ends := by
  have stands (assertion : FileSystem File → Prop)
      (implies : ∀ fs, assertion fs → contract.always fs) :
      (dirMachine File).Stands contract assertion :=
    ⟨implies, fun _ _ _ absurdity => absurdity.elim⟩
  refine @Machine.Triple.act _ _ _ _ _ contract ends c Program.done pre
    (fun value fs => contract.always fs ∧ ends value fs) (stands pre here) ?_ ?_ fun value =>
      Machine.Triple.done (stands _ fun fs holds => holds.1) fun fs holds => holds.2
  · exact fun before after _ step => absurd step dirDoes_answered
  · exact fun before value after holds step => ⟨each c before value after,
      answer before value after holds step⟩

/-- A program that ends at once. -/
theorem triple_done {contract : Contract DirCall (FileSystem File)} {value : Bool}
    {pre : FileSystem File → Prop} {ends : Bool → FileSystem File → Prop}
    (here : ∀ fs, pre fs → contract.always fs) (implies : ∀ fs, pre fs → ends value fs) :
    (dirMachine File).Triple contract pre (Program.done value) ends :=
  Machine.Triple.done ⟨here, fun _ _ _ absurdity => absurdity.elim⟩ implies

/-- How a part of a move ends: if it succeeds, the old name is gone. -/
def Gone (osuff : Name) (ok : Bool) (fs : FileSystem File) : Prop :=
  ok = true → fs.entry osuff = none

/-- The file has its old name, and the new name is as given. -/
def Ready (osuff nsuff : Name) (ino : Nat) (start : FileSystem File) (new : Option Nat)
    (fs : FileSystem File) : Prop :=
  Moves osuff nsuff ino start fs ∧ Waiting osuff nsuff ino fs.names ∧ fs.entry nsuff = new

/-- The file has both names on the disk. -/
def Linked (osuff nsuff : Name) (ino : Nat) (start fs : FileSystem File) : Prop :=
  Moves osuff nsuff ino start fs ∧ fs.names.disk osuff = some ino ∧
    fs.names.disk nsuff = some ino ∧ fs.names.pending = []

/-- The file has lost its old name. -/
def Unlinked (osuff nsuff : Name) (ino : Nat) (start fs : FileSystem File) : Prop :=
  Moves osuff nsuff ino start fs ∧ fs.entry osuff = none

/-- Synchronizing the directory when the old name is gone. -/
theorem fsyncdir_triple (apart : osuff ≠ nsuff) :
    (dirMachine File).Triple (moveContract osuff nsuff ino start)
      (Unlinked osuff nsuff ino start) (call .fsyncdir) (Gone osuff) := by
  refine triple_call (fun _ _ _ _ => trivial) (fun _ holds => holds.1) ?_
  rintro before value after ⟨moves, gone⟩ (⟨answer, rfl⟩ | ⟨answer, rfl⟩)
  · cases answer
    exact ⟨moves, fun absurdity => nomatch absurdity⟩
  · exact ⟨moves.settled apart before.names.outcome_current, fun _ => gone⟩

/-- Removing the old name of a file that has its new name. -/
theorem linkdone_triple (apart : osuff ≠ nsuff) :
    (dirMachine File).Triple (moveContract osuff nsuff ino start)
      (Ready osuff nsuff ino start (some ino)) (linkdone osuff) (Gone osuff) := by
  have synced : (dirMachine File).Triple (moveContract osuff nsuff ino start)
      (Ready osuff nsuff ino start (some ino)) (call .fsyncdir)
      fun ok fs => ok = true → Linked osuff nsuff ino start fs := by
    refine triple_call (fun _ _ _ _ => trivial) (fun _ holds => holds.1) ?_
    rintro before value after ⟨moves, waiting, new⟩ (⟨answer, rfl⟩ | ⟨answer, rfl⟩)
    · cases answer
      exact ⟨moves, fun absurdity => nomatch absurdity⟩
    · have settled := moves.settled apart before.names.outcome_current
      have old := waiting.outcome apart before.names.outcome_current
      exact ⟨settled, fun _ => ⟨settled, old, new, rfl⟩⟩
  have unlinked : (dirMachine File).Triple (moveContract osuff nsuff ino start)
      (Linked osuff nsuff ino start) (call (.unlink osuff))
      fun ok fs => ok = true → Unlinked osuff nsuff ino start fs := by
    refine triple_call (fun _ _ _ _ => trivial) (fun _ holds => holds.1) ?_
    rintro before value after ⟨moves, old, new, none⟩ (⟨answer, rfl⟩ | ⟨answer, _, rfl⟩)
    · cases answer
      exact ⟨moves, fun absurdity => nomatch absurdity⟩
    · have removing : Progress osuff nsuff ino (before.names.note [(osuff, Option.none)]) := by
        refine .linked new (.inl old) ?_
        unfold Delayed.note
        rw [none, List.nil_append]
        exact fun change member => List.mem_singleton.mp member
      have noted := moves.note removing
      exact ⟨noted, fun _ => ⟨noted, entry_change before osuff Option.none⟩⟩
  exact synced.ensure (unlinked.ensure (fsyncdir_triple apart))

/-- Renaming a file to a free name. -/
theorem rename_triple (apart : osuff ≠ nsuff) :
    (dirMachine File).Triple (moveContract osuff nsuff ino start)
      (Ready osuff nsuff ino start none) (call (.rename osuff nsuff))
      fun ok fs => ok = true → Unlinked osuff nsuff ino start fs := by
  refine triple_call (fun _ _ _ _ => trivial) (fun _ holds => holds.1) ?_
  rintro before value after ⟨moves, waiting, free⟩ (⟨answer, rfl⟩ | ⟨answer, found, there, rfl⟩)
  · cases answer
    exact ⟨moves, fun absurdity => nomatch absurdity⟩
  · obtain rfl : found = ino := by
      have old := waiting.outcome apart before.names.outcome_current
      exact Option.some.inj (there.symm.trans old)
    rw [if_neg (by rw [free]; exact fun absurdity => nomatch absurdity)]
    have noted := moves.note (.renamed before.names.pending waiting.disk rfl waiting.pending)
    refine ⟨noted, fun _ => ⟨noted, ?_⟩⟩
    unfold FileSystem.entry FileSystem.change
    rw [Delayed.current_note]
    exact (assign_renamed apart _).2

/-- Giving a file a free name. -/
theorem linkOrRename_triple (apart : osuff ≠ nsuff) :
    (dirMachine File).Triple (moveContract osuff nsuff ino start)
      (Ready osuff nsuff ino start none) (linkOrRename osuff nsuff) (Gone osuff) := by
  have link : (dirMachine File).Triple (moveContract osuff nsuff ino start)
      (Ready osuff nsuff ino start none) (call (.link osuff nsuff))
      fun result fs => Ready osuff nsuff ino start
        (if result = LinkResult.linked then some ino else none) fs := by
    refine triple_call (fun _ _ _ _ => trivial) (fun _ holds => holds.1) ?_
    rintro before value after ⟨moves, waiting, free⟩
      (⟨answer, rfl⟩ | ⟨answer, _, found, there, rfl⟩)
    · refine ⟨moves, moves, waiting, ?_⟩
      rw [if_neg (by rcases answer with answer | answer <;> cases answer <;> decide)]
      exact free
    · cases answer
      obtain rfl : found = ino := by
        have old := waiting.outcome apart before.names.outcome_current
        exact Option.some.inj (there.symm.trans old)
      have noted := moves.note (.waiting (waiting.note (some found)))
      exact ⟨noted, noted, waiting.note (some found), entry_change before nsuff (some found)⟩
  refine link.bind fun result => ?_
  cases result with
  | linked => exact linkdone_triple apart
  | unsupported => exact (rename_triple apart).ensure (fsyncdir_triple apart)
  | failed => exact triple_done (fun _ holds => holds.1) fun _ _ absurdity => nomatch absurdity

/-- Looking at a name. -/
theorem lstat_triple {contract : Contract DirCall (FileSystem File)}
    (each : ∀ {β : Type} (c : DirCall β) before value after, contract.each c before value after)
    {pre : FileSystem File → Prop} (here : ∀ fs, pre fs → contract.always fs) (path : Name) :
    (dirMachine File).Triple contract pre (call (.lstat path))
      fun answer fs => pre fs ∧ (answer = none ∨ answer = some (fs.entry path)) := by
  refine triple_call each here ?_
  rintro before value after holds ⟨rfl, answer⟩
  refine ⟨here _ holds, holds, ?_⟩
  rcases answer with answer | answer
  · exact .inl (Option.some.inj answer)
  · exact .inr (Option.some.inj answer)

/-- Moving a file. -/
theorem chunksDirectoryCommit_triple (apart : osuff ≠ nsuff) :
    (dirMachine File).Triple (moveContract osuff nsuff ino start)
      (Moves osuff nsuff ino start) (chunksDirectoryCommit osuff nsuff) (Gone osuff) := by
  refine (lstat_triple (fun _ _ _ _ => trivial) (fun _ holds => holds) osuff).bind fun answer => ?_
  rcases answer with failed | absent | sbt
  · exact triple_done (fun _ holds => holds.1) fun _ _ absurdity => nomatch absurdity
  · refine triple_done (fun _ holds => holds.1) fun fs holds _ => ?_
    exact (Option.some.inj (holds.2.resolve_left (fun absurdity => nomatch absurdity))).symm
  refine (lstat_triple (fun _ _ _ _ => trivial) (fun _ holds => holds.1) nsuff).bind
    fun answer => ?_
  have ready (new : Option Nat) (fs : FileSystem File)
      (holds : (Moves osuff nsuff ino start fs ∧
        (some (some sbt) = Option.none ∨ some (some sbt) = some (fs.entry osuff))) ∧
          (some new = Option.none ∨ some new = some (fs.entry nsuff))) :
      sbt = ino ∧ Ready osuff nsuff ino start new fs := by
    have old := Option.some.inj (holds.1.2.resolve_left fun absurdity => nomatch absurdity)
    have here := Option.some.inj (holds.2.resolve_left fun absurdity => nomatch absurdity)
    have waiting := holds.1.1.progress.here apart
      (by
        change fs.entry osuff ≠ Option.none
        rw [← old]
        exact Option.some_ne_none sbt)
    have same := waiting.outcome apart fs.names.outcome_current
    exact ⟨Option.some.inj (old.trans same), holds.1.1, waiting, here.symm⟩
  rcases answer with failed | absent | sbs
  · exact triple_done (fun _ holds => holds.1.1) fun _ _ absurdity => nomatch absurdity
  · exact (linkOrRename_triple apart).strengthen fun fs holds => (ready Option.none fs holds).2
  change (dirMachine File).Triple _ _ (if sbs ≠ sbt then
    ensure (call (.unlink nsuff)) (linkOrRename osuff nsuff) else linkdone osuff) _
  by_cases other : sbs ≠ sbt
  · rw [if_pos other]
    have cleared : (dirMachine File).Triple (moveContract osuff nsuff ino start)
        (Ready osuff nsuff ino start (some sbs)) (call (.unlink nsuff))
        fun ok fs => ok = true → Ready osuff nsuff ino start Option.none fs := by
      refine triple_call (fun _ _ _ _ => trivial) (fun _ holds => holds.1) ?_
      rintro before value after ⟨moves, waiting, _⟩ (⟨answer, rfl⟩ | ⟨answer, _, rfl⟩)
      · cases answer
        exact ⟨moves, fun absurdity => nomatch absurdity⟩
      · have noted := moves.note (.waiting (waiting.note Option.none))
        exact ⟨noted, fun _ => ⟨noted, waiting.note Option.none,
          entry_change before nsuff Option.none⟩⟩
    exact (cleared.ensure (linkOrRename_triple apart)).strengthen
      fun fs holds => (ready (some sbs) fs holds).2
  · rw [if_neg other, Decidable.not_not.mp other]
    intro fs holds
    obtain ⟨rfl, here⟩ := ready _ fs holds
    exact linkdone_triple apart fs here

/-- A move stays a move, however it is attempted. -/
theorem Attempted.moves (apart : osuff ≠ nsuff) (begins : Moves osuff nsuff ino start start)
    {fs : FileSystem File} (attempted : Attempted (chunksDirectoryCommit osuff nsuff) start fs) :
    Moves osuff nsuff ino start fs := by
  induction attempted with
  | start => exact begins
  | run _ runs ih => exact ((chunksDirectoryCommit_triple apart _ ih).runs runs).holds
  | sync _ ih => exact ih.settled apart (Delayed.outcome_current _)
  | power _ fails ih =>
    obtain ⟨map, found, rfl⟩ := fails
    exact ih.settled apart found

/-- An attempt that returns zero has moved the file. -/
theorem Returns.moved (apart : osuff ≠ nsuff) (begins : Moves osuff nsuff ino start start)
    {finish : FileSystem File} (returns : Returns (chunksDirectoryCommit osuff nsuff) start
      finish) :
    Moves osuff nsuff ino start finish ∧ finish.entry osuff = none ∧
      finish.entry nsuff = some ino := by
  obtain ⟨fs, attempted, runs⟩ := returns
  have safe := (chunksDirectoryCommit_triple apart fs (attempted.moves apart begins)).runs runs
  have gone := safe.result rfl
  exact ⟨safe.holds, gone, safe.holds.progress.gone apart gone⟩

/-- If there is no file to move, nothing is changed. -/
theorem Attempted.absent (synced : start.names.pending = []) (absent : start.entry osuff = none)
    {fs : FileSystem File} (attempted : Attempted (chunksDirectoryCommit osuff nsuff) start fs) :
    fs = start := by
  have same (map : Name → Option Nat) (found : start.names.Outcome map) :
      ({ start with names := ⟨map, []⟩ } : FileSystem File) = start := by
    rw [found.of_nil synced, ← synced]
  have still : (dirMachine File).Triple ⟨(· = start), fun _ _ _ _ => True⟩ (· = start)
      (chunksDirectoryCommit osuff nsuff) fun _ _ => True := by
    refine (lstat_triple (fun _ _ _ _ => trivial) (fun _ holds => holds) osuff).bind
      fun answer => ?_
    rcases answer with failed | nothing | sbt
    · exact triple_done (fun _ holds => holds.1) fun _ _ => trivial
    · exact triple_done (fun _ holds => holds.1) fun _ _ => trivial
    · rintro fs ⟨rfl, answer | answer⟩
      · cases answer
      · rw [absent] at answer
        cases answer
  induction attempted with
  | start => rfl
  | run _ runs ih => exact ((still _ ih).runs runs).holds
  | sync _ ih =>
    rw [ih]
    exact same _ (Delayed.outcome_current _)
  | power _ fails ih =>
    obtain ⟨map, found, rfl⟩ := fails
    rw [ih] at found ⊢
    exact same map found

end Moves

section Directories

variable {File : Type}

/-- The contents of the file that a name stands for. -/
def FileSystem.read (fs : FileSystem File) (map : Name → Option Nat) (path : Name) : Option File :=
  (map path).bind fs.contents

end Directories

end Tarsnap.Chunks
