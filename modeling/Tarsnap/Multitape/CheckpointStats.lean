import Tarsnap.Multitape.Extra

/-!
# Statistics of extra data and checkpoints

The files of an archive are counted for all archives and for this archive when the archive is
stored, and also when a checkpoint is stored. A checkpoint takes the count for all archives back,
after its directory was written, but not the one for this archive.
-/

namespace Tarsnap.Multitape

open Tarsnap.Lib Tarsnap.Chunks Tarsnap.Chunkify

variable {P : Params} {κ : Type} {K : Crypto} {zlib : Zlib} {rsa : RsaSigner K}
  {d d' : TapeW P κ}

/-- The lines of the statistics: a name, the statistics of chunks and those of extra data. -/
def chunksWritePrintstats (C : ChunksW) : List (String × ChunkStats × ChunkStats) :=
  [("All archives", C.statsTotal, C.statsExtra), ("  (unique data)", C.statsUnique, C.statsExtra),
    ("This archive", C.statsTape, C.statsTapee), ("New data", C.statsNew, C.statsTapee)]

section Checkpoints

variable (K zlib rsa)

/-- Create a checkpoint up to where the chunk layer is asked to prepare for it: the partial archive,
and the tape from which the directory is written. -/
def writetapePart (d : TapeW P κ) : Option (StoredTape × TapeW P κ) := do
  let short := d.mode = .header ∨ d.mode = .data
  let d ← (if short then writetapeSetmode K zlib d .finished else some d)
  let d ← (if d.mode = .trailer then endentry K zlib d else some d)
  flushtape K zlib rsa { d with C := chunksWriteExtrastatsCopy d.C 0 } true

/-- Checkpoints that were created in turn among other calls: the partial archive of each, and the
tape from which the directory is written. -/
inductive Created (start : TapeW P κ) : List (StoredTape × TapeW P κ) → TapeW P κ → Prop where
  /-- No call. -/
  | none : Created start [] start
  /-- A call that is not a checkpoint. -/
  | call {parts : List (StoredTape × TapeW P κ)} {more : List Piece} {d d' : TapeW P κ}
    {op : TapeOp} (before : Created start parts d) (other : op ≠ .checkpoint)
    (made : op.run K zlib rsa d = some (more, d')) : Created start parts d'
  /-- The callbacks are set. -/
  | setcallback {parts : List (StoredTape × TapeW P κ)} {d : TapeW P κ}
    (before : Created start parts d) (callbackChunk : Option (κ → ChunkHeader → Option κ))
    (callbackTrailer : Option (κ → List UInt8 → Option κ)) (callbackCookie : κ) :
    Created start parts (writetapeSetcallback d callbackChunk callbackTrailer callbackCookie)
  /-- A checkpoint. -/
  | checkpoint {parts : List (StoredTape × TapeW P κ)} {part : StoredTape} {d middle d' : TapeW P κ}
    (before : Created start parts d) (flushed : writetapePart K zlib rsa d = some (part, middle))
    (made : writetapeCheckpoint K zlib rsa d = some (part, d')) :
    Created start (parts ++ [(part, middle)]) d'

variable {K zlib rsa} {start middle last : TapeW P κ} {part tape : StoredTape}
  {parts : List (StoredTape × TapeW P κ)}

/-- A checkpoint is created by way of its partial archive. -/
theorem writetapeCheckpoint_part (made : writetapeCheckpoint K zlib rsa d = some (part, d')) :
    ∃ middle, writetapePart K zlib rsa d = some (part, middle) ∧
      extras d'.C = extras (chunksWriteExtrastatsCopy middle.C 1) := by
  unfold writetapeCheckpoint at made
  simp only at made
  obtain ⟨d1, first, made⟩ := Option.bind_eq_some_iff.mp made
  obtain ⟨d2, second, made⟩ := Option.bind_eq_some_iff.mp made
  obtain ⟨⟨flushed, d3⟩, third, made⟩ := Option.bind_eq_some_iff.mp made
  obtain ⟨d4, last, made⟩ := Option.bind_eq_some_iff.mp made
  cases made
  refine ⟨d3, ?_, ?_⟩
  · unfold writetapePart
    simp only [Option.bind_eq_bind]
    rw [first, Option.bind_some, second, Option.bind_some]
    exact third
  · split at last
    · exact writetapeSetmode_extras last
    · cases last
      rfl

/-- The partial archive of a checkpoint is counted in its directory. -/
theorem writetapePart_extras (flushed : writetapePart K zlib rsa d = some (part, middle)) :
    extras middle.C =
      (d.C.statsExtra + part.extra, d.C.statsTapee + part.extra, d.C.statsExtra) := by
  unfold writetapePart at flushed
  obtain ⟨d1, first, flushed⟩ := Option.bind_eq_some_iff.mp flushed
  obtain ⟨d2, second, flushed⟩ := Option.bind_eq_some_iff.mp flushed
  have one : extras d1.C = extras d.C := by
    split at first
    · exact writetapeSetmode_extras first
    · cases first
      rfl
  have two : extras d2.C = extras d1.C := by
    split at second
    · exact endentry_extras second
    · cases second
      rfl
  have counted := flushtape_extras flushed
  have same := two.trans one
  simp only [extras, Prod.mk.injEq] at same counted ⊢
  rw [counted.1, counted.2.1, counted.2.2, ← same.1, ← same.2.1]
  exact ⟨rfl, rfl, rfl⟩

/-- Closing the tape counts the archive. -/
theorem writetapeClosed_extras (closed : writetapeClosed K zlib rsa d = some (tape, last)) :
    last.C.statsExtra = d.C.statsExtra + tape.extra ∧
      last.C.statsTapee = d.C.statsTapee + tape.extra := by
  unfold writetapeClosed at closed
  obtain ⟨d1, first, closed⟩ := Option.bind_eq_some_iff.mp closed
  obtain ⟨d2, second, closed⟩ := Option.bind_eq_some_iff.mp closed
  have one : extras d1.C = extras d.C := by
    split at first
    · exact writetapeSetmode_extras first
    · cases first
      rfl
  have two : extras d2.C = extras d1.C := by
    split at second
    · exact endentry_extras second
    · cases second
      rfl
  split at closed
  · exact nomatch closed
  have counted := flushtape_extras closed
  have same := two.trans one
  simp only [extras, Prod.mk.injEq] at same counted
  rw [counted.1, counted.2.1, same.1, same.2.1]
  exact ⟨rfl, rfl⟩

/-- Each checkpoint is counted in its own directory, no checkpoint is counted for all archives, and
all of them are counted for this archive. -/
theorem Created.extras (created : Created K zlib rsa start parts d) :
    d.C.statsExtra = start.C.statsExtra ∧
      d.C.statsTapee = start.C.statsTapee + (parts.map (·.1.extra)).sum ∧
      ∀ part ∈ parts, part.2.C.statsExtra = start.C.statsExtra + part.1.extra := by
  induction created with
  | none =>
    refine ⟨rfl, (add_zero _).symm, ?_⟩
    intro part member
    exact absurd member List.not_mem_nil
  | call before other made ih =>
    have same := TapeOp.run_extras other made
    simp only [Multitape.extras, Prod.mk.injEq] at same
    rw [same.1, same.2.1]
    exact ih
  | setcallback before callbackChunk callbackTrailer callbackCookie ih => exact ih
  | @checkpoint parts part d middle d' before flushed made ih =>
    obtain ⟨total, own, directories⟩ := ih
    obtain ⟨other, again, restored⟩ := writetapeCheckpoint_part made
    rw [flushed] at again
    cases again
    have counted := writetapePart_extras flushed
    simp only [Multitape.extras, Prod.mk.injEq] at counted restored
    have back : d'.C.statsExtra = d.C.statsExtra := restored.1.trans counted.2.2
    have more : d'.C.statsTapee = d.C.statsTapee + part.extra := restored.2.1.trans counted.2.1
    refine ⟨back.trans total, ?_, ?_⟩
    · rw [more, own, List.map_append, List.sum_append, add_assoc, List.map_singleton,
        List.sum_singleton]
    · intro other member
      rcases List.mem_append.mp member with older | newest
      · exact directories other older
      · rw [List.mem_singleton.mp newest]
        exact counted.1.trans (congrArg (· + part.extra) total)

end Checkpoints

section Independence

variable {start d last : TapeW P κ} {parts : List (StoredTape × TapeW P κ)} {tape : StoredTape}

/-- The statistics of extra data that are printed under a name. -/
def printed (C : ChunksW) (name : String) : Option ChunkStats :=
  ((chunksWritePrintstats C).find? (·.1 = name)).map (·.2.2)

/-- Every file of a sum is counted once. -/
theorem extra_nchunks (parts : List (StoredTape × TapeW P κ)) :
    ChunkStats.nchunks (parts.map (·.1.extra)).sum =
      UInt64.ofNat (parts.map (·.1.files.length)).sum := by
  have files : ∀ files : List (List UInt8), (files.map fun file =>
      ChunkStats.ofCopies (UInt32.ofNat file.length) (UInt32.ofNat file.length) 1).sum.nchunks =
        UInt64.ofNat files.length := by
    intro files
    induction files with
    | nil => rfl
    | cons file files ih =>
      have one : ∀ len zlen, (ChunkStats.ofCopies len zlen 1).nchunks = 1 := fun _ _ => rfl
      rw [List.map_cons, List.sum_cons, List.length_cons, Nat.add_comm, UInt64.ofNat_add, ← ih]
      show (ChunkStats.ofCopies _ _ 1).nchunks + _ = _
      rw [one]
      rfl
  induction parts with
  | nil => rfl
  | cons part parts ih =>
    rw [List.map_cons, List.sum_cons, List.map_cons, List.sum_cons, UInt64.ofNat_add, ← ih, ← files]
    rfl

/-- Checkpoints have files. -/
theorem files_pos (parts : List (StoredTape × TapeW P κ)) (some_ : parts ≠ []) :
    0 < (parts.map (·.1.files.length)).sum := by
  cases parts with
  | nil => exact absurd rfl some_
  | cons part parts =>
    rw [List.map_cons, List.sum_cons, StoredTape.files, List.length_append, List.length_singleton]
    omega

/-- After any calls and checkpoints, when the tape is closed: for all archives the files of the
archives before and of this one are printed, and the directory of each checkpoint counts the files
of the archives before and its own. If there was no checkpoint, the files of this archive are
printed for it. If there was one, more is printed, as long as no count wraps around. -/
theorem writetapeClosed_printstats (created : Created K zlib rsa start parts d)
    (closed : writetapeClosed K zlib rsa d = some (tape, last)) (new : start.C.statsTapee = 0) :
    printed last.C "All archives" = some (start.C.statsExtra + tape.extra) ∧
    (∀ part ∈ parts, ∀ order, chunksWriteCheckpoint order part.2.C = part.2.C.S.map fun _ =>
      chunksDirectoryWrite order part.2.C.HT (start.C.statsExtra + part.1.extra)) ∧
    (parts = [] → printed last.C "This archive" = some tape.extra) ∧
    ((parts.map (·.1.files.length)).sum < 2 ^ 64 →
      printed last.C "This archive" = some tape.extra → parts = []) := by
  obtain ⟨total, own, directories⟩ := created.extras
  obtain ⟨lastTotal, lastOwn⟩ := writetapeClosed_extras closed
  have all : printed last.C "All archives" = some last.C.statsExtra := rfl
  have this : printed last.C "This archive" = some last.C.statsTapee := rfl
  rw [all, this, lastTotal, lastOwn, total, own, new, zero_add]
  refine ⟨rfl, ?_, ?_, ?_⟩
  · intro part member order
    rw [chunksWriteCheckpoint, directories part member]
  · intro none
    rw [none, List.map_nil, List.sum_nil, zero_add]
  · intro bound same
    by_contra some_
    have counts := congrArg ChunkStats.nchunks (Option.some.inj same)
    have sum : ChunkStats.nchunks ((parts.map (·.1.extra)).sum + tape.extra) =
        ChunkStats.nchunks (parts.map (·.1.extra)).sum + tape.extra.nchunks := rfl
    rw [sum, extra_nchunks] at counts
    have positive := files_pos parts some_
    have zero : UInt64.ofNat (parts.map (·.1.files.length)).sum = 0 := by
      apply (UInt64.add_left_inj tape.extra.nchunks).mp
      rw [counts, UInt64.zero_add]
    have wrapped := congrArg UInt64.toNat zero
    rw [UInt64.toNat_ofNat', Nat.mod_eq_of_lt bound] at wrapped
    have nothing : (0 : UInt64).toNat = 0 := rfl
    omega

/-- A checkpoint of an empty tape is created, and the tape is closed. -/
theorem oneByteTape_checkpoint : ∃ part middle d tape last,
    Created lengthCrypto byteZlib lengthSigner oneByteTape [(part, middle)] d ∧
      writetapeClosed lengthCrypto byteZlib lengthSigner d = some (tape, last) ∧
      printed last.C "This archive" ≠ some tape.extra := by
  obtain ⟨part, middle, d, tape, last, flushed, made, closed, more⟩ : ∃ part middle d tape last,
      writetapePart lengthCrypto byteZlib lengthSigner oneByteTape = some (part, middle) ∧
        writetapeCheckpoint lengthCrypto byteZlib lengthSigner oneByteTape = some (part, d) ∧
        writetapeClosed lengthCrypto byteZlib lengthSigner d = some (tape, last) ∧
        printed last.C "This archive" ≠ some tape.extra := by
    refine ⟨_, _, _, _, _, rfl, rfl, rfl, ?_⟩
    decide +kernel
  have created := Created.none.checkpoint flushed made
  exact ⟨part, middle, d, tape, last, created, closed, more⟩

/-- The files of a checkpoint are still printed for this archive when the tape is closed. -/
theorem writetapeClosed_checkpointed : ¬∀ (P : Params) (κ : Type) (K : Crypto) (zlib : Zlib)
    (rsa : RsaSigner K) (start d last : TapeW P κ) (parts : List (StoredTape × TapeW P κ))
    (tape : StoredTape), Created K zlib rsa start parts d →
    writetapeClosed K zlib rsa d = some (tape, last) → start.C.statsTapee = 0 →
    printed last.C "This archive" = some tape.extra := by
  intro independent
  obtain ⟨part, middle, d, tape, last, created, closed, more⟩ := oneByteTape_checkpoint
  have same := independent _ _ _ _ _ _ _ _ _ _ created closed rfl
  exact more same

/-- After a checkpoint of an empty tape, all archives are printed as they are. -/
theorem writetapeClosed_printstats_checkpoint :
    ∃ (tape : StoredTape) (last d : TapeW beyondParams Unit),
      writetapeClosed lengthCrypto byteZlib lengthSigner d = some (tape, last) ∧
      printed last.C "All archives" = some (oneByteTape.C.statsExtra + tape.extra) := by
  obtain ⟨part, middle, d, tape, last, created, closed, more⟩ := oneByteTape_checkpoint
  have right := writetapeClosed_printstats created closed rfl
  exact ⟨tape, last, d, closed, right.1⟩

end Independence

end Tarsnap.Multitape
