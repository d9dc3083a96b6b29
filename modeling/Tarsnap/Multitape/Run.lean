import Tarsnap.Multitape.Operations

/-!
# Runs of the tape writer

A run is a sequence of calls. Each call accepts some data for the archive: bytes, or a chunk that
is already there.
-/

namespace Tarsnap.Multitape

open Tarsnap.Lib Tarsnap.Chunks Tarsnap.Chunkify

/-- Data that a tape accepted. -/
inductive Piece where
  /-- Bytes. -/
  | bytes (buf : List UInt8)
  /-- A chunk that is already there. -/
  | chunk (ch : ChunkHeader)

/-- The bytes of a piece. -/
def Piece.data (contents : Hash → List UInt8) : Piece → List UInt8
  | .bytes buf => buf
  | .chunk ch => contents ch.hash

/-- A call of the tape writer. -/
inductive TapeOp where
  /-- `writetape_write`; the flag tells whether the header buffer cannot grow. -/
  | write (nomem : Bool) (buffer : List UInt8)
  /-- `writetape_writechunk`. -/
  | writechunk (ch : ChunkHeader)
  /-- `writetape_setmode`. -/
  | setmode (mode : Mode)
  /-- `writetape_checkpoint`. -/
  | checkpoint
  /-- `writetape_truncate`. -/
  | truncate

/-- A call in the middle of an entry's data. -/
def TapeOp.InEntry : TapeOp → Prop
  | .write _ _ => True
  | .checkpoint => True
  | .truncate => True
  | .writechunk _ => False
  | .setmode _ => False

section Runs

variable {P : Params} {κ : Type} (K : Crypto) (zlib : Zlib) (rsa : RsaSigner K)

/-- Make a call, and return what the tape accepted. -/
def TapeOp.run (d : TapeW P κ) : TapeOp → Option (List Piece × TapeW P κ)
  | .write nomem buffer => do
    let (lenwrit, d) ← writetapeWrite K zlib nomem d buffer
    return ([.bytes (buffer.take lenwrit)], d)
  | .writechunk ch => do
    let (lenwrit, d) ← writetapeWritechunk K zlib d ch
    return (if lenwrit = 0 then [] else [.chunk ch], d)
  | .setmode mode => do
    let d ← writetapeSetmode K zlib d mode
    return ([], d)
  | .checkpoint => do
    let (_, d) ← writetapeCheckpoint K zlib rsa d
    return ([], d)
  | .truncate => some ([], writetapeTruncate d)

/-- Make calls in turn, and return what the tape accepted. -/
def runOps (d : TapeW P κ) : List TapeOp → Option (List Piece × TapeW P κ)
  | [] => some ([], d)
  | op :: ops => do
    let (accepted, d) ← op.run K zlib rsa d
    let (later, d) ← runOps d ops
    return (accepted ++ later, d)

/-- The calls between the two tapes accept data with these bytes. -/
def Emits (contents : Hash → List UInt8) (emitted : List UInt8) (d d' : TapeW P κ) : Prop :=
  ∃ ops accepted, runOps K zlib rsa d ops = some (accepted, d') ∧
    accepted.flatMap (Piece.data contents) = emitted

end Runs

section Laws

variable {P : Params} {κ : Type} {K : Crypto} {zlib : Zlib} {rsa : RsaSigner K}
  {contents : Hash → List UInt8} {d d' d'' : TapeW P κ}

/-- One call. -/
theorem runOps_one {op : TapeOp} {accepted : List Piece}
    (called : op.run K zlib rsa d = some (accepted, d')) :
    runOps K zlib rsa d [op] = some (accepted, d') := by
  have nothing : runOps K zlib rsa d' [] = some ([], d') := rfl
  apply Option.bind_eq_some_iff.mpr
  refine ⟨_, called, Option.bind_eq_some_iff.mpr ⟨_, nothing, ?_⟩⟩
  exact congrArg (fun kept => some (kept, d')) (List.append_nil accepted)

/-- Calls and then other calls. -/
theorem runOps_append {first second : List TapeOp} {before after : List Piece}
    (one : runOps K zlib rsa d first = some (before, d'))
    (two : runOps K zlib rsa d' second = some (after, d'')) :
    runOps K zlib rsa d (first ++ second) = some (before ++ after, d'') := by
  induction first generalizing d before with
  | nil =>
    cases one
    exact two
  | cons op ops ih =>
    obtain ⟨⟨accepted, d1⟩, called, rest⟩ := Option.bind_eq_some_iff.mp one
    obtain ⟨⟨later, d2⟩, run, rest⟩ := Option.bind_eq_some_iff.mp rest
    cases rest
    apply Option.bind_eq_some_iff.mpr
    refine ⟨_, called, Option.bind_eq_some_iff.mpr ⟨_, ih run, ?_⟩⟩
    exact congrArg (fun kept => some (kept, d'')) (List.append_assoc accepted later after).symm

/-- No call emits nothing. -/
theorem Emits.refl (d : TapeW P κ) : Emits K zlib rsa contents [] d d := ⟨[], [], rfl, rfl⟩

/-- What is emitted in two steps. -/
theorem Emits.trans {before after : List UInt8} (first : Emits K zlib rsa contents before d d')
    (second : Emits K zlib rsa contents after d' d'') :
    Emits K zlib rsa contents (before ++ after) d d'' := by
  obtain ⟨ops, accepted, run, bytes⟩ := first
  obtain ⟨more, later, rerun, rest⟩ := second
  refine ⟨ops ++ more, accepted ++ later, runOps_append run rerun, ?_⟩
  rw [List.flatMap_append, bytes, rest]

/-- A chunk that is written by its header is emitted. -/
theorem emits_chunk {ch : ChunkHeader} {lenwrit : Nat}
    (written : writetapeWritechunk K zlib d ch = some (lenwrit, d')) :
    Emits K zlib rsa contents (if lenwrit = 0 then [] else contents ch.hash) d d' := by
  refine ⟨[.writechunk ch], _, runOps_one (by rw [TapeOp.run, written]; rfl), ?_⟩
  split
  · rfl
  · exact List.append_nil _

/-- Data that is written is emitted as far as it is accepted. -/
theorem emits_write {nomem : Bool} {buffer : List UInt8} {lenwrit : Nat}
    (written : writetapeWrite K zlib nomem d buffer = some (lenwrit, d')) :
    Emits K zlib rsa contents (buffer.take lenwrit) d d' :=
  ⟨[.write nomem buffer], _, runOps_one (by rw [TapeOp.run, written]; rfl), List.append_nil _⟩

/-- The mode is what it is set to. -/
theorem writetapeSetmode_mode {mode : Mode} (set : writetapeSetmode K zlib d mode = some d') :
    d'.mode = mode := by
  unfold writetapeSetmode at set
  split at set
  · rename_i same
    cases set
    exact same.symm
  · obtain ⟨d1, _, set⟩ := Option.bind_eq_some_iff.mp set
    split at set
    · exact nomatch set
    · obtain ⟨d2, _, set⟩ := Option.bind_eq_some_iff.mp set
      cases set
      rfl

/-- A checkpoint in the middle of an entry's data goes back to data mode. -/
theorem writetapeCheckpoint_mode {part : StoredTape} (mode : d.mode = .data)
    (created : writetapeCheckpoint K zlib rsa d = some (part, d')) : d'.mode = .data := by
  unfold writetapeCheckpoint at created
  simp only [mode, reduceCtorEq, or_true, if_true] at created
  obtain ⟨d1, _, created⟩ := Option.bind_eq_some_iff.mp created
  obtain ⟨d2, _, created⟩ := Option.bind_eq_some_iff.mp created
  obtain ⟨⟨tape, d3⟩, _, created⟩ := Option.bind_eq_some_iff.mp created
  obtain ⟨d4, last, created⟩ := Option.bind_eq_some_iff.mp created
  cases created
  exact writetapeSetmode_mode last

/-- Chunks that are passed on leave the mode alone. -/
theorem FileSteps.mode {chunks : List (List UInt8)} (steps : FileSteps K chunks d d') :
    d'.mode = d.mode := by
  induction steps with
  | nil => rfl
  | cons first _ ih => rw [ih, first.rest]

/-- Writing in data mode: nothing happens on a truncated tape, otherwise the data goes to the file
chunkifier. -/
theorem writetapeWrite_data {nomem : Bool} {buffer : List UInt8} {lenwrit : Nat}
    (mode : d.mode = .data)
    (written : writetapeWrite K zlib nomem d buffer = some (lenwrit, d')) :
    (lenwrit = 0 ∧ d' = d) ∨ (lenwrit = buffer.length ∧ ∃ d1, fileWrite K zlib d buffer = some d1 ∧
      d' = { d1 with cFileIn := d1.cFileIn + buffer.length }) := by
  unfold writetapeWrite at written
  by_cases truncated : d.eof = true
  · rw [if_pos truncated] at written
    cases written
    exact .inl ⟨rfl, rfl⟩
  · rw [if_neg truncated] at written
    generalize (if nomem then d.hbuf else d.hbuf ++ buffer) = hbuf at written
    simp only [mode] at written
    obtain ⟨d1, wrote, rest⟩ := Option.bind_eq_some_iff.mp written
    cases rest
    exact .inr ⟨rfl, d1, wrote, rfl⟩

end Laws

end Tarsnap.Multitape
