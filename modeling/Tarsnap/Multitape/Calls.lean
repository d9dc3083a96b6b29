import Tarsnap.Multitape.Held

/-!
# Sequences of calls

Calls that meet a condition are made in turn, and the callbacks are set in between. From an empty
tape, calls in order that lose nothing make the tape hold what it accepted. On a truncated tape no
call but one that references a chunk changes the data that the tape holds.
-/

namespace Tarsnap.Multitape

open Tarsnap.Lib Tarsnap.Chunks Tarsnap.Chunkify

variable {P : Params} {κ : Type}

/-- Calls that each meet a condition in the state in which they are made, and what was accepted. -/
inductive Calls (K : Crypto) (zlib : Zlib) (rsa : RsaSigner K) (ok : TapeW P κ → TapeOp → Prop)
    (start : TapeW P κ) : List Piece → TapeW P κ → Prop where
  /-- No call. -/
  | none : Calls K zlib rsa ok start [] start
  /-- Another call. -/
  | call {accepted more : List Piece} {d d' : TapeW P κ} {op : TapeOp}
    (before : Calls K zlib rsa ok start accepted d) (fine : ok d op)
    (made : op.run K zlib rsa d = some (more, d')) : Calls K zlib rsa ok start (accepted ++ more) d'
  /-- The callbacks are set. -/
  | setcallback {accepted : List Piece} {d : TapeW P κ}
    (before : Calls K zlib rsa ok start accepted d)
    (callbackChunk : Option (κ → ChunkHeader → Option κ))
    (callbackTrailer : Option (κ → List UInt8 → Option κ)) (callbackCookie : κ) :
    Calls K zlib rsa ok start accepted
      (writetapeSetcallback d callbackChunk callbackTrailer callbackCookie)

/-- A call in order that loses nothing: file data is followed by the end of the entry, a chunk that
is referenced has the length in its header. -/
def InOrder (contents : Hash → List UInt8) (d : TapeW P κ) : TapeOp → Prop
  | .write nomem buffer => ¬Loses d nomem buffer
  | .writechunk ch => (contents ch.hash).length = ch.len.toNat
  | .setmode mode => d.mode = .data → mode = .data ∨ mode = .finished
  | .checkpoint => True
  | .truncate => True

/-- A call that does not reference a chunk. -/
def NoReference (d : TapeW P κ) : TapeOp → Prop
  | .writechunk ch => ¬(d.mode = .data ∧ d.cFileIn = d.cFileOut ∧ HasChunk d.C ch.hash)
  | _ => True

variable {K : Crypto} {zlib : Zlib} {rsa : RsaSigner K} {contents : Hash → List UInt8}
  {start d d' : TapeW P κ} {accepted more : List Piece} {data : List UInt8}

/-- An empty tape holds nothing. -/
theorem writetapeStart_holds (tapename : List UInt8) (ctime : Nat) (argv : List (List UInt8))
    (C : ChunksW) (buf : StreamName → Vector UInt8 P.blen) (fileBuf : Vector UInt8 P.blen)
    (cookie : κ) :
    Holds contents (writetapeStart tapename ctime argv C buf fileBuf cookie) [] ∧
      Ready (writetapeStart tapename ctime argv C buf fileBuf cookie) := by
  have none : ∀ vector, (chunkifyStart P vector).bytes = [] := fun vector =>
    chunkifyStart_bytes vector
  have total : ∀ vector, Stream.total contents ⟨[], chunkifyStart P vector⟩ = [] := none
  have minimum : ([] : List UInt8).length < MINCHUNK := by decide
  refine ⟨⟨⟨⟨[], [], []⟩, ⟨?_, total _, total _, total _, rfl, rfl, minimum⟩, none fileBuf⟩,
    chunkifyStart_squareRoot fileBuf, Nat.zero_le _, rfl, fun _ => rfl, fun _ => rfl,
    fun _ => ⟨rfl, rfl, rfl⟩⟩, ⟨rfl, fun _ => rfl⟩⟩
  intro e member
  exact absurd member List.not_mem_nil

/-- A call grows the tape, and a truncated tape stays truncated. -/
theorem TapeOp.run_grows {op : TapeOp} (made : op.run K zlib rsa d = some (more, d')) :
    Grows d d' ∧ (d.eof = true → d'.eof = true) := by
  have eof : Kept K zlib fun later : TapeW P κ => d.eof = true → later.eof = true := by
    constructor
    · intro d1 d2 ended kept truncated
      rcases fileEnd_cases ended with ⟨_, rfl⟩ | ⟨_, buf, d3, step, rfl⟩
      · exact kept truncated
      · have rest := step.rest
        show d3.eof = true
        rw [rest]
        exact kept truncated
    · intro d1 d2 quiet kept truncated
      rw [quiet.eof]
      exact kept truncated
  cases op with
  | write nomem buffer =>
    obtain ⟨⟨lenwrit, d1⟩, written, rest⟩ := Option.bind_eq_some_iff.mp made
    cases rest
    rcases writetapeWrite_cases written with ⟨_, _, rfl⟩ | ⟨going, _, _, d2, wrote, rfl⟩ |
      ⟨going, _, _, mode, _, _, rfl⟩
    · exact ⟨Grows.refl _, id⟩
    · obtain ⟨chunks, c, d3, _, steps, rfl⟩ := fileWrite_ok wrote
      have grows := steps.rest.1
      refine ⟨⟨grows.has, grows.stored⟩, fun truncated => ?_⟩
      rw [going] at truncated
      cases truncated
    · exact ⟨⟨fun _ here => here, List.prefix_refl _⟩, id⟩
  | writechunk ch =>
    obtain ⟨⟨lenwrit, d1⟩, written, rest⟩ := Option.bind_eq_some_iff.mp made
    cases rest
    rcases writetapeWritechunk_cases written with ⟨_, _, _, _, referenced⟩ | ⟨_, _, rfl⟩
    · refine ⟨referenced.toGrows, fun truncated => ?_⟩
      rw [referenced.rest]
      exact truncated
    · exact ⟨Grows.refl _, id⟩
  | setmode mode =>
    obtain ⟨d1, set, rest⟩ := Option.bind_eq_some_iff.mp made
    cases rest
    exact ⟨(grows_kept d).setmode set (Grows.refl d), eof.setmode set id⟩
  | checkpoint =>
    obtain ⟨⟨part, d1⟩, created, rest⟩ := Option.bind_eq_some_iff.mp made
    cases rest
    exact ⟨(grows_kept d).checkpoint created (Grows.refl d), eof.checkpoint created id⟩
  | truncate =>
    cases made
    exact ⟨⟨fun _ here => here, List.prefix_refl _⟩, fun _ => rfl⟩

/-- A call in order: what it accepts is held after the data that was held. -/
theorem Holds.run (params : TapeParams P) {op : TapeOp} (holds : Holds contents d data)
    (ready : Ready d) (fine : InOrder contents d op)
    (made : op.run K zlib rsa d = some (more, d')) (faithful : Faithful contents d') :
    Ready d' ∧ Holds contents d' (data ++ more.flatMap (Piece.data contents)) := by
  cases op with
  | write nomem buffer =>
    obtain ⟨⟨lenwrit, d1⟩, written, rest⟩ := Option.bind_eq_some_iff.mp made
    cases rest
    obtain ⟨later, kept, held, same, _⟩ := holds.write params ready written faithful
    rw [same fine] at held
    rw [List.flatMap_singleton]
    exact ⟨later, held⟩
  | writechunk ch =>
    obtain ⟨⟨lenwrit, d1⟩, written, rest⟩ := Option.bind_eq_some_iff.mp made
    cases rest
    obtain ⟨later, held⟩ := holds.writechunk ready fine written faithful
    refine ⟨later, ?_⟩
    split
    · rename_i none
      rw [if_pos none] at held
      exact held
    · rename_i some_
      rw [if_neg some_] at held
      rw [List.flatMap_singleton]
      exact held
  | setmode mode =>
    obtain ⟨d1, set, rest⟩ := Option.bind_eq_some_iff.mp made
    cases rest
    rw [List.flatMap_nil, List.append_nil]
    exact ⟨ready.setmode holds fine set faithful, holds.setmode set faithful⟩
  | checkpoint =>
    obtain ⟨⟨part, d1⟩, created, rest⟩ := Option.bind_eq_some_iff.mp made
    cases rest
    obtain ⟨held, later⟩ := holds.checkpoint created faithful
    rw [List.flatMap_nil, List.append_nil]
    exact ⟨later ready, held⟩
  | truncate =>
    cases made
    rw [List.flatMap_nil, List.append_nil]
    exact ⟨⟨ready.tlen, ready.clen⟩, holds.same ⟨rfl, fun _ => rfl⟩⟩

/-- A call on a truncated tape that does not reference a chunk keeps the data. -/
theorem Holds.run_truncated {op : TapeOp} (holds : Holds contents d data)
    (truncated : d.eof = true) (fine : NoReference d op)
    (made : op.run K zlib rsa d = some (more, d')) (faithful : Faithful contents d') :
    Holds contents d' data := by
  cases op with
  | write nomem buffer =>
    obtain ⟨⟨lenwrit, d1⟩, written, rest⟩ := Option.bind_eq_some_iff.mp made
    cases rest
    rw [writetapeWrite, if_pos truncated] at written
    cases written
    exact holds
  | writechunk ch =>
    obtain ⟨⟨lenwrit, d1⟩, written, rest⟩ := Option.bind_eq_some_iff.mp made
    cases rest
    rcases writetapeWritechunk_cases written with ⟨mode, held, has, _⟩ | ⟨_, _, rfl⟩
    · exact absurd ⟨mode, held, has⟩ fine
    · exact holds
  | setmode mode =>
    obtain ⟨d1, set, rest⟩ := Option.bind_eq_some_iff.mp made
    cases rest
    exact holds.setmode set faithful
  | checkpoint =>
    obtain ⟨⟨part, d1⟩, created, rest⟩ := Option.bind_eq_some_iff.mp made
    cases rest
    exact (holds.checkpoint created faithful).1
  | truncate =>
    cases made
    exact holds.same ⟨rfl, fun _ => rfl⟩

/-- After calls in order a tape holds what it accepted. -/
theorem Calls.holds (params : TapeParams P)
    (calls : Calls K zlib rsa (InOrder contents) start accepted d)
    (empty : Holds contents start []) (ready : Ready start) (faithful : Faithful contents d) :
    Ready d ∧ Holds contents d (accepted.flatMap (Piece.data contents)) := by
  induction calls with
  | none => exact ⟨ready, empty⟩
  | call before fine made ih =>
    obtain ⟨later, held⟩ := ih (faithful.earlier (TapeOp.run_grows made).1)
    rw [List.flatMap_append]
    exact held.run params later fine made faithful
  | setcallback before callbackChunk callbackTrailer callbackCookie ih =>
    obtain ⟨later, held⟩ := ih faithful
    exact ⟨⟨later.tlen, later.clen⟩, held.same ⟨rfl, fun _ => rfl⟩⟩

/-- Calls grow the tape. -/
theorem Calls.grows {ok : TapeW P κ → TapeOp → Prop}
    (calls : Calls K zlib rsa ok start accepted d) : Grows start d := by
  induction calls with
  | none => exact Grows.refl start
  | call _ _ made ih => exact ih.trans (TapeOp.run_grows made).1
  | setcallback _ _ _ _ ih => exact ⟨ih.has, ih.stored⟩

/-- Calls on a truncated tape that reference no chunk keep the data. -/
theorem Calls.truncated (calls : Calls K zlib rsa NoReference start accepted d)
    (truncated : start.eof = true) (holds : Holds contents start data)
    (faithful : Faithful contents d) : d.eof = true ∧ Holds contents d data := by
  induction calls with
  | none => exact ⟨truncated, holds⟩
  | call before fine made ih =>
    obtain ⟨grows, stays⟩ := TapeOp.run_grows made
    obtain ⟨still, held⟩ := ih (faithful.earlier grows)
    exact ⟨stays still, held.run_truncated still fine made faithful⟩
  | setcallback before callbackChunk callbackTrailer callbackCookie ih =>
    obtain ⟨still, held⟩ := ih faithful
    exact ⟨still, held.same ⟨rfl, fun _ => rfl⟩⟩

end Tarsnap.Multitape
