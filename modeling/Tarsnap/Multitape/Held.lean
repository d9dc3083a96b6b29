import Tarsnap.Multitape.Layout
import Tarsnap.Multitape.Run

/-!
# What calls do to the data of a tape

Bytes that are written and chunks that are referenced follow the data that the tape holds, if the
parts of an entry come in order: header, then file data. A change of mode and a checkpoint keep the
data. When the tape is closed, the data that it holds is the archive.
-/

namespace Tarsnap.Multitape

open Tarsnap.Lib Tarsnap.Chunks Tarsnap.Chunkify

variable {P : Params} {κ : Type} {K : Crypto} {zlib : Zlib} {rsa : RsaSigner K}
  {contents : Hash → List UInt8} {d d' : TapeW P κ} {data : List UInt8}

section Moving

/-- Ending a file chunk grows the tape. -/
theorem grows_kept (d : TapeW P κ) : Kept K zlib (Grows d) where
  ended := by
    intro d1 d2 ended grows
    rcases fileEnd_cases ended with ⟨_, rfl⟩ | ⟨_, buf, d3, step, rfl⟩
    · exact grows
    · have all := grows.trans step.toGrows
      exact ⟨all.has, all.stored⟩
  quiet := fun _ _ quiet grows => grows.trans quiet.toGrows

/-- Setting the mode keeps the data. -/
theorem Holds.setmode {mode : Mode} (holds : Holds contents d data)
    (set : writetapeSetmode K zlib d mode = some d') (faithful : Faithful contents d') :
    Holds contents d' data := by
  unfold writetapeSetmode at set
  split at set
  · cases set
    exact holds
  obtain ⟨d1, first, set⟩ := Option.bind_eq_some_iff.mp set
  split at set
  · exact nomatch set
  obtain ⟨d2, second, set⟩ := Option.bind_eq_some_iff.mp set
  cases set
  have faithful2 : Faithful contents d2 := faithful
  have faithful1 : Faithful contents d1 := by
    split at second
    · exact faithful2.earlier (endentry_quiet second).toGrows
    · cases second
      exact faithful2
  have one : Holds contents d1 data ∧ d1.cFile.k = 0 := by
    split at first
    · obtain ⟨held, empty, _⟩ := holds.fileEnd first faithful1
      exact ⟨held, empty⟩
    · rename_i other
      cases first
      exact ⟨holds, holds.idle other⟩
  have two : Holds contents d2 data ∧ d2.cFile.k = 0 ∧
      (mode = .finished → d2.hbuf = [] ∧ d2.clen = 0 ∧ d2.tlen = 0) := by
    split at second
    · obtain ⟨held, empty, _, none⟩ := one.1.endentry one.2 second faithful2
      exact ⟨held, empty, fun _ => none⟩
    · rename_i other
      cases second
      exact ⟨one.1, one.2, fun finished => absurd finished other⟩
  obtain ⟨held, empty, none⟩ := two
  obtain ⟨l, of, bytes⟩ := held.layout
  exact ⟨⟨l, of.congr (fun _ => rfl) rfl rfl, bytes⟩, held.root, held.room, held.held, fun _ =>
    empty, fun _ => empty, none⟩

/-- A tape without the trailer of an entry, and without its chunks unless in data mode. -/
structure Ready (d : TapeW P κ) : Prop where
  /-- There is no trailer. -/
  tlen : d.tlen = 0
  /-- There are no chunks, except in data mode. -/
  clen : d.mode ≠ .data → d.clen = 0

/-- Setting the mode in order: only the end of an entry follows its data. -/
theorem Ready.setmode {mode : Mode} (ready : Ready d) (holds : Holds contents d data)
    (order : d.mode = .data → mode = .data ∨ mode = .finished)
    (set : writetapeSetmode K zlib d mode = some d') (faithful : Faithful contents d') :
    Ready d' := by
  have held := holds.setmode set faithful
  have result := writetapeSetmode_mode set
  by_cases finished : mode = .finished
  · obtain ⟨_, clen, tlen⟩ := held.done (result.trans finished)
    exact ⟨tlen, fun _ => clen⟩
  · unfold writetapeSetmode at set
    split at set
    · cases set
      exact ready
    rename_i change
    have other : d.mode ≠ .data := by
      intro data
      rcases order data with same | ended
      · exact change (same.trans data.symm)
      · exact finished ended
    simp only [other, if_false, Option.bind_eq_bind, Option.bind_some] at set
    split at set
    · exact nomatch set
    · cases set
      exact ⟨ready.tlen, fun _ => ready.clen other⟩

end Moving

section Checkpoints

/-- A checkpoint keeps the data, and the order of the parts of an entry. -/
theorem Holds.checkpoint {part : StoredTape} (holds : Holds contents d data)
    (created : writetapeCheckpoint K zlib rsa d = some (part, d'))
    (faithful : Faithful contents d') :
    Holds contents d' data ∧ (Ready d → Ready d') := by
  unfold writetapeCheckpoint at created
  simp only at created
  obtain ⟨d1, first, created⟩ := Option.bind_eq_some_iff.mp created
  obtain ⟨d2, second, created⟩ := Option.bind_eq_some_iff.mp created
  obtain ⟨⟨tape, d3⟩, flushed, created⟩ := Option.bind_eq_some_iff.mp created
  obtain ⟨d4, last, created⟩ := Option.bind_eq_some_iff.mp created
  cases created
  have saves : Quiet d2 { d2 with C := chunksWriteExtrastatsCopy d2.C 0 } := quiet_of_table rfl
  have restores : Quiet d3 { d3 with C := chunksWriteExtrastatsCopy d3.C 1 } := quiet_of_table rfl
  have faithful3 : Faithful contents d3 := by
    split at last
    · exact faithful.earlier ((grows_kept d3).setmode last restores.toGrows)
    · cases last
      exact faithful
  have faithful2 : Faithful contents d2 :=
    faithful3.earlier ((grows_kept d2).flushtape flushed saves.toGrows)
  have faithful1 : Faithful contents d1 := by
    split at second
    · exact faithful2.earlier (endentry_quiet second).toGrows
    · cases second
      exact faithful2
  have one : Holds contents d1 data ∧ (Ready d → Ready d1) ∧ d1.mode ≠ .data := by
    split at first
    · rename_i short
      refine ⟨holds.setmode first faithful1, fun ready => ?_, ?_⟩
      · exact ready.setmode holds (fun _ => .inr rfl) first faithful1
      · rw [writetapeSetmode_mode first]
        decide
    · rename_i long
      cases first
      exact ⟨holds, id, fun data => long (.inr data)⟩
  obtain ⟨holds1, ready1, mode1⟩ := one
  have two : Holds contents d2 data ∧ (Ready d1 → Ready d2) ∧ d2.mode ≠ .data := by
    split at second
    · obtain ⟨held, _, mode, _, clen, tlen⟩ := holds1.endentry (holds1.idle mode1) second faithful2
      exact ⟨held, fun _ => ⟨tlen, fun _ => clen⟩, by rw [mode]; exact mode1⟩
    · cases second
      exact ⟨holds1, id, mode1⟩
  obtain ⟨holds2, ready2, mode2⟩ := two
  have saved : Holds contents { d2 with C := chunksWriteExtrastatsCopy d2.C 0 } data :=
    holds2.same ⟨rfl, fun _ => rfl⟩
  obtain ⟨holds3, mode3, kept3, _⟩ := saved.flushtape flushed faithful3
  have empty : d2.cFile.k = 0 := holds2.idle mode2
  have ready3 : Ready d2 → Ready d3 := by
    intro ready
    obtain ⟨_, clen, tlen⟩ := kept3 empty
    exact ⟨tlen.trans ready.tlen, fun _ => clen.trans (ready.clen mode2)⟩
  have restored : Holds contents { d3 with C := chunksWriteExtrastatsCopy d3.C 1 } data :=
    holds3.same ⟨rfl, fun _ => rfl⟩
  have all : Ready d → Ready d3 := fun ready => ready3 (ready2 (ready1 ready))
  split at last
  · refine ⟨restored.setmode last faithful, fun ready => ?_⟩
    have before : Ready { d3 with C := chunksWriteExtrastatsCopy d3.C 1 } :=
      ⟨(all ready).tlen, (all ready).clen⟩
    exact before.setmode restored (fun data => absurd (mode3.symm.trans data) mode2) last faithful
  · cases last
    exact ⟨restored, fun ready => ⟨(all ready).tlen, (all ready).clen⟩⟩

end Checkpoints

section Writing

/-- The bytes of a write get lost: the header buffer cannot grow, which goes unnoticed. -/
def Loses (d : TapeW P κ) (nomem : Bool) (buffer : List UInt8) : Prop :=
  d.eof = false ∧ d.mode ≠ .data ∧ nomem = true ∧ buffer ≠ []

/-- A write is refused, or goes to the file chunkifier or to the header buffer. -/
theorem writetapeWrite_cases {nomem : Bool} {buffer : List UInt8} {lenwrit : Nat}
    (written : writetapeWrite K zlib nomem d buffer = some (lenwrit, d')) :
    (d.eof = true ∧ lenwrit = 0 ∧ d' = d) ∨
    (d.eof = false ∧ lenwrit = buffer.length ∧ d.mode = .data ∧
      ∃ d1, fileWrite K zlib d buffer = some d1 ∧
        d' = { d1 with cFileIn := d1.cFileIn + buffer.length }) ∨
    (d.eof = false ∧ lenwrit = buffer.length ∧ d.mode ≠ .data ∧
      ∃ mode, mode ≠ .data ∧ mode ≠ .finished ∧
        d' = { d with mode, hbuf := if nomem then d.hbuf else d.hbuf ++ buffer }) := by
  unfold writetapeWrite at written
  by_cases truncated : d.eof = true
  · rw [if_pos truncated] at written
    cases written
    exact .inl ⟨truncated, rfl, rfl⟩
  · have going : d.eof = false := Bool.not_eq_true _ ▸ truncated
    rw [if_neg truncated] at written
    cases mode : d.mode with
    | data =>
      simp only [mode] at written
      obtain ⟨d1, wrote, rest⟩ := Option.bind_eq_some_iff.mp written
      cases rest
      exact .inr (.inl ⟨going, rfl, rfl, d1, wrote, rfl⟩)
    | finished =>
      simp only [mode] at written
      cases written
      exact .inr (.inr ⟨going, rfl, by decide, .trailer, by decide, by decide, rfl⟩)
    | trailer =>
      simp only [mode] at written
      cases written
      exact .inr (.inr ⟨going, rfl, by decide, .trailer, by decide, by decide, rfl⟩)
    | header =>
      simp only [mode] at written
      cases written
      exact .inr (.inr ⟨going, rfl, by decide, .header, by decide, by decide, by rw [← mode]⟩)

/-- Bytes that are written are held after the data that was held, unless they get lost. -/
theorem Holds.write (params : TapeParams P) {nomem : Bool} {buffer : List UInt8} {lenwrit : Nat}
    (holds : Holds contents d data) (ready : Ready d)
    (written : writetapeWrite K zlib nomem d buffer = some (lenwrit, d'))
    (faithful : Faithful contents d') :
    Ready d' ∧ ∃ kept, Holds contents d' (data ++ kept) ∧
      (¬Loses d nomem buffer → kept = buffer.take lenwrit) ∧
      (Loses d nomem buffer → kept = []) := by
  rcases writetapeWrite_cases written with ⟨truncated, none, rfl⟩ |
    ⟨going, all, mode, d1, wrote, rfl⟩ | ⟨going, all, other, mode, notData, notDone, rfl⟩
  · refine ⟨ready, [], by rw [List.append_nil]; exact holds, ?_, fun _ => rfl⟩
    intro _
    rw [none, List.take_zero]
  · obtain ⟨tlen, same, held⟩ := holds.fileWrite params mode ready.tlen wrote faithful
    refine ⟨⟨tlen, fun other => absurd same other⟩, buffer, held, ?_, ?_⟩
    · intro _
      rw [all, List.take_length]
    · intro lost
      exact absurd mode lost.2.1
  · obtain ⟨l, of, bytes⟩ := holds.layout
    obtain ⟨noChunks, noTrailer⟩ := of.passed_nil (ready.clen other) ready.tlen
    have none : d.cFile.bytes = [] := bytes_of_zero (holds.idle other)
    rw [Layout.passed, noChunks, noTrailer, none] at bytes
    have held : ∀ kept hbuf, hbuf = d.hbuf ++ kept →
        Holds contents { d with mode, hbuf } (data ++ kept) := by
      intro kept hbuf same
      refine ⟨⟨l, of.congr (fun _ => rfl) rfl rfl, ?_⟩, holds.root, holds.room, holds.held,
        fun _ => holds.idle other, holds.last, fun finished => absurd finished notDone⟩
      rw [← bytes, Layout.passed, noChunks, noTrailer, none, same]
      simp only [List.append_nil, List.append_assoc]
    refine ⟨⟨ready.tlen, fun _ => ready.clen other⟩, ?_⟩
    cases nomem with
    | false =>
      refine ⟨buffer, held buffer _ rfl, ?_, ?_⟩
      · intro _
        rw [all, List.take_length]
      · rintro ⟨_, _, absurdity, _⟩
        cases absurdity
    | true =>
      refine ⟨[], held [] _ (List.append_nil _).symm, ?_, fun _ => rfl⟩
      intro kept
      have empty : buffer = [] := by
        by_contra some_
        exact kept ⟨going, other, rfl, some_⟩
      rw [empty, List.take_nil]

/-- A chunk that is referenced is held after the data that was held. -/
theorem Holds.writechunk {ch : ChunkHeader} {lenwrit : Nat} (holds : Holds contents d data)
    (ready : Ready d) (size : (contents ch.hash).length = ch.len.toNat)
    (written : writetapeWritechunk K zlib d ch = some (lenwrit, d'))
    (faithful : Faithful contents d') :
    Ready d' ∧ Holds contents d' (data ++ if lenwrit = 0 then [] else contents ch.hash) := by
  rcases writetapeWritechunk_cases written with ⟨mode, held, _, len, referenced⟩ | ⟨_, none, rfl⟩
  · obtain ⟨l, of, bytes⟩ := holds.layout
    have before := holds.held
    have empty : d.cFile.k = 0 := by omega
    have none : d.cFile.bytes = [] := bytes_of_zero empty
    have noTrailer : l.trailer = [] := List.eq_nil_of_length_eq_zero (of.tlen.symm.trans ready.tlen)
    have single : indexed contents [ch] = contents ch.hash := List.append_nil _
    have rest := referenced.rest
    have chunkifier : d'.cFile = d.cFile := by rw [rest]
    have same : d'.mode = d.mode := by rw [rest]
    have trailer : d'.tlen = d.tlen := by rw [rest]
    have long : (if lenwrit = 0 then [] else contents ch.hash) = contents ch.hash := by
      split
      · rename_i zero
        exact (List.eq_nil_of_length_eq_zero (size.trans (len.symm.trans zero))).symm
      · rfl
    rw [long]
    refine ⟨⟨trailer.trans ready.tlen, fun other => ?_⟩,
      ⟨{ l with chunks := l.chunks ++ [ch] }, ⟨of.fits, ?_, ?_, ?_, ?_, ?_, of.short⟩, ?_⟩, ?_, ?_,
      ?_, ?_, ?_, ?_⟩
    · exact absurd (same.trans mode) other
    · rw [referenced.others .h (by decide)]
      exact of.header
    · have one : ch.encode = [ch].flatMap ChunkHeader.encode := (List.append_nil _).symm
      rw [referenced.total contents faithful, of.chunks, one, ← List.flatMap_append,
        List.append_assoc]
    · rw [referenced.others .t (by decide)]
      exact of.trailer
    · have clen : d'.clen = d.clen + ch.len.toNat := by rw [rest]
      rw [clen, of.clen, indexed_append, List.length_append, single, size]
    · exact trailer.trans of.tlen
    · have hbuf : d'.hbuf = d.hbuf := by rw [rest]
      rw [← bytes, hbuf, chunkifier, none, Layout.passed, Layout.passed, noTrailer, indexed_append,
        single]
      simp only [List.append_nil, List.append_assoc]
      rfl
    · rw [chunkifier]
      exact holds.root
    · rw [chunkifier]
      exact holds.room
    · rw [rest]
      exact before
    · intro _
      rw [chunkifier]
      exact empty
    · intro _
      rw [chunkifier]
      exact empty
    · intro finished
      cases mode.symm.trans (same.symm.trans finished)
  · rw [if_pos none, List.append_nil]
    exact ⟨ready, holds⟩

end Writing

section Closing

variable (K zlib rsa)

/-- Close the tape, and return the archive that is stored and what becomes of the tape. -/
def writetapeClosed (d : TapeW P κ) : Option (StoredTape × TapeW P κ) := do
  let short := d.mode = .header ∨ d.mode = .data
  let d ← (if d.eof ∧ short then writetapeSetmode K zlib d .finished else some d)
  let d ← (if d.mode = .trailer then endentry K zlib d else some d)
  if (d.mode = .header ∨ d.mode = .data) ∧ d.eof = false then none
  else flushtape K zlib rsa d d.eof

variable {K zlib rsa}

/-- Closing the tape stores this archive. -/
theorem writetapeClose_eq (d : TapeW P κ) :
    writetapeClose K zlib rsa d = (writetapeClosed K zlib rsa d).map Prod.fst := by
  unfold writetapeClose writetapeClosed
  simp only [Option.bind_eq_bind, Option.map_bind]
  congr 1
  funext d1
  simp only [Function.comp]
  rw [Option.map_bind]
  congr 1
  funext d2
  simp only [Function.comp]
  split
  · rfl
  · cases flushtape K zlib rsa d2 d2.eof <;> rfl

/-- Closing a tape grows it. -/
theorem writetapeClosed_grows {tape : StoredTape}
    (closed : writetapeClosed K zlib rsa d = some (tape, d')) : Grows d d' := by
  unfold writetapeClosed at closed
  obtain ⟨d1, first, closed⟩ := Option.bind_eq_some_iff.mp closed
  obtain ⟨d2, second, closed⟩ := Option.bind_eq_some_iff.mp closed
  have one : Grows d d1 := by
    split at first
    · exact (grows_kept d).setmode first (Grows.refl d)
    · cases first
      exact Grows.refl d
  have two : Grows d1 d2 := by
    split at second
    · exact (endentry_quiet second).toGrows
    · cases second
      exact Grows.refl d1
  split at closed
  · exact nomatch closed
  · exact (one.trans two).trans ((grows_kept d2).flushtape closed (Grows.refl d2))

/-- The archive that is stored is the data that the tape holds. -/
theorem Holds.closed {tape : StoredTape} (holds : Holds contents d data)
    (closed : writetapeClosed K zlib rsa d = some (tape, d')) (faithful : Faithful contents d') :
    readtape contents tape = some data := by
  unfold writetapeClosed at closed
  obtain ⟨d1, first, closed⟩ := Option.bind_eq_some_iff.mp closed
  obtain ⟨d2, second, closed⟩ := Option.bind_eq_some_iff.mp closed
  split at closed
  · exact nomatch closed
  rename_i long
  have faithful2 : Faithful contents d2 :=
    faithful.earlier ((grows_kept d2).flushtape closed (Grows.refl d2))
  have faithful1 : Faithful contents d1 := by
    split at second
    · exact faithful2.earlier (endentry_quiet second).toGrows
    · cases second
      exact faithful2
  have one : Holds contents d1 data ∧ d1.mode ≠ .header ∧ d1.mode ≠ .data := by
    split at first
    · rw [writetapeSetmode_mode first]
      exact ⟨holds.setmode first faithful1, by decide, by decide⟩
    · rename_i whole
      cases first
      have ended : ¬(d.mode = .header ∨ d.mode = .data) := by
        intro short
        have other : d.mode ≠ .trailer := by
          rcases short with header | data
          · rw [header]
            decide
          · rw [data]
            decide
        rw [if_neg other] at second
        cases second
        cases eof : d.eof with
        | true => exact whole ⟨eof, short⟩
        | false => exact long ⟨short, eof⟩
      exact ⟨holds, fun header => ended (.inl header), fun data => ended (.inr data)⟩
  obtain ⟨holds1, notHeader, notData⟩ := one
  have two : Holds contents d2 data ∧ d2.cFile.k = 0 ∧ d2.hbuf = [] ∧ d2.clen = 0 ∧
    d2.tlen = 0 := by
    split at second
    · obtain ⟨held, empty, _, none⟩ := holds1.endentry (holds1.idle notData) second faithful2
      exact ⟨held, empty, none⟩
    · rename_i other
      cases second
      have finished : d1.mode = .finished := by
        cases mode : d1.mode with
        | header => exact absurd mode notHeader
        | data => exact absurd mode notData
        | finished => rfl
        | trailer => exact absurd mode other
      exact ⟨holds1, holds1.idle notData, holds1.done finished⟩
  obtain ⟨holds2, empty, hbuf, clen, tlen⟩ := two
  exact (holds2.flushtape closed faithful).2.2.2 empty hbuf clen tlen

end Closing

end Tarsnap.Multitape
