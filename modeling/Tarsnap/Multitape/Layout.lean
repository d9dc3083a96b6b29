import Tarsnap.Multitape.Operations
import Tarsnap.Multitape.Read
import Tarsnap.Chunkify.SquareRoot

/-!
# The data that a tape holds

Data is in the streams, for entries that ended and for the current entry, in the header buffer, and
in the file chunkifier. No operation but writing changes the data that a tape holds, it only moves
along. When a tape is closed all of it is in the streams, from where it is read back.
-/

namespace Tarsnap.Multitape

open Tarsnap.Lib Tarsnap.Chunks Tarsnap.Chunkify

variable {P : Params} {κ : Type} {K : Crypto} {zlib : Zlib} {rsa : RsaSigner K}
  {contents : Hash → List UInt8} {d d' : TapeW P κ} {data : List UInt8}

section Layouts

/-- What the streams stand for: the entries that ended, and the parts of the current one. -/
structure Layout where
  /-- The entries that ended. -/
  entries : List TapeEntry
  /-- The chunks of the current entry. -/
  chunks : List ChunkHeader
  /-- The trailer of the current entry. -/
  trailer : List UInt8

/-- The streams of a tape stand for this. -/
structure Layout.Of (contents : Hash → List UInt8) (l : Layout) (d : TapeW P κ) : Prop where
  /-- The lengths of the entries fit their fields. -/
  fits : ∀ e ∈ l.entries, e.Fits contents
  /-- The header stream. -/
  header : (d.stream .h).total contents = l.entries.flatMap (TapeEntry.encode contents)
  /-- The chunk index stream. -/
  chunks : (d.stream .c).total contents =
    (l.entries.flatMap TapeEntry.chunks ++ l.chunks).flatMap ChunkHeader.encode
  /-- The trailer stream. -/
  trailer : (d.stream .t).total contents = l.entries.flatMap TapeEntry.trailer ++ l.trailer
  /-- The length of the chunks of the current entry. -/
  clen : d.clen = (indexed contents l.chunks).length
  /-- The length of the trailer of the current entry. -/
  tlen : d.tlen = l.trailer.length
  /-- A trailer is short. -/
  short : l.trailer.length < MINCHUNK

/-- The data of the entries that ended. -/
def Layout.ended (contents : Hash → List UInt8) (l : Layout) : List UInt8 :=
  l.entries.flatMap (TapeEntry.bytes contents)

/-- The file data of the current entry that the file chunkifier passed on. -/
def Layout.passed (contents : Hash → List UInt8) (l : Layout) : List UInt8 :=
  indexed contents l.chunks ++ l.trailer

variable {l : Layout}

/-- What the streams stand for is the same. -/
theorem Layout.Of.congr (of : l.Of contents d)
    (streams : ∀ s, (d'.stream s).total contents = (d.stream s).total contents)
    (clen : d'.clen = d.clen) (tlen : d'.tlen = d.tlen) : l.Of contents d' where
  fits := of.fits
  header := (streams .h).trans of.header
  chunks := (streams .c).trans of.chunks
  trailer := (streams .t).trans of.trailer
  clen := clen.trans of.clen
  tlen := tlen.trans of.tlen
  short := of.short

/-- Data that the file chunkifier passes on before any trailer follows what it passed on before. -/
theorem FileStep.layout {buf : List UInt8} (step : FileStep K buf d d')
    (faithful : Faithful contents d') (of : l.Of contents d) (first : d.tlen = 0) :
    ∃ l', Layout.Of contents l' d' ∧ l'.entries = l.entries ∧
      l'.passed contents = l.passed contents ++ buf ∧ (MINCHUNK ≤ buf.length → d'.tlen = 0) := by
  have none : l.trailer = [] := List.eq_nil_of_length_eq_zero (of.tlen.symm.trans first)
  rcases step.kind with trailer | ⟨ch, chunk⟩
  · refine ⟨{ l with trailer := buf }, ?_, rfl, ?_, ?_⟩
    · refine ⟨of.fits, ?_, ?_, ?_, trailer.clen.trans of.clen, trailer.tlen, trailer.short⟩
      · rw [trailer.others .h (by decide)]
        exact of.header
      · rw [trailer.others .c (by decide)]
        exact of.chunks
      · rw [trailer.total contents faithful, of.trailer, none, List.append_nil]
    · rw [Layout.passed, Layout.passed, none, List.append_nil]
    · intro long
      exact absurd trailer.short (Nat.not_lt.mpr long)
  · have same : contents ch.hash = buf := faithful ch buf chunk.stored
    have single : indexed contents [ch] = buf := by
      rw [indexed, List.flatMap_singleton, same]
    refine ⟨{ l with chunks := l.chunks ++ [ch] }, ?_, rfl, ?_, ?_⟩
    · refine ⟨of.fits, ?_, ?_, ?_, ?_, chunk.tlen.trans of.tlen, of.short⟩
      · rw [chunk.others .h (by decide)]
        exact of.header
      · have one : ch.encode = [ch].flatMap ChunkHeader.encode := (List.append_nil _).symm
        rw [chunk.total contents faithful, of.chunks, one, ← List.flatMap_append, List.append_assoc]
      · rw [chunk.others .t (by decide)]
        exact of.trailer
      · rw [chunk.clen, of.clen, indexed_append, List.length_append, single]
    · rw [Layout.passed, Layout.passed, none, List.append_nil, List.append_nil, indexed_append,
        single]
    · intro _
      exact chunk.tlen.trans first

/-- Chunks that are passed on change the streams and count the bytes that are passed out. -/
theorem FileSteps.rest {chunks : List (List UInt8)} (steps : FileSteps K chunks d d') :
    Grows d d' ∧ d' = { d with
      C := d'.C, stream := d'.stream, stored := d'.stored,
      cFileOut := d.cFileOut + chunks.flatten.length,
      clen := d'.clen, tlen := d'.tlen, callbackCookie := d'.callbackCookie } := by
  induction steps with
  | nil => exact ⟨Grows.refl _, rfl⟩
  | cons first _ ih =>
    obtain ⟨grows, rest⟩ := ih
    refine ⟨first.toGrows.trans grows, ?_⟩
    have one := first.rest
    rw [one] at rest
    rw [List.flatten_cons, List.length_append, ← Nat.add_assoc]
    exact rest

/-- Long chunks that the file chunkifier passes on follow what it passed on before. -/
theorem FileSteps.layout {chunks : List (List UInt8)} (steps : FileSteps K chunks d d')
    (faithful : Faithful contents d') (long : ∀ chunk ∈ chunks, MINCHUNK ≤ chunk.length)
    (of : l.Of contents d) (first : d.tlen = 0) :
    d'.tlen = 0 ∧ ∃ l', Layout.Of contents l' d' ∧ l'.entries = l.entries ∧
      l'.passed contents = l.passed contents ++ chunks.flatten := by
  induction steps generalizing l with
  | nil => exact ⟨first, l, of, rfl, by rw [List.flatten_nil, List.append_nil]⟩
  | cons step later ih =>
    obtain ⟨l1, of1, entries, passed, none⟩ :=
      step.layout (faithful.earlier later.rest.1) of first
    obtain ⟨last, l2, of2, same, more⟩ := ih faithful
      (fun chunk member => long chunk (List.mem_cons_of_mem _ member)) of1
      (none (long _ List.mem_cons_self))
    refine ⟨last, l2, of2, same.trans entries, ?_⟩
    rw [more, passed, List.flatten_cons, List.append_assoc]

end Layouts

section Holding

/-- The tape holds this data. -/
structure Holds (contents : Hash → List UInt8) (d : TapeW P κ) (data : List UInt8) : Prop where
  /-- The data is in the streams, in the header buffer and in the file chunkifier. -/
  layout : ∃ l : Layout, l.Of contents d ∧
    l.ended contents ++ (d.hbuf ++ (l.passed contents ++ d.cFile.bytes)) = data
  /-- The file chunkifier is balanced. -/
  root : SquareRoot d.cFile
  /-- Its data fits the buffer. -/
  room : d.cFile.k ≤ P.blen
  /-- The file chunkifier holds what was written into it and not passed out. -/
  held : d.cFileIn = d.cFileOut + d.cFile.k
  /-- It holds data in data mode only. -/
  idle : d.mode ≠ .data → d.cFile.k = 0
  /-- After a trailer there is no more data. -/
  last : d.tlen ≠ 0 → d.cFile.k = 0
  /-- After an entry nothing is left of it. -/
  done : d.mode = .finished → d.hbuf = [] ∧ d.clen = 0 ∧ d.tlen = 0

/-- A chunkifier that counts no bytes holds none. -/
theorem bytes_of_zero {c : Chunkifier P} (empty : c.k = 0) : c.bytes = [] := by
  rw [Chunkifier.bytes, empty, List.take_zero]

/-- The long chunks of a tape's file chunkifier. -/
theorem feed_minchunk (params : TapeParams P) {c last : Chunkifier P} {input : List UInt8}
    {before : List (List UInt8)} (root : SquareRoot c) (fed : feed c input = .ok (before, last)) :
    ∀ chunk ∈ before, MINCHUNK ≤ chunk.length := by
  intro chunk member
  have mu : P.mu = 65536 := params.mu
  have blen : P.blen = 261120 := params.blen
  have minimum : MINCHUNK = 4096 := rfl
  rcases feed_long root fed chunk member with quarter | full
  · omega
  · omega

/-- Writing to the file chunkifier: the data is held after what was held before. -/
theorem Holds.fileWrite (params : TapeParams P) {buf : List UInt8} (holds : Holds contents d data)
    (mode : d.mode = .data) (first : d.tlen = 0) (written : fileWrite K zlib d buf = some d')
    (faithful : Faithful contents d') :
    d'.tlen = 0 ∧ d'.mode = .data ∧
      Holds contents { d' with cFileIn := d'.cFileIn + buf.length } (data ++ buf) := by
  obtain ⟨chunks, c, d1, fed, steps, rfl⟩ := fileWrite_ok written
  have rest := steps.rest.2
  obtain ⟨l, of, same⟩ := holds.layout
  have stored : Faithful contents d1 := faithful
  obtain ⟨none, l1, of1, entries, passed⟩ :=
    steps.layout stored (feed_minchunk params holds.root fed) of first
  have kept : d1.mode = .data := by
    rw [rest]
    exact mode
  have split := feed_flatten fed
  have room := feed_room fed holds.room
  have inside : d1.cFileIn = d.cFileIn := by rw [rest]
  have outside : d1.cFileOut = d.cFileOut + chunks.flatten.length := by rw [rest]
  have hbuf : d1.hbuf = d.hbuf := by rw [rest]
  refine ⟨none, kept, ⟨⟨l1, ?_, ?_⟩, ?_, room, ?_, ?_, ?_, ?_⟩⟩
  · exact of1.congr (fun _ => rfl) rfl rfl
  · have ended : l1.ended contents = l.ended contents := by
      rw [Layout.ended, Layout.ended, entries]
    have bytes : chunks.flatten ++ c.bytes = d.cFile.bytes ++ buf := split
    show l1.ended contents ++ (d1.hbuf ++ (l1.passed contents ++ c.bytes)) = data ++ buf
    rw [← same, ended, hbuf, passed, List.append_assoc (l.passed contents), bytes]
    simp only [List.append_assoc]
  · exact feed_invariant chunkifyStart_squareRoot addByte_squareRoot holds.root fed
  · have lengths := congrArg List.length split
    rw [List.length_append, List.length_append, bytes_length room, bytes_length
      holds.room] at lengths
    have before := holds.held
    show d1.cFileIn + buf.length = d1.cFileOut + c.k
    omega
  · intro other
    exact absurd kept other
  · intro trailer
    exact absurd none trailer
  · intro finished
    exact nomatch kept.symm.trans finished

/-- A change that moves no data. -/
structure SameData (contents : Hash → List UInt8) (d d' : TapeW P κ) : Prop where
  /-- Other fields are the same. -/
  rest : d' = { d with
    eof := d'.eof, C := d'.C, stream := d'.stream, stored := d'.stored,
    callbackCookie := d'.callbackCookie, callbackChunk := d'.callbackChunk,
    callbackTrailer := d'.callbackTrailer }
  /-- What the streams stand for is the same. -/
  streams : ∀ s, (d'.stream s).total contents = (d.stream s).total contents

/-- A change that moves no data keeps the data. -/
theorem Holds.same (holds : Holds contents d data) (same : SameData contents d d') :
    Holds contents d' data := by
  obtain ⟨l, of, bytes⟩ := holds.layout
  have rest := same.rest
  have clen : d'.clen = d.clen := by rw [rest]
  have tlen : d'.tlen = d.tlen := by rw [rest]
  refine ⟨⟨l, of.congr same.streams clen tlen, ?_⟩, ?_, ?_, ?_, ?_, ?_, ?_⟩
  · rw [rest]
    exact bytes
  · rw [rest]
    exact holds.root
  · rw [rest]
    exact holds.room
  · rw [rest]
    exact holds.held
  · rw [rest]
    exact holds.idle
  · rw [rest]
    exact holds.last
  · rw [rest]
    exact holds.done

/-- Ending the last chunk of a stream moves no data. -/
theorem streamEnd_same {s : StreamName} (ended : streamEnd K zlib s d = some d')
    (faithful : Faithful contents d') : SameData contents d d' := by
  obtain ⟨only, _, total⟩ := streamEnd_ok ended
  constructor
  · have rest := only.rest
    rw [rest]
  · intro other
    by_cases own : other = s
    · rw [own]
      exact total contents faithful
    · rw [only.others other own]

/-- Ending the file chunk does nothing if there is none, and otherwise passes it on. -/
theorem fileEnd_cases (ended : fileEnd K zlib d = some d') :
    (d.cFile.k = 0 ∧ d' = d) ∨ (d.cFile.k ≠ 0 ∧ ∃ buf d1, FileStep K d.cFile.bytes d d1 ∧
      d' = { d1 with cFile := chunkifyStart P buf }) := by
  unfold fileEnd at ended
  split at ended
  · rename_i c d1 chunkified
    cases ended
    obtain ⟨accepted, last⟩ := chunkifyEnd_ok _ chunkified
    have steps := fileSteps_of_accept accepted
    by_cases empty : d.cFile.k = 0
    · rw [if_pos empty] at last
      rw [lastChunk, if_pos empty] at steps
      cases steps
      exact .inl ⟨empty, by rw [last]⟩
    · rw [if_neg empty] at last
      rw [lastChunk, if_neg empty] at steps
      cases steps with
      | cons step later =>
        cases later
        exact .inr ⟨empty, d.cFile.buf, d1, step, by rw [last]⟩
  · cases ended

/-- Ending the file chunk moves its data to the streams. -/
theorem Holds.fileEnd (holds : Holds contents d data) (ended : fileEnd K zlib d = some d')
    (faithful : Faithful contents d') :
    Holds contents d' data ∧ d'.cFile.k = 0 ∧ d'.mode = d.mode := by
  rcases fileEnd_cases ended with ⟨empty, rfl⟩ | ⟨some_, buf, d1, step, rfl⟩
  · exact ⟨holds, empty, rfl⟩
  · obtain ⟨l, of, bytes⟩ := holds.layout
    have first : d.tlen = 0 := by
      by_contra trailer
      exact some_ (holds.last trailer)
    have busy : d.mode = .data := by
      by_contra other
      exact some_ (holds.idle other)
    have stored : Faithful contents d1 := faithful
    obtain ⟨l1, of1, entries, passed, _⟩ := step.layout stored of first
    have rest := step.rest
    have kept : d1.mode = d.mode := by rw [rest]
    have hbuf : d1.hbuf = d.hbuf := by rw [rest]
    have inside : d1.cFileIn = d.cFileIn := by rw [rest]
    have outside : d1.cFileOut = d.cFileOut + d.cFile.bytes.length := by rw [rest]
    refine ⟨⟨⟨l1, of1.congr (fun _ => rfl) rfl rfl, ?_⟩, chunkifyStart_squareRoot buf,
      Nat.zero_le _, ?_, fun _ => rfl, fun _ => rfl, ?_⟩, rfl, kept⟩
    · have same : l1.ended contents = l.ended contents := by
        rw [Layout.ended, Layout.ended, entries]
      have none : (chunkifyStart P buf).bytes = [] := chunkifyStart_bytes buf
      simp only [none, List.append_nil]
      rw [← bytes, same, hbuf, passed]
    · have before := holds.held
      have count := bytes_length holds.room
      show d1.cFileIn = d1.cFileOut + 0
      omega
    · intro finished
      rw [← kept] at busy
      exact nomatch busy.symm.trans finished

/-- The end of an entry moves its data to the entries that ended. -/
theorem Holds.endentry (holds : Holds contents d data) (empty : d.cFile.k = 0)
    (ended : endentry K zlib d = some d') (faithful : Faithful contents d') :
    Holds contents d' data ∧ d'.cFile.k = 0 ∧ d'.mode = d.mode ∧ d'.hbuf = [] ∧ d'.clen = 0 ∧
      d'.tlen = 0 := by
  unfold Multitape.endentry at ended
  split at ended
  · exact nomatch ended
  rename_i sizes
  rw [not_not] at sizes
  obtain ⟨d1, first, ended⟩ := Option.bind_eq_some_iff.mp ended
  obtain ⟨d2, second, ended⟩ := Option.bind_eq_some_iff.mp ended
  cases ended
  obtain ⟨only1, total1⟩ := streamWrite_ok first
  obtain ⟨only2, total2⟩ := streamWrite_ok second
  have both := only1.trans only2
  have stored : Faithful contents d2 := faithful
  have rest := both.rest
  obtain ⟨l, of, bytes⟩ := holds.layout
  let e : TapeEntry := ⟨d.hbuf, l.chunks, l.trailer⟩
  have encoded : (d2.stream .h).total contents =
      (d.stream .h).total contents ++ e.encode contents := by
    rw [total2 contents stored, total1 contents (stored.earlier only2.toGrows), List.append_assoc,
      of.clen, of.tlen]
    rfl
  have chunkifier : d2.cFile = d.cFile := by rw [rest]
  have none : d.cFile.bytes = [] := bytes_of_zero empty
  have mode : d2.mode = d.mode := by rw [rest]
  have hbuf : d2.hbuf = [] := by rw [rest]
  have minimum : ([] : List UInt8).length < MINCHUNK := by decide
  have chunks : (l.entries ++ [e]).flatMap TapeEntry.chunks ++ [] =
      l.entries.flatMap TapeEntry.chunks ++ l.chunks := by
    rw [List.append_nil, List.flatMap_append, List.flatMap_singleton]
  have trailers : (l.entries ++ [e]).flatMap TapeEntry.trailer ++ [] =
      l.entries.flatMap TapeEntry.trailer ++ l.trailer := by
    rw [List.append_nil, List.flatMap_append, List.flatMap_singleton]
  refine ⟨⟨⟨⟨l.entries ++ [e], [], []⟩, ⟨?_, ?_, ?_, ?_, rfl, rfl, minimum⟩, ?_⟩, ?_, ?_, ?_,
    ?_, ?_, ?_⟩, ?_, mode, hbuf, rfl, rfl⟩
  · intro other member
    rcases List.mem_append.mp member with member | member
    · exact of.fits other member
    · rw [List.mem_singleton.mp member]
      have chunks := sizes.2
      rw [of.clen] at chunks
      exact ⟨sizes.1, chunks, of.short⟩
  · show (d2.stream .h).total contents = _
    rw [encoded, of.header, List.flatMap_append, List.flatMap_singleton]
  · show (d2.stream .c).total contents =
      ((l.entries ++ [e]).flatMap TapeEntry.chunks ++ []).flatMap ChunkHeader.encode
    rw [chunks, both.others .c (by decide)]
    exact of.chunks
  · show (d2.stream .t).total contents = (l.entries ++ [e]).flatMap TapeEntry.trailer ++ []
    rw [trailers, both.others .t (by decide)]
    exact of.trailer
  · show _ ++ (d2.hbuf ++ ([] ++ [] ++ d2.cFile.bytes)) = data
    rw [← bytes, chunkifier, none, hbuf, Layout.ended, Layout.ended, List.flatMap_append,
      List.flatMap_singleton, TapeEntry.bytes, Layout.passed, List.append_nil]
    simp only [List.append_nil]
    rfl
  · show SquareRoot d2.cFile
    rw [chunkifier]
    exact holds.root
  · show d2.cFile.k ≤ P.blen
    rw [chunkifier]
    exact holds.room
  · show d2.cFileIn = d2.cFileOut + d2.cFile.k
    rw [rest]
    exact holds.held
  · intro _
    show d2.cFile.k = 0
    rw [chunkifier]
    exact empty
  · intro _
    show d2.cFile.k = 0
    rw [chunkifier]
    exact empty
  · intro _
    exact ⟨hbuf, rfl, rfl⟩
  · show d2.cFile.k = 0
    rw [chunkifier]
    exact empty

end Holding

section Flushing

/-- The file data of the current entry is counted. -/
theorem Layout.Of.passed_nil {l : Layout} (of : l.Of contents d) (clen : d.clen = 0)
    (tlen : d.tlen = 0) : indexed contents l.chunks = [] ∧ l.trailer = [] :=
  ⟨List.eq_nil_of_length_eq_zero (of.clen.symm.trans clen),
    List.eq_nil_of_length_eq_zero (of.tlen.symm.trans tlen)⟩

/-- An archive whose indexes name all of the streams is read back. -/
theorem readtape_indexes {l : Layout} {tape : StoredTape} (of : l.Of contents d)
    (clen : d.clen = 0) (tlen : d.tlen = 0) (empty : ∀ s, (d.stream s).c.bytes = [])
    (indexes : tape.tmi = ⟨(d.stream .h).index.flatMap ChunkHeader.encode,
      (d.stream .c).index.flatMap ChunkHeader.encode,
      (d.stream .t).index.flatMap ChunkHeader.encode⟩) :
    readtape contents tape = some (l.ended contents) := by
  have index : ∀ s, indexed contents (d.stream s).index = (d.stream s).total contents := by
    intro s
    rw [Stream.total, empty s, List.append_nil]
  obtain ⟨noChunks, noTrailer⟩ := of.passed_nil clen tlen
  rw [readtape, indexes]
  simp only [streamRead_index, index, of.header, of.chunks, of.trailer, Option.bind_eq_bind,
    Option.bind_some]
  rw [indexed_append, noChunks, noTrailer, List.append_nil, List.append_nil]
  exact readEntries_entries of.fits

/-- Flushing moves all data to the streams; after the end of an entry all of it is read back. -/
theorem Holds.flushtape {isapart : Bool} {tape : StoredTape} (holds : Holds contents d data)
    (flushed : flushtape K zlib rsa d isapart = some (tape, d')) (faithful : Faithful contents d') :
    Holds contents d' data ∧ d'.mode = d.mode ∧
      (d.cFile.k = 0 → d'.hbuf = d.hbuf ∧ d'.clen = d.clen ∧ d'.tlen = d.tlen) ∧
      (d.cFile.k = 0 → d.hbuf = [] → d.clen = 0 → d.tlen = 0 →
        readtape contents tape = some data) := by
  obtain ⟨d1, one, flushed⟩ := Option.bind_eq_some_iff.mp flushed
  obtain ⟨d2, two, flushed⟩ := Option.bind_eq_some_iff.mp flushed
  obtain ⟨d3, three, flushed⟩ := Option.bind_eq_some_iff.mp flushed
  obtain ⟨d4, four, flushed⟩ := Option.bind_eq_some_iff.mp flushed
  obtain ⟨⟨ifiles, C1, tmd⟩, _, flushed⟩ := Option.bind_eq_some_iff.mp flushed
  obtain ⟨⟨mfile, C2⟩, _, flushed⟩ := Option.bind_eq_some_iff.mp flushed
  cases flushed
  obtain ⟨only2, empty2, _⟩ := streamEnd_ok two
  obtain ⟨only3, empty3, _⟩ := streamEnd_ok three
  obtain ⟨only4, empty4, _⟩ := streamEnd_ok four
  have faithful4 : Faithful contents d4 := faithful
  have faithful3 := faithful4.earlier only4.toGrows
  have faithful2 := faithful3.earlier only3.toGrows
  have faithful1 := faithful2.earlier only2.toGrows
  obtain ⟨holds1, empty1, mode1⟩ := holds.fileEnd one faithful1
  have holds2 := holds1.same (streamEnd_same two faithful2)
  have holds3 := holds2.same (streamEnd_same three faithful3)
  have holds4 := holds3.same (streamEnd_same four faithful4)
  have rest2 := only2.rest
  have rest3 := only3.rest
  have rest4 := only4.rest
  have mode4 : d4.mode = d1.mode := by rw [rest4, rest3, rest2]
  have kept : d.cFile.k = 0 → d4.hbuf = d.hbuf ∧ d4.clen = d.clen ∧ d4.tlen = d.tlen := by
    intro none
    rcases fileEnd_cases one with ⟨_, rfl⟩ | ⟨some_, _⟩
    · rw [rest4, rest3, rest2]
      exact ⟨rfl, rfl, rfl⟩
    · exact absurd none some_
  have empty : ∀ s, (d4.stream s).c.bytes = [] := by
    intro s
    cases s with
    | h => exact empty4
    | c =>
      rw [only4.others .c (by decide)]
      exact empty3
    | t =>
      rw [only4.others .t (by decide), only3.others .t (by decide)]
      exact empty2
  refine ⟨holds4.same ⟨rfl, fun _ => rfl⟩, mode4.trans mode1, kept, ?_⟩
  intro none hbuf clen tlen
  obtain ⟨hbuf4, clen4, tlen4⟩ := kept none
  obtain ⟨l, of, bytes⟩ := holds4.layout
  obtain ⟨noChunks, noTrailer⟩ := of.passed_nil (clen4.trans clen) (tlen4.trans tlen)
  have chunkifier : d4.cFile.bytes = [] := by
    rw [rest4, rest3, rest2]
    exact bytes_of_zero empty1
  rw [Layout.passed, noChunks, noTrailer, chunkifier, hbuf4, hbuf] at bytes
  rw [← bytes]
  simp only [List.append_nil]
  exact readtape_indexes of (clen4.trans clen) (tlen4.trans tlen) empty rfl

end Flushing

end Tarsnap.Multitape
