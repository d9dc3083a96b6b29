import Tarsnap.Datastruct.Elasticarray
import Tarsnap.Multitape.Truncate

/-!
# The header buffer of a tape

Bytes that are not file data go to an elastic array, until the entry ends. The result of appending
them is ignored, so that they are lost without notice when the array cannot grow. All other bytes
that a write accepts follow the data that was accepted before.
-/

namespace Tarsnap.Multitape

open Tarsnap.Lib Tarsnap.Chunks Tarsnap.Chunkify Tarsnap.Datastruct

/-- Append bytes to the header buffer. -/
def bytebufAppend (realloc : Option (Nat → UInt8)) (hbuf : ElasticArray) (buffer : List UInt8) :
    Option ElasticArray :=
  elasticarrayAppend realloc hbuf buffer buffer.length 1 (Nat.mul_one _).symm

section Refinement

variable {P : Params} {κ : Type} {K : Crypto} {zlib : Zlib} {rsa : RsaSigner K}
  {contents : Hash → List UInt8} {start d d' last : TapeW P κ} {accepted : List Piece}
  {hbuf : ElasticArray} {realloc : Option (Nat → UInt8)} {buffer : List UInt8} {lenwrit : Nat}

/-- The elastic array has the bytes of the pending header, before and after a write that is not for
file data. -/
theorem writetapeWrite_hbuf (same : hbuf.contents = d.hbuf) (going : d.eof = false)
    (mode : d.mode ≠ .data)
    (written : writetapeWrite K zlib (bytebufAppend realloc hbuf buffer).isNone d buffer =
      some (lenwrit, d')) :
    ((bytebufAppend realloc hbuf buffer).getD hbuf).contents = d'.hbuf := by
  rcases writetapeWrite_cases written with ⟨truncated, _, _⟩ | ⟨_, _, data, _⟩ |
    ⟨_, _, _, mode, _, _, rfl⟩
  · rw [going] at truncated
    cases truncated
  · exact absurd data mode
  · cases appended : bytebufAppend realloc hbuf buffer with
    | none => exact same
    | some grown =>
      have follows := elasticarrayAppend_contents appended
      rw [same] at follows
      exact follows

/-- What is in the archive after a write: the data that was accepted before, and the bytes unless
they get lost. -/
theorem Calls.write_closed (params : TapeParams P) {nomem : Bool} {tape : StoredTape}
    (before : Calls K zlib rsa (InOrder contents) start accepted d)
    (empty : Holds contents start []) (ready : Ready start)
    (written : writetapeWrite K zlib nomem d buffer = some (lenwrit, d'))
    (closed : writetapeClosed K zlib rsa (writetapeTruncate d') = some (tape, last))
    (faithful : Faithful contents last) :
    ∃ kept, readtape contents tape = some (accepted.flatMap (Piece.data contents) ++ kept) ∧
      (¬Loses d nomem buffer → kept = buffer.take lenwrit) ∧
      (Loses d nomem buffer → kept = []) := by
  have whole : Faithful contents (writetapeTruncate d') :=
    faithful.earlier (writetapeClosed_grows closed)
  have after : Faithful contents d' := whole
  have made : (TapeOp.write nomem buffer).run K zlib rsa d =
      some ([.bytes (buffer.take lenwrit)], d') := by
    rw [TapeOp.run, written]
    rfl
  obtain ⟨later, holds⟩ := before.holds params empty ready
    (after.earlier (TapeOp.run_grows made).1)
  obtain ⟨_, kept, held, cases_⟩ := holds.write params later written after
  have truncated : Holds contents (writetapeTruncate d')
      (accepted.flatMap (Piece.data contents) ++ kept) := held.same ⟨rfl, fun _ => rfl⟩
  exact ⟨kept, truncated.closed closed faithful, cases_⟩

end Refinement

section Recorded

variable {P : Params} {κ : Type} {K : Crypto} {zlib : Zlib} {rsa : RsaSigner K}
  {contents : Hash → List UInt8}

/-- The bytes of a write that returns their number follow, in the archive, the data that was
accepted before, unless they are lost: the tape is not truncated and not in data mode, the header
buffer cannot grow, and there are some bytes. The header buffer cannot grow exactly if the sizes
overflow, or it needs another allocation and there is none; and the tape's pending header is what
is in the buffer. -/
theorem writetapeWrite_recorded (params : TapeParams P) {tapename : List UInt8} {ctime : Nat}
    {argv : List (List UInt8)} {C : ChunksW} {buf : StreamName → Vector UInt8 P.blen}
    {fileBuf : Vector UInt8 P.blen} {cookie : κ} {accepted : List Piece} {d d' last : TapeW P κ}
    {tape : StoredTape} {hbuf : ElasticArray} {realloc : Option (Nat → UInt8)}
    {buffer : List UInt8}
    (before : Calls K zlib rsa (InOrder contents)
      (writetapeStart tapename ctime argv C buf fileBuf cookie) accepted d)
    (written : writetapeWrite K zlib (bytebufAppend realloc hbuf buffer).isNone d buffer =
      some (buffer.length, d'))
    (closed : writetapeClosed K zlib rsa (writetapeTruncate d') = some (tape, last))
    (faithful : Faithful contents last) :
    (readtape contents tape = some (accepted.flatMap (Piece.data contents) ++ buffer) ↔
      ¬(d.eof = false ∧ d.mode ≠ .data ∧ bytebufAppend realloc hbuf buffer = none ∧
        buffer ≠ [])) ∧
    (bytebufAppend realloc hbuf buffer = none ↔
      Overflow hbuf.size buffer.length 1 ∨ (realloc = none ∧
        wanted hbuf.alloc (hbuf.size + buffer.length * 1) ≠ 0 ∧
        wanted hbuf.alloc (hbuf.size + buffer.length * 1) ≠ hbuf.alloc)) ∧
    (hbuf.contents = d.hbuf → d.eof = false → d.mode ≠ .data →
      ((bytebufAppend realloc hbuf buffer).getD hbuf).contents = d'.hbuf) := by
  refine ⟨?_, elasticarrayAppend_none,
    fun same going mode => writetapeWrite_hbuf same going mode written⟩
  obtain ⟨empty, ready⟩ :=
    @writetapeStart_holds P κ contents tapename ctime argv C buf fileBuf cookie
  obtain ⟨kept, read, follows, lost⟩ :=
    before.write_closed params empty ready written closed faithful
  rw [read, Option.some.injEq, List.append_cancel_left_eq]
  constructor
  · rintro same ⟨going, mode, failed, some_⟩
    have loses : Loses d (bytebufAppend realloc hbuf buffer).isNone buffer :=
      ⟨going, mode, by rw [failed]; rfl, some_⟩
    exact some_ (same.symm.trans (lost loses))
  · intro recorded
    rw [follows, List.take_length]
    rintro ⟨going, mode, failed, some_⟩
    exact recorded ⟨going, mode, Option.isNone_iff_eq_none.mp failed, some_⟩

end Recorded

section Example

/-- An empty elastic array. -/
def noBytes : ElasticArray := ⟨0, 0, [], @List.length_nil UInt8, Nat.le_refl _, Nat.zero_le _⟩

/-- Memory that is zero. -/
def zeroMemory : Option (Nat → UInt8) := some fun _ => 0

/-- Three bytes that are written as the end of an archive are read back. -/
theorem writetapeWrite_recorded_trailer : ∃ (d : TapeW beyondParams Unit) (tape : StoredTape),
    writetapeWrite lengthCrypto byteZlib false oneByteTape [1, 2, 3] = some (3, d) ∧
      readtape (fun _ => entryheader 3 0 0 ++ [1, 2, 3]) tape = some [1, 2, 3] := by
  obtain ⟨d, tape, last, written, closed, stored⟩ : ∃ d tape last,
      writetapeWrite lengthCrypto byteZlib (bytebufAppend zeroMemory noBytes [1, 2, 3]).isNone
        oneByteTape [1, 2, 3] = some (3, d) ∧
      writetapeClosed lengthCrypto byteZlib lengthSigner (writetapeTruncate d) =
        some (tape, last) ∧
      ∀ piece ∈ last.stored, entryheader 3 0 0 ++ [1, 2, 3] = piece.2 := by
    refine ⟨_, _, _, rfl, rfl, ?_⟩
    decide +kernel
  have params : TapeParams beyondParams := ⟨rfl, rfl⟩
  have faithful : Faithful (fun _ => entryheader 3 0 0 ++ [1, 2, 3]) last :=
    fun ch buf member => stored (ch, buf) member
  have start : Calls lengthCrypto byteZlib lengthSigner
    (InOrder fun _ => entryheader 3 0 0 ++ [1, 2, 3]) oneByteTape [] oneByteTape := .none
  have recorded := (writetapeWrite_recorded params start written closed faithful).1.mpr
    fun lost => nomatch lost.2.2.1
  exact ⟨d, tape, written, recorded⟩

/-- Bytes that are written as the end of an archive, without memory for the header buffer, are not
in the archive. -/
theorem writetapeWrite_lost : ¬∀ (P : Params) (κ : Type) (K : Crypto) (zlib : Zlib)
    (rsa : RsaSigner K) (contents : Hash → List UInt8) (tapename : List UInt8) (ctime : Nat)
    (argv : List (List UInt8)) (C : ChunksW) (buf : StreamName → Vector UInt8 P.blen)
    (fileBuf : Vector UInt8 P.blen) (cookie : κ) (accepted : List Piece) (d d' last : TapeW P κ)
    (tape : StoredTape) (hbuf : ElasticArray) (realloc : Option (Nat → UInt8))
    (buffer : List UInt8), TapeParams P →
    Calls K zlib rsa (InOrder contents)
      (writetapeStart tapename ctime argv C buf fileBuf cookie) accepted d →
    hbuf.contents = d.hbuf →
    writetapeWrite K zlib (bytebufAppend realloc hbuf buffer).isNone d buffer =
      some (buffer.length, d') →
    writetapeClosed K zlib rsa (writetapeTruncate d') = some (tape, last) →
    Faithful contents last →
    readtape contents tape = some (accepted.flatMap (Piece.data contents) ++ buffer) := by
  intro never
  obtain ⟨d, tape, last, written, closed, stored⟩ : ∃ d tape last,
      writetapeWrite lengthCrypto byteZlib (bytebufAppend none noBytes [1, 2, 3]).isNone
        oneByteTape [1, 2, 3] = some (3, d) ∧
      writetapeClosed lengthCrypto byteZlib lengthSigner (writetapeTruncate d) =
        some (tape, last) ∧
      ∀ piece ∈ last.stored, entryheader 0 0 0 = piece.2 := by
    refine ⟨_, _, _, rfl, rfl, ?_⟩
    decide +kernel
  have faithful : Faithful (fun _ => entryheader 0 0 0) last :=
    fun ch buf member => stored (ch, buf) member
  have params : TapeParams beyondParams := ⟨rfl, rfl⟩
  have all := never _ _ _ _ _ _ _ _ _ _ _ _ _ _ _ _ _ _ _ _ _ params .none rfl written closed
    faithful
  obtain ⟨empty, ready⟩ := @writetapeStart_holds beyondParams Unit (fun _ => entryheader 0 0 0) [] 0
    [] ⟨MAXCHUNK, [⟨oneByte.hash, 1, 1, false, 1, 1⟩], none, 0, 0, 0, 0, 0, 0, 0⟩
    (fun _ => Vector.replicate 261120 0) (Vector.replicate 261120 0) ()
  have start : Calls lengthCrypto byteZlib lengthSigner (InOrder fun _ => entryheader 0 0 0)
    oneByteTape [] oneByteTape := .none
  obtain ⟨kept, read, _, lost⟩ := start.write_closed params empty ready written closed faithful
  rw [read, lost ⟨rfl, by decide, rfl, by decide⟩] at all
  exact absurd (Option.some.inj all) (by decide)

end Example

end Tarsnap.Multitape
