import Tarsnap.Chunkify.RollingExact
import Tarsnap.Multitape.Calls

/-!
# Truncating a tape

Once a tape is truncated it refuses bytes, but it still takes chunks by reference. As long as no
chunk is referenced afterwards, the archive that is stored is the data that was accepted before.
-/

namespace Tarsnap.Multitape

open Tarsnap.Lib Tarsnap.Chunks Tarsnap.Chunkify

section Frozen

variable {P : Params} {κ : Type} {K : Crypto} {zlib : Zlib} {rsa : RsaSigner K}
  {contents : Hash → List UInt8}

/-- If no chunk is referenced after the tape is truncated, the archive that is stored reads back as
what the tape accepted before. -/
theorem writetapeTruncate_frozen (params : TapeParams P) {tapename : List UInt8} {ctime : Nat}
    {argv : List (List UInt8)} {C : ChunksW} {buf : StreamName → Vector UInt8 P.blen}
    {fileBuf : Vector UInt8 P.blen} {cookie : κ} {accepted more : List Piece}
    {d d' last : TapeW P κ} {tape : StoredTape}
    (before : Calls K zlib rsa (InOrder contents)
      (writetapeStart tapename ctime argv C buf fileBuf cookie) accepted d)
    (later : Calls K zlib rsa NoReference (writetapeTruncate d) more d')
    (closed : writetapeClosed K zlib rsa d' = some (tape, last))
    (faithful : Faithful contents last) :
    writetapeClose K zlib rsa d' = some tape ∧
      readtape contents tape = some (accepted.flatMap (Piece.data contents)) := by
  obtain ⟨empty, ready⟩ := @writetapeStart_holds P κ contents tapename ctime argv C buf
    fileBuf cookie
  have faithful' := faithful.earlier (writetapeClosed_grows closed)
  have whole : Faithful contents (writetapeTruncate d) := faithful'.earlier later.grows
  have stored : Faithful contents d := whole
  obtain ⟨_, holds⟩ := before.holds params empty ready stored
  have truncated : Holds contents (writetapeTruncate d) (accepted.flatMap (Piece.data contents)) :=
    holds.same ⟨rfl, fun _ => rfl⟩
  obtain ⟨_, kept⟩ := later.truncated rfl truncated faithful'
  exact ⟨by rw [writetapeClose_eq, closed]; rfl, kept.closed closed faithful⟩

end Frozen

section Example

/-- A hash that is the length of a buffer. -/
def lengthHash (buf : List UInt8) : Hash := ⟨Vector.replicate 32 (UInt8.ofNat buf.length)⟩

/-- Primitives with such hashes, in which every signature is good. -/
def lengthCrypto : Crypto where
  hmacChunk := lengthHash
  hmacName := lengthHash
  sha256 := lengthHash
  rsaVerify _ _ := true
  uncompress _ _ := none

/-- A compressor that makes one byte of any buffer. -/
def byteZlib : Zlib where
  compress2 room _ := if 0 < room then some [0] else none
  fits := by
    intro room buf zbuf compressed
    split at compressed
    · rename_i some_
      cases compressed
      exact some_
    · cases compressed
  nonempty := by
    intro room buf zbuf compressed
    split at compressed
    · cases compressed
      exact List.cons_ne_nil _ _
    · cases compressed

/-- A signer whose signatures are zeros. -/
def lengthSigner : RsaSigner lengthCrypto where
  rsaSign _ := some (List.replicate 256 0)
  length := zeroSignature_length
  verifies := fun _ => rfl

/-- The header of a chunk of one byte. -/
def oneByte : ChunkHeader := ⟨lengthHash [9], 1, 1⟩

/-- A new tape whose chunk layer has this chunk. -/
def oneByteTape : TapeW beyondParams Unit :=
  writetapeStart [] 0 [] ⟨MAXCHUNK, [⟨oneByte.hash, 1, 1, false, 1, 1⟩], none, 0, 0, 0, 0, 0, 0, 0⟩
    (fun _ => Vector.replicate 261120 0) (Vector.replicate 261120 0) ()

/-- What is in the chunk layer: this chunk, and what closing the tape stores. -/
def oneByteStore (hash : Hash) : List UInt8 :=
  if hash = lengthHash oneByte.encode then oneByte.encode
  else if hash = lengthHash (entryheader 0 1 0) then entryheader 0 1 0
  else [9]

/-- A chunk is referenced after the tape is truncated, and the archive that is stored has it,
although the tape accepted nothing before. -/
theorem writetapeTruncate_referenced : ¬∀ (P : Params) (κ : Type) (K : Crypto) (zlib : Zlib)
    (rsa : RsaSigner K) (contents : Hash → List UInt8) (tapename : List UInt8) (ctime : Nat)
    (argv : List (List UInt8)) (C : ChunksW) (buf : StreamName → Vector UInt8 P.blen)
    (fileBuf : Vector UInt8 P.blen) (cookie : κ) (accepted more : List Piece)
    (d d' last : TapeW P κ) (tape : StoredTape), TapeParams P →
    Calls K zlib rsa (InOrder contents)
      (writetapeStart tapename ctime argv C buf fileBuf cookie) accepted d →
    Calls K zlib rsa (InOrder contents) (writetapeTruncate d) more d' →
    writetapeClosed K zlib rsa d' = some (tape, last) → Faithful contents last →
    readtape contents tape = some (accepted.flatMap (Piece.data contents)) := by
  intro frozen
  obtain ⟨d1, d2, d3, tape, last, header, data, chunk, closed, stored⟩ :
      ∃ d1 d2 d3 tape last,
        (TapeOp.setmode .header).run lengthCrypto byteZlib lengthSigner oneByteTape =
          some ([], d1) ∧
        (TapeOp.setmode .data).run lengthCrypto byteZlib lengthSigner d1 = some ([], d2) ∧
        (TapeOp.writechunk oneByte).run lengthCrypto byteZlib lengthSigner (writetapeTruncate d2) =
          some ([.chunk oneByte], d3) ∧
        writetapeClosed lengthCrypto byteZlib lengthSigner d3 = some (tape, last) ∧
        ∀ piece ∈ last.stored, oneByteStore piece.1.hash = piece.2 := by
    refine ⟨_, _, _, _, _, rfl, rfl, rfl, rfl, ?_⟩
    decide +kernel
  have faithful : Faithful oneByteStore last := fun ch buf member => stored (ch, buf) member
  have params : TapeParams beyondParams := ⟨rfl, rfl⟩
  have first : InOrder oneByteStore oneByteTape (.setmode .header) := fun busy => by
    have idle : oneByteTape.mode = .finished := rfl
    exact nomatch idle.symm.trans busy
  have second : InOrder oneByteStore d1 (.setmode .data) := fun _ => .inl rfl
  have third : InOrder oneByteStore d2 .truncate := trivial
  have before := Calls.call (Calls.call .none first header) second data
  have truncate := before.call third rfl
  have size : InOrder oneByteStore (writetapeTruncate d2) (.writechunk oneByte) := by
    show (oneByteStore oneByte.hash).length = oneByte.len.toNat
    decide +kernel
  have later : Calls lengthCrypto byteZlib lengthSigner (InOrder oneByteStore)
    (writetapeTruncate d2)
      ([] ++ [.chunk oneByte]) d3 := .call .none size chunk
  have none := frozen _ _ _ _ _ _ _ _ _ _ _ _ _ _ _ _ _ _ _ params before later closed faithful
  obtain ⟨empty, ready⟩ := @writetapeStart_holds beyondParams Unit oneByteStore [] 0 []
    ⟨MAXCHUNK, [⟨oneByte.hash, 1, 1, false, 1, 1⟩], Option.none, 0, 0, 0, 0, 0, 0, 0⟩
    (fun _ => Vector.replicate 261120 0) (Vector.replicate 261120 0) ()
  obtain ⟨_, holds⟩ := (Calls.call truncate size chunk).holds params empty ready
    (faithful.earlier (writetapeClosed_grows closed))
  rw [holds.closed closed faithful] at none
  have different : ([] ++ [Piece.chunk oneByte]).flatMap (Piece.data oneByteStore) ≠
      ([] : List Piece).flatMap (Piece.data oneByteStore) := by decide +kernel
  exact different (Option.some.inj none)

/-- What the store has when the bytes of an entry were accepted. -/
def threeByteStore (hash : Hash) : List UInt8 :=
  if hash = lengthHash (entryheader 2 0 1 ++ [1, 2]) then entryheader 2 0 1 ++ [1, 2] else [3]

/-- A header and a byte of data are accepted, and another byte is refused. -/
theorem writetapeTruncate_frozen_three : ∃ (d : TapeW beyondParams Unit) (tape : StoredTape),
    writetapeClose lengthCrypto byteZlib lengthSigner d = some tape ∧
      readtape threeByteStore tape = some [1, 2, 3] := by
  obtain ⟨d1, d2, d3, d4, d5, d6, tape, last, header, two, data, one, more, ended, closed,
      stored⟩ : ∃ d1 d2 d3 d4 d5 d6 tape last,
        (TapeOp.setmode .header).run lengthCrypto byteZlib lengthSigner oneByteTape =
          some ([], d1) ∧
        (TapeOp.write false [1, 2]).run lengthCrypto byteZlib lengthSigner d1 =
          some ([.bytes [1, 2]], d2) ∧
        (TapeOp.setmode .data).run lengthCrypto byteZlib lengthSigner d2 = some ([], d3) ∧
        (TapeOp.write false [3]).run lengthCrypto byteZlib lengthSigner d3 =
          some ([.bytes [3]], d4) ∧
        (TapeOp.write false [4]).run lengthCrypto byteZlib lengthSigner (writetapeTruncate d4) =
          some ([.bytes []], d5) ∧
        (TapeOp.setmode .finished).run lengthCrypto byteZlib lengthSigner d5 = some ([], d6) ∧
        writetapeClosed lengthCrypto byteZlib lengthSigner d6 = some (tape, last) ∧
        ∀ piece ∈ last.stored, threeByteStore piece.1.hash = piece.2 := by
    refine ⟨_, _, _, _, _, _, _, _, rfl, rfl, rfl, rfl, rfl, rfl, rfl, ?_⟩
    decide +kernel
  have faithful : Faithful threeByteStore last := fun ch buf member => stored (ch, buf) member
  have params : TapeParams beyondParams := ⟨rfl, rfl⟩
  have kept : ∀ (tape : TapeW beyondParams Unit) (buffer : List UInt8),
      InOrder threeByteStore tape (.write false buffer) := fun _ _ lost => nomatch lost.2.2.1
  have first : InOrder threeByteStore oneByteTape (.setmode .header) := fun busy => by
    have idle : oneByteTape.mode = .finished := rfl
    exact nomatch idle.symm.trans busy
  have third : InOrder threeByteStore d2 (.setmode .data) := fun _ => .inl rfl
  have before := Calls.call (Calls.call (Calls.call (Calls.call .none first header) (kept _ _) two)
    third data) (kept _ _) one
  have refused : NoReference (writetapeTruncate d4) (.write false [4]) := trivial
  have ends : NoReference d5 (.setmode .finished) := trivial
  have later := Calls.call (Calls.call .none refused more) ends ended
  exact ⟨d6, tape, writetapeTruncate_frozen params before later closed faithful⟩

end Example

end Tarsnap.Multitape
