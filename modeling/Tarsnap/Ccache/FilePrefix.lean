import Tarsnap.Ccache.Recording

/-!
# Records describe prefixes of files

The chunks of a file that have not changed are written by their headers, so what is emitted is a
prefix of the file. What the tape accepts afterwards is recorded by the callbacks. So a record
describes a prefix of what was written for its entry, and a later entry that is written from the
record emits such a prefix.
-/

namespace Tarsnap.Ccache

open Tarsnap.Lib Tarsnap.Chunks Tarsnap.Chunkify Tarsnap.Multitape

variable {P : Params} {K : Crypto} {zlib : Zlib} {rsa : RsaSigner K}
  {contents : Hash → List UInt8}

section Reading

/-- The bytes of a file up to its end, or to the first error. -/
def fdBytes : Fd → List UInt8
  | some (byte :: bytes) :: rest => byte :: bytes ++ fdBytes rest
  | _ => []

/-- A file that is read into a buffer: the buffer is not overfull, and either it is full and the
rest of the file follows, or the file ends. -/
theorem readChunk_ok {chunklen : Nat} {chunkbuf out : List UInt8} {fd fd' : Fd}
    (read : readChunk chunklen chunkbuf fd = some (out, fd')) (room : chunkbuf.length ≤ chunklen) :
    out.length ≤ chunklen ∧
      (out.length = chunklen → out ++ fdBytes fd' = chunkbuf ++ fdBytes fd) := by
  induction fd generalizing chunkbuf with
  | nil =>
    cases read
    exact ⟨room, fun _ => rfl⟩
  | cons result rest ih =>
    unfold readChunk at read
    by_cases full : chunklen ≤ chunkbuf.length
    · rw [if_pos full] at read
      cases read
      exact ⟨room, fun _ => rfl⟩
    rw [if_neg full] at read
    match result with
    | none => exact nomatch read
    | some [] =>
      cases read
      exact ⟨room, fun same => absurd same (by omega)⟩
    | some (byte :: bytes) =>
      simp only at read
      by_cases all : (byte :: bytes).length ≤ chunklen - chunkbuf.length
      · rw [if_pos all] at read
        have appended : (chunkbuf ++ byte :: bytes).length ≤ chunklen := by
          rw [List.length_append]
          omega
        obtain ⟨short, whole⟩ := ih read appended
        refine ⟨short, fun same => ?_⟩
        rw [whole same, fdBytes, List.append_assoc]
      · rw [if_neg all] at read
        cases read
        have length : ((byte :: bytes).take (chunklen - chunkbuf.length)).length =
            chunklen - chunkbuf.length := by
          rw [List.length_take]
          omega
        refine ⟨?_, fun _ => ?_⟩
        · rw [List.length_append, length]
          omega
        · have left : (byte :: bytes).drop (chunklen - chunkbuf.length) ≠ [] := by
            rw [ne_eq, List.drop_eq_nil_iff]
            exact all
          obtain ⟨next, others, split⟩ := List.exists_cons_of_ne_nil left
          have follows : fdBytes (some ((byte :: bytes).drop (chunklen - chunkbuf.length)) :: rest)
            = (byte :: bytes).drop (chunklen - chunkbuf.length) ++ fdBytes rest := by
            rw [split, fdBytes]
          have joined := List.take_append_drop (chunklen - chunkbuf.length) (byte :: bytes)
          rw [follows, fdBytes, List.append_assoc, ← List.append_assoc (List.take _ _), joined]

/-- Pieces of a file are found under their hashes. -/
def Unique (K : Crypto) (contents : Hash → List UInt8) (file : List UInt8) : Prop :=
  ∀ piece, piece <:+: file → contents (K.hmacChunk piece) = piece

/-- Pieces of the rest of a file are pieces of the file. -/
theorem Unique.rest {before after : List UInt8} (unique : Unique K contents (before ++ after)) :
    Unique K contents after :=
  fun piece part => unique piece (part.trans (List.suffix_append _ _).isInfix)

/-- Chunks were written by their headers, and are the start of a file. -/
structure StartWritten {κ : Type} (K : Crypto) (zlib : Zlib) (rsa : RsaSigner K)
    (contents : Hash → List UInt8) (headers : List ChunkHeader) (file : List UInt8)
    (d d' : TapeW P κ) : Prop where
  /-- The chunks are the start of the file. -/
  start : indexed contents headers <+: file
  /-- The headers have the lengths of the chunks. -/
  measured : Measured contents headers
  /-- The chunks are emitted. -/
  emits : Emits K zlib rsa contents (indexed contents headers) d d'
  /-- The file chunkifier is the same. -/
  cFile : d'.cFile = d.cFile
  /-- The mode is the same. -/
  mode : d'.mode = d.mode

/-- No chunk was written. -/
theorem startWritten_nil {κ : Type} {file : List UInt8} {d d' : TapeW P κ}
    (emits : Emits K zlib rsa contents [] d d') (cFile : d'.cFile = d.cFile)
    (mode : d'.mode = d.mode) : StartWritten K zlib rsa contents [] file d d' :=
  ⟨List.nil_prefix, fun _ member => absurd member List.not_mem_nil, emits, cFile, mode⟩

/-- The chunks that have not changed are written by their headers. -/
theorem writeUnchanged_ok {κ : Type} {sizeNew : Int} {chp : List ChunkHeader}
    {cnum skiplen cnum' skiplen' : Nat} {d d' : TapeW P κ} {fd fd' : Fd}
    (unique : Unique K contents (fdBytes fd))
    (written : writeUnchanged K zlib sizeNew chp cnum skiplen d fd =
      .ok (cnum', skiplen', d', fd')) :
    ∃ count, cnum' = cnum + count ∧
      skiplen' = skiplen + (indexed contents (chp.take count)).length ∧
      StartWritten K zlib rsa contents (chp.take count) (fdBytes fd) d d' := by
  induction chp generalizing cnum skiplen d fd with
  | nil =>
    cases written
    exact ⟨0, rfl, rfl, startWritten_nil (Emits.refl _) rfl rfl⟩
  | cons ch rest ih =>
    rw [writeUnchanged] at written
    split at written
    · cases written
      exact ⟨0, rfl, rfl, startWritten_nil (Emits.refl _) rfl rfl⟩
    split at written
    · cases written
      exact ⟨0, rfl, rfl, startWritten_nil (Emits.refl _) rfl rfl⟩
    split at written
    · exact nomatch written
    rename_i chunkbuf fd1 read
    obtain ⟨_, whole⟩ := readChunk_ok read (Nat.zero_le _)
    split at written
    · cases written
      exact ⟨0, rfl, rfl, startWritten_nil (Emits.refl _) rfl rfl⟩
    rename_i enough
    split at written
    · cases written
      exact ⟨0, rfl, rfl, startWritten_nil (Emits.refl _) rfl rfl⟩
    rename_i same
    split at written
    · exact nomatch written
    rename_i lenwrit d1 wrote
    have emits := @emits_chunk P κ K zlib rsa contents d d1 ch lenwrit wrote
    have kept : d1.cFile = d.cFile ∧ d1.mode = d.mode := by
      rcases writetapeWritechunk_cases wrote with ⟨_, _, _, _, one⟩ | ⟨_, _, none_⟩
      · have fields := one.rest
        constructor <;> rw [fields]
      · rw [none_]
        exact ⟨rfl, rfl⟩
    split at written
    · rename_i zero
      rw [if_pos zero] at emits
      cases written
      exact ⟨0, rfl, rfl, startWritten_nil emits kept.1 kept.2⟩
    · rename_i positive
      rw [if_neg positive] at emits
      have length : chunkbuf.length = ch.len.toNat := by omega
      have split := whole length
      rw [List.nil_append] at split
      have piece : chunkbuf <:+: fdBytes fd := ⟨[], fdBytes fd1, by rw [← split]; simp⟩
      have holds : contents ch.hash = chunkbuf := by
        rw [← not_not.mp same]
        exact unique chunkbuf piece
      have counted : lenwrit = ch.len.toNat := by
        rcases writetapeWritechunk_cases wrote with ⟨_, _, _, all, _⟩ | ⟨_, none_, _⟩
        · exact all
        · exact absurd none_ positive
      have rest' : Unique K contents (fdBytes fd1) := by
        rw [← split] at unique
        exact unique.rest
      obtain ⟨count, number, total, later⟩ := ih rest' written
      have extended : indexed contents ((ch :: rest).take (count + 1)) =
          contents ch.hash ++ indexed contents (rest.take count) := rfl
      refine ⟨count + 1, ?_, ?_, ?_, ?_, ?_, ?_, ?_⟩
      · omega
      · rw [total, extended, List.length_append, holds, length, counted, Nat.add_assoc]
      · rw [extended, holds, ← split]
        exact (List.prefix_append_right_inj chunkbuf).mpr later.start
      · intro other member
        rw [List.take_succ_cons] at member
        rcases List.mem_cons.mp member with here | there
        · rw [here, holds, length]
        · exact later.measured other there
      · rw [extended]
        exact emits.trans later.emits
      · exact later.cFile.trans kept.1
      · exact later.mode.trans kept.2

end Reading

section Running

variable {before : CcacheEntry} {written : List UInt8} {d d' : Tape P}

/-- Recording goes on when the tape accepts data, which it does as a whole or not at all. -/
theorem Recording.writetape {nomem : Bool} {buffer : List UInt8} {lenwrit : Nat}
    (recording : Recording K zlib contents before written d) (inflates : Inflates K zlib)
    (mode : d.mode = .data)
    (wrote : writetapeWrite K zlib nomem d buffer = some (lenwrit, d')) :
    Recording K zlib contents before (written ++ buffer.take lenwrit) d' ∧ d'.mode = .data ∧
      (lenwrit = 0 ∨ lenwrit = buffer.length) := by
  rcases writetapeWrite_data mode wrote with ⟨zero, same⟩ | ⟨all, d1, fed, same⟩
  · rw [zero, same, List.take_zero, List.append_nil]
    exact ⟨recording, mode, .inl rfl⟩
  · rw [all, List.take_length, same]
    have later := recording.write inflates fed
    obtain ⟨passed, split, holds⟩ := later.passed
    obtain ⟨chunks, c, d2, _, steps, rfl⟩ := fileWrite_ok fed
    exact ⟨⟨later.room, passed, split, holds.cookie, holds.chunk, holds.trailer⟩,
      steps.mode.trans mode, .inr rfl⟩

/-- Recording goes on through a call in the middle of the data. -/
theorem Recording.op {op : TapeOp} {accepted : List Piece}
    (recording : Recording K zlib contents before written d) (inflates : Inflates K zlib)
    (mode : d.mode = .data) (inEntry : op.InEntry)
    (called : op.run K zlib rsa d = some (accepted, d')) :
    Recording K zlib contents before (written ++ accepted.flatMap (Piece.data contents)) d' ∧
      d'.mode = .data := by
  cases op with
  | write nomem buffer =>
    obtain ⟨⟨lenwrit, d1⟩, wrote, rest⟩ := Option.bind_eq_some_iff.mp called
    cases rest
    have taken : [Piece.bytes (buffer.take lenwrit)].flatMap (Piece.data contents) =
        buffer.take lenwrit := List.append_nil _
    rw [taken]
    obtain ⟨later, still, _⟩ := recording.writetape inflates mode wrote
    exact ⟨later, still⟩
  | writechunk ch => exact inEntry.elim
  | setmode other => exact inEntry.elim
  | checkpoint =>
    obtain ⟨⟨part, d1⟩, created, rest⟩ := Option.bind_eq_some_iff.mp called
    cases rest
    rw [List.flatMap_nil, List.append_nil]
    exact ⟨(recording_kept inflates written).checkpoint created recording,
      writetapeCheckpoint_mode mode created⟩
  | truncate =>
    cases called
    rw [List.flatMap_nil, List.append_nil]
    obtain ⟨passed, split, holds⟩ := recording.passed
    exact ⟨⟨recording.room, passed, split, holds.cookie, holds.chunk, holds.trailer⟩, mode⟩

/-- Recording goes on through calls in the middle of the data. -/
theorem Recording.run {ops : List TapeOp} {accepted : List Piece}
    (recording : Recording K zlib contents before written d) (inflates : Inflates K zlib)
    (mode : d.mode = .data) (inEntry : ∀ op ∈ ops, op.InEntry)
    (run : runOps K zlib rsa d ops = some (accepted, d')) :
    Recording K zlib contents before (written ++ accepted.flatMap (Piece.data contents)) d' := by
  induction ops generalizing d written accepted with
  | nil =>
    cases run
    rw [List.flatMap_nil, List.append_nil]
    exact recording
  | cons op ops ih =>
    obtain ⟨⟨first, d1⟩, called, run⟩ := Option.bind_eq_some_iff.mp run
    obtain ⟨⟨later, d2⟩, rest, same⟩ := Option.bind_eq_some_iff.mp run
    cases same
    obtain ⟨one, still⟩ := recording.op inflates mode (inEntry op List.mem_cons_self) called
    have all := ih one still (fun other member => inEntry other (List.mem_cons_of_mem op member))
      rest
    rw [List.flatMap_append, ← List.append_assoc]
    exact all

/-- The entry when recording starts: the chunks that have not changed, with the new data of the
file. -/
def CcacheEntry.started (cce : CcacheEntry) (count : Nat) : CcacheEntry :=
  { cce with ccr := { cce.ccr with
    chp := cce.ccr.chp.take count
    ino := cce.inoNew
    size := cce.sizeNew
    mtime := cce.mtimeNew } }

/-- Writing the unchanged chunks of a file starts the recording. -/
theorem ccacheEntryWritefile_ok {cce : CcacheEntry} {notrailer : Bool} {fd fd' : Fd}
    {skiplen : Nat} (rsa : RsaSigner K) (empty : d.cFile.k = 0)
    (unique : Unique K contents (fdBytes fd))
    (file : ccacheEntryWritefile K zlib cce d notrailer fd = .ok (skiplen, d', fd')) :
    ∃ count d1, Recording K zlib contents (cce.started count) ((fdBytes fd).take skiplen) d' ∧
      skiplen ≤ (fdBytes fd).length ∧
      Emits K zlib rsa contents ((fdBytes fd).take skiplen) d d1 ∧
      d' = writetapeSetcallback d1 d'.callbackChunk d'.callbackTrailer d'.callbackCookie ∧
      d'.mode = d.mode := by
  unfold ccacheEntryWritefile at file
  split at file
  · exact nomatch file
  rename_i noTrailer
  obtain ⟨⟨cnum, skip, d1, fd1⟩, wrote, rest⟩ := bind_eq_ok.mp file
  cases rest
  obtain ⟨count, number, total, start⟩ :=
    @writeUnchanged_ok P K zlib rsa contents _ _ _ _ _ _ _ _ _ _ _ unique wrote
  rw [Nat.zero_add] at number total
  subst number
  have prefix_ : (fdBytes fd).take skiplen = indexed contents (cce.ccr.chp.take cnum) := by
    rw [total]
    exact (List.prefix_iff_eq_take.mp start.start).symm
  have none_ : cce.ccr.tlen = 0 := by omega
  have described : recorded K contents (cce.started cnum).ccr =
      indexed contents (cce.ccr.chp.take cnum) :=
    @recorded_chunks K contents (cce.started cnum).ccr none_
  rw [prefix_]
  refine ⟨cnum, d1, ⟨?_, indexed contents (cce.ccr.chp.take cnum), ?_, ?_, rfl, ?_⟩, ?_,
    start.emits, rfl, start.mode⟩
  · change d1.cFile.k ≤ P.blen
    rw [start.cFile, empty]
    exact Nat.zero_le _
  · change _ = _ ++ d1.cFile.bytes
    rw [start.cFile]
    simp [Chunkifier.bytes, empty]
  · intro _
    refine ⟨cce.started cnum, rfl, rfl, ?_, start.measured, fun _ => ⟨rfl, none_⟩, ?_⟩
    · rw [described]
    · exact fun some_ => absurd none_ some_
  · change some (if _ then _ else _) = _ ∨ some (if _ then _ else _) = _
    split
    · exact .inr rfl
    · exact .inl rfl
  · rw [total]
    exact start.start.length_le

end Running

section Ending

variable {κ : Type} {cache cache' : Cache} {path : Path} {sb : Stat} {dl : TapeW P κ}
  {cce before : CcacheEntry} {d d' : Tape P} {ccr : CcacheRecord}

/-- An entry that has been looked up is in the tree, or the path is not there. -/
theorem ccacheEntryLookup_origin :
    (ccacheEntryLookup K cache path sb dl).1.cci.tree = cache.tree ∧
      ((ccacheEntryLookup K cache path sb dl).1.ccrp = some path ∨
        (ccacheEntryLookup K cache path sb dl).1.ccrp = none ∧ cache.tree.lookup path = none) := by
  have dropped : ∀ cce : CcacheEntry,
      cce.dropTrailer.cci.tree = cce.cci.tree ∧ cce.dropTrailer.ccrp = cce.ccrp := by
    intro cce
    unfold CcacheEntry.dropTrailer
    split
    · constructor
      · change (if _ then _ else _ : Cache).tree = _
        split <;> rfl
      · rfl
    · exact ⟨rfl, rfl⟩
  cases found : cache.tree.lookup path with
  | none =>
    unfold ccacheEntryLookup
    rw [found]
    exact ⟨rfl, .inr ⟨rfl, rfl⟩⟩
  | some ccr =>
    rw [ccacheEntryLookup_found found]
    split
    · have kept := dropped (lookedUp cache path sb ccr (decompressTrailer K ccr))
      exact ⟨kept.1, .inl kept.2⟩
    · have kept := dropped (lookedUp cache path sb ccr none)
      exact ⟨kept.1, .inl kept.2⟩

/-- What an entry's end leaves under its path is its final record. -/
theorem ccacheEntryEnd_record {snaptime : Int} (tree : cce.cci.tree = cache.tree)
    (origin : cce.ccrp = some path ∨ cce.ccrp = none ∧ cache.tree.lookup path = none)
    (ended : ccacheEntryEnd cce d path snaptime = some (cache', d'))
    (found : cache'.tree.lookup path = some ccr) : ccr = cce.final snaptime := by
  unfold ccacheEntryEnd at ended
  rcases origin with there | ⟨fresh, missing⟩
  · simp only [there] at ended
    cases ended
    simp only [CcacheEntry.cache] at found
    exact SortedMap.lookup_update found
  · simp only [fresh] at ended
    split at ended
    · obtain ⟨tree', inserted, rest⟩ := Option.bind_eq_some_iff.mp ended
      cases rest
      have new := SortedMap.lookup_insert inserted
      exact Option.some.inj (found.symm.trans new)
    · cases ended
      simp only [CcacheEntry.cache, tree, missing] at found
      exact nomatch found

/-- The final record of a fresh entry keeps its chunks and trailer. -/
theorem final_fresh {snaptime : Int} (fresh : cce.Fresh) :
    (cce.final snaptime).chp = cce.ccr.chp ∧ (cce.final snaptime).tlen = cce.ccr.tlen ∧
      (cce.final snaptime).ztrailer = cce.ccr.ztrailer := by
  unfold CcacheEntry.final
  rw [if_pos fresh]
  exact ⟨rfl, rfl, rfl⟩

/-- What the callbacks change does not make an entry stale, and leaves its place alone. -/
theorem CcacheEntry.Updates.kept (updates : cce.Updates before) :
    (cce.Fresh ↔ before.Fresh) ∧ cce.cci.tree = before.cci.tree ∧ cce.ccrp = before.ccrp := by
  rw [CcacheEntry.Updates] at updates
  refine ⟨?_, ?_, ?_⟩
  · unfold CcacheEntry.Fresh
    rw [updates]
  · rw [updates]
  · rw [updates]

end Ending

section Later

variable {Q : Params} {κ : Type} {cache : Cache} {path : Path} {sb : Stat} {dl dw : TapeW Q κ}
  {ccr : CcacheRecord} {written : List UInt8}

/-- A record with the chunks and the trailer of another one. -/
def CcacheRecord.SameData (ccr other : CcacheRecord) : Prop :=
  ccr.chp = other.chp ∧ ccr.tlen = other.tlen ∧ ccr.ztrailer = other.ztrailer

/-- Such records describe the same bytes. -/
theorem CcacheRecord.SameData.decompress {other : CcacheRecord} (same : ccr.SameData other) :
    decompressTrailer K ccr = decompressTrailer K other := by
  rw [decompressTrailer, decompressTrailer, same.2.1, same.2.2]

/-- Writing a fresh entry emits all its chunks and its trailer, or the chunks before a missing
one. -/
theorem ccacheEntryWrite_emits {cce : CcacheEntry} (rsa : RsaSigner K) (fresh : cce.Fresh)
    (ready : Ready dw) (works : (ccacheEntryWrite K zlib cce dw).1 ≠ .error .tape) :
    Emits K zlib rsa contents (indexed contents cce.ccr.chp ++ cce.trailerTaken dw) dw
        (ccacheEntryWrite K zlib cce dw).2 ∨
      ¬ AllPresent dw cce.ccr.chp ∧ ∃ headers, headers <+: cce.ccr.chp ∧
        leading dw cce.ccr.chp <+: headers ∧
        Emits K zlib rsa contents (indexed contents headers) dw
          (ccacheEntryWrite K zlib cce dw).2 := by
  obtain ⟨headers, start, chunks, outcome⟩ := @writeChunks_spec Q κ K zlib cce.ccr.chp 0 dw ready
  unfold ccacheEntryWrite at works ⊢
  rw [if_neg (not_not.mpr fresh)] at works ⊢
  generalize writeChunks K zlib cce.ccr.chp 0 dw = result at works outcome chunks ⊢
  obtain ⟨code, d1⟩ := result
  have emits := chunks.emits rsa contents
  rcases outcome with ⟨ok, whole⟩ | failed | ⟨missing, notAll, before⟩
  · left
    cases ok
    rw [whole] at emits
    have truncated : d1.eof = dw.eof := chunks.eof
    unfold CcacheEntry.trailerTaken
    cases trailer : cce.trailer with
    | none =>
      simp only [List.append_nil]
      exact emits
    | some bytes =>
      simp only [trailer] at works ⊢
      cases wrote : writetapeWrite K zlib false d1 (bytes.take cce.ccr.tlen) with
      | none =>
        rw [wrote] at works
        exact absurd rfl works
      | some pair =>
        obtain ⟨lenwrit, d2⟩ := pair
        have last := @emits_write Q κ K zlib rsa contents d1 d2 _ _ _ wrote
        rw [writetapeWrite_length wrote, truncated, apply_ite (List.take · _), List.take_zero,
          List.take_length] at last
        exact emits.trans last
  · cases failed
    exact absurd rfl works
  · right
    cases missing
    exact ⟨notAll, headers, start, before, emits⟩

/-- A full entry whose trailer is intact emits the start of what its record describes, and not less
than the size of the file unless the tape is truncated. -/
theorem fullEntry_emits (rsa : RsaSigner K)
    (found : cache.tree.lookup path = some ccr) (measured : Measured contents ccr.chp)
    (intact : ccr.tlen ≠ 0 → decompressTrailer K ccr ≠ none)
    (full : (ccacheEntryLookup K cache path sb dl).2.1 = true) (ready : Ready dw)
    (has : ∀ hash, HasChunk dl.C hash → HasChunk dw.C hash)
    (works : (ccacheEntryWrite K zlib (ccacheEntryLookup K cache path sb dl).1 dw).1 ≠
      .error .tape) :
    ∃ emitted, Emits K zlib rsa contents emitted dw
        (ccacheEntryWrite K zlib (ccacheEntryLookup K cache path sb dl).1 dw).2 ∧
      emitted <+: recorded K contents ccr ∧
      (dw.eof = false → sb.size ≤ (emitted.length : Int)) := by
  by_cases used : TrailerUsed dl ccr sb
  · rw [ccacheEntryLookup_found found, if_pos used] at works ⊢
    obtain ⟨trailer, decompressed⟩ := Option.ne_none_iff_exists'.mp (intact used.2.2.1.ne')
    have kept : (lookedUp cache path sb ccr (some trailer)).dropTrailer =
        lookedUp cache path sb ccr (some trailer) :=
      (dropTrailer_fields _).2.2.2 (Option.some_ne_none trailer)
    simp only [decompressed, kept] at works ⊢
    have length := decompressTrailer_length decompressed
    have described : recorded K contents ccr = indexed contents ccr.chp ++ trailer := by
      rw [recorded, decompressed, Option.getD_some]
    have there : AllPresent dw ccr.chp := used.2.1.later has
    rcases @ccacheEntryWrite_emits K zlib contents Q κ dw
      (lookedUp cache path sb ccr (some trailer)) rsa used.1 ready works with emits | missing
    · refine ⟨_, emits, ?_, ?_⟩
      · rw [described]
        apply (List.prefix_append_right_inj _).mpr
        change (if dw.eof then [] else trailer.take ccr.tlen) <+: trailer
        split
        · exact List.nil_prefix
        · exact List.take_prefix _ _
      · intro open_
        have taken : (lookedUp cache path sb ccr (some trailer)).trailerTaken dw = trailer := by
          change (if dw.eof then [] else trailer.take ccr.tlen) = trailer
          rw [open_, if_neg Bool.false_ne_true, ← length, List.take_length]
        rw [taken, List.length_append, length]
        change sb.size ≤ (((indexed contents ccr.chp).length + ccr.tlen : Nat) : Int)
        rw [measured.bytes]
        exact used.2.2.2
    · exact absurd there missing.1
  · rw [ccacheEntryLookup_found found, if_neg used] at full works ⊢
    have fields := dropTrailer_fields (lookedUp cache path sb ccr none)
    simp only [decide_eq_true_eq] at full
    simp only at works ⊢
    by_cases same : ccr.SameFile sb
    · rw [if_pos same] at full
      have chunks := fields.1
      have begins : ∀ headers, headers <+: ccr.chp → leading dl ccr.chp <+: headers →
          sb.size ≤ ((indexed contents headers).length : Int) := by
        intro headers start before
        have part : Measured contents headers := fun ch member => measured ch (start.subset member)
        rw [part.bytes]
        obtain ⟨more, split⟩ := before
        rw [← split, chunkBytes, List.map_append, List.sum_append]
        change sb.size ≤ ((chunkBytes (leading dl ccr.chp) + _ : Nat) : Int)
        omega
      have described : ∀ headers, headers <+: ccr.chp →
          indexed contents headers <+: recorded K contents ccr := by
        intro headers start
        obtain ⟨more, split⟩ := start
        rw [recorded, ← split, indexed_append, List.append_assoc]
        exact List.prefix_append _ _
      rcases @ccacheEntryWrite_emits K zlib contents Q κ dw
        (lookedUp cache path sb ccr none).dropTrailer rsa (fields.2.2.1.mpr same) ready works
        with emits | ⟨_, headers, start, before, emits⟩
      · rw [fields.1, trailerTaken_dropped rfl, List.append_nil] at emits
        refine ⟨_, emits, described _ (List.prefix_refl _), fun _ => ?_⟩
        exact begins ccr.chp (List.prefix_refl _) (List.takeWhile_prefix _)
      · rw [fields.1] at start before
        refine ⟨_, emits, described headers start, fun _ => ?_⟩
        exact begins headers start ((leading_later ccr.chp has).trans before)
    · rw [if_neg same] at full
      have stale : ¬ (lookedUp cache path sb ccr none).dropTrailer.Fresh :=
        fun fresh => same (fields.2.2.1.mp fresh)
      refine ⟨[], ?_, List.nil_prefix, fun _ => full⟩
      unfold ccacheEntryWrite
      rw [if_pos stale]
      exact Emits.refl dw

end Later

section Entries

/-- The data of an entry is written: unchanged chunks, then data with checkpoints in between. The
entry may be finished. -/
structure EntryWritten (K : Crypto) (zlib : Zlib) (rsa : RsaSigner K) (cce : CcacheEntry) (fd : Fd)
    (skiplen : Nat) (accepted : List Piece) (d0 d1 d2 d3 : Tape P) : Prop where
  /-- The tape is in data mode. -/
  mode : d0.mode = .data
  /-- The file chunkifier holds nothing. -/
  empty : d0.cFile.k = 0
  /-- The unchanged chunks are written. -/
  file : ∃ notrailer fd', ccacheEntryWritefile K zlib cce d0 notrailer fd = .ok (skiplen, d1, fd')
  /-- Data is written. -/
  data : ∃ ops, (∀ op ∈ ops, op.InEntry) ∧ runOps K zlib rsa d1 ops = some (accepted, d2)
  /-- The entry is finished, or not yet. -/
  finished : d3 = d2 ∨ writetapeSetmode K zlib d2 .finished = some d3

/-- A full entry from a record emits a prefix of the given bytes, and not less than the size of the
file unless the tape is truncated. -/
def Provides (K : Crypto) (zlib : Zlib) (rsa : RsaSigner K) (contents : Hash → List UInt8)
    (written : List UInt8) (ccr : CcacheRecord) : Prop :=
  ∀ (Q : Params) (κ : Type) (cache : Cache) (path : Path) (sb : Stat) (dl dw : TapeW Q κ)
    (copy : CcacheRecord), copy.SameData ccr → cache.tree.lookup path = some copy →
    (ccacheEntryLookup K cache path sb dl).2.1 = true → Ready dw →
    (∀ hash, HasChunk dl.C hash → HasChunk dw.C hash) →
    (ccacheEntryWrite K zlib (ccacheEntryLookup K cache path sb dl).1 dw).1 ≠ .error .tape →
    ∃ emitted, Emits K zlib rsa contents emitted dw
        (ccacheEntryWrite K zlib (ccacheEntryLookup K cache path sb dl).1 dw).2 ∧
      emitted <+: written ∧ (dw.eof = false → sb.size ≤ (emitted.length : Int))

variable {κ : Type} {cache : Cache} {path : Path} {sb : Stat} {dl : TapeW P κ} {fd : Fd}
  {skiplen : Nat} {accepted : List Piece} {d0 d1 d2 d3 : Tape P}

/-- The record of an entry describes a prefix of what was written for it, starting with a prefix of
the file, and a later entry that is written from the record emits such a prefix. -/
theorem record_describes_prefix
    (entry : EntryWritten K zlib rsa (ccacheEntryLookup K cache path sb dl).1 fd skiplen accepted
      d0 d1 d2 d3)
    (inflates : Inflates K zlib) (unique : Unique K contents (fdBytes fd))
    (faithful : Faithful contents d3) :
    (skiplen ≤ (fdBytes fd).length ∧ ∃ d, Emits K zlib rsa contents
      ((fdBytes fd).take skiplen) d0 d ∧
      d1 = writetapeSetcallback d d1.callbackChunk d1.callbackTrailer d1.callbackCookie) ∧
    ∃ cce, d3.callbackCookie = some cce ∧
      recorded K contents cce.ccr <+:
        (fdBytes fd).take skiplen ++ accepted.flatMap (Piece.data contents) ∧
      (cce.ccr.tlen ≠ 0 → decompressTrailer K cce.ccr ≠ none) ∧
      ∀ snaptime cache' d4 ccr, ccacheEntryEnd cce d3 path snaptime = some (cache', d4) →
        cache'.tree.lookup path = some ccr →
        Provides K zlib rsa contents
          ((fdBytes fd).take skiplen ++ accepted.flatMap (Piece.data contents)) ccr := by
  obtain ⟨notrailer, fd', file⟩ := entry.file
  obtain ⟨ops, inEntry, run⟩ := entry.data
  obtain ⟨count, d, started, long, emits, set, mode⟩ :=
    ccacheEntryWritefile_ok rsa entry.empty unique file
  refine ⟨⟨long, d, emits, set⟩, ?_⟩
  have later := started.run inflates (mode.trans entry.mode) inEntry run
  have recording : Recording K zlib contents
      ((ccacheEntryLookup K cache path sb dl).1.started count)
      ((fdBytes fd).take skiplen ++ accepted.flatMap (Piece.data contents)) d3 := by
    rcases entry.finished with same | finished
    · rw [same]
      exact later
    · exact (recording_kept inflates _).setmode finished later
  obtain ⟨cce, cookie, updates, start, measured, intact⟩ := recording.describes faithful
  refine ⟨cce, cookie, start, intact, ?_⟩
  intro snaptime cache' d4 ccr ended found
  obtain ⟨fresh, tree, place⟩ := updates.kept
  obtain ⟨looked, origin⟩ := @ccacheEntryLookup_origin P K κ cache path sb dl
  have final := ccacheEntryEnd_record (tree.trans looked) (by rw [place]; exact origin) ended found
  have kept := @final_fresh cce snaptime (fresh.mpr ⟨rfl, rfl, rfl⟩)
  intro Q κ cache path sb dl dw copy same listed full ready has works
  have data : copy.SameData cce.ccr := by
    rw [final] at same
    exact ⟨same.1.trans kept.1, same.2.1.trans kept.2.1, same.2.2.trans kept.2.2⟩
  have described : recorded K contents copy = recorded K contents cce.ccr := by
    rw [recorded, recorded, data.1, data.decompress]
  have lengths : Measured contents copy.chp := by
    rw [data.1]
    exact measured
  have inflated : copy.tlen ≠ 0 → decompressTrailer K copy ≠ none := by
    rw [data.2.1, data.decompress]
    exact intact
  obtain ⟨emitted, emits, prefix_, size⟩ :=
    fullEntry_emits rsa listed lengths inflated full ready has works
  rw [described] at prefix_
  exact ⟨emitted, emits, prefix_.trans start, size⟩

/-- Chunkifiers with a buffer of 64 bytes. -/
def mediumParams : Params where
  mu := 63
  p := 3
  pp := 1431655765
  ar := 1
  cm _ := 0
  blen := 64
  mu_le := by decide
  mu_lt_blen := by decide
  blen_lt := by decide
  p_pos := smallParams.p_pos
  p_le := smallParams.p_le
  pp_inverse := smallParams.pp_inverse
  pp_lt := smallParams.pp_lt

/-- The hash of a short buffer. -/
def firstByte (buf : List UInt8) : Hash := ⟨Vector.replicate 32 (buf.headD 0)⟩

/-- Primitives with short hashes and without compression. -/
def firstByteCrypto : Crypto := { storedCrypto with hmacChunk := firstByte }

/-- A compressor that copies. -/
def copyingZlib : Zlib where
  compress2 room buf := if buf ≠ [] ∧ buf.length ≤ room then some buf else none
  fits := by
    intro room buf zbuf compressed
    split at compressed
    · rename_i condition
      cases compressed
      exact condition.2
    · cases compressed
  nonempty := by
    intro room buf zbuf compressed
    split at compressed
    · rename_i condition
      cases compressed
      exact condition.1
    · cases compressed

/-- A signer that cannot sign. -/
def noSigner (K : Crypto) : RsaSigner K where
  rsaSign _ := none
  length := fun signed => nomatch signed
  verifies := fun signed => nomatch signed

/-- The contents of chunks of at most one byte. -/
def oneByteContents (hash : Hash) : List UInt8 :=
  if hash.bytes[0] = 0 then [] else [hash.bytes[0]]

/-- A tape in data mode that has a chunk of one byte. -/
def mediumTape : Tape mediumParams :=
  { writetapeStart [] 0 [] { noChunks with HT := [⟨firstByte [9], 1, 1, false, 1, 1⟩] }
      (fun _ => Vector.replicate 64 0) (Vector.replicate 64 0) none with
    mode := .data }

/-- A cache with a record of this chunk. -/
def mediumCache : Cache :=
  ⟨⟨[(⟨[47]⟩, ⟨5, 3, 0, [⟨firstByte [9], 1, 1⟩], 0, [], 0, false⟩)], List.pairwise_singleton _ _⟩,
    0, 0⟩

/-- A file of one byte whose chunk has not changed is written with two bytes that follow. The record
has the chunk and a trailer. -/
theorem record_describes_threeBytes :
    ∃ cce : CcacheEntry, (cce.ccr.chp.length, cce.ccr.tlen) = (1, 2) ∧
      recorded firstByteCrypto oneByteContents cce.ccr <+: [9, 8, 7] := by
  obtain ⟨d1, fd', d2, d3, file, data, finished, stored, kept⟩ : ∃ d1 fd' d2 d3,
      ccacheEntryWritefile firstByteCrypto copyingZlib
        (ccacheEntryLookup firstByteCrypto mediumCache ⟨[47]⟩ ⟨5, 4, 1⟩ mediumTape).1
          mediumTape false
        [some [9]] = .ok (1, d1, fd') ∧
      runOps firstByteCrypto copyingZlib (noSigner _) d1 [.write false [8, 7]] =
        some ([.bytes [8, 7]], d2) ∧
      writetapeSetmode firstByteCrypto copyingZlib d2 .finished = some d3 ∧ d3.stored = [] ∧
      d3.callbackCookie.map (fun cce : CcacheEntry => (cce.ccr.chp.length, cce.ccr.tlen)) =
        some (1, 2) := ⟨_, _, _, _, rfl, rfl, rfl, rfl, rfl⟩
  have entry : EntryWritten firstByteCrypto copyingZlib (noSigner _)
      (ccacheEntryLookup firstByteCrypto mediumCache ⟨[47]⟩ ⟨5, 4, 1⟩ mediumTape).1 [some [9]] 1
      [.bytes [8, 7]] mediumTape d1 d2 d3 :=
    ⟨rfl, rfl, ⟨false, fd', file⟩, ⟨_, by simp [TapeOp.InEntry], data⟩, .inr finished⟩
  have inflates : Inflates firstByteCrypto copyingZlib := by
    intro room buf zbuf deflated
    have same : (if buf ≠ [] ∧ buf.length ≤ room then some buf else none) = some zbuf := deflated
    split at same
    · cases same
      exact if_pos (Nat.le_refl _)
    · cases same
  have unique : Unique firstByteCrypto oneByteContents (fdBytes [some [9]]) := by
    intro piece part
    have one : piece.Sublist [9] := part.sublist
    rcases List.sublist_singleton.mp one with rfl | rfl <;> decide
  have faithful : Faithful oneByteContents d3 := by
    intro ch buf member
    rw [stored] at member
    exact absurd member List.not_mem_nil
  obtain ⟨_, cce, cookie, start, _⟩ := record_describes_prefix entry inflates unique faithful
  rw [cookie] at kept
  exact ⟨cce, Option.some.inj kept, start⟩

end Entries

end Tarsnap.Ccache
