import Tarsnap.Multitape.Chunkiter

/-!
# When an iteration is complete

An iteration returns zero in two cases: every step succeeded, and then the callback was invoked
on every chunk header of the archive; or a chunk of the chunk index could not be noted for
caching, which leaves the iteration while the return code is still the zero of the callback.
Hence an iteration that returns zero is complete exactly if no such failure is reached while
something of the archive is left.
-/

namespace Tarsnap.Multitape

open Tarsnap.Lib Tarsnap.Chunks

variable {σ : Type} {K : Crypto} {S : Store} {faults : IterFaults}
  {func : σ → ChunkHeader → Int × σ} {extrastats : σ → Nat → σ} {tmd : TapeMetadata}

/-- The callback returns zero on each chunk header, in order. -/
def Accepts (func : σ → ChunkHeader → Int × σ) : σ → List ChunkHeader → Prop
  | _, [] => True
  | cookie, ch :: rest => (func cookie ch).1 = 0 ∧ Accepts func (func cookie ch).2 rest

/-- The state after the callback was invoked on chunk headers. -/
def Iter.extend (func : σ → ChunkHeader → Int × σ) (it : Iter σ) (headers : List ChunkHeader) :
    Iter σ :=
  ⟨headers.foldl (fun cookie ch => (func cookie ch).2) it.cookie, it.calls ++ headers⟩

/-- Invocations on consecutive lists. -/
theorem Accepts.append {cookie : σ} {before after : List ChunkHeader} :
    Accepts func cookie (before ++ after) ↔ Accepts func cookie before ∧
      Accepts func (before.foldl (fun cookie ch => (func cookie ch).2) cookie) after := by
  induction before generalizing cookie with
  | nil => simp [Accepts]
  | cons ch before ih => simp [Accepts, ih, and_assoc]

/-- No invocations change nothing. -/
@[simp] theorem Iter.extend_nil (it : Iter σ) : it.extend func [] = it := by
  simp [Iter.extend]

/-- Invocations on consecutive lists. -/
theorem Iter.extend_append (it : Iter σ) (before after : List ChunkHeader) :
    (it.extend func before).extend func after = it.extend func (before ++ after) := by
  simp [Iter.extend]

section Loops

/-- What an accepted invocation does. -/
theorem callFunc_ok {it it' : Iter σ} {ch : ChunkHeader} :
    callFunc func it ch = .ok it' ↔ Accepts func it.cookie [ch] ∧ it' = it.extend func [ch] := by
  rw [callFunc]
  simp only [Accepts, and_true, Iter.extend, List.foldl_cons, List.foldl_nil]
  split
  · rename_i refused
    exact ⟨fun same => (nomatch same), fun accepted => absurd accepted.1 refused⟩
  · rename_i accepted
    constructor
    · intro same
      cases same
      exact ⟨Decidable.not_not.mp accepted, rfl⟩
    · rintro ⟨_, rfl⟩
      rfl

/-- An invocation that leaves the iteration does not leave zero. -/
theorem callFunc_error {it it' : Iter σ} {ch : ChunkHeader} {rc : Int}
    (left : callFunc func it ch = .error (rc, it')) : rc ≠ 0 := by
  rw [callFunc] at left
  simp only [] at left
  split at left
  · cases left
    assumption
  · exact nomatch left

/-- What a loop over accepted headers does. -/
theorem headerLoop_ok {it it' : Iter σ} {headers : List ChunkHeader} :
    headerLoop func it headers = .ok it' ↔
      Accepts func it.cookie headers ∧ it' = it.extend func headers := by
  induction headers generalizing it with
  | nil =>
    rw [Iter.extend_nil]
    constructor
    · intro same
      cases same
      exact ⟨trivial, rfl⟩
    · rintro ⟨_, rfl⟩
      rfl
  | cons ch headers ih =>
    rw [headerLoop, List.foldlM_cons, bind_eq_ok]
    constructor
    · rintro ⟨next, here, rest⟩
      obtain ⟨accepted, rfl⟩ := callFunc_ok.mp here
      obtain ⟨later, rfl⟩ := ih.mp rest
      exact ⟨⟨accepted.1, later⟩, it.extend_append [ch] headers⟩
    · rintro ⟨accepted, rfl⟩
      refine ⟨it.extend func [ch], callFunc_ok.mpr ⟨⟨accepted.1, trivial⟩, rfl⟩, ?_⟩
      exact ih.mpr ⟨accepted.2, (it.extend_append [ch] headers).symm⟩

/-- A loop that leaves the iteration does not leave zero. -/
theorem headerLoop_error {it it' : Iter σ} {headers : List ChunkHeader} {rc : Int}
    (left : headerLoop func it headers = .error (rc, it')) : rc ≠ 0 := by
  induction headers generalizing it with
  | nil => exact nomatch left
  | cons ch headers ih =>
    rw [headerLoop, List.foldlM_cons] at left
    cases here : callFunc func it ch with
    | error result =>
      obtain ⟨code, stopped⟩ := result
      rw [here] at left
      cases left
      exact callFunc_error here
    | ok next =>
      rw [here, ok_bind] at left
      exact ih left

/-- Chunks of the chunk index, from the given number on, are noted for caching and read with the
given contents. -/
def Passed (K : Crypto) (S : Store) (faults : IterFaults) :
    Nat → List (ChunkHeader × List UInt8) → Prop
  | _, [] => True
  | chunk, (ch, data) :: rest =>
    (ch.len.toNat ≤ MAXCHUNK ∧ faults.cache chunk = false ∧
      chunksReadChunk K MAXCHUNK (faults.read chunk) S ch.hash ch.len.toNat ch.zlen.toNat =
        .ok data) ∧ Passed K S faults (chunk + 1) rest

/-- Chunks that are read have the stored contents. -/
theorem Passed.stored {chunk : Nat} {contents : List (ChunkHeader × List UInt8)}
    (passed : Passed K S faults chunk contents) : ∀ each ∈ contents, HasContents K S each := by
  induction contents generalizing chunk with
  | nil => exact fun each absent => nomatch absent
  | cons first rest ih =>
    obtain ⟨ch, data⟩ := first
    intro each member
    rcases List.mem_cons.mp member with rfl | later
    · exact ⟨passed.1.1, chunksReadChunk_sound passed.1.2.2⟩
    · exact ih passed.2 each later

/-- A chunk of the chunk index whose steps succeed up to the loop over its contents. -/
theorem cindexLoop_cons {rest : List ChunkHeader} {chunk : Nat} {ibuf data : List UInt8}
    {ch : ChunkHeader} {it : Iter σ} (accepted : Accepts func it.cookie [ch])
    (passed : Passed K S faults chunk [(ch, data)]) :
    cindexLoop K S faults func (ch :: rest) chunk ibuf it = (do
      let it ← headerLoop func (it.extend func [ch]) (chunkheaders (ibuf ++ data))
      cindexLoop K S faults func rest (chunk + 1) (leftover (ibuf ++ data)) it) := by
  obtain ⟨⟨sized, cached, read⟩, _⟩ := passed
  rw [cindexLoop, callFunc_ok.mpr ⟨accepted, rfl⟩, ok_bind, if_neg (Nat.not_lt.mpr sized),
    if_neg (by simp [cached]), read]

/-- The headers that a chunk leads to, when nothing whole was left before it. -/
theorem indexHeaders_cons {ibuf data : List UInt8} (short : ibuf.length < 40) (ch : ChunkHeader)
    (rest : List (ChunkHeader × List UInt8)) :
    indexHeaders ibuf ((ch, data) :: rest) = [ch] ++ (chunkheaders (ibuf ++ data) ++
      indexHeaders (leftover (ibuf ++ data)) rest) := by
  rw [indexHeaders, drop_chunkheaders, leftover_of_lt short, ← indexHeaders_leftover]
  rfl

/-- The chunk index loop succeeds when every chunk is read and every header accepted. -/
theorem cindexLoop_ok {headers : List ChunkHeader} {chunk : Nat} {ibuf : List UInt8}
    (short : ibuf.length < 40) {it it' : Iter σ} :
    cindexLoop K S faults func headers chunk ibuf it = .ok it' ↔
      ∃ contents, contents.map Prod.fst = headers ∧ Passed K S faults chunk contents ∧
        Accepts func it.cookie (indexHeaders ibuf contents) ∧
        it' = it.extend func (indexHeaders ibuf contents) := by
  induction headers generalizing chunk ibuf it it' with
  | nil =>
    rw [cindexLoop]
    constructor
    · intro same
      cases same
      exact ⟨[], rfl, trivial, trivial, (Iter.extend_nil _).symm⟩
    · rintro ⟨contents, empty, _, _, rfl⟩
      rw [List.map_eq_nil_iff.mp empty, indexHeaders, Iter.extend_nil]
  | cons ch headers ih =>
    constructor
    · intro done
      rw [cindexLoop] at done
      obtain ⟨next, here, done⟩ := bind_eq_ok.mp done
      obtain ⟨accepted, rfl⟩ := callFunc_ok.mp here
      split at done
      · cases done
      rename_i sized
      split at done
      · cases done
      rename_i cached
      split at done
      · cases done
      rename_i data read
      obtain ⟨after, looped, done⟩ := bind_eq_ok.mp done
      obtain ⟨inner, rfl⟩ := headerLoop_ok.mp looped
      obtain ⟨contents, named, passed, later, rfl⟩ := (ih (leftover_length _)).mp done
      refine ⟨(ch, data) :: contents, by rw [List.map_cons, named],
        ⟨⟨Nat.not_lt.mp sized, by simpa using cached, read⟩, passed⟩, ?_, ?_⟩
      · rw [indexHeaders_cons short]
        exact Accepts.append.mpr ⟨accepted, Accepts.append.mpr ⟨inner, later⟩⟩
      · rw [indexHeaders_cons short, Iter.extend_append, Iter.extend_append]
    · rintro ⟨contents, named, passed, accepted, rfl⟩
      obtain ⟨⟨_, data⟩, contents, rfl, rfl, rfl⟩ := List.map_eq_cons_iff.mp named
      rw [indexHeaders_cons short] at accepted ⊢
      obtain ⟨here, later⟩ := Accepts.append.mp accepted
      obtain ⟨inner, later⟩ := Accepts.append.mp later
      rw [cindexLoop_cons here ⟨passed.1, trivial⟩, headerLoop_ok.mpr ⟨inner, rfl⟩, ok_bind]
      apply (ih (leftover_length _)).mpr
      exact ⟨contents, rfl, passed.2, later, by rw [Iter.extend_append, Iter.extend_append]⟩

/-- The chunk index loop leaves zero when a chunk is reached that cannot be noted for caching. -/
theorem cindexLoop_zero {headers : List ChunkHeader} {chunk : Nat} {ibuf : List UInt8}
    (short : ibuf.length < 40) {it it' : Iter σ} :
    cindexLoop K S faults func headers chunk ibuf it = .error (0, it') ↔
      ∃ contents ch after, headers = contents.map Prod.fst ++ ch :: after ∧
        Passed K S faults chunk contents ∧ ch.len.toNat ≤ MAXCHUNK ∧
        faults.cache (chunk + contents.length) = true ∧
        Accepts func it.cookie (indexHeaders ibuf contents ++ [ch]) ∧
        it' = it.extend func (indexHeaders ibuf contents ++ [ch]) := by
  induction headers generalizing chunk ibuf it it' with
  | nil =>
    rw [cindexLoop]
    refine ⟨fun same => (nomatch same), ?_⟩
    rintro ⟨contents, ch, after, split, _⟩
    exact absurd split (by simp)
  | cons ch headers ih =>
    constructor
    · intro left
      rw [cindexLoop] at left
      cases here : callFunc func it ch with
      | error result =>
        obtain ⟨code, stopped⟩ := result
        rw [here] at left
        cases left
        exact absurd rfl (callFunc_error here)
      | ok next =>
        obtain ⟨accepted, rfl⟩ := callFunc_ok.mp here
        rw [here, ok_bind] at left
        split at left
        · exact nomatch left
        rename_i sized
        split at left
        · rename_i uncached
          cases left
          exact ⟨[], ch, headers, rfl, trivial, Nat.not_lt.mp sized, uncached, accepted, rfl⟩
        rename_i cached
        split at left
        · rename_i failure failed
          injection left with same
          exact absurd (congrArg Prod.fst same) failure.rc_ne_zero
        rename_i data read
        cases inner : headerLoop func (it.extend func [ch]) (chunkheaders (ibuf ++ data)) with
        | error result =>
          obtain ⟨code, stopped⟩ := result
          rw [inner] at left
          cases left
          exact absurd rfl (headerLoop_error inner)
        | ok next =>
          obtain ⟨looped, rfl⟩ := headerLoop_ok.mp inner
          rw [inner, ok_bind] at left
          obtain ⟨contents, last, after, split, passed, fits, uncached, later, rfl⟩ :=
            (ih (leftover_length _)).mp left
          refine ⟨(ch, data) :: contents, last, after, by rw [split]; rfl,
            ⟨⟨Nat.not_lt.mp sized, by simpa using cached, read⟩, passed⟩, fits, ?_, ?_, ?_⟩
          · rw [← uncached, List.length_cons]
            congr 1
            omega
          · rw [indexHeaders_cons short, List.append_assoc, List.append_assoc]
            exact Accepts.append.mpr ⟨accepted, Accepts.append.mpr ⟨looped, later⟩⟩
          · rw [indexHeaders_cons short, List.append_assoc, List.append_assoc,
              Iter.extend_append, Iter.extend_append]
    · rintro ⟨contents, last, after, split, passed, fits, uncached, accepted, rfl⟩
      cases contents with
      | nil =>
        obtain ⟨rfl, rfl⟩ := List.cons.inj split
        rw [cindexLoop, callFunc_ok.mpr ⟨accepted, rfl⟩, ok_bind, if_neg (Nat.not_lt.mpr fits),
          if_pos (by simpa using uncached)]
        rfl
      | cons first contents =>
        obtain ⟨_, data⟩ := first
        obtain ⟨rfl, rfl⟩ := List.cons.inj split
        rw [indexHeaders_cons short, List.append_assoc, List.append_assoc] at accepted ⊢
        obtain ⟨here, later⟩ := Accepts.append.mp accepted
        obtain ⟨inner, later⟩ := Accepts.append.mp later
        rw [cindexLoop_cons here ⟨passed.1, trivial⟩, headerLoop_ok.mpr ⟨inner, rfl⟩, ok_bind]
        apply (ih (leftover_length _)).mpr
        refine ⟨contents, last, after, rfl, passed.2, fits, ?_, later, ?_⟩
        · rw [← uncached, List.length_cons]
          congr 1
          omega
        · rw [Iter.extend_append, Iter.extend_append]

end Loops

/-- A reached chunk of the chunk index that cannot be noted for caching: the metaindex and the
chunks before it are read, and the callback accepts every header up to its own. -/
structure CacheFailure (K : Crypto) (S : Store) (faults : IterFaults)
    (func : σ → ChunkHeader → Int × σ) (extrastats : σ → Nat → σ) (tmd : TapeMetadata)
    (cookie : σ) where
  /-- The metaindex. -/
  tmi : TapeMetaindex
  /-- The cookie when the metaindex is read. -/
  start : σ
  /-- The chunks before this one and their contents. -/
  contents : List (ChunkHeader × List UInt8)
  /-- This chunk. -/
  ch : ChunkHeader
  /-- The chunks after this one. -/
  after : List ChunkHeader
  /-- The chunk layer read cookie is obtained. -/
  init : faults.init = false
  /-- The metaindex is read. -/
  metaindex : multitapeMetaindexGet K faults.metaindex S extrastats tmd cookie = (.ok tmi, start)
  /-- The buffer is allocated. -/
  ibuf : faults.ibuf = false
  /-- The chunk is one of the chunk index. -/
  named : chunkheaders tmi.cindex = contents.map Prod.fst ++ ch :: after
  /-- The chunks before it are read. -/
  passed : Passed K S faults 0 contents
  /-- The chunk is not too large. -/
  sized : ch.len.toNat ≤ MAXCHUNK
  /-- The callback accepts the headers so far. -/
  accepted : Accepts func start (chunkheaders tmi.hindex ++ (indexHeaders [] contents ++ [ch]))
  /-- The chunk cannot be noted for caching. -/
  uncached : faults.cache contents.length = true

/-- Nothing of the archive is left at the failure: the chunk is stored, it is the last one of the
chunk index and completes no header, and the trailer index is empty. -/
def CacheFailure.Harmless {cookie : σ}
    (failure : CacheFailure K S faults func extrastats tmd cookie) : Prop :=
  failure.after = [] ∧ chunkheaders failure.tmi.tindex = [] ∧
    ∃ data, HasContents K S (failure.ch, data) ∧
      chunkheaders ((failure.contents.map Prod.snd).flatten ++ data) =
        chunkheaders (failure.contents.map Prod.snd).flatten

section Outcome

variable {cookie : σ}

/-- What an iteration has done when it leaves at a cache failure. -/
def CacheFailure.calls (failure : CacheFailure K S faults func extrastats tmd cookie) :
    List ChunkHeader :=
  chunkheaders failure.tmi.hindex ++ (indexHeaders [] failure.contents ++ [failure.ch])

/-- An iteration that reaches a cache failure returns zero. -/
theorem CacheFailure.returns (failure : CacheFailure K S faults func extrastats tmd cookie) :
    multitapeChunkiterTmd K S faults func extrastats tmd cookie =
      (0, (⟨failure.start, []⟩ : Iter σ).extend func failure.calls) := by
  obtain ⟨header, index⟩ := Accepts.append.mp failure.accepted
  have left : cindexLoop K S faults func (chunkheaders failure.tmi.cindex) 0 []
      ((⟨failure.start, []⟩ : Iter σ).extend func (chunkheaders failure.tmi.hindex)) =
      .error (0, (⟨failure.start, []⟩ : Iter σ).extend func failure.calls) := by
    apply (cindexLoop_zero (by decide)).mpr
    refine ⟨failure.contents, failure.ch, failure.after, failure.named, failure.passed,
      failure.sized, ?_, index, (Iter.extend_append _ _ _).symm⟩
    rw [Nat.zero_add]
    exact failure.uncached
  rw [multitapeChunkiterTmd, if_neg (by simp [failure.init]), failure.metaindex]
  simp only []
  rw [if_neg (by simp [failure.ibuf]), metaindexLoop, headerLoop_ok.mpr ⟨header, rfl⟩, ok_bind,
    left, error_bind]

/-- An iteration returns zero after every step succeeded, or after a cache failure. -/
theorem multitapeChunkiterTmd_zero
    (zero : (multitapeChunkiterTmd K S faults func extrastats tmd cookie).1 = 0) :
    (∃ (archive : StoredArchive K S tmd) (start : σ),
      multitapeMetaindexGet K faults.metaindex S extrastats tmd cookie = (.ok archive.tmi, start) ∧
      Accepts func start archive.headers ∧
      multitapeChunkiterTmd K S faults func extrastats tmd cookie =
        (0, (⟨start, []⟩ : Iter σ).extend func archive.headers)) ∨
    Nonempty (CacheFailure K S faults func extrastats tmd cookie) := by
  rw [multitapeChunkiterTmd] at zero ⊢
  split at zero
  · exact absurd zero (show ¬(-1 : Int) = 0 by decide)
  rename_i init
  rw [if_neg init]
  split at zero
  · rename_i failure _ _
    exact absurd zero failure.rc_ne_zero
  rename_i tmi start metaindex
  split at zero
  · exact absurd zero (show ¬(-1 : Int) = 0 by decide)
  rename_i ibuf
  rw [if_neg ibuf]
  cases looped : metaindexLoop K S faults func tmi ⟨start, []⟩ with
  | error result =>
    obtain ⟨rc, it⟩ := result
    rw [looped] at zero
    have same : rc = 0 := zero
    subst same
    right
    rw [metaindexLoop] at looped
    cases header : headerLoop func ⟨start, []⟩ (chunkheaders tmi.hindex) with
    | error result =>
      obtain ⟨code, stopped⟩ := result
      rw [header] at looped
      cases looped
      exact absurd rfl (headerLoop_error header)
    | ok next =>
      obtain ⟨accepted, rfl⟩ := headerLoop_ok.mp header
      rw [header, ok_bind] at looped
      cases index : cindexLoop K S faults func (chunkheaders tmi.cindex) 0 []
          ((⟨start, []⟩ : Iter σ).extend func (chunkheaders tmi.hindex)) with
      | error result =>
        obtain ⟨code, stopped⟩ := result
        rw [index] at looped
        cases looped
        obtain ⟨contents, ch, after, named, passed, sized, uncached, later, _⟩ :=
          (cindexLoop_zero (by decide)).mp index
        rw [Nat.zero_add] at uncached
        exact ⟨{
          tmi, start, contents, ch, after, metaindex, named, passed, sized, uncached
          init := by simpa using init
          ibuf := by simpa using ibuf
          accepted := Accepts.append.mpr ⟨accepted, later⟩ }⟩
      | ok next =>
        rw [index, ok_bind] at looped
        exact absurd rfl (headerLoop_error looped)
  | ok it =>
    left
    rw [metaindexLoop] at looped
    obtain ⟨next, header, looped⟩ := bind_eq_ok.mp looped
    obtain ⟨acceptedHeader, rfl⟩ := headerLoop_ok.mp header
    obtain ⟨next, index, trailer⟩ := bind_eq_ok.mp looped
    obtain ⟨contents, named, passed, acceptedIndex, rfl⟩ := (cindexLoop_ok (by decide)).mp index
    obtain ⟨acceptedTrailer, rfl⟩ := headerLoop_ok.mp trailer
    have stored : storedMetaindex K S tmd = .ok tmi :=
      multitapeMetaindexGet_sound (congrArg Prod.fst metaindex)
    refine ⟨⟨tmi, contents, stored, named, passed.stored⟩, start, metaindex, ?_, ?_⟩
    · refine Accepts.append.mpr ⟨Accepts.append.mpr ⟨acceptedHeader, acceptedIndex⟩, ?_⟩
      rw [List.foldl_append]
      exact acceptedTrailer
    · rw [Iter.extend_append, Iter.extend_append, ← List.append_assoc]
      rfl

/-- The stored contents are determined by the chunk headers. -/
theorem contents_unique {left right : List (ChunkHeader × List UInt8)}
    (storedLeft : ∀ each ∈ left, HasContents K S each)
    (storedRight : ∀ each ∈ right, HasContents K S each)
    (same : left.map Prod.fst = right.map Prod.fst) : left = right := by
  induction left generalizing right with
  | nil => exact (List.map_eq_nil_iff.mp same.symm).symm
  | cons first left ih =>
    obtain ⟨other, right, rfl, here, rest⟩ := List.map_eq_cons_iff.mp same.symm
    obtain ⟨ch, data⟩ := first
    obtain ⟨_, data'⟩ := other
    cases here
    have read := (storedLeft _ List.mem_cons_self).2
    have read' := (storedRight _ List.mem_cons_self).2
    have equal : data' = data := Except.ok.inj (read'.symm.trans read)
    rw [equal, ih (fun each member => storedLeft each (List.mem_cons_of_mem _ member))
      (fun each member => storedRight each (List.mem_cons_of_mem _ member)) rest.symm]

/-- An archive has one list of chunk headers. -/
theorem StoredArchive.headers_unique (left right : StoredArchive K S tmd) :
    left.headers = right.headers := by
  have tmi : left.tmi = right.tmi := Except.ok.inj (left.metaindex.symm.trans right.metaindex)
  have contents : left.contents = right.contents := by
    apply contents_unique left.stored right.stored
    rw [left.named, right.named, tmi]
  rw [StoredArchive.headers, StoredArchive.headers, tmi, contents]

/-- An iteration that leaves at a cache failure is complete exactly if nothing is left. -/
theorem CacheFailure.complete_iff
    (failure : CacheFailure K S faults func extrastats tmd cookie) :
    Complete K S tmd failure.calls ↔ failure.Harmless := by
  have metaindex : storedMetaindex K S tmd = .ok failure.tmi :=
    multitapeMetaindexGet_sound (congrArg Prod.fst failure.metaindex)
  have stored := failure.passed.stored
  constructor
  · rintro ⟨archive, same⟩
    have tmi : archive.tmi = failure.tmi :=
      Except.ok.inj (archive.metaindex.symm.trans metaindex)
    have named := archive.named
    rw [tmi, failure.named] at named
    obtain ⟨before, tail, split, first, second⟩ := List.map_eq_append_iff.mp named
    obtain ⟨⟨ch, data⟩, rest, rfl, here, last⟩ := List.map_eq_cons_iff.mp second
    have owned := archive.stored
    rw [split] at owned
    have prefixSame : before = failure.contents := contents_unique
      (fun each member => owned each (List.mem_append_left _ member)) stored first
    have contents : HasContents K S (ch, data) :=
      owned _ (List.mem_append_right _ List.mem_cons_self)
    simp only at here
    subst prefixSame here
    rw [StoredArchive.headers, archiveHeaders, tmi, split, indexHeaders_append, calls,
      List.append_assoc, List.append_assoc, List.append_cancel_left_eq,
      List.append_cancel_left_eq, List.nil_append, indexHeaders, List.cons_append,
      List.cons_append, List.cons.injEq] at same
    have empty := same.2.symm
    rw [List.append_eq_nil_iff, List.append_eq_nil_iff] at empty
    obtain ⟨⟨none, later⟩, trailer⟩ := empty
    have ended : rest = [] := by
      cases rest with
      | nil => rfl
      | cons next rest => exact absurd later (by obtain ⟨_, _⟩ := next; simp [indexHeaders])
    refine ⟨by rw [← last, ended]; rfl, trailer, data, contents, ?_⟩
    rw [drop_chunkheaders] at none
    rw [chunkheaders_append, none, List.append_nil]
  · rintro ⟨ended, trailer, data, contents, none⟩
    refine ⟨⟨failure.tmi, failure.contents ++ [(failure.ch, data)], metaindex, ?_, ?_⟩, ?_⟩
    · rw [failure.named, ended, List.map_append]
      rfl
    · intro each member
      rcases List.mem_append.mp member with before | here
      · exact stored each before
      · rw [List.mem_singleton.mp here]
        exact contents
    · rw [StoredArchive.headers, archiveHeaders, indexHeaders_append, trailer, calls,
        List.append_nil, List.nil_append, indexHeaders, none, List.drop_length, indexHeaders,
        List.append_nil]

/-- When every cache failure that is reached is harmless, an iteration that returns zero invoked
the callback on the chunk headers of the archive, and the callback accepted them. -/
theorem multitapeChunkiterTmd_complete
    (harmless : ∀ failure : CacheFailure K S faults func extrastats tmd cookie, failure.Harmless)
    (zero : (multitapeChunkiterTmd K S faults func extrastats tmd cookie).1 = 0) :
    ∃ (archive : StoredArchive K S tmd) (start : σ),
      (multitapeMetaindexGet K faults.metaindex S extrastats tmd cookie).2 = start ∧
      Accepts func start archive.headers ∧
      multitapeChunkiterTmd K S faults func extrastats tmd cookie =
        (0, (⟨start, []⟩ : Iter σ).extend func archive.headers) := by
  rcases multitapeChunkiterTmd_zero zero with ⟨archive, start, read, result⟩ | ⟨⟨failure⟩⟩
  · exact ⟨archive, start, congrArg Prod.snd read, result⟩
  · obtain ⟨archive, calls⟩ := failure.complete_iff.mpr (harmless failure)
    refine ⟨archive, failure.start, congrArg Prod.snd failure.metaindex, ?_, ?_⟩
    · rw [← calls]
      exact failure.accepted
    · rw [← calls]
      exact failure.returns

/-- An iteration returns zero only when it is complete, if and only if every cache failure that
it reaches is harmless. -/
theorem multitapeChunkiterTmd_complete_iff :
    ((multitapeChunkiterTmd K S faults func extrastats tmd cookie).1 = 0 →
      Complete K S tmd (multitapeChunkiterTmd K S faults func extrastats tmd cookie).2.calls) ↔
    ∀ failure : CacheFailure K S faults func extrastats tmd cookie, failure.Harmless := by
  constructor
  · intro complete failure
    have done := complete (by rw [failure.returns])
    rw [failure.returns] at done
    exact failure.complete_iff.mp (by simpa [Iter.extend] using done)
  · intro harmless zero
    obtain ⟨archive, start, _, _, result⟩ := multitapeChunkiterTmd_complete harmless zero
    rw [result]
    exact ⟨archive, by simp [Iter.extend]⟩

end Outcome

section Kept

/-- One of the documented return codes. -/
def Documented (rc : Int) : Prop := -1 ≤ rc ∧ rc ≤ 2

/-- The error code is documented. -/
theorem Documented.error : Documented (-1) := ⟨by decide, by decide⟩

/-- Zero is documented. -/
theorem Documented.zero : Documented 0 := ⟨by decide, by decide⟩

/-- The return code of a failing read is documented. -/
theorem ReadError.documented (failure : ReadError) : Documented failure.rc := by
  cases failure <;> constructor <;> decide

/-- How a loop that keeps a property of the cookie ends, or is left. -/
def Keeps (P : σ → Prop) : Except (Int × Iter σ) (Iter σ) → Prop
  | .error (rc, it) => Documented rc ∧ P it.cookie
  | .ok it => P it.cookie

variable {P : σ → Prop}
  (step : ∀ cookie ch, P cookie → Documented (func cookie ch).1 ∧ P (func cookie ch).2)
include step

/-- One invocation keeps the property. -/
theorem callFunc_keeps {it : Iter σ} (holds : P it.cookie) (ch : ChunkHeader) :
    Keeps P (callFunc func it ch) := by
  obtain ⟨documented, next⟩ := step it.cookie ch holds
  rw [callFunc]
  simp only []
  split
  · exact ⟨documented, next⟩
  · exact next

/-- A loop keeps what each invocation keeps. -/
theorem headerLoop_keeps {it : Iter σ} (holds : P it.cookie) (headers : List ChunkHeader) :
    Keeps P (headerLoop func it headers) := by
  induction headers generalizing it with
  | nil => exact holds
  | cons ch headers ih =>
    have here := callFunc_keeps step holds ch
    rw [headerLoop, List.foldlM_cons]
    cases called : callFunc func it ch with
    | error result =>
      rw [called] at here
      exact here
    | ok next =>
      rw [called] at here
      exact ih here

/-- The chunk index loop keeps what each invocation keeps. -/
theorem cindexLoop_keeps {it : Iter σ} (holds : P it.cookie) (headers : List ChunkHeader)
    (chunk : Nat) (ibuf : List UInt8) :
    Keeps P (cindexLoop K S faults func headers chunk ibuf it) := by
  induction headers generalizing chunk ibuf it with
  | nil => exact holds
  | cons ch headers ih =>
    have here := callFunc_keeps step holds ch
    rw [cindexLoop]
    cases called : callFunc func it ch with
    | error result =>
      rw [called] at here
      exact here
    | ok next =>
      rw [called] at here
      rw [ok_bind]
      split
      · exact ⟨⟨by decide, by decide⟩, here⟩
      split
      · exact ⟨⟨by decide, by decide⟩, here⟩
      split
      · rename_i failure _
        exact ⟨ReadError.documented failure, here⟩
      rename_i data _
      have inner := headerLoop_keeps step here (chunkheaders (ibuf ++ data))
      cases looped : headerLoop func next (chunkheaders (ibuf ++ data)) with
      | error result =>
        rw [looped] at inner
        exact inner
      | ok after =>
        rw [looped] at inner
        exact ih inner _ _

/-- The loops over the three stream indexes keep what each invocation keeps. -/
theorem metaindexLoop_keeps {it : Iter σ} (holds : P it.cookie) (tmi : TapeMetaindex) :
    Keeps P (metaindexLoop K S faults func tmi it) := by
  have header := headerLoop_keeps step holds (chunkheaders tmi.hindex)
  rw [metaindexLoop]
  cases headerRun : headerLoop func it (chunkheaders tmi.hindex) with
  | error result =>
    rw [headerRun] at header
    exact header
  | ok next =>
    rw [headerRun] at header
    have index : Keeps P (cindexLoop K S faults func (chunkheaders tmi.cindex) 0 [] next) :=
      cindexLoop_keeps step header _ _ _
    rw [ok_bind]
    cases indexRun : cindexLoop K S faults func (chunkheaders tmi.cindex) 0 [] next with
    | error result =>
      rw [indexRun] at index
      exact index
    | ok last =>
      rw [indexRun] at index
      exact headerLoop_keeps step index _

/-- An iteration returns a documented code, and keeps what each invocation keeps and each count
of a fragment keeps. -/
theorem multitapeChunkiterTmd_keeps
    (count : ∀ cookie len, P cookie → P (extrastats cookie len)) {cookie : σ} (holds : P cookie) :
    Documented (multitapeChunkiterTmd K S faults func extrastats tmd cookie).1 ∧
      P (multitapeChunkiterTmd K S faults func extrastats tmd cookie).2.cookie := by
  have start : P (multitapeMetaindexGet K faults.metaindex S extrastats tmd cookie).2 :=
    multitapeMetaindexGet_cookie count holds
  rw [multitapeChunkiterTmd]
  split
  · exact ⟨Documented.error, holds⟩
  split
  · rename_i failure _ metaindex
    rw [metaindex] at start
    exact ⟨ReadError.documented failure, start⟩
  · rename_i tmi first metaindex
    rw [metaindex] at start
    split
    · exact ⟨Documented.error, start⟩
    have looped : Keeps P (metaindexLoop K S faults func tmi ⟨first, []⟩) :=
      metaindexLoop_keeps step start tmi
    split
    · rename_i left
      rw [left] at looped
      exact looped
    · rename_i done
      rw [done] at looped
      exact ⟨Documented.zero, looped⟩

end Kept

end Tarsnap.Multitape
