import Tarsnap.Ccache.RoundTrip
import Tarsnap.Tar.Recorded

/-!
# Freshness of cached records

A record is fresh when its inode number, size and modification time are those of the file. While
the runs of a backup follow each other, the file at a path is changed at any moment, also between
its `lstat` and its reads. A record is never from the second in which it was made, so a fresh one
describes the file, as long as a change that does not set the modification time to the clock gives
the path an inode number that it never had.
-/

namespace Tarsnap.Tar

open Tarsnap.Lib Tarsnap.Chunks Tarsnap.Chunkify Tarsnap.Multitape Tarsnap.Ccache

section World

/-- The file at a path, and the time. -/
structure World where
  /-- Seconds since the epoch. -/
  clock : Int
  /-- The contents of the file. -/
  content : List UInt8
  /-- Its inode number. -/
  ino : Nat
  /-- Its modification time. -/
  mtime : Int
  /-- The inode numbers that the path had before. -/
  former : List Nat

/-- What `lstat` returns. -/
def World.stat (w : World) : Stat := ⟨w.ino, w.content.length, w.mtime⟩

/-- Which inode number and modification time a change may set. -/
abbrev ChangeRule := World → Nat → Int → Prop

/-- A change gives the path another inode number, or sets the modification time to the clock. -/
def MovesOrTouches : ChangeRule := fun w ino mtime => ino ≠ w.ino ∨ mtime = w.clock

/-- A change gives the path an inode number that it never had, or sets the modification time to the
clock. -/
def RenewsOrTouches : ChangeRule := fun w ino mtime => ino ∉ w.ino :: w.former ∨ mtime = w.clock

/-- Time passes, or the file is changed. -/
inductive WorldStep (rule : ChangeRule) : World → World → Prop
  /-- The clock never goes back. -/
  | tick {w : World} {clock : Int} (later : w.clock ≤ clock) :
      WorldStep rule w { w with clock }
  /-- The content, the inode number and the modification time are set. -/
  | change {w : World} (content : List UInt8) {ino : Nat} {mtime : Int}
      (allowed : rule w ino mtime) :
      WorldStep rule w { w with content, ino, mtime, former := w.ino :: w.former }

/-- Several steps, with the worlds that they lead to. -/
inductive WorldSteps (rule : ChangeRule) : World → List World → World → Prop
  /-- No step. -/
  | nil {w : World} : WorldSteps rule w [] w
  /-- A step and those that follow. -/
  | cons {w v w' : World} {visited : List World} (first : WorldStep rule w v)
      (rest : WorldSteps rule v visited w') : WorldSteps rule w (v :: visited) w'

end World

section System

variable {P : Params} (K : Crypto) (zlib : Zlib) (rsa : RsaSigner K)
  (contents : Hash → List UInt8)

/-- A run with its cache. -/
structure Run where
  /-- The cache. -/
  cache : Cache
  /-- Snapshot time. -/
  snaptime : Int

/-- The file at a path, the cache file, and the run that is going on. -/
structure System where
  /-- The file that is archived. -/
  world : World
  /-- The cache file, if there is one. -/
  file : Option (List UInt8)
  /-- The run. -/
  run : Option Run

/-- What an entry sees of the file: the `lstat` data, and reads that succeed and return what is
there. While the contents stay the same, the reads deliver them. -/
structure Observes (entry : Entry) (before : World) (visited : List World) : Prop where
  /-- The `lstat` data is from before the reads. -/
  st : entry.st = before.stat
  /-- The reads of the cache succeed. -/
  cachedClean : none ∉ entry.cachedReads
  /-- The reads of blocks succeed. -/
  clean : ∀ position, none ∉ entry.reads position
  /-- The cache reads what is in the file at some moment. -/
  cachedReads : ∀ bytes, some bytes ∈ entry.cachedReads →
    ∃ w ∈ before :: visited, bytes <:+: w.content
  /-- A block is what is in the file at some moment. -/
  reads : ∀ position bytes, some bytes ∈ entry.reads position →
    ∃ w ∈ before :: visited, bytes <:+: w.content
  /-- Unless the contents change, they are delivered. -/
  same : (∀ w ∈ visited, w.content = before.content) → Delivers entry before.content

/-- An entry is written in a run, and leaves a cache. The hashes of its data determine the data. -/
structure EntryDone (run : Run) (entry : Entry) (a a' : Archive P) (cache : Cache) : Prop where
  /-- The archive is between two entries. -/
  idle : Idle a
  /-- Pieces of the file are found under their hashes. -/
  unique : Unique K contents (fdBytes entry.cachedReads)
  /-- The chunks that are stored are found under their hashes. -/
  faithful : Faithful contents a'.tape
  /-- The entry is written. -/
  wrote : ∃ bsdtar warned, bsdtar.chunkCache = some run.cache ∧ bsdtar.snaptime = run.snaptime ∧
    writeEntryBackend K zlib rsa bsdtar entry a = some (warned, some cache, a')

/-- A step of a history of backup runs and file modifications. -/
inductive SystemStep (P : Params) (path : Path) (rule : ChangeRule) : System → System → Prop
  /-- Time passes, or the file is changed. -/
  | world {s : System} {w : World} (step : WorldStep rule s.world w) :
      SystemStep P path rule s { s with world := w }
  /-- A run starts and reads the cache. -/
  | start {s : System} {cache : Cache} (snaptime : Int) (read : ccacheRead s.file = some cache) :
      SystemStep P path rule s { s with run := some ⟨cache, snaptime⟩ }
  /-- The file is archived, while it may be changed. -/
  | archive {s : System} {run : Run} {visited : List World} {w : World} {entry : Entry}
      {a a' : Archive P} {cache : Cache} (running : s.run = some run)
      (named : entry.rpath = some path) (snapshot : run.snaptime ≤ s.world.clock)
      (steps : WorldSteps rule s.world visited w) (observes : Observes entry s.world visited)
      (done : EntryDone K zlib rsa contents run entry a a' cache) :
      SystemStep P path rule s { s with world := w, run := some { run with cache } }
  /-- Another file is archived. -/
  | other {s : System} {run : Run} {entry : Entry} {a a' : Archive P} {cache : Cache}
      (running : s.run = some run) (named : entry.rpath ≠ some path)
      (done : EntryDone K zlib rsa contents run entry a a' cache) :
      SystemStep P path rule s { s with run := some { run with cache } }
  /-- The cache file is written. -/
  | save {s : System} {run : Run} {file : List UInt8} (running : s.run = some run)
      (valid : run.cache.Valid) (written : ccacheWrite run.cache = some file) :
      SystemStep P path rule s { s with file := some file }
  /-- A run ends, or dies. -/
  | stop {s : System} : SystemStep P path rule s { s with run := none }

/-- The states that a history can lead to, from the time before there was a cache. -/
inductive SystemReachable (P : Params) (path : Path) (rule : ChangeRule) : System → Prop
  /-- There is no cache file and no run. -/
  | initial (w : World) : SystemReachable P path rule ⟨w, none, none⟩
  /-- A step of the history. -/
  | step {s s' : System} (reachable : SystemReachable P path rule s)
      (step : SystemStep K zlib rsa contents P path rule s s') : SystemReachable P path rule s'

/-- In every history, when a lookup in some run considers the record of the path fresh, the bytes
recorded for it are a prefix of the content of the file followed by padding. -/
def FreshnessSound (P : Params) (path : Path) (rule : ChangeRule) : Prop :=
  ∀ s, SystemReachable K zlib rsa contents P path rule s →
    ∀ (run : Run) (r : CcacheRecord) (κ : Type) (d : TapeW P κ), s.run = some run →
      run.cache.tree.lookup path = some r →
      (ccacheEntryLookup K run.cache path s.world.stat d).1.Fresh →
      recorded K contents r <+: padded s.world.content

end System

section Sound

variable {P : Params} {K : Crypto} {zlib : Zlib} {rsa : RsaSigner K}
  {contents : Hash → List UInt8} {path : Path}

/-- A record of the past: it describes the file or is not fresh, now and in the future. -/
structure RecordSound (K : Crypto) (contents : Hash → List UInt8) (w : World) (r : CcacheRecord) :
    Prop where
  /-- The path has, or had, the inode number. -/
  ino : r.ino ∈ w.ino :: w.former
  /-- The time is in the past. -/
  mtime : r.mtime < w.clock
  /-- The record is older than the file, or describes it. -/
  current : w.ino = r.ino → r.mtime < w.mtime ∨ recorded K contents r <+: padded w.content

/-- A record stays sound when the file is changed. -/
theorem RecordSound.step {w w' : World} {r : CcacheRecord} (sound : RecordSound K contents w r)
    (step : WorldStep RenewsOrTouches w w') : RecordSound K contents w' r := by
  cases step with
  | tick later => exact ⟨sound.ino, lt_of_lt_of_le sound.mtime later, sound.current⟩
  | change content allowed =>
    refine ⟨List.mem_cons_of_mem _ sound.ino, sound.mtime, ?_⟩
    intro same
    left
    rcases allowed with new | touched
    · simp only at same
      rw [same] at new
      exact absurd sound.ino new
    · simp only [touched]
      exact sound.mtime

/-- A record stays sound over several changes. -/
theorem RecordSound.steps {w w' : World} {visited : List World} {r : CcacheRecord}
    (sound : RecordSound K contents w r) (steps : WorldSteps RenewsOrTouches w visited w') :
    RecordSound K contents w' r := by
  induction steps with
  | nil => exact sound
  | cons first _ ih => exact ih (sound.step first)

/-- A record that an entry carries stays sound. -/
theorem RecordSound.carried {w : World} {r r' : CcacheRecord} {snaptime : Int}
    (sound : RecordSound K contents w r) (carried : Carried K contents snaptime r r') :
    RecordSound K contents w r' := by
  have earlier : r'.mtime ≤ r.mtime := by
    rcases carried.mtime with same | ⟨later, before⟩
    · exact le_of_eq same
    · omega
  refine ⟨?_, lt_of_le_of_lt earlier sound.mtime, ?_⟩
  · rw [carried.ino]
    exact sound.ino
  · intro same
    rw [carried.ino] at same
    rcases sound.current same with older | describes
    · exact .inl (lt_of_le_of_lt earlier older)
    · exact .inr (carried.start.trans describes)

/-- The path had an inode number, and a later file with this number has a modification time that is
not before the snapshot. -/
structure Touched (snaptime : Int) (ino : Nat) (w : World) : Prop where
  /-- The path has, or had, the inode number. -/
  known : ino ∈ w.ino :: w.former
  /-- The snapshot is in the past. -/
  snapshot : snaptime ≤ w.clock
  /-- A file with the number is new. -/
  recent : w.ino = ino → snaptime ≤ w.mtime

/-- Any change touches the file. -/
theorem touched_change {w : World} {snaptime : Int} {ino ino' : Nat} {mtime : Int}
    {content : List UInt8} (known : ino ∈ w.ino :: w.former) (snapshot : snaptime ≤ w.clock)
    (allowed : RenewsOrTouches w ino' mtime) :
    Touched snaptime ino
      { w with content, ino := ino', mtime, former := w.ino :: w.former } := by
  refine ⟨List.mem_cons_of_mem _ known, snapshot, ?_⟩
  intro same
  rcases allowed with new | touched
  · simp only at same
    rw [same] at new
    exact absurd known new
  · simp only [touched]
    exact snapshot

/-- A file that is touched stays so. -/
theorem Touched.steps {w w' : World} {visited : List World} {snaptime : Int} {ino : Nat}
    (touched : Touched snaptime ino w) (steps : WorldSteps RenewsOrTouches w visited w') :
    Touched snaptime ino w' := by
  induction steps with
  | nil => exact touched
  | cons first _ ih =>
    apply ih
    cases first with
    | tick later => exact ⟨touched.known, touched.snapshot.trans later, touched.recent⟩
    | change content allowed => exact touched_change touched.known touched.snapshot allowed

/-- Over several steps the contents stay the same, or the file is touched. -/
theorem worldSteps_touched {w w' : World} {visited : List World} {snaptime : Int} {ino : Nat}
    (known : ino ∈ w.ino :: w.former) (snapshot : snaptime ≤ w.clock)
    (steps : WorldSteps RenewsOrTouches w visited w') :
    ((∀ v ∈ visited, v.content = w.content) ∧ w'.content = w.content ∧
      ino ∈ w'.ino :: w'.former ∧ snaptime ≤ w'.clock) ∨ Touched snaptime ino w' := by
  induction steps with
  | nil => exact .inl ⟨fun _ member => absurd member List.not_mem_nil, rfl, known, snapshot⟩
  | cons first rest ih =>
    cases first with
    | tick later =>
      rcases ih known (snapshot.trans later) with ⟨all, last, more⟩ | touched
      · left
        refine ⟨?_, last, more⟩
        intro v member
        rcases List.mem_cons.mp member with here | there
        · rw [here]
        · exact all v there
      · exact .inr touched
    | change content allowed =>
      right
      exact (touched_change known snapshot allowed).steps rest

/-- The record of an entry whose file was read is sound. -/
theorem recordSound_rewritten {w w' : World} {visited : List World} {run : Run} {entry : Entry}
    {r : CcacheRecord} (snapshot : run.snaptime ≤ w.clock)
    (steps : WorldSteps RenewsOrTouches w visited w') (observes : Observes entry w visited)
    (rewritten : Rewritten K contents run.snaptime entry r) : RecordSound K contents w' r := by
  have ino : r.ino = w.ino := by
    rw [rewritten.ino, observes.st]
    rfl
  have before : r.mtime < run.snaptime := by
    have mtime := rewritten.mtime
    split at mtime
    · omega
    · omega
  have owned : r.ino ∈ w.ino :: w.former := by
    rw [ino]
    exact List.mem_cons_self
  rcases worldSteps_touched owned snapshot steps with ⟨all, last, known, later⟩ | touched
  · refine ⟨known, lt_of_lt_of_le before later, fun _ => .inr ?_⟩
    rw [last]
    exact rewritten.start _ (observes.same all)
  · refine ⟨touched.known, lt_of_lt_of_le before touched.snapshot, fun same => .inl ?_⟩
    exact lt_of_lt_of_le before (touched.recent same)

/-- The records of the path, in the cache file and in a run, are sound. -/
structure SystemSound (K : Crypto) (contents : Hash → List UInt8) (path : Path) (s : System) :
    Prop where
  /-- The record in the cache file is sound. -/
  file : ∀ cache r, ccacheRead s.file = some cache → cache.tree.lookup path = some r →
    RecordSound K contents s.world r
  /-- The record in the cache of the run is sound. -/
  run : ∀ run r, s.run = some run → run.cache.tree.lookup path = some r →
    RecordSound K contents s.world r

/-- A record that is saved is read back. -/
theorem saved_record {cache cache' : Cache} {file : List UInt8} {r : CcacheRecord}
    (valid : cache.Valid) (written : ccacheWrite cache = some file)
    (read : ccacheRead (some file) = some cache') (found : cache'.tree.lookup path = some r) :
    ∃ old, cache.tree.lookup path = some old ∧ r = old.aged := by
  obtain ⟨same, here, entries, _⟩ := ccacheRead_kept valid written
  rw [read] at here
  cases here
  have member := SortedMap.lookup_eq_some.mp found
  rw [entries] at member
  obtain ⟨entry, kept, pair⟩ := List.mem_map.mp member
  have paths : entry.1 = path := congrArg Prod.fst pair
  refine ⟨entry.2, ?_, (congrArg Prod.snd pair).symm⟩
  rw [SortedMap.lookup_eq_some, ← paths]
  exact (keptEntries_mem kept).1

/-- A sound record is sound when it is read back. -/
theorem RecordSound.aged {w : World} {r : CcacheRecord} (sound : RecordSound K contents w r) :
    RecordSound K contents w r.aged :=
  ⟨sound.ino, sound.mtime, sound.current⟩

/-- Every step keeps the records sound. -/
theorem SystemSound.step {s s' : System} (inflates : Inflates K zlib)
    (sound : SystemSound K contents path s)
    (step : SystemStep K zlib rsa contents P path RenewsOrTouches s s') :
    SystemSound K contents path s' := by
  cases step with
  | world step =>
    exact ⟨fun cache r read found => (sound.file cache r read found).step step,
      fun run r running found => (sound.run run r running found).step step⟩
  | start snaptime read =>
    refine ⟨sound.file, ?_⟩
    intro run r running found
    cases running
    exact sound.file _ r read found
  | archive running named snapshot steps observes done =>
    rename_i before visited w entry a a' cache
    refine ⟨fun cache r read found => (sound.file cache r read found).steps steps, ?_⟩
    intro run r now found
    cases now
    obtain ⟨bsdtar, warned, cached, time, wrote⟩ := done.wrote
    rcases writeEntryBackend_record done.idle named cached inflates done.unique done.faithful wrote
      found with ⟨old, there, carried⟩ | rewritten
    · exact ((sound.run before old running there).steps steps).carried carried
    · rw [time] at rewritten
      exact recordSound_rewritten snapshot steps observes rewritten
  | other running named done =>
    rename_i before entry a a' cache
    refine ⟨sound.file, ?_⟩
    intro run r now found
    cases now
    obtain ⟨bsdtar, warned, cached, _, wrote⟩ := done.wrote
    cases rpath : entry.rpath with
    | none =>
      have same := writeEntryBackend_unnamed rpath wrote
      rw [cached] at same
      cases same
      exact sound.run before r running found
    | some name =>
      have different : path ≠ name := by
        intro same
        rw [rpath, same] at named
        exact named rfl
      simp only at found
      rw [writeEntryBackend_other done.idle rpath different cached inflates done.unique
        done.faithful wrote] at found
      exact sound.run before r running found
  | save running valid written =>
    refine ⟨?_, sound.run⟩
    intro cache r read found
    obtain ⟨old, there, rfl⟩ := saved_record valid written read found
    exact (sound.run _ old running there).aged
  | stop => exact ⟨sound.file, fun _ _ running => nomatch running⟩

/-- In every state of a history the records are sound. -/
theorem SystemReachable.sound {s : System} (inflates : Inflates K zlib)
    (reachable : SystemReachable K zlib rsa contents P path RenewsOrTouches s) :
    SystemSound K contents path s := by
  induction reachable with
  | initial w =>
    constructor
    · intro cache r read found
      cases read
      exact nomatch found
    · exact fun _ _ running => nomatch running
  | step _ step sound => exact sound.step inflates step

/-- A lookup considers a record fresh when it has the data of the file. -/
theorem fresh_iff {κ : Type} {cache : Cache} {st : Stat} {r : CcacheRecord} {d : TapeW P κ}
    (found : cache.tree.lookup path = some r) :
    (ccacheEntryLookup K cache path st d).1.Fresh ↔ r.SameFile st := by
  rw [ccacheEntryLookup_found found]
  split
  · exact (dropTrailer_fields _).2.2.1
  · exact (dropTrailer_fields _).2.2.1

/-- A fresh record describes the file when a change that does not set the modification time to the
clock gives the path an inode number that it never had. -/
theorem freshness_sound (inflates : Inflates K zlib) :
    FreshnessSound K zlib rsa contents P path RenewsOrTouches := by
  intro s reachable run r κ d running found fresh
  have record := (reachable.sound inflates).run run r running found
  obtain ⟨ino, _, mtime⟩ := (fresh_iff found).mp fresh
  rcases record.current ino with older | describes
  · have same : s.world.mtime = r.mtime := mtime
    rw [same] at older
    exact absurd older (lt_irrefl _)
  · exact describes

end Sound

section Example

/-- A hash that holds the length and the bytes of a short buffer. -/
def shortHash (buf : List UInt8) : Hash :=
  ⟨Vector.ofFn fun i => if i.val = 0 then UInt8.ofNat buf.length else buf.getD (i.val - 1) 0⟩

/-- The buffer with such a hash. -/
def shortContents (hash : Hash) : List UInt8 :=
  (hash.bytes.toList.drop 1).take (hash.bytes.get 0).toNat

/-- Primitives with this hash and without compression. -/
def shortCrypto : Crypto := { Ccache.storedCrypto with hmacChunk := shortHash }

/-- A signer whose signatures are zeros. -/
def zeroSigner : RsaSigner shortCrypto where
  rsaSign _ := some (List.replicate 256 0)
  length := zeroSignature_length
  verifies := fun _ => rfl

/-- Copies are decompressed. -/
theorem copyingZlib_inflates : Inflates shortCrypto copyingZlib := by
  intro room buf zbuf deflated
  have same : (if buf ≠ [] ∧ buf.length ≤ room then some buf else none) = some zbuf := deflated
  split at same
  · cases same
    exact if_pos (Nat.le_refl _)
  · cases same

/-- A new archive. -/
def newArchive : Archive mediumParams :=
  ⟨writetapeStart [] 0 [] noChunks (fun _ => Vector.replicate 64 0) (Vector.replicate 64 0) none,
    false, 0, 0⟩

/-- A file of two equal bytes. There is a checkpoint after the first one, and the archive is
truncated after the second one. -/
def twoBytes (byte : UInt8) : Entry where
  rpath := some ⟨[47]⟩
  st := ⟨5, 2, 50⟩
  size := 2
  opens := true
  header := ⟨.ok, [], 2⟩
  cachedReads := [some [byte, byte]]
  seeks := true
  reads position := ([byte, byte].drop position).map fun byte => some [byte]
  pending := [⟨false, false, true⟩, ⟨false, true, false⟩]
  sigquit := false

/-- Such a file. -/
def nines : World := ⟨100, [9, 9], 5, 50, []⟩

/-- Another file at its path. -/
def sevens : World := ⟨100, [7, 7], 6, 51, [5]⟩

set_option maxRecDepth 8000 in
/-- The first byte is recorded. -/
theorem twoBytes_recorded {byte : UInt8} (known : byte = 7 ∨ byte = 9) :
    ∃ cache a', EntryDone shortCrypto copyingZlib zeroSigner shortContents ⟨.empty, 100⟩
        (twoBytes byte) newArchive a' cache ∧
      cache.tree.entries = [(⟨[47]⟩, ⟨5, 2, 50, [], 1, [byte], 0, true⟩)] := by
  obtain ⟨cache, a', wrote, entries, stored⟩ : ∃ cache a',
      writeEntryBackend shortCrypto copyingZlib zeroSigner ⟨false, 0, some .empty, 100⟩
        (twoBytes byte) newArchive = some (true, some cache, a') ∧
      cache.tree.entries = [(⟨[47]⟩, ⟨5, 2, 50, [], 1, [byte], 0, true⟩)] ∧
      ∀ piece ∈ a'.tape.stored, shortContents piece.1.hash = piece.2 := by
    rcases known with rfl | rfl
    · exact ⟨_, _, rfl, rfl, by decide +kernel⟩
    · exact ⟨_, _, rfl, rfl, by decide +kernel⟩
  have unique : Unique shortCrypto shortContents [byte, byte] := by
    have all : ∀ piece ∈ [byte, byte].sublists, shortContents (shortHash piece) = piece := by
      rcases known with rfl | rfl
      · decide +kernel
      · decide +kernel
    exact fun piece part => all piece (List.mem_sublists.mpr part.sublist)
  refine ⟨cache, a', ⟨⟨rfl, rfl, rfl, rfl, rfl, rfl⟩, unique, ?_, _, true, rfl, rfl, wrote⟩,
    entries⟩
  exact fun ch buf member => stored (ch, buf) member

/-- What is read one byte at a time is the file. -/
theorem fdBytes_singletons (bytes : List UInt8) :
    fdBytes (bytes.map fun byte => some [byte]) = bytes := by
  induction bytes with
  | nil => rfl
  | cons byte rest ih =>
    rw [List.map_cons, fdBytes, ih]
    rfl

/-- The bytes are read while a file with these bytes is at the path. -/
theorem twoBytes_observes {byte : UInt8} {visited : List World}
    (there : ∃ w ∈ nines :: visited, w.content = [byte, byte])
    (same : (∀ w ∈ visited, w.content = nines.content) → byte = 9) :
    Observes (twoBytes byte) nines visited := by
  obtain ⟨w, visits, content⟩ := there
  have clean : ∀ position, none ∉ (twoBytes byte).reads position := by
    intro position member
    obtain ⟨_, _, single⟩ := List.mem_map.mp member
    exact nomatch single
  refine ⟨rfl, by simp [twoBytes], clean, ?_, ?_, ?_⟩
  · intro bytes member
    refine ⟨w, visits, ?_⟩
    have all : bytes = [byte, byte] := by simpa [twoBytes] using member
    rw [content, all]
  · intro position bytes member
    refine ⟨w, visits, ?_⟩
    obtain ⟨one, part, single⟩ := List.mem_map.mp member
    have equal : one = byte := by simpa using List.mem_of_mem_drop part
    cases single
    rw [content, equal]
    exact (List.prefix_append [byte] [byte]).isInfix
  · intro unchanged
    rw [same unchanged] at clean ⊢
    exact ⟨fun _ => rfl, rfl, fun position => ⟨clean position, fdBytes_singletons _⟩⟩

/-- After a run that archived such a file, the next run has a record of the first byte. -/
theorem twoBytes_history {rule : ChangeRule} {byte : UInt8} {visited : List World} {w : World}
    (known : byte = 7 ∨ byte = 9) (steps : WorldSteps rule nines visited w)
    (observes : Observes (twoBytes byte) nines visited) :
    ∃ file cache r, SystemReachable shortCrypto copyingZlib zeroSigner shortContents mediumParams
        ⟨[47]⟩ rule ⟨w, file, some ⟨cache, 100⟩⟩ ∧
      cache.tree.lookup ⟨[47]⟩ = some r ∧ r.SameFile nines.stat ∧
      recorded shortCrypto shortContents r = [byte] := by
  obtain ⟨cache, a', done, entries⟩ := twoBytes_recorded known
  have valid : CcacheRecord.Valid ⟨5, 2, 50, [], 1, [byte], 0, true⟩ := by
    constructor <;> simp [CcacheRecord.tzlen]
  have valid : cache.Valid := by
    intro entry member
    rw [entries, List.mem_singleton] at member
    rw [member]
    exact ⟨⟨List.cons_ne_nil _ _, by simp⟩, valid⟩
  obtain ⟨file, written⟩ : ∃ file, ccacheWrite cache = some file := by
    unfold ccacheWrite
    rw [entries]
    rcases known with rfl | rfl
    · exact ⟨_, rfl⟩
    · exact ⟨_, rfl⟩
  obtain ⟨cache', read, saved, _⟩ := ccacheRead_kept valid written
  have archived := (SystemReachable.initial nines).step (.start 100 rfl)
    |>.step (.archive rfl rfl (le_refl _) steps observes done)
  refine ⟨some file, cache', _, (archived.step (.save rfl valid written)).step (.start 100 read),
    SortedMap.lookup_eq_some.mpr (by rw [saved, entries]; exact List.mem_singleton.mpr rfl), ?_, ?_⟩
  · exact ⟨rfl, rfl, rfl⟩
  · rcases known with rfl | rfl
    · decide
    · decide

/-- A file that is moved away after its `lstat`, and back after another file at its path was read,
gets the record of the other file. -/
theorem moved_file_fresh : Inflates shortCrypto copyingZlib ∧
    ¬ FreshnessSound shortCrypto copyingZlib zeroSigner shortContents mediumParams ⟨[47]⟩
      MovesOrTouches := by
  refine ⟨copyingZlib_inflates, ?_⟩
  intro sound
  have away : WorldStep MovesOrTouches nines sevens :=
    WorldStep.change [7, 7] (.inl (by decide))
  have back : WorldStep MovesOrTouches sevens ⟨100, [9, 9], 5, 50, [6, 5]⟩ :=
    WorldStep.change [9, 9] (.inl (by decide))
  have observes : Observes (twoBytes 7) nines [sevens] := by
    refine twoBytes_observes ⟨sevens, by simp, rfl⟩ fun same => ?_
    exact absurd (same sevens (List.mem_singleton.mpr rfl)) (by decide)
  obtain ⟨file, cache, r, reachable, found, same, bytes⟩ :=
    twoBytes_history (.inl rfl) (.cons away .nil) observes
  have fresh := sound _ (reachable.step (.world back)) _ r _ newArchive.tape rfl found
    ((fresh_iff found).mpr same)
  rw [bytes] at fresh
  obtain ⟨rest, start⟩ := fresh
  have first : some (7 : UInt8) = some 9 := congrArg List.head? start
  exact absurd first (by decide)

/-- A file that does not change has a fresh record of its first byte. -/
theorem freshness_sound_twoBytes : ∃ s run r,
    SystemReachable shortCrypto copyingZlib zeroSigner shortContents mediumParams ⟨[47]⟩
      RenewsOrTouches s ∧ s.run = some run ∧ run.cache.tree.lookup ⟨[47]⟩ = some r ∧
      recorded shortCrypto shortContents r = [9] ∧
      recorded shortCrypto shortContents r <+: padded s.world.content := by
  have observes : Observes (twoBytes 9) nines [] :=
    twoBytes_observes ⟨nines, List.mem_singleton.mpr rfl, rfl⟩ fun _ => rfl
  obtain ⟨file, cache, r, reachable, found, same, bytes⟩ :=
    twoBytes_history (.inr rfl) .nil observes
  exact ⟨_, _, r, reachable, rfl, found, bytes,
    freshness_sound copyingZlib_inflates _ reachable _ r _ newArchive.tape rfl found
      ((fresh_iff found).mpr same)⟩

end Example

end Tarsnap.Tar
