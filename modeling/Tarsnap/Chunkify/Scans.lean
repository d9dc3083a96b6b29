import Tarsnap.Chunkify.Lossless
import Tarsnap.Chunkify.RollingExact

/-!
# The scans of the hash table

Both probing loops end, and the entries they act on were inserted by the current chunk, as long as
the longest chunk stays a table size below the word size. An entry inserted before the byte count
33 holds the initial value of the queue, the modulus. Chunkifiers of mean length 128 or more insert
no entry that early, and the shorter ones have a modulus so small that their hash values are
canonical and never equal to it. So the cycle of a match starts inside the chunk.
-/

namespace Tarsnap.Chunkify

open Tarsnap.Lib

variable {P : Params}

/-- The entry that starts in every slot. -/
def Params.mark (P : Params) : Nat × Nat := (P.untouched, P.untouched)

/-- The scans for a byte that was rolled in end and stay inside the chunk. -/
structure ScansInside (c : Chunkifier P) : Prop where
  /-- The lookup ends. -/
  lookup_ends : ∃ found, lookup c = .ok found
  /-- The insertion ends. -/
  insert_ends : ∃ out, insert c (c.b.get c.queueSlot) = .ok out
  /-- A stored position is at most the byte count, and the age of its entry does not wrap. -/
  stored : ∀ slot, c.ht.get slot ≠ P.mark →
    (c.ht.get slot).1 ≤ c.k ∧ (c.ht.get slot).1 + c.age (c.ht.get slot) + 1 = c.k
  /-- An entry treated as a match was inserted by this chunk, and its cycle starts at a byte of
  the chunk. -/
  matched : ∀ slot, (c.ht.get slot).2 = c.yka → c.age (c.ht.get slot) < c.r →
    c.ht.get slot ≠ P.mark ∧ sub32 (c.ht.get slot).1 Params.w = (c.ht.get slot).1 - 32 ∧
      32 ≤ (c.ht.get slot).1 ∧ (c.ht.get slot).1 ≤ c.bytes.length

/-- The scans of every run end and stay inside the chunk. -/
def ScansSafely (P : Params) : Prop :=
  ∀ (stored : Chunkifier P) byte, ReachesRoll stored byte → ScansInside (roll stored byte)

/-- Where the values of the table and of the queue come from. -/
structure Tracked (c : Chunkifier P) : Prop where
  /-- The square root fields are balanced. -/
  root : SquareRoot c
  /-- A slot holds the mark or was filled by this chunk; before the count 33, with the modulus. -/
  filled : ∀ slot, c.ht.get slot = P.mark ∨
    P.mu < 4 * (c.ht.get slot).1 ∧ (c.ht.get slot).1 ≤ c.k ∧
      ((c.ht.get slot).2 = P.p ∨ 33 ≤ (c.ht.get slot).1)
  /-- A queue position holds the modulus or was set by a byte of this chunk. -/
  queue : ∀ slot : Fin 32, c.b.get slot = P.p ∨ ∃ k, 1 ≤ k ∧ k ≤ c.k ∧ k % 32 = slot.val

/-- A started chunk is tracked. -/
theorem chunkifyStart_tracked (buf : Vector UInt8 P.blen) : Tracked (chunkifyStart P buf) where
  root := chunkifyStart_squareRoot buf
  filled slot := .inl (Vector.getElem_replicate slot.isLt)
  queue slot := .inl (Vector.getElem_replicate slot.isLt)

/-- Adding a byte to a tracked chunk keeps it tracked. -/
theorem addByte_tracked {c added : Chunkifier P} {byte : UInt8} {ended : Bool}
    (tracked : Tracked c) (add : addByte c byte = .ok (added, ended)) : Tracked added := by
  have later : ∀ {d : Chunkifier P}, SquareRoot d → d.ht = c.ht → d.b = c.b → c.k ≤ d.k →
      Tracked d := by
    intro d root ht b count
    refine ⟨root, ?_, ?_⟩
    · intro slot
      rw [ht]
      exact (tracked.filled slot).imp id fun ⟨low, high, origin⟩ => ⟨low, by omega, origin⟩
    · intro slot
      rw [b]
      exact (tracked.queue slot).imp id fun ⟨k, low, high, place⟩ => ⟨k, low, by omega, place⟩
  obtain ⟨stored, store, next⟩ := addByte_cases add
  obtain ⟨ht, b, _, _⟩ := storeByte_frame store
  have count := (storeByte_bytes store).2.1
  have root := (storeByte_squareRoot tracked.root store).1
  have kept : Tracked stored := later root ht b (by omega)
  rcases next with ⟨_, same, _⟩ | ⟨_, _, same, _⟩ | ⟨_, nonzero, search⟩
  · rw [same]
    exact kept
  · rw [same]
    exact kept
  · have long := mt root.zero_iff.mpr nonzero
    have rolled : Tracked (roll stored byte) :=
      ⟨⟨root.balance, root.positive, root.above⟩, kept.filled, kept.queue⟩
    rcases searchAndQueue_cases search with ⟨_, same, _⟩ | ⟨_, _, htpos, _, out⟩
    · rw [same]
      exact rolled
    · rw [out]
      have slotCount : (roll stored byte).queueSlot.val = stored.k % 32 :=
        congrArg Fin.val (queueSlot_eq (roll stored byte))
      refine ⟨⟨root.balance, root.positive, root.above⟩, ?_, ?_⟩
      · intro slot
        simp only [get_set]
        split
        case isFalse => exact rolled.filled slot
        case isTrue =>
          right
          refine ⟨by change P.mu < 4 * stored.k; omega, le_refl _, ?_⟩
          have origin := tracked.queue (roll stored byte).queueSlot
          rw [← b] at origin
          rcases origin with initial | ⟨k, low, high, place⟩
          · exact .inl initial
          · right
            change 33 ≤ stored.k
            omega
      · intro slot
        simp only [get_set]
        split
        case isFalse => exact rolled.queue slot
        case isTrue here =>
          right
          refine ⟨stored.k, by omega, le_refl _, ?_⟩
          rw [← slotCount, here]

section Low

/-- The age of an untouched slot exceeds the bound of every scan. -/
theorem mark_old {c : Chunkifier P} (root : SquareRoot c) (room : c.k ≤ P.blen)
    (positive : 0 < c.k) (low : c.k + P.htlen ≤ 4294967296) : 2 * c.r ≤ c.age P.mark := by
  have quarter := root.quarter room
  have age : c.age P.mark = c.k + P.htlen - 1 := age_untouched positive low rfl
  omega

/-- While the longest chunk stays a table size below the word size, the scans of every run of a
built chunkifier end and stay inside the chunk. -/
theorem scansSafely_of_low (built : P.Built) (large : 4 ≤ P.mu)
    (low : P.blen + P.htlen ≤ 4294967297) : ScansSafely P := by
  intro stored byte reaches
  have rolls := reaches
  obtain ⟨buf, input, before, c, fed, store, full, nonzero⟩ := reaches
  have valid : Valid c := by
    obtain ⟨_, last, again, kept⟩ := feed_ok (chunkifyStart_valid buf) low input
    cases fed.symm.trans again
    exact kept
  have tracked : Tracked c :=
    feed_invariant chunkifyStart_tracked addByte_tracked (chunkifyStart_tracked buf) fed
  have root := (storeByte_squareRoot valid.root store).1
  have rolledRoot : SquareRoot (roll stored byte) := ⟨root.balance, root.positive, root.above⟩
  obtain ⟨within, count, appended⟩ := storeByte_bytes store
  have ht : (roll stored byte).ht = c.ht := (storeByte_frame store).1
  have place : (roll stored byte).k = c.k + 1 := count
  have room : (roll stored byte).k ≤ P.blen := by omega
  have below : (roll stored byte).k + P.htlen ≤ 4294967296 := by
    have apart : (roll stored byte).k ≠ P.blen := full
    omega
  have word := P.blen_lt
  have table : Table (roll stored byte).ht ((roll stored byte).k - 1) := by
    rw [ht, place, Nat.add_sub_cancel]
    exact valid.table
  have old := mark_old rolledRoot room (by omega) below
  obtain ⟨slot, free⟩ := exists_old_slot rolledRoot room (by omega) below table
  have stays : ∀ slot, c.ht.get slot ≠ P.mark → (c.ht.get slot).1 < (roll stored byte).k := by
    intro slot fresh
    have high := ((tracked.filled slot).resolve_left fresh).2.1
    omega
  exact
    { lookup_ends := lookup_ok free
      insert_ends := by
        have free' : (roll stored byte).r ≤ (roll stored byte).age
            ((roll stored byte).ht.get slot) := by omega
        obtain ⟨htpos, probed⟩ := insert_ok free'
          ((roll stored byte).b.get (roll stored byte).queueSlot)
        exact ⟨_, by rw [insert, probed]⟩
      stored := by
        intro slot fresh
        rw [ht] at fresh ⊢
        have before := stays slot fresh
        have age : (roll stored byte).age (c.ht.get slot) =
            (roll stored byte).k - (c.ht.get slot).1 - 1 := age_eq (by omega) before
        omega
      matched := by
        intro slot same young
        rw [ht] at same young ⊢
        have fresh : c.ht.get slot ≠ P.mark := by
          intro mark
          rw [mark] at young
          omega
        obtain ⟨long, high, origin⟩ := (tracked.filled slot).resolve_left fresh
        have early : 33 ≤ (c.ht.get slot).1 := by
          rcases origin with modulus | late
          · by_cases short : P.mu ≤ 127
            · have sound := built.sound large
              have : Fact P.p.Prime := ⟨sound.prime⟩
              have small := built.modulus_small large short
              have fits := fits_of_small sound.reduced (by omega)
              have exactly := rollsExactly_of_fits sound.reduced
                fun t byte later room => fits t _ later room (P.cm byte).toNat_lt
              have canonical := (exactly.exact stored byte rolls).canonical
              omega
            · omega
          · exact late
        have length : (roll stored byte).bytes.length = (roll stored byte).k := bytes_length room
        have width : Params.w = 32 := rfl
        refine ⟨fresh, ?_, by omega, by omega⟩
        rw [width]
        unfold sub32
        omega }

end Low

section Long

/-- A failing run fails at a byte that is added to a chunkifier some run leads to. -/
theorem feed_fails {c : Chunkifier P} {input : List UInt8} {fault : Fault}
    (failed : feed c input = .error fault) : ∃ front byte before middle,
      feed c front = .ok (before, middle) ∧ addByte middle byte = .error fault := by
  induction input generalizing c with
  | nil => cases failed
  | cons byte rest ih =>
    rw [feed_cons] at failed
    cases add : addByte c byte with
    | error reason =>
      rw [add] at failed
      cases failed
      exact ⟨[], byte, [], c, rfl, add⟩
    | ok result =>
      obtain ⟨added, ended⟩ := result
      rw [add, ok_bind] at failed
      cases ended with
      | false =>
        obtain ⟨front, last, before, middle, fed, fails⟩ := ih failed
        exact ⟨byte :: front, last, before, middle, by rw [feed_cons, add]; exact fed, fails⟩
      | true =>
        have later : feed (chunkifyStart P added.buf) rest = .error fault := by
          cases fed : feed (chunkifyStart P added.buf) rest with
          | error reason =>
            simp only [if_true, fed, error_bind] at failed
            exact failed
          | ok result =>
            simp only [if_true, fed, ok_bind, pure_eq_ok] at failed
            cases failed
        obtain ⟨front, last, before, middle, fed, fails⟩ := ih later
        refine ⟨byte :: front, last, added.bytes :: before, middle, ?_, fails⟩
        rw [feed_cons, add]
        simp only [ok_bind, if_true, fed, pure_eq_ok]

/-- A chunk between two bytes has room for the next one. -/
structure Open (c : Chunkifier P) : Prop where
  /-- The square root fields are balanced. -/
  root : SquareRoot c
  /-- There is room for another byte. -/
  room : c.k < P.blen

/-- A started chunk is open. -/
theorem chunkifyStart_open (buf : Vector UInt8 P.blen) : Open (chunkifyStart P buf) :=
  ⟨chunkifyStart_squareRoot buf, (chunkifyStart_valid buf).room⟩

/-- A byte that ends no chunk leaves it open. -/
theorem addByte_open {c added : Chunkifier P} {byte : UInt8} (here : Open c)
    (add : addByte c byte = .ok (added, false)) : Open added := by
  refine ⟨addByte_squareRoot here.root add, ?_⟩
  obtain ⟨within, counted, _⟩ := addByte_bytes add
  obtain ⟨stored, store, ⟨_, _, absurdity⟩ | ⟨full, _, _⟩ | ⟨full, _⟩⟩ := addByte_cases add
  · cases absurdity
  · have count := (storeByte_bytes store).2.1
    omega
  · have count := (storeByte_bytes store).2.1
    omega

/-- When the scans of every run end, every run succeeds. -/
theorem ScansSafely.feed_ok (safely : ScansSafely P) (buf : Vector UInt8 P.blen)
    (input : List UInt8) (fault : Fault) : feed (chunkifyStart P buf) input ≠ .error fault := by
  intro failed
  obtain ⟨front, byte, before, middle, fed, fails⟩ := feed_fails failed
  have here : Open middle := feed_invariant chunkifyStart_open addByte_open
    (chunkifyStart_open buf) fed
  obtain ⟨stored, store⟩ := storeByte_ok here.root here.room byte
  rw [addByte, store, ok_bind] at fails
  by_cases full : stored.k = P.blen
  · rw [if_pos full] at fails
    cases fails
  · by_cases short : stored.r = 0
    · rw [if_neg full, if_pos short] at fails
      cases fails
    · have inside := safely stored byte ⟨buf, front, before, middle, fed, store, full, short⟩
      obtain ⟨found, search⟩ := inside.lookup_ends
      obtain ⟨out, inserted⟩ := inside.insert_ends
      rw [if_neg full, if_neg short, searchAndQueue, search, ok_bind] at fails
      cases found with
      | true => cases fails
      | false =>
        simp only [Bool.false_eq_true, if_false, inserted, ok_bind] at fails
        cases fails

/-- If chunks may be long enough for the ages of untouched slots to wrap, some coefficients make
a lookup endless. -/
theorem not_scansSafely_of_long (long : 4294967298 ≤ P.blen + P.htlen) :
    ¬ ScansSafely (P.withCm (endlessCm P)) := by
  intro safely
  have one : ((P.withCm (endlessCm P)).cm 1).toNat = P.p - 1 := endlessCm_one P
  exact safely.feed_ok (Vector.replicate P.blen 0) (endlessInput P) .diverges
    (feed_endlessInput (P := P.withCm (endlessCm P)) long rfl one _)

end Long

/-- For all coefficients of a built chunkifier the scans of every run end and stay inside the
chunk exactly when the longest chunk stays a table size below the word size. -/
theorem chunkifyWrite_scans (P : Params) (built : P.Built) (large : 4 ≤ P.mu) :
    (∀ cm, ScansSafely (P.withCm cm)) ↔ P.blen + P.htlen ≤ 4294967297 := by
  constructor
  · intro all
    by_contra long
    exact not_scansSafely_of_long (by omega) (all (endlessCm P))
  · intro low cm
    exact scansSafely_of_low (built.withCm cm) large low

/-- The chunkifiers of archives scan safely. -/
theorem chunkifyWrite_scans_archive : ScansSafely (beyondParams.withCm fun _ => 0) :=
  (chunkifyWrite_scans beyondParams beyondParams_built (by decide)).mpr (by decide) _

/-- The parameters for which a chunkifier is not lossless. -/
abbrev longParams : Params := endlessParams

/-- With the largest maximum length a lookup in the chunk of `endlessInput` does not end. -/
theorem longParams_not_safely : longParams.Built ∧
    feed (chunkifyStart longParams (Vector.replicate 4294967295 0)) (endlessInput longParams) =
      .error .diverges ∧ ¬ ScansSafely longParams := by
  have long : 4294967298 ≤ longParams.blen + longParams.htlen := by decide
  have one : (longParams.cm 1).toNat = longParams.p - 1 := endlessCm_one beyondParams
  have endless := feed_endlessInput (P := longParams) long rfl one
  exact ⟨beyondParams_built.of_same rfl rfl rfl rfl, endless _,
    fun safely => safely.feed_ok _ _ _ (endless (Vector.replicate 4294967295 0))⟩

end Tarsnap.Chunkify
