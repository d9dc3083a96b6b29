import Tarsnap.Chunkify.RootFields
import Tarsnap.Chunkify.Table

/-!
# A callback that fails

A chunk ends because its buffer is full, because a cycle was found, or because the caller ends it.
The chunkifier starts the next chunk only after the callback succeeded. After a failure for a
chunk that a cycle ended, or that the caller ended, there is room for another byte, and writing
goes on with the same chunk. After a failure for a full buffer there is no room, and the next
write stores its first byte behind the buffer.
-/

namespace Tarsnap.Chunkify

open Tarsnap.Lib

variable {P : Params}

/-- What a chunkifier maintains between bytes, whether or not a callback failed. -/
structure Kept (c : Chunkifier P) : Prop where
  /-- The bytes fit the buffer. -/
  fits : c.k ≤ P.blen
  /-- The square root fields are balanced. -/
  root : SquareRoot c
  /-- The table was filled by bytes of this chunk. -/
  table : Table c.ht c.k

/-- A started chunk is kept, and has room. -/
theorem chunkifyStart_kept (buf : Vector UInt8 P.blen) :
    Kept (chunkifyStart P buf) ∧ (chunkifyStart P buf).k < P.blen := by
  have valid := chunkifyStart_valid buf
  exact ⟨⟨valid.room.le, valid.root, valid.table⟩, valid.room⟩

/-- A byte keeps the chunkifier, whichever way it ends the chunk. -/
theorem addByte_kept {c added : Chunkifier P} {byte : UInt8} {ended : Bool} (kept : Kept c)
    (result : addByte c byte = .ok (added, ended)) :
    Kept added ∧ (ended = false → added.k < P.blen) := by
  obtain ⟨room, count, _⟩ := addByte_bytes result
  have root := addByte_squareRoot kept.root result
  obtain ⟨stored, store, ways⟩ := addByte_cases result
  have storedCount : stored.k = c.k + 1 := (storeByte_bytes store).2.1
  have table : Table stored.ht c.k := by
    rw [(storeByte_frame store).1]
    exact kept.table
  rcases ways with ⟨full, rfl, rfl⟩ | ⟨notFull, _, rfl, rfl⟩ | ⟨notFull, _, search⟩
  · exact ⟨⟨by omega, root, table.mono (by omega)⟩, fun more => nomatch more⟩
  · exact ⟨⟨by omega, root, table.mono (by omega)⟩, fun _ => by omega⟩
  · refine ⟨⟨by omega, root, ?_⟩, fun _ => by omega⟩
    rcases searchAndQueue_cases search with ⟨_, rfl, _⟩ | ⟨_, _, htpos, _, rfl⟩
    · exact table.mono (show c.k ≤ stored.k by omega)
    · have filled := table.set htpos ((roll stored byte).b.get (roll stored byte).queueSlot)
      rw [← storedCount] at filled
      exact filled

/-- A search does not store bytes. -/
theorem searchAndQueue_fault {c : Chunkifier P} {fault : Fault}
    (result : searchAndQueue c = .error fault) : fault = .diverges := by
  rw [searchAndQueue, lookup] at result
  split at result
  · rename_i found _
    cases found with
    | true => cases result
    | false =>
      rw [ok_bind, if_neg Bool.false_ne_true, insert] at result
      split at result
      · cases result
      · cases result
        rfl
  · cases result
    rfl

/-- A byte that has room is stored, and the searches end unless the parameters are as large as
words. -/
theorem addByte_fault {c : Chunkifier P} {byte : UInt8} {fault : Fault} (kept : Kept c)
    (room : c.k < P.blen) (result : addByte c byte = .error fault) :
    fault = .diverges ∧ 4294967297 < P.blen + P.htlen := by
  constructor
  · obtain ⟨stored, store⟩ := storeByte_ok kept.root room byte
    rw [addByte, store, ok_bind] at result
    by_cases full : stored.k = P.blen
    · rw [if_pos full] at result
      cases result
    by_cases short : stored.r = 0
    · rw [if_neg full, if_pos short] at result
      cases result
    · rw [if_neg full, if_neg short] at result
      exact searchAndQueue_fault result
  · by_contra low
    obtain ⟨added, ended, add, _⟩ := addByte_ok ⟨room, kept.root, kept.table⟩ (by omega) byte
    rw [add] at result
    cases result

section Calls

variable {σ : Type} (chunkdone : σ → List UInt8 → Nat × σ)

/-- A call by the user of a chunkifier. -/
inductive Call where
  /-- `chunkify_write` of a buffer. -/
  | write (input : List UInt8)
  /-- `chunkify_end`. -/
  | finish

/-- Make a call. -/
def call (c : Chunkifier P) (cookie : σ) : Call → Except Fault (Nat × Chunkifier P × σ)
  | .write input => chunkifyWrite chunkdone c cookie input
  | .finish => .ok (chunkifyEnd chunkdone c cookie)

/-- A call returns the first nonzero value of the callback: the chunks before were accepted, the
value is what the callback made of the chunk that the last byte consumed ended, and the
chunkifier still holds this chunk. -/
def Reports (c : Chunkifier P) (cookie : σ) : Call → Nat × Chunkifier P × σ → Prop
  | .write input, (rc, last, cookie') =>
    if rc = 0 then
      ∃ before, feed c input = .ok (before, last) ∧
        before.foldlM (accept chunkdone) cookie = some cookie'
    else
      ∃ consumed byte rest before middle, input = consumed ++ byte :: rest ∧
        ∃ pending, feed c consumed = .ok (before, pending) ∧
          before.foldlM (accept chunkdone) cookie = some middle ∧
          addByte pending byte = .ok (last, true) ∧
          chunkdone middle last.bytes = (rc, cookie')
  | .finish, (rc, last, cookie') =>
    if rc = 0 then
      (lastChunk c).foldlM (accept chunkdone) cookie = some cookie' ∧ last.k = 0
    else c.k ≠ 0 ∧ last = c ∧ chunkdone cookie c.bytes = (rc, cookie')

variable {chunkdone}

/-- A write that returns a nonzero value consumed its input up to the byte that ended the chunk
whose callback failed. -/
theorem chunkifyWrite_failed {c last : Chunkifier P} {cookie cookie' : σ} {input : List UInt8}
    {rc : Nat} (written : chunkifyWrite chunkdone c cookie input = .ok (rc, last, cookie'))
    (failed : rc ≠ 0) : Reports chunkdone c cookie (.write input) (rc, last, cookie') := by
  rw [Reports, if_neg failed]
  induction input generalizing c cookie with
  | nil =>
    cases written
    exact absurd rfl failed
  | cons first input ih =>
    rw [chunkifyWrite] at written
    obtain ⟨⟨added, ended⟩, add, written⟩ := bind_eq_ok.mp written
    cases ended with
    | false =>
      obtain ⟨consumed, byte, rest, before, middle, split, pending, fed, accepted, ends, value⟩ :=
        ih written
      refine ⟨first :: consumed, byte, rest, before, middle, ?_, pending, ?_, accepted, ends, value⟩
      · rw [split, List.cons_append]
      · rw [feed_cons, add, ok_bind]
        exact fed
    | true =>
      have nonempty : added.k ≠ 0 := by
        have count := (addByte_bytes add).2.1
        omega
      simp only [if_true] at written
      rw [chunkifyEnd, if_neg nonempty] at written
      by_cases done : (chunkdone cookie added.bytes).1 = 0
      · simp only [done, ne_eq, not_true_eq_false, if_false] at written
        obtain ⟨consumed, byte, rest, before, middle, split, pending, fed, accepted, ends,
          value⟩ := ih written
        refine ⟨first :: consumed, byte, rest, added.bytes :: before, middle, ?_, pending, ?_, ?_,
          ends, value⟩
        · rw [split, List.cons_append]
        · rw [feed_cons, add, ok_bind]
          simp only [if_true, fed]
          rfl
        · rw [List.foldlM_cons, accept, if_pos done]
          exact accepted
      · simp only [done, ne_eq, not_false_eq_true, if_true] at written
        cases written
        exact ⟨[], first, input, [], cookie, rfl, c, rfl, rfl, add, rfl⟩

/-- A write reports how far it got. -/
theorem chunkifyWrite_reports {c : Chunkifier P} {cookie : σ} {input : List UInt8}
    {result : Nat × Chunkifier P × σ}
    (written : chunkifyWrite chunkdone c cookie input = .ok result) :
    Reports chunkdone c cookie (.write input) result := by
  obtain ⟨rc, last, cookie'⟩ := result
  by_cases success : rc = 0
  · subst success
    rw [Reports, if_pos rfl]
    exact chunkifyWrite_ok chunkdone written
  · exact chunkifyWrite_failed written success

/-- Ending a chunk reports what the callback made of it. -/
theorem chunkifyEnd_reports (c : Chunkifier P) (cookie : σ) :
    Reports chunkdone c cookie .finish (chunkifyEnd chunkdone c cookie) := by
  by_cases success : (chunkifyEnd chunkdone c cookie).1 = 0
  · have ended : chunkifyEnd chunkdone c cookie =
        (0, (chunkifyEnd chunkdone c cookie).2.1, (chunkifyEnd chunkdone c cookie).2.2) := by
      rw [← success]
    obtain ⟨accepted, next⟩ := chunkifyEnd_ok chunkdone ended
    rw [Reports, if_pos success]
    refine ⟨accepted, ?_⟩
    rw [next]
    split
    · assumption
    · rfl
  · rw [Reports, if_neg success]
    rw [chunkifyEnd] at success ⊢
    by_cases empty : c.k = 0
    · rw [if_pos empty] at success
      exact absurd rfl success
    · rw [if_neg empty] at success ⊢
      by_cases done : (chunkdone cookie c.bytes).1 = 0
      · simp [done] at success
      · simp only [ne_eq, done, not_false_eq_true, if_true]
        exact ⟨empty, trivial, trivial⟩

/-- Ending a chunk keeps the chunkifier. -/
theorem chunkifyEnd_kept {c : Chunkifier P} (kept : Kept c) (cookie : σ) :
    Kept (chunkifyEnd chunkdone c cookie).2.1 := by
  rw [chunkifyEnd]
  split
  · exact kept
  · by_cases done : (chunkdone cookie c.bytes).1 = 0
    · simp only [done, ne_eq, not_true_eq_false, if_false]
      exact (chunkifyStart_kept c.buf).1
    · simp only [done, ne_eq, not_false_eq_true, if_true]
      exact kept

/-- A write to a chunkifier with room keeps it, or does not return because the parameters are as
large as words. -/
theorem chunkifyWrite_kept {c : Chunkifier P} (kept : Kept c) {input : List UInt8}
    (room : c.k < P.blen ∨ input = []) (cookie : σ) :
    (∃ result, chunkifyWrite chunkdone c cookie input = .ok result ∧ Kept result.2.1) ∨
    (chunkifyWrite chunkdone c cookie input = .error .diverges ∧
      4294967297 < P.blen + P.htlen) := by
  induction input generalizing c cookie with
  | nil => exact .inl ⟨(0, c, cookie), rfl, kept⟩
  | cons byte input ih =>
    have inside := room.resolve_right (List.cons_ne_nil _ _)
    rw [chunkifyWrite]
    cases add : addByte c byte with
    | error fault =>
      obtain ⟨rfl, large⟩ := addByte_fault kept inside add
      exact .inr ⟨rfl, large⟩
    | ok result =>
      obtain ⟨added, ended⟩ := result
      obtain ⟨keptAdded, more⟩ := addByte_kept kept add
      cases ended with
      | false => exact ih keptAdded (.inl (more rfl)) cookie
      | true =>
        have nonempty : added.k ≠ 0 := by
          have count := (addByte_bytes add).2.1
          omega
        simp only [ok_bind, if_true]
        rw [chunkifyEnd, if_neg nonempty]
        by_cases done : (chunkdone cookie added.bytes).1 = 0
        · simp only [done, ne_eq, not_true_eq_false, if_false]
          obtain ⟨keptStart, roomStart⟩ := chunkifyStart_kept added.buf
          exact ih keptStart (.inl roomStart) _
        · simp only [done, ne_eq, not_false_eq_true, if_true]
          exact .inl ⟨_, rfl, keptAdded⟩

variable (chunkdone)

/-- A run of calls in which no byte is stored outside the buffer, the byte count stays within it,
and every call that returns reports how far it got. Only searching, with parameters as large as
words, may keep a call from returning. -/
def Usable (c : Chunkifier P) (cookie : σ) : List Call → Prop
  | [] => c.k ≤ P.blen
  | first :: rest => c.k ≤ P.blen ∧
    match call chunkdone c cookie first with
    | .error fault => fault = .diverges ∧ 4294967297 < P.blen + P.htlen
    | .ok result => Reports chunkdone c cookie first result ∧ Usable result.2.1 result.2.2 rest

/-- A call that stores bytes finds room in the buffer. -/
def Call.HasRoom (c : Chunkifier P) : Call → Prop
  | .write input => c.k < P.blen ∨ input = []
  | .finish => True

/-- Every call of a run finds room. -/
def RoomForCalls (c : Chunkifier P) (cookie : σ) : List Call → Prop
  | [] => True
  | first :: rest => first.HasRoom c ∧ ∀ result, call chunkdone c cookie first = .ok result →
    RoomForCalls result.2.1 result.2.2 rest

variable {chunkdone}

/-- A call that finds room keeps the chunkifier and reports. -/
theorem call_kept {c : Chunkifier P} (kept : Kept c) {first : Call} (room : first.HasRoom c)
    (cookie : σ) :
    (∃ result, call chunkdone c cookie first = .ok result ∧ Kept result.2.1 ∧
      Reports chunkdone c cookie first result) ∨
    (call chunkdone c cookie first = .error .diverges ∧ 4294967297 < P.blen + P.htlen) := by
  cases first with
  | write input =>
    rcases chunkifyWrite_kept kept room cookie with ⟨result, written, keptAfter⟩ | endless
    · exact .inl ⟨result, written, keptAfter, chunkifyWrite_reports written⟩
    · exact .inr endless
  | finish =>
    exact .inl ⟨_, rfl, chunkifyEnd_kept kept cookie, chunkifyEnd_reports c cookie⟩

/-- A write of bytes to a full buffer stores outside it. -/
theorem call_full {c : Chunkifier P} {first : Call} (full : ¬first.HasRoom c)
    (cookie : σ) : call chunkdone c cookie first = .error .outOfBounds := by
  cases first with
  | finish => exact absurd trivial full
  | write input =>
    rw [Call.HasRoom, not_or] at full
    obtain ⟨byte, rest, rfl⟩ := List.exists_cons_of_ne_nil full.2
    rw [call, chunkifyWrite, addByte, storeByte, dif_neg full.1]
    rfl

/-- However the callback fails, the calls after a failure are safe exactly as long as no write of
bytes finds the buffer full. -/
theorem calls_usable (P : Params) {σ : Type} (chunkdone : σ → List UInt8 → Nat × σ)
    (buf : Vector UInt8 P.blen) (cookie : σ) (calls : List Call) :
    Usable chunkdone (chunkifyStart P buf) cookie calls ↔
      RoomForCalls chunkdone (chunkifyStart P buf) cookie calls := by
  have general : ∀ (c : Chunkifier P) (cookie : σ), Kept c →
      (Usable chunkdone c cookie calls ↔ RoomForCalls chunkdone c cookie calls) := by
    induction calls with
    | nil => exact fun c cookie kept => ⟨fun _ => trivial, fun _ => kept.fits⟩
    | cons first rest ih =>
      intro c cookie kept
      rw [Usable, RoomForCalls]
      by_cases room : first.HasRoom c
      · rcases @call_kept _ _ chunkdone c kept first room cookie with
          ⟨result, made, keptAfter, reports⟩ | ⟨endless, large⟩
        · rw [made]
          constructor
          · rintro ⟨_, _, after⟩
            refine ⟨room, ?_⟩
            intro other same
            cases same
            exact (ih _ _ keptAfter).mp after
          · rintro ⟨_, after⟩
            exact ⟨kept.fits, reports, (ih _ _ keptAfter).mpr (after result rfl)⟩
        · rw [endless]
          constructor
          · intro _
            exact ⟨room, fun result made => nomatch made⟩
          · intro _
            exact ⟨kept.fits, rfl, large⟩
      · rw [call_full room cookie]
        constructor
        · rintro ⟨_, absurdity, _⟩
          cases absurdity
        · rintro ⟨found, _⟩
          exact absurd found room
  exact general _ cookie (chunkifyStart_kept buf).1

/-- A callback that always fails. -/
def failing : Unit → List UInt8 → Nat × Unit := fun cookie _ => (1, cookie)

/-- Writing a byte after the callback failed for a full buffer of zeros. -/
theorem calls_unusable : ¬∀ (P : Params) (σ : Type) (chunkdone : σ → List UInt8 → Nat × σ)
    (buf : Vector UInt8 P.blen) (cookie : σ) (calls : List Call),
    Usable chunkdone (chunkifyStart P buf) cookie calls := by
  intro usable
  have run := usable shortParams Unit failing (Vector.replicate 16 0) ()
    [.write (List.replicate 16 0), .write [0]]
  have count : (call failing (chunkifyStart shortParams (Vector.replicate 16 0)) ()
      (.write (List.replicate 16 0))).toOption.map (fun result => result.2.1.k) = some 16 := by
    decide +kernel
  obtain ⟨_, first⟩ := run
  cases made : call failing (chunkifyStart shortParams (Vector.replicate 16 0)) ()
      (.write (List.replicate 16 0)) with
  | error fault =>
    rw [made] at count
    exact nomatch count
  | ok result =>
    rw [made] at first count
    obtain ⟨_, _, second⟩ := first
    have full : result.2.1.k = 16 := Option.some.inj count
    have noRoom : ¬(Call.write [0]).HasRoom result.2.1 := by
      rintro (room | empty)
      · rw [full] at room
        exact absurd room (by decide)
      · exact nomatch empty
    rw [call_full noRoom] at second
    exact nomatch second.1

end Calls

end Tarsnap.Chunkify
