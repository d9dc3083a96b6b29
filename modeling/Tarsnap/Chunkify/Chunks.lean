import Tarsnap.Lib.Except
import Tarsnap.Chunkify.Model

/-!
# The chunks of a byte string

Feeding bytes to a chunkifier yields the chunks its byte loop ends and the state of the
unfinished chunk. This module shows that a succeeding callback sees exactly these chunks,
that feeding a concatenation is feeding its parts in turn, that no byte is lost or moved, and
that the stale bytes of the buffer influence nothing.
-/

namespace Tarsnap.Chunkify

open Tarsnap.Lib

variable {P : Params}

/-- The chunks that the byte loop ends while it reads the input, and the state after it. -/
def feed (c : Chunkifier P) :
    List UInt8 → Except Fault (List (List UInt8) × Chunkifier P)
  | [] => .ok ([], c)
  | byte :: rest => do
    let (c, endofchunk) ← addByte c byte
    if endofchunk then
      let (chunks, last) ← feed (chunkifyStart P c.buf) rest
      return (c.bytes :: chunks, last)
    else feed c rest

/-- The chunk that ending the input adds, if any byte is pending. -/
def lastChunk (c : Chunkifier P) : List (List UInt8) := if c.k = 0 then [] else [c.bytes]

/-- The chunks of a byte string, from a chunkifier whose buffer holds arbitrary bytes. -/
def chunks (P : Params) (buf : Vector UInt8 P.blen) (input : List UInt8) :
    Except Fault (List (List UInt8)) := do
  let (chunks, last) ← feed (chunkifyStart P buf) input
  return chunks ++ lastChunk last

/-- Storing a byte stays inside the buffer, appends the byte to the chunk and advances the
square root; nothing else changes. -/
theorem storeByte_cases {c stored : Chunkifier P} {byte : UInt8}
    (result : storeByte c byte = .ok stored) :
    ∃ (room : c.k < P.blen) (r rs : Nat), sqrtLoop 5 c.r c.rs = .ok (r, rs) ∧
      stored = { c with buf := c.buf.set c.k byte room, k := c.k + 1, r, rs := sub32 rs 4 } := by
  unfold storeByte at result
  split at result
  case isFalse => cases result
  case isTrue room =>
    obtain ⟨⟨r, rs⟩, loop, rest⟩ := bind_eq_ok.mp result
    cases rest
    have fits : word (c.k + 1) = c.k + 1 := Nat.mod_eq_of_lt (by have := P.blen_lt; omega)
    exact ⟨room, r, rs, loop, by rw [fits]⟩

/-- The chunk after a byte is stored. -/
theorem storeByte_bytes {c stored : Chunkifier P} {byte : UInt8}
    (result : storeByte c byte = .ok stored) :
    c.k < P.blen ∧ stored.k = c.k + 1 ∧ stored.bytes = c.bytes ++ [byte] := by
  obtain ⟨room, r, rs, _, rfl⟩ := storeByte_cases result
  refine ⟨room, rfl, ?_⟩
  simp only [Chunkifier.bytes, Vector.toList_set]
  rw [List.take_set, List.take_succ_eq_append_getElem (by simpa using room),
    List.set_append_right _ _ (by simp)]
  simp [Nat.min_eq_left (Nat.le_of_lt room)]

/-- Storing a byte leaves the hash state alone. -/
theorem storeByte_frame {c stored : Chunkifier P} {byte : UInt8}
    (result : storeByte c byte = .ok stored) :
    stored.ht = c.ht ∧ stored.b = c.b ∧ stored.yka = c.yka ∧ stored.akr = c.akr := by
  obtain ⟨_, _, _, _, rfl⟩ := storeByte_cases result
  exact ⟨rfl, rfl, rfl, rfl⟩

/-- A search either finds a cycle and leaves the chunkifier alone, or moves the oldest queued
value into a free slot and queues the current one. -/
theorem searchAndQueue_cases {c out : Chunkifier P} {ended : Bool}
    (result : searchAndQueue c = .ok (out, ended)) :
    (lookup c = .ok true ∧ out = c ∧ ended = true) ∨
    (lookup c = .ok false ∧ ended = false ∧ ∃ htpos,
      probe P.next (insertTest c) P.htlen (P.slot (c.b.get c.queueSlot)) = some htpos ∧
      out = { c with
        ht := c.ht.set htpos (c.k, (c.b.get c.queueSlot)) htpos.isLt
        b := c.b.set c.queueSlot c.yka c.queueSlot.isLt }) := by
  obtain ⟨found, search, rest⟩ := bind_eq_ok.mp result
  cases found with
  | true => cases rest; exact .inl ⟨search, rfl, rfl⟩
  | false =>
    obtain ⟨inserted, insertion, rest⟩ := bind_eq_ok.mp rest
    unfold insert at insertion
    split at insertion
    case h_1 htpos free => cases insertion; cases rest; exact .inr ⟨search, rfl, htpos, free, rfl⟩
    case h_2 => cases insertion

/-- A byte is stored; then the chunk is full, or too short for any cycle, or searched. -/
theorem addByte_cases {c added : Chunkifier P} {byte : UInt8} {ended : Bool}
    (result : addByte c byte = .ok (added, ended)) :
    ∃ stored, storeByte c byte = .ok stored ∧
      ((stored.k = P.blen ∧ added = stored ∧ ended = true) ∨
       (stored.k ≠ P.blen ∧ stored.r = 0 ∧ added = stored ∧ ended = false) ∨
       (stored.k ≠ P.blen ∧ stored.r ≠ 0 ∧
        searchAndQueue (roll stored byte) = .ok (added, ended))) := by
  obtain ⟨stored, store, rest⟩ := bind_eq_ok.mp result
  refine ⟨stored, store, ?_⟩
  by_cases full : stored.k = P.blen
  · simp only [full, if_true] at rest
    cases rest
    exact .inl ⟨full, rfl, rfl⟩
  · by_cases short : stored.r = 0
    · simp only [full, short, if_true, if_false] at rest
      cases rest
      exact .inr (.inl ⟨full, short, rfl, rfl⟩)
    · simp only [full, short, if_false] at rest
      exact .inr (.inr ⟨full, short, rest⟩)

/-- A search keeps the byte count and the square root, and with them the bytes. -/
theorem searchAndQueue_frame {c out : Chunkifier P} {ended : Bool}
    (result : searchAndQueue c = .ok (out, ended)) :
    out.k = c.k ∧ out.r = c.r ∧ out.rs = c.rs ∧ out.buf = c.buf := by
  rcases searchAndQueue_cases result with ⟨_, rfl, _⟩ | ⟨_, _, _, _, rfl⟩ <;> simp

/-- Adding a byte keeps what storing it produced, the hash state apart. -/
theorem addByte_frame {c added : Chunkifier P} {byte : UInt8} {ended : Bool}
    (result : addByte c byte = .ok (added, ended)) :
    ∃ stored, storeByte c byte = .ok stored ∧ added.k = stored.k ∧ added.r = stored.r ∧
      added.rs = stored.rs ∧ added.buf = stored.buf := by
  obtain ⟨stored, store, ⟨_, rfl, _⟩ | ⟨_, _, rfl, _⟩ | ⟨_, _, search⟩⟩ := addByte_cases result
  · exact ⟨added, store, rfl, rfl, rfl, rfl⟩
  · exact ⟨added, store, rfl, rfl, rfl, rfl⟩
  · have frame := searchAndQueue_frame search
    exact ⟨stored, store, frame⟩

/-- Adding a byte stays inside the buffer and appends the byte to the chunk. -/
theorem addByte_bytes {c added : Chunkifier P} {byte : UInt8} {ended : Bool}
    (result : addByte c byte = .ok (added, ended)) :
    c.k < P.blen ∧ added.k = c.k + 1 ∧ added.bytes = c.bytes ++ [byte] := by
  obtain ⟨stored, store, count, _, _, buffer⟩ := addByte_frame result
  obtain ⟨room, next, appended⟩ := storeByte_bytes store
  refine ⟨room, count.trans next, ?_⟩
  rw [← appended, Chunkifier.bytes, Chunkifier.bytes, count, buffer]

/-- A started chunkifier holds no bytes. -/
@[simp] theorem chunkifyStart_bytes (buf : Vector UInt8 P.blen) :
    (chunkifyStart P buf).bytes = [] := by
  simp [Chunkifier.bytes, chunkifyStart]

/-- The chunk has as many bytes as were counted. -/
theorem bytes_length {c : Chunkifier P} (room : c.k ≤ P.blen) : c.bytes.length = c.k := by
  simp [Chunkifier.bytes, room]

section Feed

/-- Feeding one byte and then the rest. -/
theorem feed_cons (c : Chunkifier P) (byte : UInt8) (rest : List UInt8) :
    feed c (byte :: rest) = (do
      let (c, endofchunk) ← addByte c byte
      if endofchunk then
        let (chunks, last) ← feed (chunkifyStart P c.buf) rest
        return (c.bytes :: chunks, last)
      else feed c rest) := rfl

/-- Feeding a concatenation feeds its parts in turn. -/
theorem feed_append (c : Chunkifier P) (left right : List UInt8) :
    feed c (left ++ right) = (do
      let (before, middle) ← feed c left
      let (after, last) ← feed middle right
      return (before ++ after, last)) := by
  induction left generalizing c with
  | nil =>
    cases fed : feed c right with
    | error fault => simp [feed, fed]
    | ok result => simp [feed, fed]
  | cons byte rest ih =>
    rw [List.cons_append, feed_cons, feed_cons]
    cases add : addByte c byte with
    | error fault => simp
    | ok result =>
      obtain ⟨added, ended⟩ := result
      cases ended with
      | false => simp [ih]
      | true =>
        simp only [ok_bind, if_true, ih]
        cases first : feed (chunkifyStart P added.buf) rest with
        | error fault => simp
        | ok middle =>
          cases second : feed middle.2 right with
          | error fault => simp [second]
          | ok last => simp [second]

/-- No byte is lost, repeated or moved. -/
theorem feed_flatten {c last : Chunkifier P} {input : List UInt8} {before : List (List UInt8)}
    (fed : feed c input = .ok (before, last)) :
    before.flatten ++ last.bytes = c.bytes ++ input := by
  induction input generalizing c before with
  | nil => cases fed; simp
  | cons byte rest ih =>
    rw [feed_cons] at fed
    obtain ⟨⟨added, ended⟩, add, fed⟩ := bind_eq_ok.mp fed
    obtain ⟨_, _, appended⟩ := addByte_bytes add
    cases ended with
    | false =>
      rw [ih fed, appended, List.append_assoc, List.singleton_append]
    | true =>
      obtain ⟨⟨after, final⟩, fed, same⟩ := bind_eq_ok.mp fed
      cases same
      rw [List.flatten_cons, List.append_assoc, ih fed, appended]
      simp

/-- A chunk that the byte loop ends is not empty and fits the buffer. -/
theorem feed_lengths {c last : Chunkifier P} {input : List UInt8} {before : List (List UInt8)}
    (fed : feed c input = .ok (before, last)) :
    ∀ chunk ∈ before, 1 ≤ chunk.length ∧ chunk.length ≤ P.blen := by
  induction input generalizing c before with
  | nil => cases fed; simp
  | cons byte rest ih =>
    rw [feed_cons] at fed
    obtain ⟨⟨added, ended⟩, add, fed⟩ := bind_eq_ok.mp fed
    cases ended with
    | false => exact ih fed
    | true =>
      obtain ⟨⟨after, final⟩, fed, same⟩ := bind_eq_ok.mp fed
      cases same
      obtain ⟨room, count, _⟩ := addByte_bytes add
      have length := bytes_length (show added.k ≤ P.blen by omega)
      intro chunk member
      rcases List.mem_cons.mp member with rfl | member
      · omega
      · exact ih fed chunk member

/-- The chunk being filled always fits the buffer. -/
theorem feed_room {c last : Chunkifier P} {input : List UInt8} {before : List (List UInt8)}
    (fed : feed c input = .ok (before, last)) (room : c.k ≤ P.blen) : last.k ≤ P.blen := by
  induction input generalizing c before with
  | nil => cases fed; exact room
  | cons byte rest ih =>
    rw [feed_cons] at fed
    obtain ⟨⟨added, ended⟩, add, fed⟩ := bind_eq_ok.mp fed
    obtain ⟨below, count, _⟩ := addByte_bytes add
    cases ended with
    | false => exact ih fed (by omega)
    | true =>
      obtain ⟨⟨after, final⟩, fed, same⟩ := bind_eq_ok.mp fed
      cases same
      exact ih fed (Nat.zero_le _)

/-- What holds of started chunkifiers and is kept by bytes that end no chunk holds after any
input. -/
theorem feed_invariant {Inv : Chunkifier P → Prop} (start : ∀ buf, Inv (chunkifyStart P buf))
    (step : ∀ {c added byte}, Inv c → addByte c byte = .ok (added, false) → Inv added)
    {c last : Chunkifier P} {input : List UInt8} {before : List (List UInt8)} (holds : Inv c)
    (fed : feed c input = .ok (before, last)) : Inv last := by
  induction input generalizing c before with
  | nil => cases fed; exact holds
  | cons byte rest ih =>
    rw [feed_cons] at fed
    obtain ⟨⟨added, ended⟩, add, fed⟩ := bind_eq_ok.mp fed
    cases ended with
    | false => exact ih (step holds add) fed
    | true =>
      obtain ⟨⟨after, final⟩, fed, same⟩ := bind_eq_ok.mp fed
      cases same
      exact ih (start added.buf) fed

/-- The last chunk is empty or holds the pending bytes. -/
theorem lastChunk_flatten {c : Chunkifier P} : (lastChunk c).flatten = c.bytes := by
  unfold lastChunk
  split
  case isTrue empty => simp [Chunkifier.bytes, empty]
  case isFalse => simp

/-- The last chunk is not empty and fits the buffer. -/
theorem lastChunk_lengths {c : Chunkifier P} (room : c.k ≤ P.blen) :
    ∀ chunk ∈ lastChunk c, 1 ≤ chunk.length ∧ chunk.length ≤ P.blen := by
  intro chunk member
  unfold lastChunk at member
  split at member
  case isTrue => cases member
  case isFalse pending =>
    rw [List.mem_singleton] at member
    subst member
    rw [bytes_length room]
    omega

/-- The chunks of a string concatenate to it and have admissible lengths. -/
theorem chunks_sound {buf : Vector UInt8 P.blen} {input : List UInt8}
    {chunkList : List (List UInt8)} (chunked : chunks P buf input = .ok chunkList) :
    chunkList.flatten = input ∧
      ∀ chunk ∈ chunkList, 1 ≤ chunk.length ∧ chunk.length ≤ P.blen := by
  obtain ⟨⟨before, last⟩, fed, rest⟩ := bind_eq_ok.mp chunked
  cases rest
  constructor
  · rw [List.flatten_append, lastChunk_flatten, feed_flatten fed, chunkifyStart_bytes,
      List.nil_append]
  · intro chunk member
    rcases List.mem_append.mp member with member | member
    · exact feed_lengths fed chunk member
    · exact lastChunk_lengths (feed_room fed (Nat.zero_le _)) chunk member

end Feed

section Callback

variable {σ : Type} (chunkdone : σ → List UInt8 → Nat × σ)

/-- What a succeeding callback makes of a list of chunks. -/
def deliver (cookie : σ) (chunks : List (List UInt8)) : σ :=
  chunks.foldl (fun cookie chunk => (chunkdone cookie chunk).2) cookie

/-- Ending a chunk delivers it, if there is one. -/
theorem chunkifyEnd_eq (succeeds : ∀ cookie chunk, (chunkdone cookie chunk).1 = 0)
    (c : Chunkifier P) (cookie : σ) :
    chunkifyEnd chunkdone c cookie =
      (0, if c.k = 0 then c else chunkifyStart P c.buf,
        deliver chunkdone cookie (lastChunk c)) := by
  unfold chunkifyEnd lastChunk
  split
  case isTrue => rfl
  case isFalse => simp [succeeds, deliver]

/-- A succeeding callback receives exactly the chunks that the byte loop ends, in order. -/
theorem chunkifyWrite_eq (succeeds : ∀ cookie chunk, (chunkdone cookie chunk).1 = 0)
    (c : Chunkifier P) (cookie : σ) (input : List UInt8) :
    chunkifyWrite chunkdone c cookie input = (do
      let (before, last) ← feed c input
      return (0, last, deliver chunkdone cookie before)) := by
  induction input generalizing c cookie with
  | nil => rfl
  | cons byte rest ih =>
    rw [chunkifyWrite, feed_cons]
    cases add : addByte c byte with
    | error fault => rfl
    | ok result =>
      obtain ⟨added, ended⟩ := result
      cases ended with
      | false => simp [ih]
      | true =>
        have nonempty : added.k ≠ 0 := by have := (addByte_bytes add).2.1; omega
        simp only [ok_bind, if_true, chunkifyEnd_eq chunkdone succeeds, nonempty, if_false,
          ne_eq, not_true_eq_false, ih, lastChunk]
        cases fed : feed (chunkifyStart P added.buf) rest with
        | error fault => rfl
        | ok final => simp [deliver]

/-- What a callback makes of one chunk, unless it fails. -/
def accept (cookie : σ) (chunk : List UInt8) : Option σ :=
  if (chunkdone cookie chunk).1 = 0 then some (chunkdone cookie chunk).2 else none

/-- When all callbacks succeed during a write, they received the chunks that the byte loop ends. -/
theorem chunkifyWrite_ok {c last : Chunkifier P} {cookie cookie' : σ} {input : List UInt8}
    (written : chunkifyWrite chunkdone c cookie input = .ok (0, last, cookie')) :
    ∃ before, feed c input = .ok (before, last) ∧
      before.foldlM (accept chunkdone) cookie = some cookie' := by
  induction input generalizing c cookie with
  | nil =>
    cases written
    exact ⟨[], rfl, rfl⟩
  | cons byte rest ih =>
    rw [chunkifyWrite] at written
    obtain ⟨⟨added, ended⟩, add, written⟩ := bind_eq_ok.mp written
    rw [feed_cons, add, ok_bind]
    cases ended with
    | false => exact ih written
    | true =>
      have pending : added.k ≠ 0 := by have := (addByte_bytes add).2.1; omega
      simp only [if_true] at written ⊢
      rw [chunkifyEnd, if_neg pending] at written
      by_cases done : (chunkdone cookie added.bytes).1 = 0
      · simp only [done, ne_eq, not_true_eq_false, if_false] at written
        obtain ⟨before, fed, accepted⟩ := ih written
        refine ⟨added.bytes :: before, by rw [fed, ok_bind, pure_eq_ok], ?_⟩
        rw [List.foldlM_cons, accept, if_pos done]
        exact accepted
      · simp only [done, ne_eq, not_false_eq_true, if_true] at written
        exact absurd (congrArg Prod.fst (Except.ok.inj written)) done

/-- When the callback succeeds at the end, it received the pending bytes. -/
theorem chunkifyEnd_ok {c last : Chunkifier P} {cookie cookie' : σ}
    (ended : chunkifyEnd chunkdone c cookie = (0, last, cookie')) :
    (lastChunk c).foldlM (accept chunkdone) cookie = some cookie' ∧
      last = if c.k = 0 then c else chunkifyStart P c.buf := by
  rw [chunkifyEnd] at ended
  rw [lastChunk]
  by_cases empty : c.k = 0
  · rw [if_pos empty] at ended ⊢
    cases ended
    exact ⟨rfl, (if_pos empty).symm⟩
  · rw [if_neg empty] at ended ⊢
    by_cases done : (chunkdone cookie c.bytes).1 = 0
    · simp only [done, ne_eq, not_true_eq_false, if_false] at ended
      cases ended
      refine ⟨?_, (if_neg empty).symm⟩
      rw [List.foldlM_cons, accept, if_pos done]
      rfl
    · simp only [done, ne_eq, not_false_eq_true, if_true] at ended
      exact absurd (congrArg Prod.fst ended) done

/-- Feed buffers one after the other and end the last chunk. -/
def chunkifyAll (c : Chunkifier P) (cookie : σ) :
    List (List UInt8) → Except Fault (Nat × Chunkifier P × σ)
  | [] => .ok (chunkifyEnd chunkdone c cookie)
  | buf :: rest => do
    let (rc, c, cookie) ← chunkifyWrite chunkdone c cookie buf
    if rc ≠ 0 then return (rc, c, cookie)
    chunkifyAll c cookie rest

/-- However the input is split into buffers, a succeeding callback receives the chunks of the
whole input. -/
theorem chunkifyAll_eq (succeeds : ∀ cookie chunk, (chunkdone cookie chunk).1 = 0)
    (c : Chunkifier P) (cookie : σ) (pieces : List (List UInt8)) :
    chunkifyAll chunkdone c cookie pieces = (do
      let (before, last) ← feed c pieces.flatten
      return (0, if last.k = 0 then last else chunkifyStart P last.buf,
        deliver chunkdone cookie (before ++ lastChunk last))) := by
  induction pieces generalizing c cookie with
  | nil => simp [chunkifyAll, feed, chunkifyEnd_eq chunkdone succeeds]
  | cons piece rest ih =>
    rw [chunkifyAll, List.flatten_cons, feed_append, chunkifyWrite_eq chunkdone succeeds]
    cases first : feed c piece with
    | error fault => simp
    | ok middle =>
      simp only [ok_bind, pure_eq_ok, ne_eq, not_true_eq_false, if_false, ih]
      cases second : feed middle.2 rest.flatten with
      | error fault => simp
      | ok last => simp [deliver, List.foldl_append]

end Callback

end Tarsnap.Chunkify
