import Tarsnap.Chunkify.SquareRoot

/-!
# Resynchronization at chunk boundaries

Two chunkifiers that differ only in buffer bytes outside the current chunk behave alike. A
chunk boundary therefore forgets everything before it: the chunks of a string with a boundary
are the chunks of its two sides, and streams that share a suffix from a boundary on share the
chunks of the suffix.
-/

namespace Tarsnap.Chunkify

open Tarsnap.Lib

variable {P : Params}

/-- The same chunkifier with other bytes in its buffer. -/
def Chunkifier.withBuf (c : Chunkifier P) (buf : Vector UInt8 P.blen) : Chunkifier P :=
  { c with buf }

/-- Chunkifiers that differ only in buffer bytes outside the current chunk. -/
structure Agree (c d : Chunkifier P) : Prop where
  /-- Everything but the buffer is the same. -/
  state : d = c.withBuf d.buf
  /-- The bytes of the current chunk are the same. -/
  bytes : d.bytes = c.bytes

/-- Two computations fail alike or succeed with related results. -/
inductive Alike {α : Type} (related : α → α → Prop) : Except Fault α → Except Fault α → Prop
  /-- Both fail with the same fault. -/
  | error (fault : Fault) : Alike related (.error fault) (.error fault)
  /-- Both succeed with related results. -/
  | ok {left right : α} (holds : related left right) : Alike related (.ok left) (.ok right)

/-- Storing a byte preserves agreement. -/
theorem storeByte_agree {c d : Chunkifier P} (agree : Agree c d) (byte : UInt8) :
    Alike Agree (storeByte c byte) (storeByte d byte) := by
  obtain ⟨buf, rfl⟩ : ∃ buf, d = c.withBuf buf := ⟨_, agree.state⟩
  by_cases room : c.k < P.blen
  case neg =>
    have left : storeByte c byte = .error .outOfBounds := dif_neg room
    have right : storeByte (c.withBuf buf) byte = .error .outOfBounds := dif_neg room
    rw [left, right]
    exact .error _
  case pos =>
    have left : storeByte c byte = _ := dif_pos room
    have inside : (c.withBuf buf).k < P.blen := room
    have right : storeByte (c.withBuf buf) byte = _ := dif_pos inside
    cases loop : sqrtLoop 5 c.r c.rs with
    | error fault =>
      rw [left, right]
      simp only [Chunkifier.withBuf, loop]
      exact .error fault
    | ok root =>
      simp only [Chunkifier.withBuf, loop, ok_bind] at left right
      have before := (storeByte_bytes left).2.2
      have after := (storeByte_bytes right).2.2
      rw [Chunkifier.withBuf, left, right]
      refine .ok ⟨rfl, ?_⟩
      rw [after, before]
      exact congrArg (· ++ [byte]) agree.bytes

/-- The bytes of the buffer outside the chunk are not looked up. -/
theorem lookup_agree {c d : Chunkifier P} (agree : Agree c d) : lookup d = lookup c := by
  have test : lookupTest d = lookupTest c := by
    funext htpos
    rw [lookupTest, agree.bytes, agree.state]
    rfl
  rw [lookup, test, agree.state]
  rfl

/-- Searching preserves agreement. -/
theorem searchAndQueue_agree {c d : Chunkifier P} (agree : Agree c d) :
    Alike (fun left right => Agree left.1 right.1 ∧ left.2 = right.2)
      (searchAndQueue c) (searchAndQueue d) := by
  have same := agree.state
  have test : insertTest d = insertTest c := by
    rw [same]
    rfl
  unfold searchAndQueue
  rw [lookup_agree agree]
  cases lookup c with
  | error fault => exact .error fault
  | ok found =>
    cases found with
    | true => exact .ok ⟨agree, rfl⟩
    | false =>
      have queued : (d.b.get d.queueSlot) = (c.b.get c.queueSlot) := by rw [same]; rfl
      simp only [ok_bind, insert, test, queued]
      cases probe P.next (insertTest c) P.htlen (P.slot (c.b.get c.queueSlot)) with
      | none => exact .error .diverges
      | some htpos =>
        refine .ok ⟨⟨?_, agree.bytes⟩, rfl⟩
        rw [same]
        rfl

/-- Adding a byte preserves agreement. -/
theorem addByte_agree {c d : Chunkifier P} (agree : Agree c d) (byte : UInt8) :
    Alike (fun left right => Agree left.1 right.1 ∧ left.2 = right.2)
      (addByte c byte) (addByte d byte) := by
  unfold addByte
  have stores := storeByte_agree agree byte
  generalize storeByte c byte = left at stores
  generalize storeByte d byte = right at stores
  cases stores with
  | error fault => exact .error fault
  | @ok c d agree =>
    have count : d.k = c.k := by rw [agree.state]; rfl
    have root : d.r = c.r := by rw [agree.state]; rfl
    simp only [ok_bind, count, root]
    split
    · exact .ok ⟨agree, rfl⟩
    · split
      · exact .ok ⟨agree, rfl⟩
      · have rolled : Agree (roll c byte) (roll d byte) :=
          ⟨by rw [agree.state]; rfl, agree.bytes⟩
        exact searchAndQueue_agree rolled

/-- Feeding preserves agreement and yields the same chunks. -/
theorem feed_agree {c d : Chunkifier P} (agree : Agree c d) (input : List UInt8) :
    Alike (fun left right => left.1 = right.1 ∧ Agree left.2 right.2)
      (feed c input) (feed d input) := by
  induction input generalizing c d with
  | nil => exact .ok ⟨rfl, agree⟩
  | cons byte rest ih =>
    rw [feed_cons, feed_cons]
    have adds := addByte_agree agree byte
    generalize addByte c byte = left at adds
    generalize addByte d byte = right at adds
    cases adds with
    | error fault => exact .error fault
    | @ok left right related =>
      obtain ⟨c, ended⟩ := left
      obtain ⟨d, ended'⟩ := right
      obtain ⟨agree, same⟩ := related
      dsimp only at agree same
      subst same
      cases ended with
      | false => exact ih agree
      | true =>
        have started : Agree (chunkifyStart P c.buf) (chunkifyStart P d.buf) :=
          ⟨rfl, by simp⟩
        have feeds := ih started
        simp only [ok_bind, if_true, agree.bytes]
        generalize feed (chunkifyStart P c.buf) rest = left at feeds
        generalize feed (chunkifyStart P d.buf) rest = right at feeds
        cases feeds with
        | error fault => exact .error fault
        | ok related => exact .ok ⟨by rw [related.1], related.2⟩

/-- The chunks of a string do not depend on the bytes the buffer starts with. -/
theorem chunks_buf (buf other : Vector UInt8 P.blen) (input : List UInt8) :
    chunks P buf input = chunks P other input := by
  have started : Agree (chunkifyStart P buf) (chunkifyStart P other) := ⟨rfl, by simp⟩
  have feeds := feed_agree started input
  unfold chunks
  generalize feed (chunkifyStart P buf) input = left at feeds
  generalize feed (chunkifyStart P other) input = right at feeds
  cases feeds with
  | error fault => rfl
  | @ok left right related =>
    have count : right.2.k = left.2.k := by rw [related.2.state]; rfl
    simp [lastChunk, related.1, related.2.bytes, count]

/-- A chunkifier without pending bytes after some input behaves from there on like a started
one. -/
theorem chunks_of_boundary {buf : Vector UInt8 P.blen} (other : Vector UInt8 P.blen)
    {left : List UInt8} {front : List (List UInt8)} {c : Chunkifier P}
    (cut : feed (chunkifyStart P buf) left = .ok (front, c))
    (started : c = chunkifyStart P c.buf) (right : List UInt8) :
    chunks P other left = .ok front ∧
      chunks P buf (left ++ right) = (do
        let back ← chunks P other right
        return front ++ back) := by
  constructor
  · rw [chunks_buf other buf, chunks, cut, started]
    simp [lastChunk, chunkifyStart]
  · rw [chunks_buf other c.buf, chunks, chunks, feed_append, cut, ← started]
    cases fed : feed c right with
    | error fault => simp [fed]
    | ok result => simp [fed]

/-- After input without pending bytes the chunkifier is a started one. -/
theorem feed_started {c last : Chunkifier P} {input : List UInt8} {before : List (List UInt8)}
    (fed : feed c input = .ok (before, last)) (start : c.k = 0 → c = chunkifyStart P c.buf)
    (boundary : last.k = 0) : last = chunkifyStart P last.buf := by
  induction input generalizing c before with
  | nil => cases fed; exact start boundary
  | cons byte rest ih =>
    rw [feed_cons] at fed
    obtain ⟨⟨added, ended⟩, add, fed⟩ := bind_eq_ok.mp fed
    cases ended with
    | false => exact ih fed (by have := (addByte_bytes add).2.1; omega)
    | true =>
      obtain ⟨⟨after, final⟩, fed, same⟩ := bind_eq_ok.mp fed
      cases same
      exact ih fed (fun _ => rfl)

/-- The input that yields the first chunks ends at a boundary. -/
theorem feed_prefix {c last : Chunkifier P} {input : List UInt8}
    {front back : List (List UInt8)} (fed : feed c input = .ok (front ++ back, last))
    (nonempty : front ≠ []) :
    ∃ left right buf, input = left ++ right ∧ feed c left = .ok (front, chunkifyStart P buf) ∧
      feed (chunkifyStart P buf) right = .ok (back, last) := by
  induction input generalizing c front with
  | nil =>
    cases front with
    | nil => exact absurd rfl nonempty
    | cons chunk front => cases fed
  | cons byte rest ih =>
    rw [feed_cons] at fed
    obtain ⟨⟨added, ended⟩, add, fed⟩ := bind_eq_ok.mp fed
    cases ended with
    | false =>
      obtain ⟨left, right, buf, rfl, first, second⟩ := ih fed nonempty
      exact ⟨byte :: left, right, buf, rfl, by rw [feed_cons, add]; exact first, second⟩
    | true =>
      obtain ⟨⟨after, final⟩, fed, same⟩ := bind_eq_ok.mp fed
      cases front with
      | nil => exact absurd rfl nonempty
      | cons chunk front =>
        injection same with same
        injection same with chunkSame lastSame
        injection chunkSame with chunkSame afterSame
        subst chunkSame lastSame afterSame
        by_cases more : front = []
        · subst more
          exact ⟨[byte], rest, added.buf, rfl, by rw [feed_cons, add]; rfl, fed⟩
        · obtain ⟨left, right, buf, rfl, first, second⟩ := ih fed more
          refine ⟨byte :: left, right, buf, rfl, ?_, second⟩
          rw [feed_cons, add]
          simp [first]

/-- An initial part of the chunks was ended by the byte loop or is everything. -/
theorem front_cases {ended pending front back : List (List UInt8)} (one : pending.length ≤ 1)
    (same : ended ++ pending = front ++ back) :
    (∃ middle, ended = front ++ middle ∧ back = middle ++ pending) ∨
      (front = ended ++ pending ∧ back = []) := by
  rcases List.append_eq_append_iff.mp same with ⟨more, frontSame, pendingSame⟩ | ⟨middle, both⟩
  · cases more with
    | nil =>
      rw [List.append_nil] at frontSame
      exact .inl ⟨[], by rw [List.append_nil, frontSame], by rw [pendingSame]; rfl⟩
    | cons chunk more =>
      rw [pendingSame] at one
      simp only [List.length_append, List.length_cons] at one
      have nothing : more = [] ∧ back = [] :=
        ⟨List.eq_nil_of_length_eq_zero (by omega), List.eq_nil_of_length_eq_zero (by omega)⟩
      obtain ⟨rfl, rfl⟩ := nothing
      rw [List.append_nil] at pendingSame
      exact .inr ⟨by rw [frontSame, pendingSame], rfl⟩
  · exact .inl ⟨middle, both⟩

/-- The empty string has no chunks. -/
theorem chunks_nil (buf : Vector UInt8 P.blen) : chunks P buf [] = .ok [] := by
  simp [chunks, feed, lastChunk, chunkifyStart]

/-- The chunks of a string with a boundary are the chunks of its two sides. -/
theorem chunks_split {buf : Vector UInt8 P.blen} (other : Vector UInt8 P.blen)
    {input : List UInt8} {front back : List (List UInt8)}
    (chunked : chunks P buf input = .ok (front ++ back)) :
    chunks P other front.flatten = .ok front ∧ chunks P other back.flatten = .ok back := by
  have whole := (chunks_sound chunked).1
  rw [chunks_buf buf other] at chunked
  by_cases empty : front = []
  · subst empty
    rw [List.nil_append] at whole chunked
    exact ⟨chunks_nil other, by rw [whole]; exact chunked⟩
  obtain ⟨⟨ended, last⟩, fed, same⟩ := bind_eq_ok.mp chunked
  have one : (lastChunk last).length ≤ 1 := by unfold lastChunk; split <;> simp
  rcases front_cases one (Except.ok.inj same) with ⟨middle, rfl, rfl⟩ | ⟨_, rfl⟩
  · obtain ⟨left, right, stale, rfl, first, second⟩ := feed_prefix fed empty
    have leftBytes := feed_flatten first
    have rightBytes := feed_flatten second
    rw [chunkifyStart_bytes, chunkifyStart_bytes, List.append_nil, List.nil_append] at leftBytes
    rw [chunkifyStart_bytes, List.nil_append] at rightBytes
    rw [List.flatten_append, lastChunk_flatten, leftBytes, rightBytes]
    refine ⟨(chunks_of_boundary other first rfl right).1, ?_⟩
    rw [chunks_buf other stale, chunks, second]
    rfl
  · rw [List.append_nil] at whole chunked
    exact ⟨by rw [whole]; exact chunked, chunks_nil other⟩

/-- What a chunk boundary guarantees. -/
structure Resynchronizes (P : Params) : Prop where
  /-- The chunks of a string with a boundary after its first `n` bytes are the chunks of these
  bytes followed by the chunks of the rest from a freshly initialized chunkifier. -/
  split : ∀ (buf other : Vector UInt8 P.blen) (input : List UInt8) (n : Nat)
    (front back : List (List UInt8)), chunks P buf input = .ok (front ++ back) →
    front.flatten = input.take n →
    chunks P other (input.take n) = .ok front ∧ chunks P other (input.drop n) = .ok back
  /-- The same for a string whose chunking need not end: after the byte loop ends a chunk, it
  goes on as from the start. -/
  resume : ∀ (buf other : Vector UInt8 P.blen) (input : List UInt8) (n : Nat)
    (front : List (List UInt8)) (c : Chunkifier P),
    feed (chunkifyStart P buf) (input.take n) = .ok (front, c) → c.k = 0 →
    chunks P other (input.take n) = .ok front ∧
      chunks P buf input = (do
        let back ← chunks P other (input.drop n)
        return front ++ back)
  /-- Every chunk not ended by `chunkify_end` is longer than a quarter of the mean or full. -/
  long : ∀ (buf : Vector UInt8 P.blen) (input : List UInt8) (front : List (List UInt8))
    (c : Chunkifier P), feed (chunkifyStart P buf) input = .ok (front, c) →
    ∀ chunk ∈ front, P.mu < 4 * chunk.length ∨ chunk.length = P.blen
  /-- Streams that share a suffix from a boundary of both on share its chunks. -/
  shared : ∀ (buf other : Vector UInt8 P.blen) (input input' : List UInt8)
    (front front' back back' : List (List UInt8)), chunks P buf input = .ok (front ++ back) →
    chunks P other input' = .ok (front' ++ back') → back.flatten = back'.flatten → back = back'

/-- Every chunkifier resynchronizes at its chunk boundaries. -/
theorem resynchronizes (P : Params) : Resynchronizes P where
  split buf other input n front back chunked cut := by
    have whole := (chunks_sound chunked).1
    have rest : back.flatten = input.drop n := by
      rw [List.flatten_append, cut] at whole
      exact List.append_cancel_left (whole.trans (List.take_append_drop n input).symm)
    rw [← cut, ← rest]
    exact chunks_split other chunked
  resume buf other input n front c fed boundary := by
    have started := feed_started fed (fun _ => rfl) boundary
    have resumed := chunks_of_boundary other fed started (input.drop n)
    rwa [List.take_append_drop] at resumed
  long _ _ _ _ fed := feed_long (chunkifyStart_squareRoot _) fed
  shared buf other input input' front front' back back' chunked chunked' same := by
    have first := (chunks_split buf chunked).2
    have second := (chunks_split buf chunked').2
    rw [same, second] at first
    exact (Except.ok.inj first).symm

end Tarsnap.Chunkify
