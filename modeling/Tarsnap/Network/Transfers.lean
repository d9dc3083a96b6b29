import Tarsnap.Network.Buf
import Mathlib.Data.List.Basic

/-!
# What a buffered read or write transfers

An operation is followed from its first registration on, through every event that is delivered for
it. As long as it is registered, the caller has heard nothing. Its callback is invoked once, and
nothing is registered then. The bytes that were transferred are the ones of the buffer up to the
position, each piece starts where the former one ends and is within the quota of its time, and the
quota is charged for it.
-/

namespace Tarsnap.Network

/-- An event for an operation, with what the calls that the callback makes answer, and whether it
could be registered again. -/
structure BufEvent where
  /-- The status with which the callback is invoked. -/
  status : NetworkStatus
  /-- What the calls answer. -/
  io : Io
  /-- Registering the callback again succeeds. -/
  registered : Bool

/-- A piece of a buffer that was transferred. -/
structure Piece where
  /-- The bandwidth quota at that time. -/
  bwlimit : Nat
  /-- Where the piece starts. -/
  position : Nat
  /-- The bytes. -/
  data : List UInt8
deriving DecidableEq

/-- An operation, with what has happened to it. -/
structure Operation (κ : Type) where
  /-- The cookie for which a callback is registered. -/
  waiting : Option (NetworkBuf κ)
  /-- The latest cookie. -/
  cookie : NetworkBuf κ
  /-- What was transferred. -/
  pieces : List Piece
  /-- The bandwidth quota that was consumed. -/
  eaten : Nat
  /-- The statuses with which the callback of the caller was invoked. -/
  calls : List NetworkStatus

section Runs

variable {κ : Type}

/-- An operation that has been registered for the first time. -/
def Operation.start (C : NetworkBuf κ) : Operation κ :=
  ⟨some C, C, [], 0, []⟩

/-- The bytes that were transferred. -/
def Operation.moved (op : Operation κ) : List UInt8 :=
  op.pieces.flatMap (·.data)

/-- The operation after its callback has transferred a piece, from a position and with a quota. -/
def Operation.after (op : Operation κ) (bwlimit position : Nat) (turn : Turn κ) : Operation κ where
  waiting := match turn.next with
    | .tryagain _ => some turn.cookie
    | .docallback _ => none
  cookie := turn.cookie
  pieces := op.pieces ++ [⟨bwlimit, position, turn.moved⟩]
  eaten := op.eaten + turn.eaten
  calls := match turn.next with
    | .tryagain _ => op.calls
    | .docallback status => op.calls ++ [status]

/-- The callback of a registered operation is invoked. -/
def Operation.invoke (op : Operation κ) (msgNosignal : Bool) (C : NetworkBuf κ) (event : BufEvent) :
    Operation κ :=
  op.after (event.io.bwlimit.getD 0) C.bufpos
    (callbackBuf msgNosignal C event.status event.io event.registered)

/-- Events that can occur: a registered callback is invoked with one of three statuses, and a system
call transfers at most what it was asked for, and sends what it was given. -/
structure BufEvent.Possible (event : BufEvent) (C : NetworkBuf κ) : Prop where
  /-- The statuses of registered callbacks. -/
  status : event.status = .ok ∨ event.status = .timeout ∨ event.status = .cancel
  /-- Not more is transferred than asked for. -/
  length : event.io.transfer.data.length ≤ C.oplen (event.io.bwlimit.getD 0)
  /-- What is sent is what was to be sent. -/
  sent : C.sendrecv = .send →
    event.io.transfer.data = (C.buf.drop C.bufpos).take event.io.transfer.data.length

/-- The runs of an operation. -/
inductive BufRun (msgNosignal : Bool) (C : NetworkBuf κ) : List BufEvent → Operation κ → Prop where
  /-- It has been registered. -/
  | start : BufRun msgNosignal C [] (Operation.start C)
  /-- An event is delivered for it. -/
  | event {events : List BufEvent} {op : Operation κ} {C' : NetworkBuf κ} {event : BufEvent} :
      BufRun msgNosignal C events op → op.waiting = some C' → event.Possible C' →
      BufRun msgNosignal C (events ++ [event]) (op.invoke msgNosignal C' event)

/-- The handling of `SIGPIPE` could not be restored after a transfer. -/
def BufEvent.Unrestored (msgNosignal : Bool) (event : BufEvent) : Prop :=
  msgNosignal = false ∧ event.io.restored = false

/-- Charging a transfer failed. -/
def BufEvent.Uncharged (msgNosignal : Bool) (event : BufEvent) : Prop :=
  event.io.eaten = false ∨ event.Unrestored msgNosignal

/-- Something is tried: the quota is not exhausted. -/
def BufEvent.Tried (event : BufEvent) : Prop :=
  event.status = .ok ∧ event.io.bwlimit ≠ some 0

/-- A call fails: that for the quota, for the signal, for the transfer or for its charge. -/
def BufEvent.Fails (msgNosignal : Bool) (event : BufEvent) : Prop :=
  event.Tried ∧ (event.io.bwlimit = none ∨
    msgNosignal = false ∧ (event.io.ignored = false ∨ event.io.restored = false) ∨
    event.io.transfer = .fails false ∨ event.io.transfer.data ≠ [] ∧ event.io.eaten = false)

/-- The remote host has shut down the socket. -/
def BufEvent.Closes (msgNosignal : Bool) (event : BufEvent) : Prop :=
  event.Tried ∧ event.io.bwlimit ≠ none ∧
    (msgNosignal = false → event.io.ignored = true ∧ event.io.restored = true) ∧
    event.io.transfer = .moves []

/-- Events after which an operation is over, whatever was transferred before. -/
structure Ending (msgNosignal : Bool) (events : List BufEvent) (op : Operation κ) : Prop where
  /-- A timeout or a cancellation, which the caller is told. -/
  interrupted : ∀ event ∈ events, event.status ≠ .ok → op.waiting = none ∧
    op.calls = [if op.moved = [] ∧ event.status = .timeout then .nodata else event.status]
  /-- An error. -/
  failed : ∀ event ∈ events, event.Fails msgNosignal → op.waiting = none ∧ op.calls = [.err]
  /-- The end of the connection. -/
  closed : ∀ event ∈ events, event.Closes msgNosignal → op.waiting = none ∧ op.calls = [.closed]
  /-- An operation that cannot be registered again. -/
  unregistered : ∀ event ∈ events, event.registered = false ∨ event.io.now = none →
    op.waiting = none

/-- What holds of an operation after any events. -/
structure Contract (msgNosignal : Bool) (C : NetworkBuf κ) (events : List BufEvent)
    (op : Operation κ) : Prop extends Ending msgNosignal events op where
  /-- It is registered, or the callback of the caller was invoked once and it is not. -/
  once : op.waiting.isSome ∧ op.calls = [] ∨ op.waiting = none ∧ ∃ status, op.calls = [status]
  /-- Success means that the whole buffer was transferred. -/
  success : .ok ∈ op.calls → op.moved.length = C.buf.length
  /-- Once the whole buffer was transferred, this is success, unless charging it failed. -/
  complete : op.moved.length = C.buf.length → op.calls = [.ok] ∨
    op.calls = [.err] ∧ ∃ event, events.getLast? = some event ∧ event.Uncharged msgNosignal
  /-- There was no data if and only if the operation timed out before any transfer. -/
  nodata : .nodata ∈ op.calls ↔
    op.moved = [] ∧ ∃ event, events.getLast? = some event ∧ event.status = .timeout
  /-- Every transfer is within the quota. -/
  quota : ∀ piece ∈ op.pieces, piece.data.length ≤ piece.bwlimit
  /-- There is no gap and no repeat. -/
  order : ∀ before piece after, op.pieces = before ++ piece :: after →
    piece.position = (before.flatMap (·.data)).length
  /-- What was sent is the buffer up to a position. -/
  sent : C.sendrecv = .send →
    op.moved = C.buf.take op.moved.length ∧ op.cookie.buf = C.buf
  /-- What was received is the buffer up to a position; the rest is as it was. -/
  received : C.sendrecv = .recv → op.cookie.buf = op.moved ++ C.buf.drop op.moved.length
  /-- The quota consumed is what was transferred, unless an uncharged transfer was the last. -/
  charged : op.eaten = op.moved.length ∨
    ∃ event, events.getLast? = some event ∧ event.Unrestored msgNosignal

end Runs

section Turns

variable {κ : Type} {msgNosignal : Bool} {C : NetworkBuf κ} {event : BufEvent}

/-- What one invocation of the callback does. -/
structure TurnSpec (msgNosignal : Bool) (C : NetworkBuf κ) (event : BufEvent) (turn : Turn κ) :
    Prop where
  /-- What was transferred is within the quota and the buffer, and is what was to be sent. -/
  moved : turn.moved = [] ∨ turn.moved = event.io.transfer.data ∧ event.status = .ok
  /-- Only the buffer and the position change. -/
  cookie : ∃ bufpos, turn.cookie = { C.store turn.moved with bufpos }
  /-- To go on, the position has moved, the quota was charged, and something is left. -/
  again : ∀ timeo, turn.next = .tryagain timeo → event.status = .ok ∧
    turn.eaten = turn.moved.length ∧ turn.cookie.bufpos = C.bufpos + turn.moved.length ∧
    C.bufpos + turn.moved.length ≠ C.buf.length
  /-- Success means that nothing is left. -/
  success : turn.next = .docallback .ok → C.bufpos + turn.moved.length = C.buf.length
  /-- If nothing is left, this is success, unless charging failed. -/
  complete : C.bufpos + turn.moved.length = C.buf.length → turn.next = .docallback .ok ∨
    turn.next = .docallback .err ∧ event.Uncharged msgNosignal
  /-- There was no data if this is a timeout before any transfer. -/
  nodata : turn.next = .docallback .nodata ↔ event.status = .timeout ∧ C.bufpos = 0
  /-- The quota was charged. -/
  charged : turn.eaten = turn.moved.length ∨ event.Unrestored msgNosignal

/-- Storing nothing. -/
theorem NetworkBuf.store_nil (C : NetworkBuf κ) : C.store [] = C := by
  unfold NetworkBuf.store
  split
  · simp
  · rfl

/-- Storing keeps the length of the buffer, if the bytes fit. -/
theorem NetworkBuf.store_length {data : List UInt8}
    (fits : C.bufpos + data.length ≤ C.buf.length) : (C.store data).buf.length = C.buf.length := by
  unfold NetworkBuf.store
  cases C.sendrecv with
  | send => rfl
  | recv =>
    simp only [List.length_append, List.length_take, List.length_drop]
    omega

/-- A callback that transfers nothing. -/
theorem TurnSpec.idle (left : C.bufpos < C.buf.length) {next : Next}
    (other : next ≠ .docallback .ok)
    (again : ∀ timeo, next = .tryagain timeo → event.status = .ok)
    (nodata : next = .docallback .nodata ↔ event.status = .timeout ∧ C.bufpos = 0) :
    TurnSpec msgNosignal C event ⟨C, [], 0, next⟩ where
  moved := Or.inl rfl
  cookie := ⟨C.bufpos, by rw [NetworkBuf.store_nil]⟩
  again timeo going := ⟨again timeo going, rfl, rfl, by simp only [List.length_nil]; omega⟩
  success done := absurd done other
  complete done := by simp only [List.length_nil] at done; omega
  nodata := nodata
  charged := Or.inl rfl

/-- A callback that resets itself, or fails to, after it has transferred a part of what is left. -/
theorem TurnSpec.part (ready : event.status = .ok)
    (part : C.bufpos + event.io.transfer.data.length ≠ C.buf.length) {next : Next}
    (goes : next = .docallback .err ∨ ∃ timeo, next = .tryagain timeo) :
    TurnSpec msgNosignal C event ⟨{ C.store event.io.transfer.data with
      bufpos := C.bufpos + event.io.transfer.data.length }, event.io.transfer.data,
      event.io.transfer.data.length, next⟩ where
  moved := Or.inr ⟨rfl, ready⟩
  cookie := ⟨_, rfl⟩
  again _ _ := ⟨ready, rfl, rfl, part⟩
  success done := by
    change next = .docallback .ok at done
    cases goes with
    | inl failed => rw [failed] at done; exact absurd done (by simp)
    | inr again =>
      obtain ⟨timeo, same⟩ := again
      rw [same] at done
      exact absurd done (by simp)
  complete done := absurd done part
  nodata := by
    rw [ready]
    cases goes with
    | inl failed => simp [failed]
    | inr again =>
      obtain ⟨timeo, same⟩ := again
      simp [same]
  charged := Or.inl rfl

/-- A callback whose transfer could not be charged. -/
theorem TurnSpec.uncharged (ready : event.status = .ok) {eaten : Nat}
    (uncharged : event.Uncharged msgNosignal)
    (charged : eaten = event.io.transfer.data.length ∨ event.Unrestored msgNosignal) :
    TurnSpec msgNosignal C event
      ⟨C.store event.io.transfer.data, event.io.transfer.data, eaten, .docallback .err⟩ where
  moved := Or.inr ⟨rfl, ready⟩
  cookie := ⟨(C.store event.io.transfer.data).bufpos, rfl⟩
  again _ again := absurd again (by simp)
  success done := absurd done (by simp)
  complete _ := Or.inr ⟨rfl, uncharged⟩
  nodata := by simp [ready]
  charged := charged

/-- Resetting the callback succeeds, or the clock fails. -/
theorem tryagain_next (C : NetworkBuf κ) (moved : List UInt8) (eaten : Nat) (io : Io) :
    ∃ next, tryagain C moved eaten io = ⟨C, moved, eaten, next⟩ ∧
      (next = .docallback .err ∨ ∃ timeo, next = .tryagain timeo) := by
  unfold tryagain
  cases tvmathSubctime C.timeout io.now with
  | none => exact ⟨_, rfl, Or.inl rfl⟩
  | some timeo => exact ⟨_, rfl, Or.inr ⟨_, rfl⟩⟩

/-- A callback that finds nothing to transfer resets itself, or fails to. -/
theorem TurnSpec.wait (left : C.bufpos < C.buf.length) (ready : event.status = .ok) :
    TurnSpec msgNosignal C event (tryagain C [] 0 event.io) := by
  obtain ⟨next, waits, goes⟩ := tryagain_next C [] 0 event.io
  rw [waits]
  apply TurnSpec.idle left
  · cases goes with
    | inl failed => rw [failed]; simp
    | inr again =>
      obtain ⟨timeo, same⟩ := again
      rw [same]
      simp
  · exact fun _ _ => ready
  · rw [ready]
    cases goes with
    | inl failed => simp [failed]
    | inr again =>
      obtain ⟨timeo, same⟩ := again
      simp [same]

/-- A callback that fails without a transfer. -/
theorem TurnSpec.failed (left : C.bufpos < C.buf.length) (ready : event.status = .ok)
    {status : NetworkStatus} (failure : status = .err ∨ status = .closed) :
    TurnSpec msgNosignal C event ⟨C, [], 0, .docallback status⟩ := by
  apply TurnSpec.idle left
  · cases failure with
    | inl err => rw [err]; simp
    | inr closed => rw [closed]; simp
  · exact fun _ _ => ready
  · rw [ready]
    cases failure with
    | inl err => simp [err]
    | inr closed => simp [closed]

/-- What becomes of a transfer. -/
theorem transferred_spec (left : C.bufpos < C.buf.length) (possible : event.Possible C)
    (ready : event.status = .ok) :
    TurnSpec msgNosignal C event (transferred C event.io) := by
  have fits : C.bufpos + event.io.transfer.data.length ≤ C.buf.length := by
    have length := possible.length
    unfold NetworkBuf.oplen at length
    omega
  have stored := NetworkBuf.store_length fits
  unfold transferred
  cases transfer : event.io.transfer with
  | fails again =>
    cases again with
    | true => exact TurnSpec.wait left ready
    | false => exact TurnSpec.failed left ready (Or.inl rfl)
  | moves data =>
    cases data with
    | nil => exact TurnSpec.failed left ready (Or.inr rfl)
    | cons byte rest =>
      have moved : event.io.transfer.data = byte :: rest := by rw [transfer]; rfl
      rw [moved] at stored
      simp only
      rw [stored, ← moved]
      by_cases eaten : event.io.eaten = false
      · rw [if_pos eaten]
        exact TurnSpec.uncharged ready (Or.inl eaten) (Or.inl rfl)
      · rw [if_neg eaten]
        by_cases full : C.bufpos + event.io.transfer.data.length = C.buf.length
        · rw [if_pos full]
          exact ⟨Or.inr ⟨rfl, ready⟩, ⟨_, rfl⟩, fun _ again => absurd again (by simp),
            fun _ => full, fun _ => Or.inl rfl, by simp [ready], Or.inl rfl⟩
        · rw [if_neg full]
          obtain ⟨next, waits, goes⟩ := tryagain_next
            { C.store event.io.transfer.data with
              bufpos := C.bufpos + event.io.transfer.data.length }
            event.io.transfer.data event.io.transfer.data.length event.io
          rw [waits]
          exact TurnSpec.part ready full goes

/-- What the callback does up to where it registers itself again. -/
theorem callbackBufTurn_spec (left : C.bufpos < C.buf.length) (possible : event.Possible C) :
    TurnSpec msgNosignal C event (callbackBufTurn msgNosignal C event.status event.io) := by
  unfold callbackBufTurn
  by_cases ready : event.status = .ok
  · rw [if_neg (by simpa using ready)]
    cases event.io.bwlimit with
    | none => exact TurnSpec.failed left ready (Or.inl rfl)
    | some bwlimit =>
      simp only
      by_cases none : bwlimit = 0
      · rw [if_pos none]
        exact TurnSpec.wait left ready
      · rw [if_neg none]
        by_cases ignored : msgNosignal = false ∧ event.io.ignored = false
        · rw [if_pos ignored]
          exact TurnSpec.failed left ready (Or.inl rfl)
        · rw [if_neg ignored]
          by_cases restored : msgNosignal = false ∧ event.io.restored = false
          · rw [if_pos restored]
            exact TurnSpec.uncharged ready (Or.inr restored) (Or.inr restored)
          · rw [if_neg restored]
            exact transferred_spec left possible ready
  · rw [if_pos ready]
    apply TurnSpec.idle left
    · split
      · simp
      · simpa using ready
    · exact fun _ going => absurd going (by simp)
    · by_cases early : C.bufpos = 0 ∧ event.status = .timeout
      · rw [if_pos early]
        simp [early]
      · rw [if_neg early]
        constructor
        · intro same
          have nodata : event.status = .nodata := by simpa using same
          have known := possible.status
          rw [nodata] at known
          exact absurd known (by simp)
        · intro both
          exact absurd ⟨both.2, both.1⟩ early

/-- What the callback does. -/
theorem callbackBuf_spec (left : C.bufpos < C.buf.length) (possible : event.Possible C) :
    TurnSpec msgNosignal C event
      (callbackBuf msgNosignal C event.status event.io event.registered) := by
  have spec : TurnSpec msgNosignal C event (callbackBufTurn msgNosignal C event.status event.io) :=
    callbackBufTurn_spec left possible
  unfold callbackBuf
  cases next : (callbackBufTurn msgNosignal C event.status event.io).next with
  | docallback status => simpa only [next] using spec
  | tryagain timeo =>
    simp only [next]
    by_cases registered : event.registered = true
    · rw [if_pos registered]
      exact spec
    · rw [if_neg registered]
      have going := spec.again timeo next
      have quiet := spec.nodata
      rw [next] at quiet
      exact ⟨spec.moved, spec.cookie, fun _ again => absurd again (by simp),
        fun done => absurd done (by simp), fun done => absurd done going.2.2.2,
        by simpa using quiet, spec.charged⟩

/-- A timeout or a cancellation transfers nothing. -/
theorem callbackBuf_interrupted (stopped : event.status ≠ .ok) :
    callbackBuf msgNosignal C event.status event.io event.registered = ⟨C, [], 0, .docallback
      (if C.bufpos = 0 ∧ event.status = .timeout then .nodata else event.status)⟩ := by
  unfold callbackBuf callbackBufTurn
  rw [if_pos stopped]

/-- A status for the caller is what the callback comes to. -/
theorem callbackBuf_of_turn {status : NetworkStatus}
    (ends : (callbackBufTurn msgNosignal C event.status event.io).next = .docallback status) :
    (callbackBuf msgNosignal C event.status event.io event.registered).next =
      .docallback status := by
  unfold callbackBuf
  simp only [ends]

/-- What the callback does if the quota is known and not exhausted. -/
theorem callbackBufTurn_tried (tried : event.Tried) {bwlimit : Nat}
    (known : event.io.bwlimit = some bwlimit) :
    callbackBufTurn msgNosignal C event.status event.io =
      if msgNosignal = false ∧ event.io.ignored = false then ⟨C, [], 0, .docallback .err⟩
      else if msgNosignal = false ∧ event.io.restored = false then
        ⟨C.store event.io.transfer.data, event.io.transfer.data, 0, .docallback .err⟩
      else transferred C event.io := by
  have positive : bwlimit ≠ 0 := fun zero => tried.2 (known.trans (congrArg some zero))
  unfold callbackBufTurn
  rw [if_neg (not_not_intro tried.1), known]
  simp only [if_neg positive]

/-- An error is reported. -/
theorem callbackBuf_failed (fails : event.Fails msgNosignal) :
    (callbackBuf msgNosignal C event.status event.io event.registered).next =
      .docallback .err := by
  apply callbackBuf_of_turn
  obtain ⟨tried, failure⟩ := fails
  cases known : event.io.bwlimit with
  | none =>
    unfold callbackBufTurn
    rw [if_neg (not_not_intro tried.1), known]
  | some bwlimit =>
    rw [callbackBufTurn_tried tried known]
    split
    · rfl
    split
    · rfl
    rename_i ignored restored
    rcases failure with unknown | ⟨plain, signal⟩ | refused | ⟨some_, uncharged⟩
    · rw [known] at unknown
      cases unknown
    · rcases signal with first | second
      · exact absurd ⟨plain, first⟩ ignored
      · exact absurd ⟨plain, second⟩ restored
    · unfold transferred
      rw [refused]
      rfl
    · unfold transferred
      cases moves : event.io.transfer with
      | fails again =>
        rw [moves] at some_
        exact absurd rfl some_
      | moves data =>
        cases data with
        | nil =>
          rw [moves] at some_
          exact absurd rfl some_
        | cons byte rest =>
          simp only
          rw [if_pos uncharged]

/-- The end of the connection is reported. -/
theorem callbackBuf_closed (closes : event.Closes msgNosignal) :
    (callbackBuf msgNosignal C event.status event.io event.registered).next =
      .docallback .closed := by
  apply callbackBuf_of_turn
  obtain ⟨tried, limited, signal, shut⟩ := closes
  obtain ⟨bwlimit, known⟩ := Option.ne_none_iff_exists'.mp limited
  rw [callbackBufTurn_tried tried known, if_neg, if_neg]
  · unfold transferred
    rw [shut]
  · rintro ⟨plain, restored⟩
    rw [(signal plain).2] at restored
    cases restored
  · rintro ⟨plain, ignored⟩
    rw [(signal plain).1] at ignored
    cases ignored

/-- Without a clock nothing is registered again. -/
theorem tryagain_clock {io : Io} (failed : io.now = none) (moved : List UInt8) (eaten : Nat) :
    (tryagain C moved eaten io).next = .docallback .err := by
  unfold tryagain tvmathSubctime
  rw [failed]
  rfl

/-- Without a clock the operation ends. -/
theorem callbackBufTurn_clock (failed : event.io.now = none) : ∃ status,
    (callbackBufTurn msgNosignal C event.status event.io).next = .docallback status := by
  by_cases ready : event.status = .ok
  · by_cases exhausted : event.io.bwlimit = some 0
    · unfold callbackBufTurn
      rw [if_neg (not_not_intro ready), exhausted]
      exact ⟨.err, tryagain_clock failed _ _⟩
    cases known : event.io.bwlimit with
    | none =>
      unfold callbackBufTurn
      rw [if_neg (not_not_intro ready), known]
      exact ⟨.err, rfl⟩
    | some bwlimit =>
      rw [callbackBufTurn_tried ⟨ready, exhausted⟩ known]
      split
      · exact ⟨.err, rfl⟩
      split
      · exact ⟨.err, rfl⟩
      unfold transferred
      split
      · split
        · exact ⟨.err, tryagain_clock failed _ _⟩
        · exact ⟨.err, rfl⟩
      · exact ⟨.closed, rfl⟩
      · split
        · exact ⟨.err, rfl⟩
        simp only
        split
        · exact ⟨.ok, rfl⟩
        · exact ⟨.err, tryagain_clock failed _ _⟩
  · unfold callbackBufTurn
    rw [if_pos ready]
    exact ⟨_, rfl⟩

/-- A callback that is registered again could be, and the clock was read. -/
theorem callbackBuf_again {timeo : Timeval}
    (again : (callbackBuf msgNosignal C event.status event.io event.registered).next =
      .tryagain timeo) : event.registered = true ∧ event.io.now ≠ none := by
  constructor
  · by_contra refused
    unfold callbackBuf at again
    simp only [if_neg refused] at again
    split at again
    · cases again
    · rename_i status ends
      rw [ends] at again
      cases again
  · intro failed
    obtain ⟨status, ends⟩ := @callbackBufTurn_clock κ msgNosignal C event failed
    rw [callbackBuf_of_turn ends] at again
    cases again

end Turns

section Whole

variable {κ : Type} {msgNosignal : Bool} {C : NetworkBuf κ}

/-- What holds while an operation is registered. -/
structure Going (C : NetworkBuf κ) (op : Operation κ) (C' : NetworkBuf κ) : Prop where
  /-- The callback of the caller has not been invoked. -/
  calls : op.calls = []
  /-- The position is what was transferred. -/
  bufpos : C'.bufpos = op.moved.length
  /-- Something is left. -/
  left : C'.bufpos < C.buf.length
  /-- The quota was charged. -/
  eaten : op.eaten = op.moved.length
  /-- The direction is the same. -/
  sendrecv : C'.sendrecv = C.sendrecv
  /-- What was sent. -/
  sent : C.sendrecv = .send → op.moved = C.buf.take op.moved.length ∧ C'.buf = C.buf
  /-- What was received. -/
  received : C.sendrecv = .recv → C'.buf = op.moved ++ C.buf.drop op.moved.length

/-- The buffer keeps its length. -/
theorem Going.length {op : Operation κ} {C' : NetworkBuf κ} (going : Going C op C') :
    C'.buf.length = C.buf.length := by
  cases way : C.sendrecv with
  | send => rw [(going.sent way).2]
  | recv =>
    have left := going.left
    rw [going.bufpos] at left
    rw [going.received way, List.length_append, List.length_drop]
    omega

/-- What was sent after one more piece. -/
theorem Going.sends {op : Operation κ} {C' : NetworkBuf κ} (going : Going C op C')
    (way : C.sendrecv = .send) {data : List UInt8}
    (given : data = (C'.buf.drop C'.bufpos).take data.length) :
    op.moved ++ data = C.buf.take (op.moved ++ data).length := by
  obtain ⟨former, same⟩ := going.sent way
  rw [same, going.bufpos] at given
  rw [List.length_append, List.take_add, ← former, ← given]

/-- What was received after one more piece. -/
theorem Going.receives {op : Operation κ} {C' : NetworkBuf κ} (going : Going C op C')
    (way : C.sendrecv = .recv) (data : List UInt8) :
    (C'.store data).buf = op.moved ++ data ++ C.buf.drop (op.moved ++ data).length := by
  have kind : C'.sendrecv = .recv := going.sendrecv.trans way
  unfold NetworkBuf.store
  rw [kind]
  simp only
  rw [going.received way, going.bufpos, List.take_left, List.drop_append, List.drop_drop,
    List.length_append, List.drop_eq_nil_of_le (by omega), List.nil_append]
  congr 2
  omega

/-- Pieces without gap or repeat, with one more piece. -/
theorem order_concat {pieces : List Piece} (last : Piece)
    (order : ∀ before piece after, pieces = before ++ piece :: after →
      piece.position = (before.flatMap (·.data)).length)
    (next : last.position = (pieces.flatMap (·.data)).length) :
    ∀ before piece after, pieces ++ [last] = before ++ piece :: after →
      piece.position = (before.flatMap (·.data)).length := by
  intro before piece after split
  cases List.eq_nil_or_concat' after with
  | inl none =>
    rw [none] at split
    have parts := List.append_inj' split rfl
    rw [← List.head_eq_of_cons_eq parts.2, ← parts.1]
    exact next
  | inr some =>
    obtain ⟨rest, final, more⟩ := some
    rw [more, ← List.cons_append, ← List.append_assoc] at split
    exact order before piece rest (List.append_inj' split rfl).1

/-- After any event, an operation is over or every event let it go on. -/
theorem Ending.after {events : List BufEvent} {op : Operation κ} {C' : NetworkBuf κ}
    {event : BufEvent} (ending : Ending msgNosignal events op) (waiting : op.waiting = some C')
    (going : Going C op C') :
    Ending msgNosignal (events ++ [event]) (op.invoke msgNosignal C' event) := by
  have told : ∀ status,
      (callbackBuf msgNosignal C' event.status event.io event.registered).next =
          .docallback status →
        (op.invoke msgNosignal C' event).waiting = none ∧
          (op.invoke msgNosignal C' event).calls = [status] := by
    intro status ends
    unfold Operation.invoke Operation.after
    rw [ends]
    exact ⟨rfl, by rw [going.calls]; rfl⟩
  have earlier : op.waiting ≠ none := by rw [waiting]; exact Option.some_ne_none C'
  constructor
  · intro other member stopped
    cases List.mem_append.mp member with
    | inl former => exact absurd (ending.interrupted other former stopped).1 earlier
    | inr last =>
      rw [List.mem_singleton.mp last] at stopped ⊢
      have turn := @callbackBuf_interrupted κ msgNosignal C' event stopped
      have moved : (op.invoke msgNosignal C' event).moved = op.moved := by
        unfold Operation.invoke
        rw [turn]
        simp [Operation.moved, Operation.after]
      have position : C'.bufpos = 0 ↔ op.moved = [] := by
        rw [going.bufpos, List.length_eq_zero_iff]
      have ends := told _ (congrArg Turn.next turn)
      rw [moved]
      simpa only [position] using ends
  · intro other member fails
    cases List.mem_append.mp member with
    | inl former => exact absurd (ending.failed other former fails).1 earlier
    | inr last =>
      rw [List.mem_singleton.mp last] at fails
      exact told _ (callbackBuf_failed fails)
  · intro other member closes
    cases List.mem_append.mp member with
    | inl former => exact absurd (ending.closed other former closes).1 earlier
    | inr last =>
      rw [List.mem_singleton.mp last] at closes
      exact told _ (callbackBuf_closed closes)
  · intro other member unregistered
    cases List.mem_append.mp member with
    | inl former => exact absurd (ending.unregistered other former unregistered) earlier
    | inr last =>
      rw [List.mem_singleton.mp last] at unregistered
      cases next : (callbackBuf msgNosignal C' event.status event.io event.registered).next with
      | docallback status => exact (told status next).1
      | tryagain timeo =>
        obtain ⟨registered, clock⟩ := callbackBuf_again next
        rcases unregistered with refused | failed
        · rw [registered] at refused
          cases refused
        · exact absurd failed clock

section After

variable {events : List BufEvent} {op : Operation κ} {C' : NetworkBuf κ} {event : BufEvent}
  {turn : Turn κ}

/-- What was transferred, with what one more callback transfers. -/
theorem Operation.after_moved (op : Operation κ) (bwlimit position : Nat) (turn : Turn κ) :
    (op.after bwlimit position turn).moved = op.moved ++ turn.moved := by
  simp [Operation.moved, Operation.after]

/-- An operation that is to go on waits, with no call of the caller. -/
theorem Operation.after_again {timeo : Timeval} (op : Operation κ) (bwlimit position : Nat)
    (next : turn.next = .tryagain timeo) :
    (op.after bwlimit position turn).waiting = some turn.cookie ∧
      (op.after bwlimit position turn).calls = op.calls := by
  simp only [Operation.after, next, and_self]

/-- An operation that is over has called the caller. -/
theorem Operation.after_told {status : NetworkStatus} (op : Operation κ) (bwlimit position : Nat)
    (next : turn.next = .docallback status) :
    (op.after bwlimit position turn).waiting = none ∧
      (op.after bwlimit position turn).calls = op.calls ++ [status] := by
  simp only [Operation.after, next, and_self]

/-- What a callback transfers is within what it asks for. -/
theorem TurnSpec.asked (spec : TurnSpec msgNosignal C' event turn) (possible : event.Possible C') :
    turn.moved.length ≤ C'.oplen (event.io.bwlimit.getD 0) := by
  cases spec.moved with
  | inl none => rw [none]; exact Nat.zero_le _
  | inr some => rw [some.1]; exact possible.length

/-- What a callback transfers fits in what is left of the buffer. -/
theorem Going.fits (going : Going C op C') (possible : event.Possible C')
    (spec : TurnSpec msgNosignal C' event turn) :
    (op.moved ++ turn.moved).length ≤ C.buf.length := by
  have asked := spec.asked possible
  have left := going.left
  have position := going.bufpos
  unfold NetworkBuf.oplen at asked
  rw [going.length] at asked
  rw [List.length_append]
  omega

/-- What was sent after one more callback. -/
theorem Going.sentAfter (going : Going C op C') (possible : event.Possible C')
    (spec : TurnSpec msgNosignal C' event turn) (way : C.sendrecv = .send) :
    op.moved ++ turn.moved = C.buf.take (op.moved ++ turn.moved).length ∧
      turn.cookie.buf = C.buf := by
  constructor
  · apply going.sends way
    cases spec.moved with
    | inl none => rw [none]; simp
    | inr some => rw [some.1]; exact possible.sent (going.sendrecv.trans way)
  · obtain ⟨bufpos, cookie⟩ := spec.cookie
    rw [cookie]
    unfold NetworkBuf.store
    rw [going.sendrecv, way]
    exact (going.sent way).2

/-- What was received after one more callback. -/
theorem Going.receivedAfter (going : Going C op C') (spec : TurnSpec msgNosignal C' event turn)
    (way : C.sendrecv = .recv) :
    turn.cookie.buf = op.moved ++ turn.moved ++ C.buf.drop (op.moved ++ turn.moved).length := by
  obtain ⟨bufpos, cookie⟩ := spec.cookie
  rw [cookie]
  exact going.receives way turn.moved

/-- An operation that is registered again goes on. -/
theorem Going.after (going : Going C op C') (possible : event.Possible C')
    (spec : TurnSpec msgNosignal C' event turn) {timeo : Timeval}
    (next : turn.next = .tryagain timeo) (bwlimit position : Nat) :
    Going C (op.after bwlimit position turn) turn.cookie := by
  obtain ⟨_, eaten, bufpos, part⟩ := spec.again timeo next
  have fits := going.fits possible spec
  have moved := op.after_moved bwlimit position turn
  have total : turn.cookie.bufpos = (op.moved ++ turn.moved).length := by
    rw [bufpos, List.length_append, going.bufpos]
  have unfinished : turn.cookie.bufpos < C.buf.length := by
    rw [← bufpos, going.length] at part
    omega
  refine ⟨?_, ?_, unfinished, ?_, ?_, ?_, ?_⟩
  · rw [(op.after_again bwlimit position next).2, going.calls]
  · rw [moved, total]
  · change op.eaten + turn.eaten = _
    rw [moved, eaten, going.eaten, List.length_append]
  · obtain ⟨later, cookie⟩ := spec.cookie
    rw [cookie, ← going.sendrecv]
    unfold NetworkBuf.store
    split <;> rfl
  · rw [moved]
    exact going.sentAfter possible spec
  · rw [moved]
    exact going.receivedAfter spec

/-- Every transfer is within the quota, with one more callback. -/
theorem Contract.quotaAfter (contract : Contract msgNosignal C events op)
    (spec : TurnSpec msgNosignal C' event turn) (possible : event.Possible C') :
    ∀ piece ∈ (op.after (event.io.bwlimit.getD 0) C'.bufpos turn).pieces,
      piece.data.length ≤ piece.bwlimit := by
  intro piece member
  cases List.mem_append.mp member with
  | inl former => exact contract.quota piece former
  | inr new =>
    rw [List.mem_singleton.mp new]
    exact Nat.le_trans (spec.asked possible) (Nat.min_le_right _ _)

/-- The quota consumed, with one more callback. -/
theorem Going.chargedAfter (going : Going C op C') (spec : TurnSpec msgNosignal C' event turn)
    (events : List BufEvent) : op.eaten + turn.eaten = (op.moved ++ turn.moved).length ∨
      ∃ final, (events ++ [event]).getLast? = some final ∧ final.Unrestored msgNosignal := by
  cases spec.charged with
  | inl eaten => left; rw [going.eaten, eaten, List.length_append]
  | inr unrestored => exact Or.inr ⟨event, List.getLast?_concat, unrestored⟩

/-- The caller is told that there was no data if and only if this is so. -/
theorem Going.nodataAfter (going : Going C op C') (spec : TurnSpec msgNosignal C' event turn)
    (events : List BufEvent) : turn.next = .docallback .nodata ↔
      op.moved ++ turn.moved = [] ∧
        ∃ final, (events ++ [event]).getLast? = some final ∧ final.status = .timeout := by
  rw [spec.nodata, List.append_eq_nil_iff, going.bufpos, List.length_eq_zero_iff]
  constructor
  · rintro ⟨timeout, before⟩
    refine ⟨⟨before, ?_⟩, event, List.getLast?_concat, timeout⟩
    cases spec.moved with
    | inl none => exact none
    | inr some =>
      rw [timeout] at some
      exact absurd some.2 (by simp)
  · rintro ⟨⟨before, _⟩, final, same, timeout⟩
    rw [List.getLast?_concat, Option.some.injEq] at same
    rw [same]
    exact ⟨timeout, before⟩

/-- One more callback that lets the operation go on keeps the contract. -/
theorem Contract.again (contract : Contract msgNosignal C events op) (going : Going C op C')
    (possible : event.Possible C') (spec : TurnSpec msgNosignal C' event turn) {timeo : Timeval}
    (next : turn.next = .tryagain timeo)
    (ending : Ending msgNosignal (events ++ [event])
      (op.after (event.io.bwlimit.getD 0) C'.bufpos turn)) :
    Contract msgNosignal C (events ++ [event])
      (op.after (event.io.bwlimit.getD 0) C'.bufpos turn) := by
  have goes := going.after possible spec next (event.io.bwlimit.getD 0) C'.bufpos
  have waiting := (op.after_again (event.io.bwlimit.getD 0) C'.bufpos next).1
  have silent := going.nodataAfter spec events
  refine ⟨ending, Or.inl ⟨by rw [waiting]; rfl, goes.calls⟩, ?_, ?_, ?_,
    contract.quotaAfter spec possible, order_concat _ contract.order going.bufpos, goes.sent,
    goes.received, Or.inl goes.eaten⟩
  · rw [goes.calls]
    exact fun member => absurd member (by simp)
  · intro full
    rw [← goes.bufpos] at full
    exact absurd full (Nat.ne_of_lt goes.left)
  · rw [next] at silent
    rw [goes.calls, op.after_moved, ← silent]
    simp

/-- One more callback that ends the operation keeps the contract. -/
theorem Contract.told (contract : Contract msgNosignal C events op) (going : Going C op C')
    (possible : event.Possible C') (spec : TurnSpec msgNosignal C' event turn)
    {status : NetworkStatus} (next : turn.next = .docallback status)
    (ending : Ending msgNosignal (events ++ [event])
      (op.after (event.io.bwlimit.getD 0) C'.bufpos turn)) :
    Contract msgNosignal C (events ++ [event])
      (op.after (event.io.bwlimit.getD 0) C'.bufpos turn) := by
  obtain ⟨waiting, calls⟩ := op.after_told (event.io.bwlimit.getD 0) C'.bufpos next
  rw [going.calls, List.nil_append] at calls
  have moved := op.after_moved (event.io.bwlimit.getD 0) C'.bufpos turn
  have total : (op.moved ++ turn.moved).length = C'.bufpos + turn.moved.length := by
    rw [List.length_append, going.bufpos]
  refine ⟨ending, Or.inr ⟨waiting, status, calls⟩, ?_, ?_, ?_, contract.quotaAfter spec possible,
    order_concat _ contract.order going.bufpos, ?_, ?_, ?_⟩
  · rw [calls, moved, total]
    intro member
    rw [← List.mem_singleton.mp member] at next
    rw [spec.success next, going.length]
  · rw [calls, moved, total, ← going.length]
    intro full
    cases spec.complete full with
    | inl done =>
      rw [next] at done
      left
      rw [Next.docallback.inj done]
    | inr failed =>
      rw [next] at failed
      right
      rw [Next.docallback.inj failed.1]
      exact ⟨rfl, event, List.getLast?_concat, failed.2⟩
  · rw [calls, moved, List.mem_singleton, ← going.nodataAfter spec events, next,
      Next.docallback.injEq]
    exact eq_comm
  · rw [moved]
    exact going.sentAfter possible spec
  · rw [moved]
    exact going.receivedAfter spec
  · rw [moved]
    exact going.chargedAfter spec events

/-- One more callback keeps the contract. -/
theorem Contract.after (contract : Contract msgNosignal C events op)
    (going : Going C op C') (possible : event.Possible C')
    (spec : TurnSpec msgNosignal C' event turn)
    (ending : Ending msgNosignal (events ++ [event])
      (op.after (event.io.bwlimit.getD 0) C'.bufpos turn)) :
    Contract msgNosignal C (events ++ [event])
        (op.after (event.io.bwlimit.getD 0) C'.bufpos turn) ∧
      ∀ C'', (op.after (event.io.bwlimit.getD 0) C'.bufpos turn).waiting = some C'' →
        Going C (op.after (event.io.bwlimit.getD 0) C'.bufpos turn) C'' := by
  cases next : turn.next with
  | tryagain timeo =>
    refine ⟨contract.again going possible spec next ending, fun C'' same => ?_⟩
    rw [(op.after_again _ _ next).1, Option.some.injEq] at same
    rw [← same]
    exact going.after possible spec next _ _
  | docallback status =>
    refine ⟨contract.told going possible spec next ending, fun C'' same => ?_⟩
    rw [(op.after_told _ _ next).1] at same
    cases same

end After

/-- An operation that is registered has done what it should, and goes on to do so. -/
theorem BufRun.contract (nonempty : 0 < C.buf.length) (fresh : C.bufpos = 0)
    {events : List BufEvent} {op : Operation κ} (run : BufRun msgNosignal C events op) :
    Contract msgNosignal C events op ∧ ∀ C', op.waiting = some C' → Going C op C' := by
  induction run with
  | start =>
    refine ⟨⟨⟨fun _ member => (nomatch member), fun _ member => (nomatch member),
      fun _ member => (nomatch member), fun _ member => (nomatch member)⟩, Or.inl ⟨rfl, rfl⟩,
      fun member => (nomatch member), fun full => ?_, ?_, fun _ member => (nomatch member), ?_,
      fun _ => ⟨rfl, rfl⟩, fun _ => rfl, Or.inl rfl⟩, ?_⟩
    · change 0 = C.buf.length at full
      omega
    · simp [Operation.start]
    · intro before piece after split
      simp [Operation.start] at split
    · intro C' waiting
      cases waiting
      exact ⟨rfl, fresh, by omega, rfl, rfl, fun _ => ⟨rfl, rfl⟩, fun _ => rfl⟩
  | event before waiting possible ih =>
    have going := ih.2 _ waiting
    have left := going.left
    rw [← going.length] at left
    exact ih.1.after going possible (callbackBuf_spec left possible)
      (ih.1.toEnding.after waiting going)

/-- A read or a write that was started keeps its contract, whatever happens to it. -/
theorem tsnetwork_read_write_contract {fd : Int} {buf : List UInt8} {to0 to1 : Timeval}
    {callback : κ} {malloc : Bool} {now : Option Timeval} {timeo : Timeval} (nonempty : buf ≠ [])
    (started : tsnetworkRead fd buf to0 to1 callback malloc now = some (C, timeo) ∨
      tsnetworkWrite fd buf to0 to1 callback malloc now = some (C, timeo))
    {events : List BufEvent} {op : Operation κ} (run : BufRun msgNosignal C events op) :
    C.buf = buf ∧ Contract msgNosignal C events op := by
  have prepared : ∀ sendrecv netop,
      networkBuf fd buf to0 to1 callback sendrecv netop malloc now = some (C, timeo) →
        C.buf = buf ∧ C.bufpos = 0 := by
    intro sendrecv netop made
    unfold networkBuf at made
    split at made
    · exact absurd made (by simp)
    · obtain ⟨timeout, _, same⟩ := Option.map_eq_some_iff.mp made
      rw [← (Prod.mk.inj same).1]
      exact ⟨rfl, rfl⟩
  have fields : C.buf = buf ∧ C.bufpos = 0 := by
    cases started with
    | inl reads =>
      unfold tsnetworkRead at reads
      split at reads
      · exact absurd reads (by simp)
      · exact prepared _ _ reads
    | inr writes => exact prepared _ _ writes
  have length : 0 < C.buf.length := by
    rw [fields.1]
    exact List.length_pos_iff.mpr nonempty
  exact ⟨fields.1, (run.contract length fields.2).1⟩

end Whole

section Examples

/-- A buffer of two bytes that shall be written. -/
def twoBytes : NetworkBuf Unit :=
  ⟨(), 3, [1, 2], 0, ⟨20, 0⟩, ⟨5, 0⟩, .send, .write⟩

/-- The socket is ready, the quota is that of a segment, and some bytes are written. -/
def writes (data : List UInt8) (eaten : Bool) : BufEvent :=
  ⟨.ok, ⟨some 1460, true, .moves data, true, eaten, some ⟨11, 0⟩⟩, true⟩

/-- The buffer is written in two pieces. -/
theorem tsnetwork_write_two_pieces :
    ∃ op, BufRun true twoBytes [writes [1] true, writes [2] true] op ∧ op.calls = [.ok] ∧
      twoBytes.buf = [1, 2] ∧
      Contract true twoBytes [writes [1] true, writes [2] true] op := by
  have first : BufRun true twoBytes ([] ++ [writes [1] true]) _ :=
    .event .start rfl ⟨Or.inl rfl, by decide, fun _ => rfl⟩
  have second : BufRun true twoBytes ([] ++ [writes [1] true] ++ [writes [2] true]) _ :=
    .event first rfl ⟨Or.inl rfl, by decide, fun _ => rfl⟩
  have started : tsnetworkWrite 3 [1, 2] ⟨5, 0⟩ ⟨10, 0⟩ () false (some ⟨10, 0⟩) =
      some (twoBytes, ⟨5, 0⟩) := rfl
  exact ⟨_, second, rfl, tsnetwork_read_write_contract (by decide) (Or.inr started) second⟩

/-- The whole buffer is written, but charging the quota for it fails: the status is an error. -/
theorem tsnetwork_write_uncharged :
    ¬ ∀ (C : NetworkBuf Unit) (timeo : Timeval) (events : List BufEvent) (op : Operation Unit),
      tsnetworkWrite 3 [1, 2] ⟨5, 0⟩ ⟨10, 0⟩ () false (some ⟨10, 0⟩) = some (C, timeo) →
        BufRun true C events op → op.waiting = none →
          (op.calls = [.ok] ↔ op.moved.length = C.buf.length) := by
  intro all
  have run : BufRun true twoBytes ([] ++ [writes [1, 2] false]) _ :=
    .event .start rfl ⟨Or.inl rfl, by decide, fun _ => rfl⟩
  have same := (all twoBytes ⟨5, 0⟩ _ _ rfl run rfl).mpr rfl
  exact absurd same (by decide)

end Examples

end Tarsnap.Network
