import Tarsnap.Netproto.Keyexchange

/-!
# The upstream callback of a key exchange

Between two events the reference count is the number of callbacks that are pending, and the record
is there as long as one is. At most two are: the writes of the length and of the user-agent name.
So an error finds at most one other callback, which the upstream callback may cancel or leave. The
record is freed with the last callback, unless that is the one for the length of the name: when the
name could not be queued behind its length and the upstream callback did not cancel the write of the
length, this callback drops the last reference without freeing the record.
-/

namespace Tarsnap.Netproto.Keyexchange

open Tarsnap.Lib Tarsnap.Netpacket Tarsnap.Network

section Memory

/-- The memory has the record at its address, with the user-agent name, and nothing else. -/
structure Holds (heap : Heap Object) (cookie : Nat) (KC : Record) : Prop where
  /-- The record. -/
  record : heap.objects cookie = some (.record KC)
  /-- The user-agent name. -/
  string : ∃ bytes, heap.objects KC.useragent = some (.string bytes)
  /-- There is nothing else. -/
  others : ∀ id, id ≠ cookie → id ≠ KC.useragent → heap.objects id = none

/-- Nothing is in memory. -/
def Freed (heap : Heap Object) : Prop := ∀ id, heap.objects id = none

variable {x : Exchange} {heap : Heap Object} {cookie : Nat} {KC KC' : Record}

/-- The record and the user-agent name are at different addresses. -/
theorem Holds.apart (holds : Holds heap cookie KC) : KC.useragent ≠ cookie := by
  intro same
  obtain ⟨bytes, string⟩ := holds.string
  rw [same, holds.record] at string
  cases string

/-- Deciding whether a call fails changes nothing in memory. -/
theorem Holds.attempt (holds : Holds heap cookie KC) : Holds heap.attempt.2 cookie KC :=
  ⟨holds.record, holds.string, holds.others⟩

/-- The record is read. -/
theorem getRecord_ok (holds : Holds x.heap x.cookie KC) : getRecord x = .ok KC := by
  rw [getRecord, Heap.read_ok holds.record]
  rfl

/-- The user-agent name is read. -/
theorem getString_ok (holds : Holds x.heap x.cookie KC) :
    ∃ bytes, getString x KC.useragent = .ok bytes := by
  obtain ⟨bytes, string⟩ := holds.string
  refine ⟨bytes, ?_⟩
  rw [getString, Heap.read_ok string]
  rfl

/-- The record is overwritten. -/
theorem setRecord_ok (holds : Holds x.heap x.cookie KC) (same : KC'.useragent = KC.useragent) :
    ∃ heap, setRecord x KC' = .ok { x with heap } ∧ Holds heap x.cookie KC' := by
  obtain ⟨heap, write, objects, _⟩ := Heap.write_ok holds.record (.record KC')
  refine ⟨heap, ?_, ?_, ?_, ?_⟩
  · rw [setRecord, write]
    rfl
  · rw [objects]
    exact Function.update_self _ _ _
  · obtain ⟨bytes, string⟩ := holds.string
    refine ⟨bytes, ?_⟩
    rw [objects, same, Function.update_of_ne holds.apart]
    exact string
  · intro id notRecord notString
    rw [objects, Function.update_of_ne notRecord]
    exact holds.others id notRecord (same ▸ notString)

/-- The user-agent name and then the record are freed. -/
theorem Holds.free (holds : Holds heap cookie KC) : ∃ first last,
    heap.free (some KC.useragent) = .ok first ∧ first.free (some cookie) = .ok last ∧
      Freed last := by
  obtain ⟨bytes, string⟩ := holds.string
  obtain ⟨first, freeString, objects, _⟩ := Heap.free_ok string
  have record : first.objects cookie = some (.record KC) := by
    rw [objects, Function.update_of_ne (Ne.symm holds.apart)]
    exact holds.record
  obtain ⟨last, freeRecord', objects', _⟩ := Heap.free_ok record
  refine ⟨first, last, freeString, freeRecord', ?_⟩
  intro id
  rw [objects']
  by_cases isRecord : id = cookie
  · rw [isRecord]
    exact Function.update_self _ _ _
  · rw [Function.update_of_ne isRecord, objects]
    by_cases isString : id = KC.useragent
    · rw [isString]
      exact Function.update_self _ _ _
    · rw [Function.update_of_ne isString]
      exact holds.others id isRecord isString

/-- The record and the user-agent name are freed. -/
theorem freeRecord_ok (holds : Holds x.heap x.cookie KC) :
    ∃ heap, freeRecord x = .ok { x with heap } ∧ Freed heap := by
  obtain ⟨first, last, freeString, freeRecord', freed⟩ := holds.free
  refine ⟨last, ?_, freed⟩
  rw [freeRecord, getRecord_ok holds, ok_bind, freeString]
  show (access (first.free (some x.cookie)) >>= fun heap => .ok { x with heap }) = _
  rw [freeRecord']
  rfl

end Memory

section Errors

variable {K : KeyPrimitives} {upstream : Status → Exchange → Except Fault (Int × Exchange)}
  {x : Exchange} {KC : Record}

/-- The record after the upstream callback was called, with one reference less. -/
def Record.dropped (KC : Record) : Record :=
  { KC with callback := false, refcount := KC.refcount - 1 }

/-- What is left in memory when a reference is dropped. -/
def Dropped (heap : Heap Object) (cookie : Nat) (KC : Record) : Prop :=
  if KC.refcount = 1 then Freed heap else Holds heap cookie KC.dropped

/-- The last reference was dropped. -/
theorem Dropped.freed {heap : Heap Object} {cookie : Nat} (dropped : Dropped heap cookie KC)
    (last : KC.refcount = 1) : Freed heap := by
  rw [Dropped, if_pos last] at dropped
  exact dropped

/-- The last reference but one was dropped. -/
theorem Dropped.remains {heap : Heap Object} {cookie : Nat} (dropped : Dropped heap cookie KC)
    (two : KC.refcount = 2) : Holds heap cookie KC.dropped ∧ KC.dropped.refcount = 1 := by
  have more : (2 : UInt64) ≠ 1 := by decide
  rw [Dropped, two, if_neg more] at dropped
  refine ⟨dropped, ?_⟩
  rw [Record.dropped, two]
  show (2 - 1 : UInt64) = 1
  decide

/-- Dropping a reference of a record whose upstream callback was called. -/
theorem drop_ok (holds : Holds x.heap x.cookie { KC with callback := false }) (rc : Int) :
    ∃ heap, (do
      let KC ← getRecord x
      let x ← setRecord x { KC with refcount := KC.refcount - 1 }
      if KC.refcount = 1 then do
        let x ← freeRecord x
        return (rc, x)
      else return (rc, x) : Except Fault (Int × Exchange)) = .ok (rc, { x with heap }) ∧
      Dropped heap x.cookie KC := by
  obtain ⟨heap, set, holds'⟩ := @setRecord_ok x _ KC.dropped holds rfl
  rw [getRecord_ok holds, ok_bind]
  show ∃ heap', (setRecord x KC.dropped >>= fun x => if KC.refcount = 1 then
    (freeRecord x >>= fun x => pure (rc, x)) else pure (rc, x)) = _ ∧ _
  rw [set, ok_bind]
  by_cases last : KC.refcount = 1
  · obtain ⟨heap', free, freed⟩ := @freeRecord_ok { x with heap } _ holds'
    rw [if_pos last, free]
    refine ⟨heap', rfl, ?_⟩
    rw [Dropped, if_pos last]
    exact freed
  · rw [if_neg last]
    refine ⟨heap, rfl, ?_⟩
    rw [Dropped, if_neg last]
    exact holds'

/-- After the upstream callback was called, an error only drops a reference. -/
theorem errored_silent (holds : Holds x.heap x.cookie KC) (silent : KC.callback = false)
    (status : Status) : ∃ heap, errored upstream status x = .ok (0, { x with heap }) ∧
      Dropped heap x.cookie KC := by
  have same : { KC with callback := false } = KC := by rw [← silent]
  obtain ⟨heap, set, holds'⟩ := @setRecord_ok x _ { KC with callback := false } holds rfl
  have called : docallback upstream status x = .ok (0, { x with heap }) := by
    rw [docallback, getRecord_ok holds, ok_bind, set, ok_bind, silent]
    rfl
  rw [errored, called, ok_bind]
  exact drop_ok holds' 0

/-- An error for which the upstream callback is called. -/
theorem errored_told (holds : Holds x.heap x.cookie KC) (callback : KC.callback = true)
    (status : Status) : ∃ heap, Holds heap x.cookie { KC with callback := false } ∧
      ∀ rc x', upstream status { x with heap, told := x.told ++ [status] } = .ok (rc, x') →
        x'.cookie = x.cookie → ∀ KC', KC'.callback = false → Holds x'.heap x'.cookie KC' →
        ∃ heap', errored upstream status x = .ok (rc, { x' with heap := heap' }) ∧
          Dropped heap' x'.cookie KC' := by
  obtain ⟨heap, set, holds'⟩ := @setRecord_ok x _ { KC with callback := false } holds rfl
  refine ⟨heap, holds', ?_⟩
  intro rc x' answered sameCookie KC' silent after
  have called : docallback upstream status x = .ok (rc, x') := by
    rw [docallback, getRecord_ok holds, ok_bind, set, ok_bind, callback, if_pos rfl]
    exact answered
  have same : { KC' with callback := false } = KC' := by rw [← silent]
  rw [errored, called, ok_bind]
  rw [← same] at after
  exact drop_ok after rc

/-- Cancelling nothing. -/
theorem netprotoFlush_nothing (writes : x.writes = []) (read : x.read = none)
    (pair : List UInt8 × List UInt8) : netprotoFlush K upstream pair x = .ok (0, x) := by
  rw [netprotoFlush, writes]
  simp only [List.length_nil, networkWriteqCancel, writes, if_true, ok_bind, read, pure_eq_ok]

/-- Cancelling the only write, when the upstream callback was called before. -/
theorem netprotoFlush_silent {callback : Callback} {buf : List UInt8}
    (holds : Holds x.heap x.cookie KC) (silent : KC.callback = false)
    (writes : x.writes = [(callback, buf)]) (read : x.read = none)
    (other : callback ≠ .proofReceived) (pair : List UInt8 × List UInt8) :
    ∃ heap rc, netprotoFlush K upstream pair x = .ok (rc, { x with heap, writes := [] }) ∧
      Dropped heap x.cookie KC := by
  have invoked (x : Exchange) : invoke K upstream pair callback .cancel x =
      errored upstream (.network .cancel) x := by
    cases callback <;> first | rfl | exact absurd rfl other
  obtain ⟨heap, error, dropped⟩ := @errored_silent upstream { x with writes := [] } KC holds silent
    (.network .cancel)
  refine ⟨heap, 0, ?_, dropped⟩
  rw [netprotoFlush, writes]
  show (networkWriteqCancel K upstream pair 1 x >>= _) = _
  rw [networkWriteqCancel, writes]
  simp only
  rw [invoked, error, ok_bind]
  simp only [networkWriteqCancel, if_true, ok_bind, pure_eq_ok, read]
  rfl

end Errors

section Invariant

variable (K : KeyPrimitives)

/-- The session after the client signed the shared key. -/
def signedSession (mkey : List UInt8) : Session :=
  (cryptoSessionSign K.session (initialSession K mkey) mkey).2

/-- What was received as the server's value is validly signed, and sane. -/
def ServerSigned (params : List UInt8) : Prop :=
  K.rsaVerify (params.take CRYPTO_DH_PUBLEN) ((params.drop CRYPTO_DH_PUBLEN).take 256) = true ∧
    K.dhSane (params.take CRYPTO_DH_PUBLEN) = true

/-- A value was received that is validly signed and sane, a pair of keys was generated for it, and a
proof was received that is valid for the key that is exchanged. -/
def Authentic (x : Exchange) : Prop :=
  ∃ params pub priv proof, (Callback.dhReceived, params) ∈ x.received ∧ ServerSigned K params ∧
    (pub, priv) ∈ x.generated ∧ (Callback.proofReceived, proof) ∈ x.received ∧
    (cryptoSessionVerify K.session (signedSession K (exchangedKey K params priv))
      (exchangedKey K params priv) proof).1 = true

/-- The record has a value that was received, is validly signed, and sane, and a pair of keys that
was generated. -/
def Signed (x : Exchange) (KC : Record) : Prop :=
  (Callback.dhReceived, KC.serverparams) ∈ x.received ∧ ServerSigned K KC.serverparams ∧
    (KC.pub, KC.priv) ∈ x.generated

/-- The session has the keys that are exchanged with the value in the record. -/
def Keyed (x : Exchange) (KC : Record) : Prop :=
  KC.mkey = exchangedKey K KC.serverparams KC.priv ∧ x.keys = some (signedSession K KC.mkey)

/-- What a callback relies on. -/
def Facts (x : Exchange) (KC : Record) : Callback → Prop
  | .dhSent => Signed K x KC
  | .proofSent => Signed K x KC ∧ Keyed K x KC
  | .proofReceived => Signed K x KC ∧ Keyed K x KC
  | _ => True

/-- The callback is that of a read. -/
def Callback.isRead : Callback → Bool
  | .protoReceived => true
  | .dhReceived => true
  | .proofReceived => true
  | _ => false

/-- The callbacks that may be pending. -/
inductive Queue : List Callback → Option Callback → Prop
  /-- A write. -/
  | write {callback : Callback} (writes : callback.isRead = false) : Queue [callback] none
  /-- A read. -/
  | read {callback : Callback} (reads : callback.isRead = true) : Queue [] (some callback)
  /-- The two writes of the user-agent name. -/
  | names : Queue [.namelenSent, .nameSent] none

/-- The upstream callback was told of an error, unless it is still to be called. -/
def Heard (callback : Bool) (told : List Status) : Prop :=
  if callback then told = [] else ∃ status, told = [status] ∧ status ≠ .network .ok

/-- The callbacks that are pending. -/
def pending (x : Exchange) : List Callback := x.writes.map Prod.fst ++ x.read.toList

/-- What holds while a callback is pending. -/
structure Live (x : Exchange) (KC : Record) : Prop where
  /-- The record is there. -/
  holds : Holds x.heap x.cookie KC
  /-- At most two callbacks are pending. -/
  queue : Queue (x.writes.map Prod.fst) x.read
  /-- The references are counted. -/
  refcount : KC.refcount = UInt64.ofNat (pending x).length
  /-- What the upstream callback was told. -/
  heard : Heard KC.callback x.told
  /-- What the callbacks rely on. -/
  facts : ∀ callback ∈ pending x, Facts K x KC callback

/-- What holds when no callback is pending. -/
structure Finished (x : Exchange) : Prop where
  /-- No callback is pending. -/
  writes : x.writes = []
  /-- No callback is pending. -/
  read : x.read = none
  /-- The record was freed. -/
  freed : Freed x.heap
  /-- The upstream callback was told something once, and success only by an authentic server. -/
  heard : ∃ status, x.told = [status] ∧ (status = .network .ok → Authentic K x)

/-- What holds between two events. -/
def Inv (x : Exchange) : Prop := Finished K x ∨ ∃ KC, Live K x KC

/-- At most one of the two writes of the user-agent name is pending. -/
def Rest (writes : List (Callback × List UInt8)) : Prop :=
  writes = [] ∨ ∃ callback buf, writes = [(callback, buf)] ∧
    (callback = .namelenSent ∨ callback = .nameSent)

/-- What holds while a callback is running that started nothing yet. -/
structure Erring (x : Exchange) (KC : Record) : Prop where
  /-- The record is there. -/
  holds : Holds x.heap x.cookie KC
  /-- Nothing is read. -/
  read : x.read = none
  /-- At most one write is pending. -/
  rest : Rest x.writes
  /-- The references are those of the running callback and of the pending one. -/
  refcount : KC.refcount = UInt64.ofNat (x.writes.length + 1)
  /-- What the upstream callback was told. -/
  heard : Heard KC.callback x.told

/-- What is left after an error: what was pending, unless it was cancelled. -/
structure Left (x x' : Exchange) : Prop where
  /-- The writes are cancelled or still pending. -/
  writes : x'.writes = [] ∨ x'.writes = x.writes
  /-- Nothing is read. -/
  read : x'.read = none
  /-- What holds between two events. -/
  inv : Inv K x'

end Invariant

section Errored

variable {K : KeyPrimitives} {x : Exchange} {KC : Record}

/-- What is left when a reference is dropped, with some writes pending. -/
theorem left_of_dropped {heap : Heap Object} {status : Status}
    (dropped : Dropped heap x.cookie KC) (read : x.read = none) (rest : Rest x.writes)
    (refcount : KC.refcount = UInt64.ofNat (x.writes.length + 1)) (told : x.told = [status])
    (failed : status ≠ .network .ok) : Inv K { x with heap } := by
  rcases rest with nothing | ⟨callback, buf, one, names⟩
  · rw [nothing] at refcount
    exact .inl ⟨nothing, read, dropped.freed refcount, status, told,
      fun absurdity => absurd absurdity failed⟩
  · rw [one] at refcount
    obtain ⟨holds, last⟩ := dropped.remains refcount
    have waits : pending { x with heap } = [callback] := by
      rw [pending, one, read]
      rfl
    have other : callback.isRead = false := by
      rcases names with rfl | rfl <;> rfl
    refine .inr ⟨KC.dropped, holds, ?_, ?_, ?_, ?_⟩
    · simp only [one, read]
      exact .write other
    · rw [waits, last]
      rfl
    · exact ⟨status, told, failed⟩
    · intro waiting member
      rw [waits, List.mem_singleton] at member
      subst member
      rcases names with rfl | rfl <;> trivial

/-- After an error either nothing is pending and the record is freed, or what was pending still is.
-/
theorem errored_spec (erring : Erring x KC) (s : Step) {status : Status}
    (failed : status ≠ .network .ok) :
    ∃ rc x', errored (upstreamOf K s 1) status x = .ok (rc, x') ∧ Left K x x' := by
  have refcount := erring.refcount
  have heard := erring.heard
  cases called : KC.callback with
  | false =>
    rw [called] at heard
    obtain ⟨before, told, wrong⟩ := heard
    obtain ⟨heap, error, dropped⟩ :=
      @errored_silent (upstreamOf K s 1) x KC erring.holds called status
    exact ⟨0, _, error, .inr rfl, erring.read,
      left_of_dropped dropped erring.read erring.rest refcount told wrong⟩
  | true =>
    rw [called] at heard
    have told : x.told = [] := heard
    obtain ⟨heap, holds, after⟩ :=
      @errored_told (upstreamOf K s 1) x KC erring.holds called status
    rw [told, List.nil_append] at after
    by_cases flushes : (s.reaction status).flushes = true
    · rcases erring.rest with nothing | ⟨callback, buf, one, names⟩
      · have answered : upstreamOf K s 1 status { x with heap, told := [status] } =
            .ok ((s.reaction status).rc, { x with heap, told := [status] }) := by
          have flushed := @netprotoFlush_nothing K (upstreamOf K s 0)
            { x with heap, told := [status] } nothing erring.read s.pair
          rw [upstreamOf, if_pos flushes, flushed, ok_bind]
          rfl
        obtain ⟨heap', error, dropped⟩ := after _ _ answered rfl _ rfl holds
        exact ⟨_, _, error, .inr rfl, erring.read,
          @left_of_dropped K { x with told := [status] } _ heap' status dropped erring.read
            erring.rest refcount rfl failed⟩
      · rw [one] at refcount
        have other : callback ≠ .proofReceived := by
          rcases names with rfl | rfl <;> decide
        obtain ⟨heap', rc, flushed, dropped⟩ := @netprotoFlush_silent K (upstreamOf K s 0)
          { x with heap, told := [status] } { KC with callback := false } callback buf holds rfl one
          erring.read other s.pair
        have answered : upstreamOf K s 1 status { x with heap, told := [status] } =
            .ok ((s.reaction status).rc,
              { x with heap := heap', told := [status], writes := [] }) := by
          rw [upstreamOf, if_pos flushes, flushed, ok_bind]
          rfl
        obtain ⟨holds', last⟩ := dropped.remains refcount
        obtain ⟨heap'', error, dropped'⟩ := after _ _ answered rfl _ rfl holds'
        exact ⟨_, _, error, .inl rfl, erring.read, .inl ⟨rfl, erring.read, dropped'.freed last,
          status, rfl, fun absurdity => absurd absurdity failed⟩⟩
    · have answered : upstreamOf K s 1 status { x with heap, told := [status] } =
          .ok ((s.reaction status).rc, { x with heap, told := [status] }) := by
        rw [upstreamOf, if_neg flushes]
      obtain ⟨heap', error, dropped⟩ := after _ _ answered rfl _ rfl holds
      exact ⟨_, _, error, .inr rfl, erring.read,
        @left_of_dropped K { x with told := [status] } _ heap' status dropped erring.read
          erring.rest refcount rfl failed⟩

end Errored

section Started

variable {K : KeyPrimitives} {x : Exchange} {KC : Record} {callback : Callback}

/-- Deciding whether a call fails leaves the callback running. -/
theorem Erring.attempted (erring : Erring x KC) : Erring (attempted x).2 KC :=
  ⟨erring.holds.attempt, erring.read, erring.rest, erring.refcount, erring.heard⟩

/-- An error with an unknown status of the network layer. -/
theorem errored_err (erring : Erring x KC) (s : Step) :
    ∃ rc x', errored (upstreamOf K s 1) (.network .err) x = .ok (rc, x') ∧ Inv K x' := by
  have wrong : Status.network .err ≠ .network .ok := by decide
  obtain ⟨rc, x', error, left⟩ := @errored_spec K x KC erring s _ wrong
  exact ⟨rc, x', error, left.inv⟩

/-- A protocol error. -/
theorem errored_proterr (erring : Erring x KC) (s : Step) :
    ∃ rc x', errored (upstreamOf K s 1) .proterr x = .ok (rc, x') ∧ Inv K x' := by
  have wrong : Status.proterr ≠ .network .ok := by decide
  obtain ⟨rc, x', error, left⟩ := @errored_spec K x KC erring s _ wrong
  exact ⟨rc, x', error, left.inv⟩

/-- The next callback is that of a read, or there is an error. -/
theorem tsnetworkRead_spec (erring : Erring x KC) (alone : x.writes = [])
    (reads : callback.isRead = true) (facts : Facts K x KC callback) (s : Step) :
    ∃ rc x', (let (fails, x) := tsnetworkRead x callback
      if fails then errored (upstreamOf K s 1) (.network .err) x else return (0, x)) =
        .ok (rc, x') ∧ Inv K x' := by
  have started : tsnetworkRead x callback = if (attempted x).1 then (true, (attempted x).2)
      else (false, { (attempted x).2 with read := some callback }) := by
    have read : (attempted x).2.read = none := erring.read
    rw [tsnetworkRead]
    simp only [read, Option.isSome_none, Bool.or_false]
  rw [started]
  by_cases fails : (attempted x).1 = true
  · rw [if_pos fails]
    exact errored_err erring.attempted s
  · rw [if_neg fails]
    have waits : pending { (attempted x).2 with read := some callback } = [callback] := by
      have none : (attempted x).2.writes = [] := alone
      rw [pending, none]
      rfl
    refine ⟨0, _, rfl, .inr ⟨KC, erring.attempted.holds, ?_, ?_, erring.heard, ?_⟩⟩
    · have none : (attempted x).2.writes = [] := alone
      simp only [none]
      exact .read reads
    · rw [waits, erring.refcount, alone]
      rfl
    · intro waiting member
      rw [waits, List.mem_singleton] at member
      rw [member]
      cases callback <;> exact facts

/-- The next callback is that of a write, or there is an error. -/
theorem networkWriteqAdd_spec {buf : List UInt8} (erring : Erring x KC) (alone : x.writes = [])
    (other : callback.isRead = false) (facts : Facts K x KC callback) (s : Step) :
    ∃ rc x', (let (fails, x) := networkWriteqAdd x buf callback
      if fails then errored (upstreamOf K s 1) (.network .err) x else return (0, x)) =
        .ok (rc, x') ∧ Inv K x' := by
  rw [networkWriteqAdd]
  by_cases fails : (attempted x).1 = true
  · simp only [fails, if_true]
    exact errored_err erring.attempted s
  · rw [Bool.not_eq_true] at fails
    simp only [fails, Bool.false_eq_true, if_false]
    have writes : (attempted x).2.writes ++ [(callback, buf)] = [(callback, buf)] := by
      have none : (attempted x).2.writes = [] := alone
      rw [none, List.nil_append]
    have waits : pending { (attempted x).2 with
        writes := (attempted x).2.writes ++ [(callback, buf)] } = [callback] := by
      have read : (attempted x).2.read = none := erring.read
      rw [pending, writes]
      simp only [read]
      rfl
    refine ⟨0, _, rfl, .inr ⟨KC, erring.attempted.holds, ?_, ?_, erring.heard, ?_⟩⟩
    · have read : (attempted x).2.read = none := erring.read
      simp only [writes, read]
      exact .write other
    · rw [waits, erring.refcount, alone]
      rfl
    · intro waiting member
      rw [waits, List.mem_singleton] at member
      rw [member]
      cases callback <;> exact facts

end Started

section Callbacks

variable {K : KeyPrimitives} {x : Exchange} {KC : Record}

/-- The protocol version was sent. -/
theorem protoSent_spec (erring : Erring x KC) (alone : x.writes = []) (s : Step) :
    ∃ rc x', protoSent (upstreamOf K s 1) x = .ok (rc, x') ∧ Inv K x' := by
  rw [protoSent, getRecord_ok erring.holds, ok_bind]
  exact @tsnetworkRead_spec K { x with bytesout := x.bytesout + 1 } KC .protoReceived
    ⟨erring.holds, erring.read, erring.rest, erring.refcount, erring.heard⟩ alone rfl trivial s

/-- The length of the name was sent while the name is pending. -/
theorem namelenSent_spec (erring : Erring x KC) (more : x.writes ≠ []) :
    ∃ rc x', namelenSent x = .ok (rc, x') ∧ Inv K x' := by
  obtain ⟨heap, set, holds⟩ := @setRecord_ok { x with bytesout := x.bytesout + 1 } KC
    { KC with refcount := KC.refcount - 1 } erring.holds rfl
  rcases erring.rest with none | ⟨callback, buf, one, names⟩
  · exact absurd none more
  · have two : KC.refcount = 2 := by
      rw [erring.refcount, one]
      rfl
    have waits : pending { x with bytesout := x.bytesout + 1, heap } = [callback] := by
      rw [pending, one, erring.read]
      rfl
    have other : callback.isRead = false := by
      rcases names with rfl | rfl <;> rfl
    rw [namelenSent, getRecord_ok erring.holds, ok_bind, set, ok_bind]
    refine ⟨0, _, rfl, .inr ⟨{ KC with refcount := KC.refcount - 1 }, holds, ?_, ?_, erring.heard,
      ?_⟩⟩
    · simp only [one, erring.read]
      exact .write other
    · rw [waits, two]
      show (2 - 1 : UInt64) = 1
      decide
    · intro waiting member
      rw [waits, List.mem_singleton] at member
      subst member
      rcases names with rfl | rfl <;> trivial

/-- The name was sent. -/
theorem nameSent_spec (erring : Erring x KC) (alone : x.writes = []) (s : Step) :
    ∃ rc x', nameSent (upstreamOf K s 1) x = .ok (rc, x') ∧ Inv K x' := by
  rw [nameSent, getRecord_ok erring.holds, ok_bind]
  exact @tsnetworkRead_spec K { x with bytesout := x.bytesout + KC.useragentlen.toUInt64 } KC
    .dhReceived ⟨erring.holds, erring.read, erring.rest, erring.refcount, erring.heard⟩ alone rfl
    trivial s

/-- The client's proof was sent. -/
theorem proofSent_spec (erring : Erring x KC) (alone : x.writes = [])
    (facts : Facts K x KC .proofSent) (s : Step) :
    ∃ rc x', proofSent (upstreamOf K s 1) x = .ok (rc, x') ∧ Inv K x' := by
  rw [proofSent, getRecord_ok erring.holds, ok_bind]
  exact @tsnetworkRead_spec K { x with bytesout := x.bytesout + 32 } KC .proofReceived
    ⟨erring.holds, erring.read, erring.rest, erring.refcount, erring.heard⟩ alone rfl facts s

/-- The server protocol version was received. -/
theorem protoReceived_spec (erring : Erring x KC) (alone : x.writes = []) (s : Step) :
    ∃ rc x', protoReceived (upstreamOf K s 1) x = .ok (rc, x') ∧ Inv K x' := by
  have counted : Erring { x with bytesin := x.bytesin + 1 } KC :=
    ⟨erring.holds, erring.read, erring.rest, erring.refcount, erring.heard⟩
  rw [protoReceived, getRecord_ok erring.holds, ok_bind]
  by_cases version : KC.serverproto ≠ 0
  · simp only [if_pos version]
    exact errored_proterr counted s
  · simp only [if_neg version]
    have alone' : { x with bytesin := x.bytesin + 1 }.writes = [] := alone
    generalize { x with bytesin := x.bytesin + 1 } = x at counted alone' ⊢
    rw [networkWriteqAdd]
    by_cases fails : (attempted x).1 = true
    · simp only [fails, if_true]
      exact errored_err counted.attempted s
    · rw [Bool.not_eq_true] at fails
      simp only [fails, Bool.false_eq_true, if_false]
      have writes : (attempted x).2.writes = [] := alone'
      have read : (attempted x).2.read = none := counted.read
      have one : KC.refcount = 1 := by
        rw [counted.refcount, alone']
        rfl
      have heard : Heard KC.callback (attempted x).2.told := counted.heard
      have holds : Holds (attempted x).2.heap (attempted x).2.cookie KC := counted.attempted.holds
      generalize (attempted x).2 = x at writes read heard holds ⊢
      simp only [writes, List.nil_append]
      obtain ⟨heap, set, holds'⟩ := @setRecord_ok
        { x with writes := [(.namelenSent, [KC.useragentlen])] } KC
        { KC with refcount := KC.refcount + 1 } holds rfl
      obtain ⟨useragent, string⟩ := @getString_ok
        { x with writes := [(.namelenSent, [KC.useragentlen])], heap } _ holds'
      have two : KC.refcount + 1 = 2 := by
        rw [one]
        decide
      have both : Erring { x with writes := [(.namelenSent, [KC.useragentlen])], heap }
          { KC with refcount := KC.refcount + 1 } := by
        refine ⟨holds', read, .inr ⟨_, _, rfl, .inl rfl⟩, ?_, heard⟩
        rw [two]
        rfl
      rw [@getRecord_ok { x with writes := [(.namelenSent, [KC.useragentlen])] } KC holds, ok_bind,
        set, ok_bind, string, ok_bind, networkWriteqAdd]
      have queued : ({ x with writes := [(.namelenSent, [KC.useragentlen])], heap } :
          Exchange).writes = [(.namelenSent, [KC.useragentlen])] := rfl
      generalize { x with writes := [(.namelenSent, [KC.useragentlen])], heap } = x'
        at both queued ⊢
      by_cases fails' : (attempted x').1 = true
      · simp only [fails', if_true]
        exact errored_err both.attempted s
      · rw [Bool.not_eq_true] at fails'
        simp only [fails', Bool.false_eq_true, if_false]
        have read' : (attempted x').2.read = none := both.read
        have writes' : (attempted x').2.writes = [(.namelenSent, [KC.useragentlen])] := queued
        have waits : pending { (attempted x').2 with
            writes := (attempted x').2.writes ++ [(.nameSent, useragent)] } =
            [.namelenSent, .nameSent] := by
          rw [pending]
          simp only [writes', read']
          rfl
        refine ⟨0, _, rfl, .inr ⟨_, both.attempted.holds, ?_, ?_, both.heard, ?_⟩⟩
        · simp only [writes', read']
          exact .names
        · rw [waits]
          exact two
        · intro waiting member
          rw [waits] at member
          rcases List.mem_cons.mp member with rfl | last
          · trivial
          · rw [List.mem_singleton.mp last]
            trivial

/-- The server's value was received. -/
theorem dhReceived_spec (erring : Erring x KC) (alone : x.writes = [])
    (received : (Callback.dhReceived, KC.serverparams) ∈ x.received) (s : Step) :
    ∃ rc x', dhReceived K (upstreamOf K s 1) s.pair x = .ok (rc, x') ∧ Inv K x' := by
  have counted : Erring { x with bytesin := x.bytesin + 544 } KC :=
    ⟨erring.holds, erring.read, erring.rest, erring.refcount, erring.heard⟩
  have alone' : { x with bytesin := x.bytesin + 544 }.writes = [] := alone
  have received' : (Callback.dhReceived, KC.serverparams) ∈
      { x with bytesin := x.bytesin + 544 }.received := received
  rw [dhReceived, getRecord_ok erring.holds, ok_bind]
  simp only
  generalize { x with bytesin := x.bytesin + 544 } = x at counted alone' received' ⊢
  by_cases internal : (attempted x).1 = true
  · rw [if_pos internal]
    exact errored_err counted.attempted s
  · rw [if_neg internal]
    by_cases forged : K.rsaVerify (KC.serverparams.take CRYPTO_DH_PUBLEN)
        ((KC.serverparams.drop CRYPTO_DH_PUBLEN).take 256) = false
    · rw [if_pos forged]
      exact errored_proterr counted.attempted s
    · rw [if_neg forged]
      by_cases insane : K.dhSane (KC.serverparams.take CRYPTO_DH_PUBLEN) = false
      · rw [if_pos insane]
        exact errored_proterr counted.attempted s
      · rw [if_neg insane]
        rw [Bool.not_eq_false] at forged insane
        have twice := counted.attempted.attempted
        by_cases fails : (attempted (attempted x).2).1 = true
        · rw [if_pos fails]
          exact errored_err twice s
        · rw [if_neg fails]
          obtain ⟨heap, set, holds⟩ := @setRecord_ok
            { (attempted (attempted x).2).2 with
              generated := (attempted (attempted x).2).2.generated ++ [s.pair] } KC
            { KC with pub := s.pair.1, priv := s.pair.2 } twice.holds rfl
          have next : Erring { (attempted (attempted x).2).2 with
              generated := (attempted (attempted x).2).2.generated ++ [s.pair], heap }
              { KC with pub := s.pair.1, priv := s.pair.2 } :=
            ⟨holds, twice.read, twice.rest, twice.refcount, twice.heard⟩
          have generated : s.pair ∈ (attempted (attempted x).2).2.generated ++ [s.pair] :=
            List.mem_append_right _ (List.mem_singleton.mpr rfl)
          rw [set, ok_bind]
          exact @networkWriteqAdd_spec K _ _ .dhSent _ next alone' rfl
            ⟨received', ⟨forged, insane⟩, generated⟩ s

/-- The client's value was sent. -/
theorem dhSent_spec (erring : Erring x KC) (alone : x.writes = [])
    (facts : Facts K x KC .dhSent) (s : Step) :
    ∃ rc x', dhSent K (upstreamOf K s 1) x = .ok (rc, x') ∧ Inv K x' := by
  have counted : Erring { x with bytesout := x.bytesout + 256 } KC :=
    ⟨erring.holds, erring.read, erring.rest, erring.refcount, erring.heard⟩
  have alone' : { x with bytesout := x.bytesout + 256 }.writes = [] := alone
  have signed : Signed K { x with bytesout := x.bytesout + 256 } KC := facts
  rw [dhSent, getRecord_ok erring.holds, ok_bind]
  simp only
  generalize { x with bytesout := x.bytesout + 256 } = x at counted alone' signed ⊢
  have decided := counted.attempted
  by_cases fails : (attempted x).1 = true
  · rw [if_pos fails]
    exact @errored_err K { (attempted x).2 with keys := none } KC
      ⟨decided.holds, decided.read, decided.rest, decided.refcount, decided.heard⟩ s
  · rw [if_neg fails]
    obtain ⟨heap, set, holds⟩ := @setRecord_ok
      { (attempted x).2 with
        keys := some (signedSession K (exchangedKey K KC.serverparams KC.priv)) } KC
      { KC with
        mkey := exchangedKey K KC.serverparams KC.priv
        clientproof := (cryptoSessionSign K.session
          (initialSession K (exchangedKey K KC.serverparams KC.priv))
          (exchangedKey K KC.serverparams KC.priv)).1 } decided.holds rfl
    have next : Erring { (attempted x).2 with
          keys := some (signedSession K (exchangedKey K KC.serverparams KC.priv)), heap }
        { KC with
          mkey := exchangedKey K KC.serverparams KC.priv
          clientproof := (cryptoSessionSign K.session
            (initialSession K (exchangedKey K KC.serverparams KC.priv))
            (exchangedKey K KC.serverparams KC.priv)).1 } :=
      ⟨holds, decided.read, decided.rest, decided.refcount, decided.heard⟩
    unfold signedSession at set
    rw [set, ok_bind]
    exact @networkWriteqAdd_spec K _ _ .proofSent _ next alone' rfl
      ⟨signed, rfl, rfl⟩ s

/-- The upstream callback is called when nothing is pending, unless it was called before. -/
theorem docallback_alone (erring : Erring x KC) (alone : x.writes = []) (status : Status)
    (s : Step) : ∃ rc heap told,
      docallback (upstreamOf K s 1) status x = .ok (rc, { x with heap, told }) ∧
      Holds heap x.cookie { KC with callback := false } ∧
      ∃ heard, told = [heard] ∧ (heard = .network .ok → heard = status) := by
  obtain ⟨heap, set, holds⟩ := @setRecord_ok x KC { KC with callback := false } erring.holds rfl
  have heard := erring.heard
  rw [docallback, getRecord_ok erring.holds, ok_bind, set, ok_bind]
  cases called : KC.callback with
  | false =>
    rw [called] at heard
    obtain ⟨before, told, wrong⟩ := heard
    exact ⟨0, heap, x.told, rfl, holds, before, told, fun absurdity => absurd absurdity wrong⟩
  | true =>
    rw [called] at heard
    have told : x.told = [] := heard
    rw [told, if_pos rfl, List.nil_append, upstreamOf]
    have answered : netprotoFlush K (upstreamOf K s 0) s.pair { x with heap, told := [status] } =
        .ok (0, { x with heap, told := [status] }) :=
      @netprotoFlush_nothing K _ { x with heap, told := [status] } alone erring.read s.pair
    refine ⟨(s.reaction status).rc, heap, [status], ?_, holds, status, rfl, fun _ => rfl⟩
    rw [answered, ok_bind]
    split <;> rfl

/-- Checking the server's proof leaves the callback running, and succeeds only for an authentic
server. -/
theorem checkProof_spec (erring : Erring x KC) (facts : Facts K x KC .proofReceived)
    (status : NetworkStatus)
    (received : status = .ok → (Callback.proofReceived, KC.serverproof) ∈ x.received) :
    ∃ checked x', checkProof K status x = .ok (checked, x') ∧ Erring x' KC ∧
      x'.writes = x.writes ∧ (checked = .network .ok → Authentic K x') := by
  obtain ⟨signed, mkey, keys⟩ := facts
  rw [checkProof]
  by_cases success : status = .ok
  · rw [if_pos success, getRecord_ok erring.holds, ok_bind, keys]
    refine ⟨_, _, rfl, ⟨erring.holds, erring.read, erring.rest, erring.refcount, erring.heard⟩, rfl,
      ?_⟩
    intro valid
    refine ⟨KC.serverparams, KC.pub, KC.priv, KC.serverproof, signed.1, signed.2.1, signed.2.2,
      received success, ?_⟩
    rw [← mkey]
    show decide _ = true
    by_contra forged
    rw [if_neg forged] at valid
    cases valid
  · rw [if_neg success]
    refine ⟨_, _, rfl, erring, rfl, ?_⟩
    intro absurdity
    exact absurd (Status.network.inj absurdity) success

/-- The server's proof was received, or not. -/
theorem proofReceived_spec (erring : Erring x KC) (alone : x.writes = [])
    (facts : Facts K x KC .proofReceived) (status : NetworkStatus)
    (received : status = .ok → (Callback.proofReceived, KC.serverproof) ∈ x.received) (s : Step) :
    ∃ rc x', proofReceived K (upstreamOf K s 1) status x = .ok (rc, x') ∧ Finished K x' := by
  have last : KC.refcount = 1 := by
    rw [erring.refcount, alone]
    rfl
  obtain ⟨checked, x', check, erring', writes, authentic⟩ :=
    checkProof_spec erring facts status received
  obtain ⟨rc, heap, told, called, holds, heard, once, success⟩ :=
    @docallback_alone K x' KC erring' (writes.trans alone) checked s
  obtain ⟨heap', free, freed⟩ := @freeRecord_ok { x' with heap, told } _ holds
  rw [proofReceived, getRecord_ok erring.holds, ok_bind, if_neg (not_not.mpr last), check, ok_bind]
  simp only [called, ok_bind, free, pure_eq_ok]
  refine ⟨rc, _, rfl, writes.trans alone, erring'.read, freed, heard, once, ?_⟩
  intro ok
  exact authentic (success ok ▸ ok)

end Callbacks

section Invoke

variable {K : KeyPrimitives} {x : Exchange} {KC : Record} {callback : Callback}

/-- What holds when a callback is invoked. -/
structure Runs (K : KeyPrimitives) (x : Exchange) (KC : Record) (callback : Callback) : Prop extends
    Erring x KC where
  /-- Another write is pending only behind the length of the name. -/
  alone : x.writes = [] ∨ callback = .namelenSent
  /-- What the callback relies on. -/
  facts : Facts K x KC callback

/-- Only the length of the name has another write behind it. -/
theorem Runs.single (runs : Runs K x KC callback) (other : callback ≠ .namelenSent) :
    x.writes = [] := runs.alone.resolve_right other

/-- A callback that is invoked with an error. -/
theorem invoke_failed (runs : Runs K x KC callback) (s : Step) {status : NetworkStatus}
    (failed : status ≠ .ok) : ∃ rc x',
      invoke K (upstreamOf K s 1) s.pair callback status x = .ok (rc, x') ∧ Left K x x' := by
  have wrong : Status.network status ≠ .network .ok := fun same => failed (Status.network.inj same)
  by_cases last : callback = .proofReceived
  · subst last
    obtain ⟨rc, x', ran, finished⟩ := proofReceived_spec runs.toErring
      (runs.single (by decide)) runs.facts status (fun absurdity => absurd absurdity failed) s
    exact ⟨rc, x', ran, .inl finished.writes, finished.read, .inl finished⟩
  · have invoked : invoke K (upstreamOf K s 1) s.pair callback status x =
        errored (upstreamOf K s 1) (.network status) x := by
      cases callback <;> first | exact absurd rfl last | exact if_pos failed
    rw [invoked]
    exact errored_spec runs.toErring s wrong

/-- What a callback of a read finds in the record is what was received. -/
def Arrived (x : Exchange) (KC : Record) : Callback → Prop
  | .dhReceived => (Callback.dhReceived, KC.serverparams) ∈ x.received
  | .proofReceived => (Callback.proofReceived, KC.serverproof) ∈ x.received
  | _ => True

/-- A callback is invoked. -/
theorem invoke_spec (runs : Runs K x KC callback) (s : Step) (status : NetworkStatus)
    (arrived : status = .ok → Arrived x KC callback)
    (more : callback = .namelenSent → status = .ok → x.writes ≠ []) : ∃ rc x',
      invoke K (upstreamOf K s 1) s.pair callback status x = .ok (rc, x') ∧ Inv K x' := by
  by_cases success : status = .ok
  · subst success
    have erring := runs.toErring
    have facts := runs.facts
    cases callback with
    | protoSent => exact protoSent_spec erring (runs.single (by decide)) s
    | protoReceived => exact protoReceived_spec erring (runs.single (by decide)) s
    | namelenSent => exact namelenSent_spec erring (more rfl rfl)
    | nameSent => exact nameSent_spec erring (runs.single (by decide)) s
    | dhReceived => exact dhReceived_spec erring (runs.single (by decide)) (arrived rfl) s
    | dhSent => exact dhSent_spec erring (runs.single (by decide)) facts s
    | proofSent => exact proofSent_spec erring (runs.single (by decide)) facts s
    | proofReceived =>
      obtain ⟨rc, x', ran, finished⟩ := proofReceived_spec erring (runs.single (by decide)) facts
        .ok (fun _ => arrived rfl) s
      exact ⟨rc, x', ran, .inl finished⟩
  · obtain ⟨rc, x', ran, left⟩ := invoke_failed runs s success
    exact ⟨rc, x', ran, left.inv⟩

/-- The write at the head of the queue is taken out of it. -/
theorem Live.write {buf : List UInt8} {writes : List (Callback × List UInt8)}
    (live : Live K x KC) (head : x.writes = (callback, buf) :: writes) :
    Runs K { x with writes } KC callback ∧ callback.isRead = false := by
  have queue := live.queue
  have refcount := live.refcount
  have facts := live.facts callback (by
    rw [pending, head]
    exact List.mem_cons_self)
  have kept : Facts K { x with writes } KC callback := by
    cases callback <;> exact facts
  rw [pending, head] at refcount
  rw [head, List.map_cons] at queue
  generalize names : writes.map Prod.fst = rest at queue
  generalize reading : x.read = read at queue refcount
  cases queue with
  | write other =>
    have none : writes = [] := List.map_eq_nil_iff.mp names
    subst none
    exact ⟨⟨⟨live.holds, rfl, .inl rfl, refcount, live.heard⟩, .inl rfl, kept⟩, other⟩
  | names =>
    obtain ⟨⟨name, bytes⟩, rfl, rfl⟩ := List.map_eq_singleton_iff.mp names
    exact ⟨⟨⟨live.holds, rfl, .inr ⟨_, bytes, rfl, .inr rfl⟩, refcount, live.heard⟩, .inr rfl,
      kept⟩, rfl⟩

/-- The read is taken. -/
theorem Live.read (live : Live K x KC) (reading : x.read = some callback) :
    Runs K { x with read := none } KC callback ∧ callback.isRead = true := by
  have queue := live.queue
  have refcount := live.refcount
  have facts := live.facts callback (by
    rw [pending, reading]
    exact List.mem_append_right _ (List.mem_singleton.mpr rfl))
  have kept : Facts K { x with read := none } KC callback := by
    cases callback <;> exact facts
  rw [pending, reading] at refcount
  rw [reading] at queue
  generalize names : x.writes.map Prod.fst = rest at queue refcount
  cases queue with
  | read reads =>
    have none : x.writes = [] := List.map_eq_nil_iff.mp names
    refine ⟨⟨⟨live.holds, rfl, .inl none, ?_, live.heard⟩, .inl none, kept⟩, reads⟩
    simp only [none]
    exact refcount

/-- The writes are cancelled. -/
theorem networkWriteqCancel_spec {count : Nat} (inv : Inv K x) (enough : x.writes.length ≤ count)
    (s : Step) : ∃ rc x', networkWriteqCancel K (upstreamOf K s 1) s.pair count x = .ok (rc, x') ∧
      Inv K x' ∧ x'.writes = [] ∧ (x.writes = [] → x' = x) ∧ (x.writes ≠ [] → x'.read = none) := by
  induction count generalizing x with
  | zero =>
    have none : x.writes = [] := List.eq_nil_of_length_eq_zero (Nat.le_zero.mp enough)
    exact ⟨0, x, if_pos none, inv, none, fun _ => rfl, fun some => absurd none some⟩
  | succ count ih =>
    rw [networkWriteqCancel]
    cases head : x.writes with
    | nil => exact ⟨0, x, rfl, inv, head, fun _ => rfl, fun some => absurd rfl some⟩
    | cons first writes =>
      obtain ⟨callback, buf⟩ := first
      rw [head, List.length_cons] at enough
      rcases inv with finished | ⟨KC, live⟩
      · rw [finished.writes] at head
        cases head
      · have failed : NetworkStatus.cancel ≠ .ok := by decide
        obtain ⟨rc, x', ran, left⟩ := invoke_failed (live.write head).1 s failed
        have fewer : x'.writes.length ≤ count := by
          rcases left.writes with none | same
          · rw [none]
            exact Nat.zero_le _
          · rw [same]
            exact Nat.le_of_succ_le_succ enough
        obtain ⟨rc2, x'', rest, inv', none, stays, reads⟩ := ih left.inv fewer
        have nothing : x''.read = Option.none := by
          by_cases some : x'.writes = []
          · rw [stays some]
            exact left.read
          · exact reads some
        simp only
        rw [ran, ok_bind, rest, ok_bind]
        exact ⟨_, x'', rfl, inv', none, fun absurdity => (nomatch absurdity), fun _ => nothing⟩

/-- All that is pending is cancelled. -/
theorem netprotoFlush_spec (inv : Inv K x) (s : Step) : ∃ rc x',
    netprotoFlush K (upstreamOf K s 1) s.pair x = .ok (rc, x') ∧ Inv K x' := by
  obtain ⟨rc, x', cancelled, inv', none, _, _⟩ :=
    networkWriteqCancel_spec inv (Nat.le_refl _) s
  rw [netprotoFlush, cancelled, ok_bind]
  simp only
  cases reading : x'.read with
  | none => exact ⟨rc, x', rfl, inv'⟩
  | some callback =>
    rcases inv' with finished | ⟨KC, live⟩
    · rw [finished.read] at reading
      cases reading
    · have failed : NetworkStatus.cancel ≠ .ok := by decide
      obtain ⟨rc2, x'', ran, left⟩ := invoke_failed (live.read reading).1 s failed
      simp only
      rw [ran, ok_bind]
      exact ⟨_, x'', rfl, left.inv⟩

end Invoke

section Steps

variable {K : KeyPrimitives} {x : Exchange} {KC : Record}

/-- The write of the length of the name is done only while that of the name is pending behind it. -/
def Covered (x : Exchange) (s : Step) : Prop :=
  s.event = .written .ok → x.writes.map Prod.fst ≠ [.namelenSent]

/-- Storing what was received changes neither the references nor the upstream callback. -/
theorem storeReceived_keeps (callback : Callback) (data : List UInt8) :
    (storeReceived callback data KC).useragent = KC.useragent ∧
      (storeReceived callback data KC).refcount = KC.refcount ∧
      (storeReceived callback data KC).callback = KC.callback := by
  cases callback <;> exact ⟨rfl, rfl, rfl⟩

/-- What was received is stored for the callback of the read. -/
theorem Live.received {callback : Callback} (live : Live K x KC) (reading : x.read = some callback)
    (data : List UInt8) : ∃ heap,
      setRecord x (storeReceived callback data KC) = .ok { x with heap } ∧
      Runs K { x with heap, read := none, received := x.received ++ [(callback, data)] }
        (storeReceived callback data KC) callback ∧
      Arrived { x with heap, read := none, received := x.received ++ [(callback, data)] }
        (storeReceived callback data KC) callback := by
  obtain ⟨useragent, refcount, called⟩ := @storeReceived_keeps KC callback data
  obtain ⟨heap, set, holds⟩ := setRecord_ok live.holds useragent
  obtain ⟨runs, reads⟩ := live.read reading
  have arrived : (callback, data) ∈ x.received ++ [(callback, data)] :=
    List.mem_append_right _ (List.mem_singleton.mpr rfl)
  have before {pair : Callback × List UInt8} (member : pair ∈ x.received) :
      pair ∈ x.received ++ [(callback, data)] := List.mem_append_left _ member
  have facts := runs.facts
  refine ⟨heap, set, ⟨⟨holds, rfl, runs.rest, ?_, ?_⟩, runs.alone, ?_⟩, ?_⟩
  · rw [refcount]
    exact runs.refcount
  · rw [called]
    exact runs.heard
  · cases callback with
    | dhSent => exact ⟨before facts.1, facts.2⟩
    | proofSent => exact ⟨⟨before facts.1.1, facts.1.2⟩, facts.2⟩
    | proofReceived => exact ⟨⟨before facts.1.1, facts.1.2⟩, facts.2⟩
    | _ => trivial
  · cases callback <;> first | exact arrived | trivial

/-- What holds between two events is kept by each event that is covered. -/
theorem step_spec (inv : Inv K x) (s : Step) (covered : Covered x s) :
    ∃ x', step K x s = .ok x' ∧ Inv K x' := by
  rw [step]
  cases event : s.event with
  | written status =>
    cases head : x.writes with
    | nil => exact ⟨x, rfl, inv⟩
    | cons first writes =>
      obtain ⟨callback, buf⟩ := first
      rcases inv with finished | ⟨KC, live⟩
      · rw [finished.writes] at head
        cases head
      · have more : callback = .namelenSent → status = .ok → writes ≠ [] := by
          rintro rfl rfl rfl
          apply covered event
          rw [head]
          rfl
        obtain ⟨runs, other⟩ := live.write head
        have arrived : status = .ok → Arrived { x with writes } KC callback := by
          intro _
          cases callback <;> trivial
        obtain ⟨rc, x', ran, inv'⟩ := invoke_spec runs s status arrived more
        simp only
        rw [ran, ok_bind]
        exact ⟨x', rfl, inv'⟩
  | read status data =>
    cases reading : x.read with
    | none => exact ⟨x, rfl, inv⟩
    | some callback =>
      rcases inv with finished | ⟨KC, live⟩
      · rw [finished.read] at reading
        cases reading
      · simp only
        by_cases success : status = .ok
        · rw [if_pos success]
          by_cases whole : data.length = readLength callback
          · obtain ⟨heap, set, runs, arrived⟩ := live.received reading data
            have more : callback = .namelenSent → NetworkStatus.ok = .ok → x.writes ≠ [] := by
              rintro rfl _
              cases (live.read reading).2
            obtain ⟨rc, x', ran, inv'⟩ := invoke_spec runs s .ok (fun _ => arrived) more
            rw [if_pos whole, getRecord_ok live.holds, ok_bind, set, ok_bind, ran, ok_bind]
            exact ⟨x', rfl, inv'⟩
          · rw [if_neg whole]
            exact ⟨x, rfl, .inr ⟨KC, live⟩⟩
        · obtain ⟨rc, x', ran, left⟩ := invoke_failed (live.read reading).1 s success
          rw [if_neg success, ran, ok_bind]
          exact ⟨x', rfl, left.inv⟩
  | flush =>
    obtain ⟨rc, x', flushed, inv'⟩ := netprotoFlush_spec inv s
    simp only
    rw [flushed, ok_bind]
    exact ⟨x', rfl, inv'⟩

/-- An event that is not covered ends the exchange, but not its record. -/
theorem step_uncovered (inv : Inv K x) (s : Step) (uncovered : ¬Covered x s) :
    ∃ x', step K x s = .ok x' ∧ pending x' = [] ∧ ¬Freed x'.heap := by
  unfold Covered at uncovered
  rw [Classical.not_imp, not_not] at uncovered
  obtain ⟨event, names⟩ := uncovered
  obtain ⟨⟨name, buf⟩, head, rfl⟩ := List.map_eq_singleton_iff.mp names
  rcases inv with finished | ⟨KC, live⟩
  · rw [finished.writes] at head
    cases head
  · obtain ⟨runs, _⟩ := live.write head
    obtain ⟨heap, set, holds⟩ := @setRecord_ok
      { x with writes := [], bytesout := x.bytesout + 1 } KC
      { KC with refcount := KC.refcount - 1 } runs.holds rfl
    have ran : invoke K (upstreamOf K s 1) s.pair .namelenSent .ok { x with writes := [] } =
        .ok (0, { x with writes := [], bytesout := x.bytesout + 1, heap }) := by
      show namelenSent { x with writes := [] } = _
      rw [namelenSent, getRecord_ok runs.holds, ok_bind, set, ok_bind]
      rfl
    rw [step, event]
    simp only [head]
    rw [ran, ok_bind]
    refine ⟨_, rfl, ?_, ?_⟩
    · have reading : x.read = none := runs.read
      rw [pending]
      simp only [reading]
      rfl
    · intro freed
      have record := holds.record
      rw [freed x.cookie] at record
      cases record

end Steps

section Exchanges

variable (K : KeyPrimitives)

/-- Each event of a run is covered. -/
def CoveredRun : Exchange → List Step → Prop
  | _, [] => True
  | x, s :: steps => Covered x s ∧ ∀ x', step K x s = .ok x' → CoveredRun x' steps

/-- The key exchange completes once: the upstream callback is told something at most once, and
success only by an authentic server; the record is there while a callback is pending, and freed when
none is, after the upstream callback was told. -/
structure Once (x : Exchange) : Prop where
  /-- The upstream callback is told something at most once. -/
  once : x.told.length ≤ 1
  /-- Success comes from an authentic server. -/
  authentic : Status.network .ok ∈ x.told → Authentic K x
  /-- The record is there while a callback is pending. -/
  alive : pending x ≠ [] → ∃ KC, x.heap.objects x.cookie = some (.record KC)
  /-- When no callback is pending, the upstream callback was told and all is freed. -/
  ended : pending x = [] → x.told.length = 1 ∧ Freed x.heap

variable {K} {x : Exchange}

/-- A key exchange between two events. -/
theorem Inv.once (inv : Inv K x) : Once K x := by
  rcases inv with finished | ⟨KC, live⟩
  · obtain ⟨status, told, authentic⟩ := finished.heard
    have none : pending x = [] := by
      rw [pending, finished.writes, finished.read]
      rfl
    refine ⟨?_, ?_, fun some => absurd none some, fun _ => ⟨?_, finished.freed⟩⟩
    · rw [told]
      exact Nat.le_refl 1
    · intro success
      rw [told, List.mem_singleton] at success
      exact authentic success.symm
    · rw [told]
      rfl
  · have some : pending x ≠ [] := by
      have queue := live.queue
      rw [pending]
      generalize x.writes.map Prod.fst = writes at queue ⊢
      generalize x.read = read at queue ⊢
      cases queue <;> exact fun absurdity => nomatch absurdity
    have heard := live.heard
    refine ⟨?_, ?_, fun _ => ⟨KC, live.holds.record⟩, fun none => absurd none some⟩
    · cases called : KC.callback with
      | false =>
        rw [called] at heard
        obtain ⟨status, told, _⟩ := heard
        rw [told]
        exact Nat.le_refl 1
      | true =>
        rw [called] at heard
        have told : x.told = [] := heard
        rw [told]
        exact Nat.zero_le 1
    · intro success
      cases called : KC.callback with
      | false =>
        rw [called] at heard
        obtain ⟨status, told, wrong⟩ := heard
        rw [told, List.mem_singleton] at success
        exact absurd success.symm wrong
      | true =>
        rw [called] at heard
        have told : x.told = [] := heard
        rw [told] at success
        cases success

/-- What holds between two events is kept by a run of which each event is covered. -/
theorem run_spec {steps : List Step} (inv : Inv K x) (covered : CoveredRun K x steps) :
    ∃ x', run K x steps = .ok x' ∧ Inv K x' := by
  induction steps generalizing x with
  | nil => exact ⟨x, rfl, inv⟩
  | cons s steps ih =>
    obtain ⟨x', here, inv'⟩ := step_spec inv s covered.1
    obtain ⟨x'', later, inv''⟩ := ih inv' (covered.2 x' here)
    refine ⟨x'', ?_, inv''⟩
    rw [run, List.foldlM_cons, here, ok_bind]
    exact later

/-- A record and a string that are allocated one after the other. -/
theorem holds_of_new {h h' : Heap Object} {record KC : Record} {useragent : List UInt8}
    (nothing : Freed h)
    (objects : h'.objects = Function.update
      ((h.push (.record record)).attempt.2.push (.string useragent)).objects h.next
      (some (.record KC))) (copy : KC.useragent = h.next + 1) : Holds h' h.next KC := by
  have stored : ((h.push (.record record)).attempt.2.push (.string useragent)).objects =
      Function.update (Function.update h.objects h.next (some (.record record))) (h.next + 1)
        (some (.string useragent)) := rfl
  rw [stored] at objects
  refine ⟨?_, ⟨useragent, ?_⟩, ?_⟩
  · rw [objects]
    exact Function.update_self _ _ _
  · rw [objects, copy, Function.update_of_ne (Nat.succ_ne_self _)]
    exact Function.update_self _ _ _
  · intro id notRecord notString
    rw [copy] at notString
    rw [objects, Function.update_of_ne notRecord, Function.update_of_ne notString,
      Function.update_of_ne notRecord]
    exact nothing id

/-- The write that a new key exchange waits for. -/
theorem inv_of_new {heap : Heap Object} {cookie copy : Nat} {useragentlen : UInt8}
    (holds : Holds heap cookie (newRecord copy useragentlen)) :
    Inv K ⟨heap.attempt.2, cookie, [(.protoSent, [0])], none, none, 0, 0, [], [], []⟩ := by
  refine .inr ⟨newRecord copy useragentlen, holds.attempt, .write rfl, rfl, rfl, ?_⟩
  intro callback member
  have first : callback = .protoSent := List.mem_singleton.mp member
  rw [first]
  trivial

/-- A key exchange that cannot be started leaves no memory behind; one that is started waits for
its first write. -/
theorem netprotoKeyexchange_spec (fates : List Bool) (useragent : List UInt8) :
    (∃ heap, netprotoKeyexchange (Heap.empty fates) useragent = .ok (none, heap) ∧ Freed heap) ∨
    ∃ x heap, netprotoKeyexchange (Heap.empty fates) useragent = .ok (some x, heap) ∧ Inv K x := by
  have nothing : Freed (Heap.empty (α := Object) fates).attempt.2 := fun _ => rfl
  rw [netprotoKeyexchange]
  by_cases wrong : useragent.length < 1 ∨ 255 < useragent.length
  · rw [if_pos wrong]
    exact .inl ⟨_, rfl, fun _ => rfl⟩
  · rw [if_neg wrong]
    generalize Heap.empty fates = h0 at nothing ⊢
    have same : h0.next = h0.attempt.2.next := rfl
    simp only [Heap.alloc]
    by_cases first : h0.attempt.1 = true
    · simp only [first, if_true]
      exact .inl ⟨_, rfl, nothing⟩
    · rw [Bool.not_eq_true] at first
      simp only [first, Bool.false_eq_true, if_false]
      rw [same]
      generalize h0.attempt.2 = h at nothing ⊢
      generalize newRecord 0 (UInt8.ofNat useragent.length) = record
      have live : (h.push (.record record)).objects h.next = some (.record record) :=
        Function.update_self _ _ _
      by_cases second : (h.push (.record record)).attempt.1 = true
      · simp only [second, if_true]
        obtain ⟨heap, free, objects, _⟩ := Heap.free_ok (h := (h.push (.record record)).attempt.2)
          live
        rw [free]
        refine .inl ⟨heap, rfl, ?_⟩
        intro id
        rw [objects]
        by_cases isRecord : id = h.next
        · rw [isRecord]
          exact Function.update_self _ _ _
        · rw [Function.update_of_ne isRecord]
          have other : (h.push (.record record)).objects id = h.objects id :=
            Function.update_of_ne isRecord _ _
          exact other.trans (nothing id)
      · rw [Bool.not_eq_true] at second
        simp only [second, Bool.false_eq_true, if_false]
        have stays : ((h.push (.record record)).attempt.2.push (.string useragent)).objects h.next =
            some (.record record) := by
          have other : h.next ≠ h.next + 1 := Nat.ne_of_lt (Nat.lt_succ_self _)
          exact (Function.update_of_ne other _ _).trans live
        obtain ⟨heap, write, objects, _⟩ := Heap.write_ok stays
          (.record (newRecord (h.push (.record record)).next (UInt8.ofNat useragent.length)))
        have holds := holds_of_new nothing objects rfl
        rw [write]
        simp only [access, Except.mapError, ok_bind]
        by_cases third : heap.attempt.1 = true
        · obtain ⟨string, last, freeString, freeRecord', freed⟩ := holds.attempt.free
          simp only [newRecord] at freeString
          rw [if_pos third, freeString]
          show (∃ heap', (access (string.free (some h.next)) >>= fun h => pure (none, h)) = _ ∧
            _) ∨ _
          rw [freeRecord']
          exact .inl ⟨last, rfl, freed⟩
        · rw [if_neg third]
          exact .inr ⟨_, _, rfl, inv_of_new holds⟩

variable (K)

/-- A key exchange completes once, whatever is allocated and whatever happens to it, as long as the
write of the length of the user-agent name is done only while that of the name is pending. When it
is done otherwise, the exchange ends but its record is not freed. -/
theorem keyexchange_once (fates : List Bool) (useragent : List UInt8) :
    (∃ heap, netprotoKeyexchange (Heap.empty fates) useragent = .ok (none, heap) ∧ Freed heap) ∨
    ∃ x heap, netprotoKeyexchange (Heap.empty fates) useragent = .ok (some x, heap) ∧
      ∀ steps, CoveredRun K x steps → ∃ x', run K x steps = .ok x' ∧ Once K x' ∧
        ∀ s, ¬Covered x' s →
          ∃ x'', step K x' s = .ok x'' ∧ pending x'' = [] ∧ ¬Freed x''.heap := by
  rcases netprotoKeyexchange_spec (K := K) fates useragent with refused | ⟨x, heap, started, inv⟩
  · exact .inl refused
  · refine .inr ⟨x, heap, started, ?_⟩
    intro steps covered
    obtain ⟨x', ran, inv'⟩ := run_spec inv covered
    exact ⟨x', ran, inv'.once, fun s uncovered => step_uncovered inv' s uncovered⟩

end Exchanges

section Leak

/-- Cryptographic functions that accept every value of the server. -/
def trusting : KeyPrimitives where
  session := ⟨fun _ _ => Vector.replicate 32 0, fun _ => Vector.replicate 32 0, fun _ _ => 0⟩
  rsaVerify _ _ := true
  dhSane _ := true
  sharedKey _ _ _ := []

/-- An event while the upstream callback cancels nothing. -/
def quietly (event : Event) : Step := ⟨event, ([], []), fun _ => ⟨false, 0⟩⟩

/-- There is no memory for queueing the user-agent name behind its length, and the upstream callback
does not cancel the write of the length. When this is done, the record stays in memory. -/
theorem keyexchange_leaks : ∃ x heap x',
    netprotoKeyexchange (Heap.empty [false, false, false, false, false, true]) [97] =
      .ok (some x, heap) ∧
    run trusting x [quietly (.written .ok), quietly (.read .ok [0]), quietly (.written .ok)] =
      .ok x' ∧ pending x' = [] ∧ ¬Once trusting x' := by
  refine ⟨_, _, _, rfl, rfl, rfl, ?_⟩
  intro once
  have freed := (once.ended rfl).2 0
  cases freed

end Leak

end Tarsnap.Netproto.Keyexchange
