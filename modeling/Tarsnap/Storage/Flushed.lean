import Tarsnap.Storage.Pending
import Tarsnap.Storage.Authenticated
import Mathlib.Algebra.Order.Group.Multiset
import Mathlib.Algebra.BigOperators.Group.Multiset.Basic
import Mathlib.Algebra.Order.BigOperators.Group.List

/-!
# A flush means that everything is stored

A request that is counted is in the queue of one connection, or was answered, or failed before it
was queued. An answer takes it from the queue, so that no request is answered twice, and only an
answer that reports success takes it off the counter. Hence the counter is always what is not
acknowledged, and a flush that succeeds leaves nothing of it.
-/

namespace Tarsnap.Storage

open Tarsnap.Lib Tarsnap.Netpacket

section Connection

variable {χ : Type}

/-- The cookies in the queue of a connection. -/
def cookies (N : NetpacketConnection χ) : Multiset χ := (N.pending.map (·.cookie) : List χ)

/-- Reconnecting leaves the queue as it is. -/
theorem reconnect_pending (forever : Bool) (N : NetpacketConnection χ) (f : LayerFaults) :
    (reconnect forever N f).2.pending = N.pending := by
  unfold reconnect
  by_cases unflushed : f.flush = false
  · rw [if_pos unflushed]
  rw [if_neg unflushed]
  simp only
  generalize (if forever = true ∧ MAXRECONNECTS < N.link.ndrops + 1 then MAXRECONNECTS
    else N.link.ndrops + 1) = ndrops
  by_cases often : MAXRECONNECTS < ndrops ∨
      (N.link.serveralive = false ∧ MAXRECONNECTS_AWOL < ndrops)
  · rw [if_pos often]
  · rw [if_neg often]
    split <;> rfl

/-- Sending packets leaves their operations where they are. -/
theorem writepackets_cookies (writepacket : Nat → Bool) (ops : List (NetpacketOp χ)) (n : Nat) :
    (writepackets writepacket n ops).2.map (·.cookie) = ops.map (·.cookie) := by
  induction ops generalizing n with
  | nil => rfl
  | cons op rest ih =>
    unfold writepackets
    by_cases sent : writepacket n = true
    · rw [if_pos sent]
      simp only [List.map_cons, ih]
    · rw [if_neg sent]

/-- An operation joins the queue, unless there is no memory for it. -/
theorem netpacketOp_cookies (N : NetpacketConnection χ) (cookie : χ) (f : LayerFaults) :
    cookies (netpacketOp N cookie f).2 ≤ cookies N + {cookie} := by
  have joined (link : Link) (handlepacket : Bool) :
      cookies ⟨link, N.pending ++ [⟨cookie, handlepacket⟩]⟩ = cookies N + {cookie} := by
    unfold cookies
    rw [List.map_append, ← Multiset.coe_add]
    rfl
  unfold netpacketOp
  by_cases memory : f.malloc = false
  · rw [if_pos memory]
    exact Multiset.le_add_right _ _
  rw [if_neg memory]
  cases N.link.state with
  | disconnected =>
    simp only
    by_cases started : f.connect = true
    · rw [if_pos started]
      exact le_of_eq (joined _ false)
    · rw [if_neg started]
      exact le_of_eq (joined _ false)
  | connecting => exact le_of_eq (joined _ false)
  | connected =>
    simp only
    by_cases sent : f.writepacket 0 = true
    · rw [if_pos sent]
      exact le_of_eq (joined _ true)
    · rw [if_neg sent]
      exact le_of_eq (joined _ false)

end Connection

section Event

variable {kind : RequestKind}

/-- What an event does to the ledger and the queue of its connection. -/
inductive Effect (kind : RequestKind) (L : Ledger) (queue : Multiset FileCookie) :
    Ledger → Multiset FileCookie → Prop where
  /-- Nothing. -/
  | same : Effect kind L queue L queue
  /-- A request leaves the queue with an error. -/
  | rejected {C : FileCookie} {rest : Multiset FileCookie} (front : queue = {C} + rest) :
      Effect kind L queue L rest
  /-- A request leaves the queue and is acknowledged. -/
  | acknowledged {C : FileCookie} {rest : Multiset FileCookie} {packettype : UInt8}
      {packetbuf : List UInt8} (front : queue = {C} + rest)
      (length : callbackGetbuf packettype packetbuf.length = true)
      (accepted : kind.accepts C.request packettype packetbuf = true) :
      Effect kind L queue (L.acknowledge kind ⟨C, packettype, packetbuf⟩) rest

/-- Calling the handler. -/
theorem handlePacket_effect {N N' : NetpacketConnection FileCookie} {handled : Handled}
    {L L' : Ledger} {f : LayerFaults} {rc : Int}
    (length : ∀ packet ∈ handled, callbackGetbuf packet.1 packet.2.length = true)
    (called : handlePacket (callbackFileResponse kind) N handled L f = some (rc, N', L')) :
    Effect kind L (cookies N) L' (cookies N') := by
  unfold handlePacket at called
  cases queue : N.pending with
  | nil =>
    rw [queue] at called
    exact nomatch called
  | cons head rest =>
    rw [queue] at called
    simp only at called
    by_cases unset : head.handlepacket = false
    · rw [if_pos unset] at called
      exact nomatch called
    rw [if_neg unset] at called
    have done : (callbackFileResponse kind head.cookie handled L).2.1 = false := by
      unfold callbackFileResponse
      cases handled with
      | none => rfl
      | some packet =>
        simp only
        split <;> rfl
    simp only [done, Bool.false_eq_true, if_false] at called
    have left : cookies N' = (rest.map (·.cookie) : List FileCookie) ∧
        L' = (callbackFileResponse kind head.cookie handled L).2.2 := by
      split at called
      · split at called
        · cases called
          exact ⟨rfl, rfl⟩
        · cases called
          exact ⟨rfl, rfl⟩
      · cases called
        exact ⟨rfl, rfl⟩
    have front : cookies N = {head.cookie} + ((rest.map (·.cookie) : List FileCookie) :
        Multiset FileCookie) := by
      unfold cookies
      rw [queue, List.map_cons, Multiset.singleton_add]
      rfl
    rw [left.1, left.2]
    unfold callbackFileResponse
    cases handled with
    | none => exact .rejected front
    | some packet =>
      simp only
      by_cases accepted : kind.accepts head.cookie.request packet.1 packet.2 = true
      · rw [if_pos accepted]
        exact .acknowledged front (length packet rfl) accepted
      · rw [if_neg accepted]
        exact .rejected front

/-- The callback of an event. -/
theorem netpacketEvent_effect {forever : Bool} {N N' : NetpacketConnection FileCookie}
    {event : NetpacketEvent} {L L' : Ledger} {f : LayerFaults} {rc : Int}
    (called : netpacketEvent forever (callbackFileResponse kind) N event L f = some (rc, N', L')) :
    Effect kind L (cookies N) L' (cookies N') := by
  have kept (pending : N'.pending = N.pending) (same : L' = L) :
      Effect kind L (cookies N) L' (cookies N') := by
    rw [same]
    unfold cookies
    rw [pending]
    exact .same
  cases event with
  | connected ok =>
    cases called
    unfold callbackConnect
    cases ok with
    | true =>
      rw [if_pos rfl]
      unfold cookies
      simp only [writepackets_cookies]
      exact .same
    | false =>
      rw [if_neg Bool.false_ne_true]
      unfold cookies
      rw [reconnect_pending]
      exact .same
  | packetsent ok =>
    cases called
    unfold netpacketOpPacketsent
    by_cases failed : ok = false
    · rw [if_pos failed]
      unfold cookies
      rw [reconnect_pending]
      exact .same
    · rw [if_neg failed]
      by_cases idle : N.link.reading = false
      · rw [if_pos idle]
        split <;> exact .same
      · rw [if_neg idle]
        exact .same
  | packetreceived received =>
    cases received with
    | lost =>
      cases called
      unfold cookies
      rw [reconnect_pending]
      exact .same
    | protocol =>
      exact handlePacket_effect (fun _ nothing => absurd nothing (Option.not_mem_none _)) called
    | packet packettype packetbuf =>
      unfold netpacketEvent callbackPacketreceived at called
      simp only at called
      by_cases length : callbackGetbuf packettype packetbuf.length = true
      · rw [if_pos length] at called
        refine handlePacket_effect ?_ called
        intro packet here
        cases here
        exact length
      · rw [if_neg length] at called
        exact handlePacket_effect (fun _ nothing => absurd nothing (Option.not_mem_none _)) called
  | reconnect =>
    cases called
    unfold callbackReconnect
    split
    · exact .same
    · split <;> exact .same

end Event

section Booked

variable {kind : RequestKind} {forever : Bool} {held : Multiset FileCookie}

/-- The cookies in the queues of all connections. -/
def queued (S : Transaction) : Multiset FileCookie := (S.NPC.map cookies).sum

/-- The cookies that were acknowledged. -/
def Ledger.answered (L : Ledger) : List FileCookie := L.acknowledged.map (·.cookie)

/-- A request that is no longer pending is answered. -/
theorem Ledger.answered_acknowledge (kind : RequestKind) (L : Ledger) (a : Acknowledgement) :
    ((L.acknowledge kind a).answered : Multiset FileCookie) = L.answered + {a.cookie} := by
  unfold Ledger.answered Ledger.acknowledge
  rw [List.map_append, ← Multiset.coe_add]
  rfl

/-- What some requests add to the counter. -/
def RequestKind.total (kind : RequestKind) (requests : Multiset FileCookie) : Nat :=
  (requests.map fun C => kind.cost C.request).sum

/-- The counter and the queues are in order. Besides what is queued, some counted requests may be
held back by a call that has not queued them yet. -/
structure Booked (kind : RequestKind) (held : Multiset FileCookie) (S : Transaction) : Prop where
  /-- The counted requests have different numbers. -/
  numbers : S.ledger.counted.map (·.number) = List.range S.ledger.counted.length
  /-- Each counted request is acknowledged, queued or held back at most once. -/
  apart : (S.ledger.answered : Multiset FileCookie) + queued S + held ≤ S.ledger.counted
  /-- The counter is what was counted, less what was acknowledged. -/
  balance : S.ledger.pending + kind.total S.ledger.answered = kind.total S.ledger.counted
  /-- Each request counts something. -/
  positive : ∀ C ∈ S.ledger.counted, 0 < kind.cost C.request
  /-- The packets were accepted. -/
  accepted : ∀ a ∈ S.ledger.acknowledged, callbackGetbuf a.packettype a.packetbuf.length = true ∧
    kind.accepts a.cookie.request a.packettype a.packetbuf = true

/-- Putting another element in a list of summands. -/
theorem sum_set {α : Type} {values : List α} {i : Nat} {old : α} (f : α → Multiset FileCookie)
    (here : values[i]? = some old) (new : α) :
    ((values.set i new).map f).sum + f old = (values.map f).sum + f new := by
  induction values generalizing i with
  | nil => exact nomatch here
  | cons first rest ih =>
    cases i with
    | zero =>
      cases here
      rw [List.set_cons_zero, List.map_cons, List.map_cons, List.sum_cons, List.sum_cons]
      exact add_right_comm _ _ _ |>.trans (by rw [add_comm (f new), add_right_comm])
    | succ i =>
      rw [List.set_cons_succ, List.map_cons, List.map_cons, List.sum_cons, List.sum_cons,
        add_assoc, ih here, add_assoc]

/-- What a wait leaves as it is, and what it does to the counter. -/
structure Waited (S S' : Transaction) : Prop where
  /-- No request is counted. -/
  counted : S'.ledger.counted = S.ledger.counted
  /-- The counter does not grow. -/
  pending : S'.ledger.pending ≤ S.ledger.pending
  /-- The nonce stays. -/
  nonce : S'.nonce = S.nonce

/-- Nothing happened. -/
theorem Waited.refl (S : Transaction) : Waited S S := ⟨rfl, le_refl _, rfl⟩

/-- One wait after the other. -/
theorem Waited.trans {S S' S'' : Transaction} (first : Waited S S') (last : Waited S' S'') :
    Waited S S'' :=
  ⟨last.counted.trans first.counted, last.pending.trans first.pending,
    last.nonce.trans first.nonce⟩

/-- The callback of an event keeps the books. -/
theorem runEvent_booked {S S' : Transaction} {i : Nat} {event : NetpacketEvent} {f : LayerFaults}
    {rc : Int} (booked : Booked kind held S) (run : runEvent forever kind S i event f = some
      (rc, S')) :
    Booked kind held S' ∧ Waited S S' := by
  unfold runEvent at run
  cases place : S.NPC[i]? with
  | none =>
    rw [place] at run
    exact nomatch run
  | some N =>
    rw [place] at run
    obtain ⟨⟨rc', N', L'⟩, called, same⟩ := Option.map_eq_some_iff.mp run
    cases same
    have swapped := sum_set cookies place N'
    have effect := netpacketEvent_effect called
    generalize after : cookies N' = queue at effect swapped
    cases effect with
    | same =>
      have equal : queued { S with NPC := S.NPC.set i N' } = queued S := add_right_cancel swapped
      refine ⟨⟨booked.numbers, ?_, booked.balance, booked.positive, booked.accepted⟩,
        ⟨rfl, le_refl _, rfl⟩⟩
      have apart := booked.apart
      rw [← equal] at apart
      exact apart
    | @rejected C _ front =>
      have fewer : queued { S with NPC := S.NPC.set i N' } ≤ queued S := by
        apply Multiset.le_iff_exists_add.mpr
        refine ⟨{C}, ?_⟩
        rw [front, ← add_assoc] at swapped
        exact (add_right_cancel swapped).symm
      refine ⟨⟨booked.numbers, ?_, booked.balance, booked.positive, booked.accepted⟩,
        ⟨rfl, le_refl _, rfl⟩⟩
      exact (add_le_add_left (add_le_add_right fewer _) _).trans booked.apart
    | @acknowledged C _ packettype packetbuf front length accepted =>
      have fewer : queued { S with NPC := S.NPC.set i N' } + {C} = queued S := by
        rw [front, ← add_assoc] at swapped
        exact add_right_cancel swapped
      have answered := S.ledger.answered_acknowledge kind ⟨C, packettype, packetbuf⟩
      refine ⟨⟨booked.numbers, ?_, ?_, booked.positive, ?_⟩, rfl, ?_, rfl⟩
      · have apart := booked.apart
        rw [← fewer, add_comm (queued _) {C}] at apart
        change ((S.ledger.acknowledge kind _).answered : Multiset FileCookie) + _ + _ ≤ _
        rw [answered, add_assoc (S.ledger.answered : Multiset FileCookie)]
        exact apart
      · have balance := booked.balance
        have more : kind.total (S.ledger.answered + {C}) =
            kind.total S.ledger.answered + kind.cost C.request := by
          unfold RequestKind.total
          rw [Multiset.map_add, Multiset.sum_add, Multiset.map_singleton, Multiset.sum_singleton]
        change S.ledger.pending - kind.cost C.request +
          kind.total (S.ledger.acknowledge kind _).answered = kind.total S.ledger.counted
        rw [answered, more, Nat.cast_add]
        omega
      · intro a member
        rcases List.mem_append.mp member with old | new
        · exact booked.accepted a old
        · rw [List.mem_singleton.mp new]
          exact ⟨length, accepted⟩
      · change S.ledger.pending - kind.cost C.request ≤ S.ledger.pending
        omega

/-- Callbacks keep the books. -/
theorem runEvents_booked (events : List (Nat × NetpacketEvent × LayerFaults)) {S : Transaction}
    (booked : Booked kind held S) :
    Booked kind held (runEvents forever kind events S).2 ∧
      Waited S (runEvents forever kind events S).2 := by
  induction events generalizing S with
  | nil => exact ⟨booked, Waited.refl S⟩
  | cons event rest ih =>
    unfold runEvents
    cases run : runEvent forever kind S event.1 event.2.1 event.2.2 with
    | none => exact ⟨booked, Waited.refl S⟩
    | some result =>
      obtain ⟨rc, S'⟩ := result
      obtain ⟨booked', waited⟩ := runEvent_booked booked run
      simp only
      by_cases failed : rc ≠ 0
      · rw [if_pos failed]
        exact ⟨booked', waited⟩
      · rw [if_neg failed]
        have later := ih booked'
        exact ⟨later.1, waited.trans later.2⟩

/-- A wait for events keeps the books. -/
theorem networkSelect_booked (select : Select) {S : Transaction} (booked : Booked kind held S) :
    Booked kind held (networkSelect forever kind select S).2 ∧
      Waited S (networkSelect forever kind select S).2 := by
  have run : _ ∧ Waited S (runEvents forever kind select.events S).2 :=
    runEvents_booked select.events booked
  unfold networkSelect
  generalize runEvents forever kind select.events S = result at run ⊢
  split
  · split
    · exact run
    · exact run
  · exact run

/-- Waiting keeps the books, and ends with success only if not too much is pending. -/
theorem waitWhile_booked (forever : Bool) (busy : Int → Bool) (selects : List Select)
    {S : Transaction}
    (booked : Booked kind held S) :
    Booked kind held (waitWhile forever kind busy selects S).2 ∧
      Waited S (waitWhile forever kind busy selects S).2 ∧
      ((waitWhile forever kind busy selects S).1 = some 0 →
        busy (waitWhile forever kind busy selects S).2.ledger.pending = false) := by
  induction selects generalizing S with
  | nil =>
    unfold waitWhile
    by_cases much : busy S.ledger.pending = true
    · rw [if_pos much]
      exact ⟨booked, Waited.refl S, fun absurdity => (nomatch absurdity)⟩
    · rw [if_neg much]
      exact ⟨booked, Waited.refl S, fun _ => Bool.eq_false_iff.mpr much⟩
  | cons select rest ih =>
    unfold waitWhile
    by_cases much : busy S.ledger.pending = true
    · rw [if_pos much]
      have selected : _ ∧ Waited S (networkSelect forever kind select S).2 :=
        networkSelect_booked select booked
      generalize networkSelect forever kind select S = result at selected ⊢
      obtain ⟨booked', waited⟩ := selected
      split
      · have later := ih booked'
        exact ⟨later.1, waited.trans later.2.1, later.2.2⟩
      · refine ⟨booked', waited, fun failed => ?_⟩
        exact absurd (Option.some.inj failed) (by decide)
      · exact ⟨booked', waited, fun absurdity => (nomatch absurdity)⟩
    · rw [if_neg much]
      exact ⟨booked, Waited.refl S, fun _ => Bool.eq_false_iff.mpr much⟩

end Booked

section Calls

variable {kind : RequestKind} {forever : Bool}

/-- Nothing is queued, counted or acknowledged at the start. -/
theorem transactionStart_booked (n : Nat) (first : Link) (nonce : Bytes32) :
    Booked kind 0 (transactionStart n first nonce) := by
  have empty : queued (transactionStart n first nonce) = 0 := by
    have unused : cookies (netpacketOpen : NetpacketConnection FileCookie) = 0 := rfl
    change (cookies _ :: (List.replicate (n - 1) netpacketOpen).map cookies).sum = 0
    rw [List.map_replicate, unused, List.sum_cons, List.sum_replicate, nsmul_zero]
    rfl
  refine ⟨rfl, ?_, rfl, fun C absurdity => absurd absurdity List.not_mem_nil,
    fun a absurdity => absurd absurdity List.not_mem_nil⟩
  rw [empty]
  exact le_refl _

/-- Without a request that is held back. -/
theorem Booked.release {held : Multiset FileCookie} {S : Transaction}
    (booked : Booked kind held S) : Booked kind 0 S :=
  ⟨booked.numbers, (add_le_add_right (Multiset.zero_le held) _).trans booked.apart,
    booked.balance, booked.positive, booked.accepted⟩

/-- Counting a request holds it back. -/
theorem count_booked {S : Transaction} (booked : Booked kind 0 S) (request : FileRequest)
    (positive : 0 < kind.cost request) :
    Booked kind {(S.count kind request).1} (S.count kind request).2 := by
  refine ⟨?_, ?_, ?_, ?_, booked.accepted⟩
  · change (S.ledger.counted ++ [_]).map FileCookie.number =
      List.range (S.ledger.counted ++ [_]).length
    rw [List.map_append, List.length_append, booked.numbers, List.length_singleton,
      List.range_succ]
    rfl
  · have apart := booked.apart
    rw [add_zero] at apart
    change _ ≤ ((S.ledger.counted ++ [_] : List FileCookie) : Multiset FileCookie)
    rw [← Multiset.coe_add]
    exact add_le_add_left apart _
  · have balance := booked.balance
    change S.ledger.pending + kind.cost request + kind.total S.ledger.answered =
      kind.total ((S.ledger.counted ++ [_] : List FileCookie) : Multiset FileCookie)
    have more (C : FileCookie) : kind.total ((S.ledger.counted ++ [C] : List FileCookie) :
        Multiset FileCookie) = kind.total S.ledger.counted + kind.cost C.request := by
      unfold RequestKind.total
      rw [← Multiset.coe_add, Multiset.map_add, Multiset.sum_add]
      rfl
    simp only [more, Nat.cast_add]
    omega
  · intro C member
    rcases List.mem_append.mp member with old | new
    · exact booked.positive C old
    · rw [List.mem_singleton.mp new]
      exact positive

/-- A request that was held back is queued, or dropped. -/
theorem queue_booked {S : Transaction} {C : FileCookie} (booked : Booked kind {C} S) (i : Nat)
    (f : LayerFaults) : Booked kind 0 (S.queue i C f).2 ∧
      (S.queue i C f).2.ledger = S.ledger ∧ (S.queue i C f).2.nonce = S.nonce := by
  unfold Transaction.queue
  cases place : S.NPC[i]? with
  | none => exact ⟨booked.release, rfl, rfl⟩
  | some N =>
    refine ⟨⟨booked.numbers, ?_, booked.balance, booked.positive, booked.accepted⟩, rfl, rfl⟩
    have swapped := sum_set cookies place (netpacketOp N C f).2
    have joined := netpacketOp_cookies N C f
    have more : queued { S with NPC := S.NPC.set i (netpacketOp N C f).2 } ≤ queued S + {C} := by
      apply le_of_add_le_add_right (a := cookies N)
      calc queued { S with NPC := S.NPC.set i (netpacketOp N C f).2 } + cookies N
          = queued S + cookies (netpacketOp N C f).2 := swapped
        _ ≤ queued S + (cookies N + {C}) := add_le_add_right joined _
        _ = queued S + {C} + cookies N := by rw [add_comm (cookies N), add_assoc]
    rw [add_zero]
    refine (add_le_add_right more _).trans ?_
    rw [← add_assoc]
    exact booked.apart

/-- What a call does: the counter stays what is not acknowledged, and the request of a successful
call is counted. -/
structure CallKept (kind : RequestKind) (limit most : Int) (request : Option FileRequest)
    (S : Transaction) (result : Option Int × Transaction) : Prop where
  /-- The books are kept. -/
  booked : Booked kind 0 result.2
  /-- The nonce stays. -/
  nonce : result.2.nonce = S.nonce
  /-- Requests are only added, and the one of a successful call is. -/
  counted : ∃ new, result.2.ledger.counted = S.ledger.counted ++ new ∧
    (result.1 = some 0 → new.map (·.request) = request.toList)
  /-- If not too much is pending, then not after a successful call either, and not much more
  during a call. -/
  low : S.ledger.pending ≤ limit → (result.1 = some 0 → result.2.ledger.pending ≤ limit) ∧
    (result.1 = none → result.2.ledger.pending ≤ limit + most)

/-- A call that fails at once. -/
theorem CallKept.refused {limit most : Int} {request : Option FileRequest} {S : Transaction}
    (booked : Booked kind 0 S) : CallKept kind limit most request S (some (-1), S) := by
  refine ⟨booked, rfl, ⟨[], (List.append_nil _).symm, ?_⟩, fun _ => ⟨?_, ?_⟩⟩
  · intro failed
    exact absurd (Option.some.inj failed) (by decide)
  · intro failed
    exact absurd (Option.some.inj failed) (by decide)
  · exact fun absurdity => nomatch absurdity

/-- The connection that is used next does not matter. -/
theorem Booked.lastcnum {held : Multiset FileCookie} {S : Transaction}
    (booked : Booked kind held S) (lastcnum : Nat) : Booked kind held { S with lastcnum } :=
  ⟨booked.numbers, booked.apart, booked.balance, booked.positive, booked.accepted⟩

/-- A call that counts its request, waits and queues it. -/
theorem CallKept.issued {limit most : Int} {request : FileRequest} {S : Transaction}
    {waited : Option Int × Transaction} {i : Nat} {lastcnum : Nat} {f : LayerFaults}
    (cheap : kind.cost request ≤ most)
    (booked : Booked kind {(S.count kind request).1} waited.2)
    (moved : Waited (S.count kind request).2 waited.2)
    (low : waited.1 = some 0 → waited.2.ledger.pending ≤ limit) :
    CallKept kind limit most (some request) S
      (if waited.1 = some 0 then
        { waited.2 with lastcnum }.queue i (S.count kind request).1 f
      else waited) := by
  have counted : waited.2.ledger.counted = S.ledger.counted ++ [(S.count kind request).1] :=
    moved.counted
  have pending : waited.2.ledger.pending ≤ S.ledger.pending + kind.cost request := moved.pending
  have nonce : waited.2.nonce = S.nonce := moved.nonce
  by_cases success : waited.1 = some 0
  · rw [if_pos success]
    obtain ⟨booked', ledger, nonce'⟩ := queue_booked (booked.lastcnum lastcnum) i f
    have enough := low success
    have positive : 0 ≤ (kind.cost request : Int) := Int.natCast_nonneg _
    refine ⟨booked', nonce'.trans nonce, ⟨[(S.count kind request).1], ?_, fun _ => rfl⟩,
      fun start => ⟨?_, ?_⟩⟩
    · rw [ledger]
      exact counted
    · intro _
      rw [ledger]
      exact enough
    · intro _
      rw [ledger]
      change waited.2.ledger.pending ≤ limit + most
      omega
  · rw [if_neg success]
    exact ⟨booked.release, nonce, ⟨_, counted, fun absurdity => absurd absurdity success⟩,
      fun start => ⟨fun absurdity => absurd absurdity success, fun _ => by omega⟩⟩

/-- Writing a file. -/
theorem storageWriteFile_kept {K : Keys} {S : Transaction} (booked : Booked (writeKind K) 0 S)
    (len : Nat) (cls : UInt8) (name : Bytes32) (f : CallFaults) (selects : List Select) :
    CallKept (writeKind K) MAXPENDING_WRITEBYTES 262144
      (some ⟨cls, name, S.nonce, CRYPTO_FILE_HLEN + len + CRYPTO_FILE_TLEN⟩) S
      (storageWriteFile forever K S len cls name f selects) := by
  unfold storageWriteFile
  by_cases noCookie : f.cookie = false
  · rw [if_pos noCookie]
    exact .refused booked
  rw [if_neg noCookie]
  by_cases large : 262144 - CRYPTO_FILE_TLEN - CRYPTO_FILE_HLEN < len
  · rw [if_pos large]
    exact .refused booked
  rw [if_neg large]
  by_cases unencrypted : f.encrypted = false
  · rw [if_pos unencrypted]
    exact .refused booked
  rw [if_neg unencrypted]
  have waited := waitWhile_booked forever
    (fun pending => decide (MAXPENDING_WRITEBYTES < pending)) selects
    (count_booked booked ⟨cls, name, S.nonce, CRYPTO_FILE_HLEN + len + CRYPTO_FILE_TLEN⟩
      (Nat.lt_of_lt_of_le (by decide) (Nat.le_add_left CRYPTO_FILE_TLEN _)))
  refine .issued ?_ waited.1 waited.2.1 ?_
  · change ((CRYPTO_FILE_HLEN + len + CRYPTO_FILE_TLEN : Nat) : Int) ≤ 262144
    unfold CRYPTO_FILE_HLEN CRYPTO_FILE_TLEN at *
    omega
  · intro success
    have enough := of_decide_eq_false (waited.2.2 success)
    omega

/-- Deleting a file. -/
theorem storageDeleteFile_kept {K : Keys} {S : Transaction} (booked : Booked (deleteKind K) 0 S)
    (readonly : Bool) (cls : UInt8) (name : Bytes32) (f : CallFaults) (selects : List Select) :
    CallKept (deleteKind K) MAXPENDING_DELETE 1 (some ⟨cls, name, S.nonce, 0⟩) S
      (storageDeleteFile forever K readonly S cls name f selects) := by
  unfold storageDeleteFile
  by_cases refused : readonly = true
  · rw [if_pos refused]
    exact .refused booked
  rw [if_neg refused]
  by_cases noCookie : f.cookie = false
  · rw [if_pos noCookie]
    exact .refused booked
  rw [if_neg noCookie]
  have counted := count_booked booked ⟨cls, name, S.nonce, 0⟩ Nat.one_pos
  have waited := waitWhile_booked forever
    (fun pending => decide (MAXPENDING_DELETE / 2 + 1 < pending)) selects counted
  have one : ((deleteKind K).cost ⟨cls, name, S.nonce, 0⟩ : Int) ≤ 1 := le_refl _
  simp only
  by_cases full : MAXPENDING_DELETE <
      (S.count (deleteKind K) ⟨cls, name, S.nonce, 0⟩).2.ledger.pending
  · rw [if_pos full]
    refine .issued one waited.1 waited.2.1 ?_
    intro success
    have enough := of_decide_eq_false (waited.2.2 success)
    unfold MAXPENDING_DELETE at *
    omega
  · rw [if_neg full]
    exact .issued one counted (Waited.refl _) fun _ => not_lt.mp full

/-- A flush. -/
theorem storageFlush_kept {limit most : Int} {S : Transaction} (more : 0 ≤ most)
    (booked : Booked kind 0 S) (selects : List Select) :
    CallKept kind limit most none S (storageFlush forever kind S selects) := by
  have waited := waitWhile_booked forever (fun pending => decide (0 < pending))
    selects booked
  have less := waited.2.1.pending
  exact ⟨waited.1, waited.2.1.nonce, ⟨[], by rw [List.append_nil]; exact waited.2.1.counted,
    fun _ => rfl⟩, fun low => ⟨fun _ => less.trans low, fun _ => less.trans (by omega)⟩⟩

end Calls

section Runs

variable {kind : RequestKind}

/-- The requests of the calls that returned success, in their order. -/
def issued {κ : Type} (request : κ → Option FileRequest) (calls : List κ) (codes : List Int) :
    List FileRequest :=
  (calls.zip codes).flatMap fun done => if done.2 = 0 then (request done.1).toList else []

/-- Calls one after the other keep the books. -/
theorem runCalls_kept {κ : Type} {perform : Transaction → κ → Option Int × Transaction}
    {request : Bytes32 → κ → Option FileRequest} {limit most : Int} (positive : 0 ≤ most)
    (each : ∀ S call, Booked kind 0 S →
      CallKept kind limit most (request S.nonce call) S (perform S call))
    (calls : List κ) {S : Transaction} (booked : Booked kind 0 S) :
    Booked kind 0 (runCalls perform calls S).2 ∧
      (∃ new, (runCalls perform calls S).2.ledger.counted = S.ledger.counted ++ new ∧
        (issued (request S.nonce) calls (runCalls perform calls S).1).Sublist
          (new.map (·.request))) ∧
      (S.ledger.pending ≤ limit → (∀ rc ∈ (runCalls perform calls S).1, rc = 0) →
        (runCalls perform calls S).2.ledger.pending ≤ limit + most) := by
  induction calls generalizing S with
  | nil =>
    refine ⟨booked, ⟨[], (List.append_nil _).symm, List.Sublist.refl _⟩, fun low _ => ?_⟩
    exact low.trans (by omega)
  | cons call calls ih =>
    have kept := each S call booked
    unfold runCalls
    generalize perform S call = result at kept ⊢
    obtain ⟨rc, S'⟩ := result
    obtain ⟨new, counted, first⟩ := kept.counted
    cases rc with
    | none =>
      refine ⟨kept.booked, ⟨new, counted, ?_⟩, fun low _ => (kept.low low).2 rfl⟩
      exact List.nil_sublist _
    | some rc =>
      obtain ⟨booked', ⟨later, counted', rest⟩, low'⟩ := ih kept.booked
      have nonce : S'.nonce = S.nonce := kept.nonce
      refine ⟨booked', ⟨new ++ later, ?_, ?_⟩, ?_⟩
      · change (runCalls perform calls S').2.ledger.counted = _
        rw [counted', counted, List.append_assoc]
      · rw [nonce] at rest
        change ((if rc = 0 then (request S.nonce call).toList else []) ++
          issued (request S.nonce) calls (runCalls perform calls S').1).Sublist _
        rw [List.map_append]
        apply List.Sublist.append _ rest
        by_cases success : rc = 0
        · rw [if_pos success, ← first (by rw [success])]
        · rw [if_neg success]
          exact List.nil_sublist _
      · intro low successes
        have success : rc = 0 := successes rc List.mem_cons_self
        exact low' ((kept.low low).1 (by rw [success]))
          fun other member => successes other (List.mem_cons_of_mem _ member)

/-- The counter of a transaction is what is not acknowledged. -/
structure Accounted (kind : RequestKind) (limit : Int) (codes : List Int) (S : Transaction) :
    Prop where
  /-- No request is counted twice. -/
  distinct : S.ledger.counted.Nodup
  /-- What is queued is counted and not acknowledged. -/
  waiting : ∀ C ∈ queued S, C ∈ S.ledger.counted ∧ C ∉ S.ledger.answered
  /-- The counter is the sum over the requests that are not acknowledged. -/
  balance : S.ledger.pending = ((S.ledger.counted.filter fun C => C ∉ S.ledger.answered).map
    fun C => kind.cost C.request).sum
  /-- It does not underflow. -/
  natural : 0 ≤ S.ledger.pending
  /-- As long as no call failed it is small. -/
  bounded : (∀ rc ∈ codes, rc = 0) → S.ledger.pending ≤ limit

/-- The counted requests are those that are acknowledged and those that are not. -/
theorem Booked.partition {S : Transaction} (booked : Booked kind 0 S) :
    S.ledger.counted.Nodup ∧ (S.ledger.answered : Multiset FileCookie) +
      (S.ledger.counted.filter fun C => C ∉ S.ledger.answered : List FileCookie) =
        S.ledger.counted := by
  have distinct : S.ledger.counted.Nodup := by
    apply List.Nodup.of_map FileCookie.number
    rw [booked.numbers]
    exact List.nodup_range
  have apart := booked.apart
  rw [add_zero] at apart
  have known : (S.ledger.answered : Multiset FileCookie) ≤ S.ledger.counted :=
    (Multiset.le_add_right _ _).trans apart
  have once : S.ledger.answered.Nodup :=
    Multiset.coe_nodup.mp (Multiset.nodup_of_le known (Multiset.coe_nodup.mpr distinct))
  refine ⟨distinct, ?_⟩
  rw [Multiset.coe_add, Multiset.coe_eq_coe]
  apply (List.perm_ext_iff_of_nodup ?_ distinct).mpr
  · intro C
    rw [List.mem_append, List.mem_filter, decide_eq_true_eq]
    constructor
    · rintro (answered | ⟨counted, _⟩)
      · exact Multiset.mem_of_le known answered
      · exact counted
    · intro counted
      by_cases answered : C ∈ S.ledger.answered
      · exact .inl answered
      · exact .inr ⟨counted, answered⟩
  · apply List.Nodup.append once (distinct.filter _)
    intro C answered waits
    exact of_decide_eq_true (List.mem_filter.mp waits).2 answered

/-- The books show what is not acknowledged. -/
theorem Booked.accounted {S : Transaction} (booked : Booked kind 0 S) (limit : Int)
    (codes : List Int) (bounded : (∀ rc ∈ codes, rc = 0) → S.ledger.pending ≤ limit) :
    Accounted kind limit codes S := by
  obtain ⟨distinct, parts⟩ := booked.partition
  have apart := booked.apart
  rw [add_zero] at apart
  have balance := booked.balance
  have sums : kind.total S.ledger.counted = kind.total S.ledger.answered +
      ((S.ledger.counted.filter fun C => C ∉ S.ledger.answered).map
        fun C => kind.cost C.request).sum := by
    rw [← parts]
    unfold RequestKind.total
    rw [Multiset.map_add, Multiset.sum_add]
    rfl
  refine ⟨distinct, ?_, by omega, by omega, bounded⟩
  intro C member
  refine ⟨Multiset.mem_of_le ((Multiset.le_add_left _ _).trans apart) member, ?_⟩
  have once : ((S.ledger.answered : Multiset FileCookie) + queued S).Nodup :=
    Multiset.nodup_of_le apart (Multiset.coe_nodup.mpr distinct)
  exact fun answered => Multiset.disjoint_left.mp (Multiset.nodup_add.mp once).2.2 answered member

/-- If nothing is pending, then every counted request is acknowledged. -/
theorem Booked.answered {S : Transaction} (booked : Booked kind 0 S)
    (nothing : S.ledger.pending = 0) : ∀ C ∈ S.ledger.counted, C ∈ S.ledger.answered := by
  intro C counted
  have balance := (booked.accounted 0 [] fun _ => le_of_eq nothing).balance
  rw [nothing] at balance
  by_contra waits
  have member : kind.cost C.request ∈ (S.ledger.counted.filter fun C =>
      C ∉ S.ledger.answered).map fun C => kind.cost C.request :=
    List.mem_map_of_mem (List.mem_filter.mpr ⟨counted, decide_eq_true waits⟩)
  have small := List.single_le_sum (fun _ _ => Nat.zero_le _) _ member
  have positive := booked.positive C counted
  omega

/-- An authenticated response to a request with status zero, which names its class and file. -/
structure Stored (K : Keys) (key : AuthKey) (packettype : UInt8) (C : FileCookie)
    (a : Acknowledgement) : Prop where
  /-- It was handled as the response to the request. -/
  cookie : a.cookie = C
  /-- It has the right type. -/
  type : a.packettype = packettype
  /-- It is authenticated with the nonce of the transaction. -/
  authentic : Authentic K key (some C.request.nonce) packettype a.packetbuf
  /-- Its status is zero. -/
  status : byte a.packetbuf 0 = 0
  /-- It names the class. -/
  cls : byte a.packetbuf 1 = C.request.cls
  /-- It names the file. -/
  name : field a.packetbuf 2 32 = C.request.name.toList

/-- A packet that names the right file. -/
theorem checkFile_ok {packetbuf : List UInt8} {cls : UInt8} {name : Bytes32} {done : Unit}
    (checked : checkFile packetbuf cls name = .ok done) :
    byte packetbuf 1 = cls ∧ field packetbuf 2 32 = name.toList := by
  unfold checkFile at checked
  split at checked
  · exact nomatch checked
  · rename_i same
    exact ⟨Decidable.not_not.mp fun other => same (.inl other),
      Decidable.not_not.mp fun other => same (.inr other)⟩

/-- A response that is not a refusal has the status zero. -/
theorem fileStatus_ok {status : UInt8} {success response : Response} {exists_ interrupted : String}
    (result : (if status = 0 then .ok success
      else if status = 1 then .ok (.refused exists_)
      else if status = 2 then .ok (.refused interrupted)
      else .error Reject.protocol) = Except.ok response)
    (accepted : ∀ warning, response ≠ .refused warning) : status = 0 := by
  by_contra other
  rw [if_neg other] at result
  by_cases one : status = 1
  · rw [if_pos one] at result
    exact accepted _ (Except.ok.inj result).symm
  rw [if_neg one] at result
  by_cases two : status = 2
  · rw [if_pos two] at result
    exact accepted _ (Except.ok.inj result).symm
  · rw [if_neg two] at result
    exact nomatch result

/-- An accepted packet that takes a written file off. -/
theorem writeKind_stored {K : Keys} {a : Acknowledgement}
    (length : callbackGetbuf a.packettype a.packetbuf.length = true)
    (accepted : (writeKind K).accepts a.cookie.request a.packettype a.packetbuf = true) :
    Stored K .put NETPACKET_WRITE_FILE_RESPONSE a.cookie a := by
  cases handled : callbackWriteFileResponse K true a.packettype a.packetbuf a.cookie.request with
  | error reject =>
    unfold writeKind at accepted
    simp only [handled] at accepted
    exact nomatch accepted
  | ok response =>
    have whole := handled
    unfold callbackWriteFileResponse at handled
    obtain ⟨_, verified, rest⟩ := bind_eq_ok.mp handled
    obtain ⟨_, checked, result⟩ := bind_eq_ok.mp rest
    have type := (verifyResponse_ok verified).1
    have named := checkFile_ok checked
    rw [type] at length whole
    obtain ⟨_, ⟨key, known, authentic⟩, _⟩ := writeFile_authenticated K (fun _ => .error)
      a.cookie.request true NETPACKET_WRITE_FILE_RESPONSE a.packetbuf response length whole
    cases known
    refine ⟨rfl, type, authentic, ?_, named.1, named.2⟩
    apply fileStatus_ok result
    rintro warning rfl
    unfold writeKind at accepted
    rw [← type] at whole
    simp only [whole] at accepted
    exact nomatch accepted

/-- An accepted packet that takes a deleted file off. -/
theorem deleteKind_stored {K : Keys} {a : Acknowledgement}
    (length : callbackGetbuf a.packettype a.packetbuf.length = true)
    (accepted : (deleteKind K).accepts a.cookie.request a.packettype a.packetbuf = true) :
    Stored K .delete NETPACKET_DELETE_FILE_RESPONSE a.cookie a := by
  cases handled : callbackDeleteFileResponse K true a.packettype a.packetbuf a.cookie.request with
  | error reject =>
    unfold deleteKind at accepted
    simp only [handled] at accepted
    exact nomatch accepted
  | ok response =>
    have whole := handled
    unfold callbackDeleteFileResponse at handled
    obtain ⟨_, verified, rest⟩ := bind_eq_ok.mp handled
    obtain ⟨_, checked, result⟩ := bind_eq_ok.mp rest
    have type := (verifyResponse_ok verified).1
    have named := checkFile_ok checked
    rw [type] at length whole
    obtain ⟨_, ⟨key, known, authentic⟩, _⟩ := deleteFile_authenticated K (fun _ => .error)
      a.cookie.request true NETPACKET_DELETE_FILE_RESPONSE a.packetbuf response length whole
    cases known
    refine ⟨rfl, type, authentic, ?_, named.1, named.2⟩
    apply fileStatus_ok result
    rintro warning rfl
    unfold deleteKind at accepted
    rw [← type] at whole
    simp only [whole] at accepted
    exact nomatch accepted

/-- What holds after some calls on a transaction: the counter is what is not acknowledged, the
requests of the successful calls are counted, and a flush that succeeds means that each counted
request was answered. -/
structure FlushMeansStored (kind : RequestKind) (limit : Int) (requests : List FileRequest)
    (flush : Transaction → Option Int × Transaction)
    (answer : FileCookie → Acknowledgement → Prop) (codes : List Int) (S : Transaction) : Prop where
  /-- The counter is what is not acknowledged. -/
  accounted : Accounted kind limit codes S
  /-- The successful calls queued the requests that they count. -/
  counted : requests.Sublist (S.ledger.counted.map (·.request))
  /-- A flush that succeeds means that each request was answered. -/
  flushed : ∀ S', flush S = (some 0, S') → S'.ledger.counted = S.ledger.counted ∧
    ∀ C ∈ S'.ledger.counted, ∃ a ∈ S'.ledger.acknowledged, answer C a

/-- The books show what a flush means. -/
theorem flushMeansStored_of_kept {κ : Type} {forever : Bool}
    {perform : Transaction → κ → Option Int × Transaction}
    {request : Bytes32 → κ → Option FileRequest} {limit most : Int} (natural : 0 ≤ limit)
    (positive : 0 ≤ most)
    (each : ∀ S call, Booked kind 0 S →
      CallKept kind limit most (request S.nonce call) S (perform S call))
    {answer : FileCookie → Acknowledgement → Prop}
    (answers : ∀ a, callbackGetbuf a.packettype a.packetbuf.length = true →
      kind.accepts a.cookie.request a.packettype a.packetbuf = true → answer a.cookie a)
    (n : Nat) (first : Link) (nonce : Bytes32) (calls : List κ) (selects : List Select) :
    FlushMeansStored kind (limit + most)
      (issued (request nonce) calls (runCalls perform calls (transactionStart n first nonce)).1)
      (fun S => storageFlush forever kind S selects) answer
      (runCalls perform calls (transactionStart n first nonce)).1
      (runCalls perform calls (transactionStart n first nonce)).2 := by
  obtain ⟨booked, ⟨new, counted, requests⟩, low⟩ := runCalls_kept positive each calls
    (transactionStart_booked n first nonce)
  refine ⟨booked.accounted _ _ (low natural), ?_, ?_⟩
  · rw [counted]
    exact requests
  · intro S' flushed
    have waited := waitWhile_booked forever (fun pending => decide (0 < pending))
      selects booked
    unfold storageFlush at flushed
    rw [flushed] at waited
    obtain ⟨booked', moved, enough⟩ := waited
    have natural' : 0 ≤ S'.ledger.pending := (booked'.accounted 0 [1] fun absurdity =>
      absurd (absurdity 1 List.mem_cons_self) (by decide)).natural
    have nothing : S'.ledger.pending = 0 := by
      have done := of_decide_eq_false (enough rfl)
      change ¬ 0 < S'.ledger.pending at done
      omega
    refine ⟨moved.counted, ?_⟩
    intro C member
    obtain ⟨a, there, same⟩ := List.mem_map.mp (booked'.answered nothing C member)
    rw [← same]
    exact ⟨a, there, answers a (booked'.accepted a there).1 (booked'.accepted a there).2⟩

/-- For every sequence of calls on a write transaction over one or eight connections, and on a
delete transaction, whatever happens at the connections: the counter is the sum over what is not
acknowledged, and a flush that succeeds means that every file is stored, or deleted. -/
theorem storage_flush_stored (K : Keys) (forever : Bool) (first : Link) (nonce : Bytes32)
    (selects : List Select) :
    (∀ (aggressive : Bool) (calls : List WriteCall),
      let ran := runCalls (WriteCall.perform forever K) calls
        (transactionStart (numconns aggressive) first nonce)
      FlushMeansStored (writeKind K) (MAXPENDING_WRITEBYTES + 262144)
        (issued (WriteCall.request nonce) calls ran.1)
        (fun S => storageWriteFlush forever K S selects)
        (Stored K .put NETPACKET_WRITE_FILE_RESPONSE) ran.1 ran.2) ∧
    ∀ (readonly : Bool) (calls : List DeleteCall),
      let ran := runCalls (fun S call => DeleteCall.perform forever K readonly S call) calls
        (transactionStart 1 first nonce)
      FlushMeansStored (deleteKind K) (MAXPENDING_DELETE + 1)
        (issued (DeleteCall.request nonce) calls ran.1)
        (fun S => storageDeleteFlush forever K S selects)
        (Stored K .delete NETPACKET_DELETE_FILE_RESPONSE) ran.1 ran.2 := by
  constructor
  · intro aggressive calls
    refine flushMeansStored_of_kept (by decide) (by decide) ?_
      (fun a length accepted => writeKind_stored length accepted) _ first nonce calls selects
    intro S call booked
    cases call with
    | file len cls name f selects => exact storageWriteFile_kept booked len cls name f selects
    | flush selects => exact storageFlush_kept (by decide) booked selects
  · intro readonly calls
    refine flushMeansStored_of_kept (by decide) (by decide) ?_
      (fun a length accepted => deleteKind_stored length accepted) _ first nonce calls selects
    intro S call booked
    cases call with
    | file cls name f selects => exact storageDeleteFile_kept booked readonly cls name f selects
    | flush selects => exact storageFlush_kept (by decide) booked selects

end Runs

end Tarsnap.Storage
