import Tarsnap.Network.Writeq
import Mathlib

/-!
# Runs of a write queue

A queue is added to, and its socket and all others go on. As long as events can be started, and the
write of the next buffer can be started whenever a buffer is removed, the buffer at the head is
being written: the callbacks of the buffers are invoked once each and in the order of the queue, and
a cancellation ends with an empty queue. Otherwise a buffer may stay at the head that nobody writes,
and a cancellation never ends.
-/

namespace Tarsnap.Network

section Runs

variable {β γ : Type}

/-- The place of the callback of the queue. -/
def Writeq.slot (Q : Writeq β γ) : Slot :=
  (.write, Q.fd.toNat)

/-- A callback that is registered by others is not for a buffer of this queue, and not in its
place. -/
def Call.Foreign (slot : Slot) : Call (Registrant γ) → Prop
  | .register fd op _ cb _ => (op, fd.toNat) ≠ slot ∧ ∃ k, cb = .other k
  | _ => True

/-- Memory that is allocated, and timers that are started, are not in use yet. -/
def WriteAnswers.Fresh (answers : WriteAnswers) (Q : Writeq β γ) : Prop :=
  (∀ address, answers.malloc = some address → Q.cookies address = none) ∧
    ∀ id, answers.register.timer = some id → ∀ timer ∈ Q.registry.events.timers, timer.id ≠ id

/-- The same for all answers to a callback. -/
def Answers.Fresh (answers : Answers) (Q : Writeq β γ) : Prop :=
  answers.write.Fresh Q ∧
    ∀ id, answers.again.timer = some id → ∀ timer ∈ Q.registry.events.timers, timer.id ≠ id

/-- The events of a registration can be started. -/
def RegisterFaults.Starts (faults : RegisterFaults) : Prop :=
  faults.timer.isSome ∧ faults.network = false

/-- A write can be started. -/
structure WriteAnswers.Succeeds (answers : WriteAnswers) : Prop where
  /-- The clock works. -/
  subctime : answers.subctime.isSome
  /-- There is memory for the cookie. -/
  malloc : answers.malloc.isSome
  /-- The clock still works. -/
  addctime : answers.addctime.isSome
  /-- There is memory for the record. -/
  memory : answers.register.init = false ∧ answers.register.resize = false ∧
    answers.register.malloc = false
  /-- The events can be started. -/
  starts : answers.register.Starts

/-- What happens to a queue. -/
inductive WriteqCall (β γ : Type) where
  /-- A buffer is added. -/
  | add (QB : WriteqBuf β) (malloc : Bool) (addctime : Option Timeval) (corks : Bool)
    (answers : WriteAnswers)
  /-- Something happens to the registry: a call by others, or an event. -/
  | call (call : Call (Registrant γ)) (answers : Answers)

/-- A step of a queue, with the callbacks of buffers that were added and what is heard. -/
inductive WriteqStep (msgNosignal : Bool) (Q : Writeq β γ) :
    WriteqCall β γ → List β → Told β → Writeq β γ → Prop where
  /-- A buffer is added, or is not. -/
  | add {QB : WriteqBuf β} {malloc : Bool} {addctime : Option Timeval} {corks : Bool}
      {answers : WriteAnswers} {rc : Int} {Q' : Writeq β γ} :
      answers.Fresh Q → networkWriteqAdd Q QB malloc addctime corks answers = (rc, Q') →
      WriteqStep msgNosignal Q (.add QB malloc addctime corks answers)
        (if rc = 0 then [QB.callback] else []) .nothing Q'
  /-- Something happens to the registry. -/
  | call {call : Call (Registrant γ)} {answers : Answers} {ends : Ends (Registrant γ)}
      {registry : Registry (Registrant γ)} {told : Told β} {Q' : Writeq β γ} :
      call.Foreign Q.slot → call.Fresh Q.registry →
      perform Q.registry call = some (ends, registry) → answers.Fresh { Q with registry } →
      dispatch msgNosignal { Q with registry } ends answers = (told, Q') →
      WriteqStep msgNosignal Q (.call call answers) [] told Q'

/-- The runs of a queue: the callbacks of the buffers that were added, and what was heard. -/
inductive WriteqRun (msgNosignal : Bool) (allowed : Writeq β γ → WriteqCall β γ → Prop) :
    List β → List (Told β) → Writeq β γ → Prop where
  /-- A queue for a socket for whose direction nothing is registered. -/
  | start {log : List (Call (Registrant γ) × Ends (Registrant γ))}
      {registry : Registry (Registrant γ)} {fd : Int} : History log registry →
      (∀ entry ∈ log, entry.1.Succeeds) → registry.held (.write, fd.toNat) = none →
      (∀ place cookie, registry.held place ≠ some (.buf cookie)) →
      WriteqRun msgNosignal allowed [] [] (networkWriteqInit fd registry)
  /-- A step follows. -/
  | step {added new : List β} {heard : List (Told β)} {told : Told β} {Q Q' : Writeq β γ}
      {call : WriteqCall β γ} : WriteqRun msgNosignal allowed added heard Q → allowed Q call →
      WriteqStep msgNosignal Q call new told Q' →
      WriteqRun msgNosignal allowed (added ++ new) (heard ++ [told]) Q'

/-- Whose callback was invoked. -/
def Told.callback : Told β → Option β
  | .calls callback _ => some callback
  | _ => none

/-- Events can be started, and the write of a buffer can be started if it waits behind another. -/
def WriteqCall.Meets (Q : Writeq β γ) : WriteqCall β γ → Prop
  | .add _ _ _ _ answers => answers.register.Starts
  | .call event answers => event.Succeeds ∧ answers.again.Starts ∧ answers.write.register.Starts ∧
    (2 ≤ Q.head.length → answers.write.Succeeds)

/-- No more than one cookie is allocated. -/
def Writeq.Sparse (Q : Writeq β γ) : Prop :=
  ∃ only, ∀ other, other ≠ only → Q.cookies other = none

/-- What is promised of a queue. -/
structure WriteqKeeps (msgNosignal : Bool) (added : List β) (heard : List (Told β))
    (Q : Writeq β γ) : Prop where
  /-- The callbacks are invoked once each, in the order of the queue. -/
  order : added = heard.filterMap Told.callback ++ Q.head.map (·.callback)
  /-- Nothing goes wrong. -/
  alive : Told.crash ∉ heard
  /-- At most one buffer is being written. -/
  single : Q.Sparse
  /-- A buffer is being written if and only if the queue is not empty. -/
  busy : Q.head ≠ [] ↔
    ∃ cookie, Q.registry.held Q.slot = some (.buf cookie) ∧ (Q.cookies cookie).isSome
  /-- A cancellation ends, with an empty queue, and invokes every callback. -/
  cancels : ∀ answers : Writeq β γ → Answers,
    (∀ Q : Writeq β γ, Q.Sparse →
      (answers Q).Fresh Q ∧ (answers Q).again.Starts ∧ (answers Q).write.Succeeds) →
      ∃ Q', networkWriteqCancel msgNosignal answers Q.head.length Q =
        some (Q.head.map fun QB => .calls QB.callback .cancel, Q') ∧ Q'.head = []

end Runs

section Steps

variable {β γ : Type} {msgNosignal : Bool}

/-- The registry of a queue: exact, and without buffers of the queue in other places. -/
structure Sound (Q : Writeq β γ) : Prop where
  /-- The bookkeeping is exact. -/
  books : Exact Q.registry
  /-- Other places hold other callbacks. -/
  others : ∀ place, place ≠ Q.slot → ∀ cookie, Q.registry.held place ≠ some (.buf cookie)

/-- The buffer at the head is being written. -/
structure Writing (Q : Writeq β γ) (cookie : Nat) (C : NetworkBuf Unit) : Prop where
  /-- Its callback is registered. -/
  held : Q.registry.held Q.slot = some (.buf cookie)
  /-- Its cookie is the only one. -/
  cookies : ∀ other, Q.cookies other = if other = cookie then some C else none
  /-- It is written to the socket. -/
  fd : C.fd = Q.fd
  /-- In the direction of writing. -/
  netop : C.netop = .write
  /-- The socket is a descriptor. -/
  valid : 0 ≤ Q.fd ∧ Q.fd < FD_SETSIZE

/-- The state of a queue between steps. -/
structure Settled (Q : Writeq β γ) : Prop extends Sound Q where
  /-- Without buffers, nothing is registered. -/
  idle : Q.head = [] → Q.registry.held Q.slot = none ∧ ∀ cookie, Q.cookies cookie = none
  /-- Otherwise the buffer at the head is being written. -/
  busy : Q.head ≠ [] → ∃ cookie C, Writing Q cookie C

/-- Only descriptors can be registered for. -/
theorem networkRegister_valid {κ : Type} {R R' : Registry κ} {fd : Int} {op : NetworkOp}
    {timeo : Timeval} {cb : κ} {faults : RegisterFaults}
    (registered : networkRegister R fd op timeo cb faults = (0, R')) :
    0 ≤ fd ∧ fd < FD_SETSIZE := by
  by_contra invalid
  unfold networkRegister at registered
  rw [if_pos (by omega)] at registered
  exact absurd registered (by simp)

/-- With memory, for a descriptor and an empty record, a registration succeeds if its events can be
started. -/
theorem networkRegister_succeeds {κ : Type} {R : Registry κ} (books : Exact R) {fd : Int}
    {op : NetworkOp} (timeo : Timeval) (cb : κ) {faults : RegisterFaults}
    (valid : 0 ≤ fd ∧ fd < FD_SETSIZE) (vacant : R.held (op, fd.toNat) = none)
    (memory : faults.init = false ∧ faults.resize = false ∧ faults.malloc = false)
    (starts : faults.Starts)
    (fresh : ∀ id, faults.timer = some id → ∀ timer ∈ R.events.timers, timer.id ≠ id) :
    ∃ R', networkRegister R fd op timeo cb faults = (0, R') ∧ Exact R' ∧
      ∀ place, R'.held place = if place = (op, fd.toNat) then some cb else R.held place := by
  obtain ⟨id, timer⟩ := Option.isSome_iff_exists.mp starts.1
  obtain ⟨rc, R', registered, books', _, result⟩ :=
    networkRegister_exact books fd op timeo cb timer (fresh id timer) starts.2
  have fills : Fills R fd op faults := by
    obtain ⟨sizes, enlarged, _⟩ := enlarge_plain R fd.toNat op ⟨memory.1, memory.2.1⟩
    exact ⟨valid.1, valid.2, by rw [enlarged]; rfl, vacant, Or.inr memory.2.2⟩
  have filled := networkRegister_fills timeo cb fills
  rw [registered] at filled
  cases result with
  | inl failed =>
    have here := filled (op, fd.toNat)
    rw [if_pos rfl] at here
    change R'.held (op, fd.toNat) = some cb at here
    rw [failed.2.1, vacant] at here
    exact absurd here (by simp)
  | inr done =>
    rw [done.1] at registered
    exact ⟨R', registered, books', filled⟩

/-- What starting a write leaves: the queue as it was, and the buffer at the head registered, or
nothing. -/
structure Started (Q Q' : Writeq β γ) (address : Nat) (C : NetworkBuf Unit) : Prop where
  /-- The registry is sound. -/
  sound : Sound Q'
  /-- The queue is for the same socket. -/
  fd : Q'.fd = Q.fd
  /-- The queue is the same. -/
  head : Q'.head = Q.head
  /-- The callback is registered. -/
  held : Q'.registry.held Q'.slot = some (.buf address)
  /-- The cookie is allocated. -/
  cookies : Q'.cookies = Function.update Q.cookies address (some C)
  /-- The buffer is written to the socket. -/
  own : C.fd = Q.fd ∧ C.netop = .write
  /-- The socket is a descriptor. -/
  valid : 0 ≤ Q.fd ∧ Q.fd < FD_SETSIZE

/-- Setting the record of the queue keeps its registry sound. -/
theorem Sound.registered {Q : Writeq β γ} (sound : Sound Q) {R : Registry (Registrant γ)}
    (books : Exact R) {holder : Registrant γ}
    (held : ∀ place, R.held place = if place = Q.slot then some holder else Q.registry.held place)
    (cookies : Nat → Option (NetworkBuf Unit)) : Sound { Q with registry := R, cookies } where
  books := books
  others place other cookie same := by
    change R.held place = _ at same
    change place ≠ Q.slot at other
    rw [held place, if_neg other] at same
    exact sound.others place other cookie same

/-- What is prepared is for the socket of the queue. -/
theorem dowritePrepare_own {Q : Writeq β γ} {answers : WriteAnswers} {C : NetworkBuf Unit}
    {timeo : Timeval} {address : Nat}
    (prepared : dowritePrepare Q answers = some (C, timeo, address)) :
    C.fd = Q.fd ∧ C.netop = .write ∧ answers.malloc = some address := by
  unfold dowritePrepare at prepared
  split at prepared
  · exact absurd prepared (by simp)
  · obtain ⟨first, _, rest⟩ := Option.bind_eq_some_iff.mp prepared
    obtain ⟨made, writes, rest⟩ := Option.bind_eq_some_iff.mp rest
    obtain ⟨place, malloc, same⟩ := Option.bind_eq_some_iff.mp rest
    have fields := Option.some.inj same
    simp only [Prod.mk.injEq] at fields
    unfold tsnetworkWrite networkBuf at writes
    split at writes
    · exact absurd writes (by simp)
    · obtain ⟨timeout, _, same⟩ := Option.map_eq_some_iff.mp writes
      rw [← fields.1, ← same, ← fields.2.2]
      exact ⟨rfl, rfl, malloc⟩

/-- If nothing fails, the write of the buffer at the head is prepared. -/
theorem dowritePrepare_succeeds {Q : Writeq β γ} (waiting : Q.head ≠ []) {answers : WriteAnswers}
    (succeeds : answers.Succeeds) : (dowritePrepare Q answers).isSome := by
  obtain ⟨now, subctime⟩ := Option.isSome_iff_exists.mp succeeds.subctime
  obtain ⟨address, malloc⟩ := Option.isSome_iff_exists.mp succeeds.malloc
  obtain ⟨later, addctime⟩ := Option.isSome_iff_exists.mp succeeds.addctime
  unfold dowritePrepare
  split
  · rename_i empty
    exact absurd empty waiting
  · rename_i QB rest _
    rw [subctime, malloc, addctime]
    cases QB.abstimeo with
    | true => rfl
    | false => rfl

/-- Starting a write either fails and leaves all as it was, or registers the buffer. -/
theorem dowrite_spec {Q : Writeq β γ} (sound : Sound Q) {answers : WriteAnswers}
    (fresh : answers.Fresh Q) (starts : answers.register.Starts) :
    (∃ R, dowrite Q answers = (-1, { Q with registry := R }) ∧ Exact R ∧
      ∀ place, R.held place = Q.registry.held place) ∨
    ∃ Q' address C, dowrite Q answers = (0, Q') ∧ answers.malloc = some address ∧
      Started Q Q' address C := by
  unfold dowrite
  cases prepared : dowritePrepare Q answers with
  | none => exact Or.inl ⟨Q.registry, rfl, sound.books, fun _ => rfl⟩
  | some made =>
    obtain ⟨C, time, address⟩ := made
    obtain ⟨fd, netop, malloc⟩ := dowritePrepare_own prepared
    obtain ⟨id, timer⟩ := Option.isSome_iff_exists.mp starts.1
    obtain ⟨rc, R, registered, books, _, result⟩ := networkRegister_exact sound.books C.fd C.netop
      time (.buf address) timer (fresh.2 id timer) starts.2
    cases result with
    | inl refused =>
      simp only [registered, refused.1]
      exact Or.inl ⟨R, rfl, books, refused.2.1⟩
    | inr done =>
      rw [done.1] at registered
      have valid := networkRegister_valid registered
      simp only [registered]
      rw [fd, netop] at done
      rw [fd] at valid
      exact Or.inr ⟨_, address, C, rfl, malloc, sound.registered books done.2.2 _, rfl, rfl,
        (done.2.2 Q.slot).trans (if_pos rfl), rfl, ⟨fd, netop⟩, valid⟩

/-- If nothing fails, a write is started. -/
theorem dowrite_succeeds {Q : Writeq β γ} (sound : Sound Q) (vacant : Q.registry.held Q.slot = none)
    (waiting : Q.head ≠ []) (valid : 0 ≤ Q.fd ∧ Q.fd < FD_SETSIZE) {answers : WriteAnswers}
    (fresh : answers.Fresh Q) (succeeds : answers.Succeeds) :
    ∃ Q' address C, dowrite Q answers = (0, Q') ∧ answers.malloc = some address ∧
      Started Q Q' address C := by
  cases dowrite_spec sound fresh succeeds.starts with
  | inr started => exact started
  | inl failed =>
    obtain ⟨R, result, _⟩ := failed
    obtain ⟨made, prepared⟩ :=
      Option.isSome_iff_exists.mp (dowritePrepare_succeeds waiting succeeds)
    obtain ⟨C, time, address⟩ := made
    obtain ⟨fd, netop, _⟩ := dowritePrepare_own prepared
    obtain ⟨R', registered, _⟩ := networkRegister_succeeds sound.books time (.buf address)
      valid vacant succeeds.memory succeeds.starts fresh.2
    unfold dowrite at result
    rw [prepared] at result
    simp only [fd, netop, registered, Prod.mk.injEq] at result
    exact absurd result.1 (by decide)

/-- The callback of the buffer at the head is invoked by the queue, which goes on with the next. -/
theorem bufDocallback_spec {Q : Writeq β γ} (sound : Sound Q)
    (vacant : Q.registry.held Q.slot = none) {cookie : Nat} {C : NetworkBuf Unit}
    (cookies : ∀ other, Q.cookies other = if other = cookie then some C else none)
    (valid : 0 ≤ Q.fd ∧ Q.fd < FD_SETSIZE) {QB : WriteqBuf β} {rest : List (WriteqBuf β)}
    (head : Q.head = QB :: rest) {answers : Answers} (fresh : answers.write.Fresh Q)
    (succeeds : rest ≠ [] → answers.write.Succeeds) (status : NetworkStatus) :
    ∃ status' Q', bufDocallback Q cookie status answers = (.calls QB.callback status', Q') ∧
      Settled Q' ∧ Q'.head = rest ∧ Q'.fd = Q.fd ∧ (status = .cancel → status' = .cancel) := by
  unfold bufDocallback callbackBufdone
  simp only [head]
  by_cases last : rest = []
  · simp only [if_pos last]
    refine ⟨_, _, rfl, ⟨⟨sound.books, sound.others⟩, fun _ => ⟨vacant, fun other => ?_⟩,
      fun waiting => absurd last waiting⟩, rfl, rfl, fun cancel => by simp [cancel]⟩
    by_cases same : other = cookie
    · simp only [same, Function.update_self]
    · change Function.update Q.cookies cookie none other = none
      rw [Function.update_of_ne same, cookies other, if_neg same]
  · simp only [if_neg last]
    have next : Sound { Q with head := rest } := ⟨sound.books, sound.others⟩
    obtain ⟨Q', address, C', written, malloc, started⟩ :=
      dowrite_succeeds next vacant last valid fresh (succeeds last)
    rw [written]
    refine ⟨_, _, rfl, ⟨⟨started.sound.books, started.sound.others⟩, fun empty => ?_,
      fun _ => ⟨address, C', started.held, fun other => ?_, started.own.1.trans started.fd.symm,
        started.own.2, ?_⟩⟩, started.head, started.fd, fun cancel => by simp [cancel]⟩
    · change Q'.head = [] at empty
      rw [started.head] at empty
      exact absurd empty last
    · have free := fresh.1 address malloc
      change Function.update Q'.cookies cookie none other = _
      rw [started.cookies]
      by_cases old : other = cookie
      · have apart : cookie ≠ address := by
          intro same
          rw [← same, cookies cookie, if_pos rfl] at free
          exact absurd free (by simp)
        rw [old, Function.update_self, if_neg apart]
      · rw [Function.update_of_ne old]
        by_cases new : other = address
        · rw [new, Function.update_self, if_pos rfl]
        · rw [Function.update_of_ne new, if_neg new]
          exact (cookies other).trans (if_neg old)
    · change 0 ≤ Q'.fd ∧ Q'.fd < FD_SETSIZE
      rw [started.fd]
      exact valid

/-- A callback does not change for what it is registered. -/
theorem callbackBufTurn_own (msgNosignal : Bool) (C : NetworkBuf Unit) (status : NetworkStatus)
    (io : Io) :
    (callbackBufTurn msgNosignal C status io).cookie.fd = C.fd ∧
      (callbackBufTurn msgNosignal C status io).cookie.netop = C.netop := by
  have stored : ∀ data, (C.store data).fd = C.fd ∧ (C.store data).netop = C.netop := by
    intro data
    unfold NetworkBuf.store
    cases C.sendrecv with
    | recv => exact ⟨rfl, rfl⟩
    | send => exact ⟨rfl, rfl⟩
  have again : ∀ (C' : NetworkBuf Unit) moved eaten, (tryagain C' moved eaten io).cookie = C' := by
    intro C' moved eaten
    unfold tryagain
    cases tvmathSubctime C'.timeout io.now with
    | none => rfl
    | some timeo => rfl
  unfold callbackBufTurn
  split
  · exact ⟨rfl, rfl⟩
  · cases io.bwlimit with
    | none => exact ⟨rfl, rfl⟩
    | some bwlimit =>
      simp only
      split
      · rw [again]
        exact ⟨rfl, rfl⟩
      · split
        · exact ⟨rfl, rfl⟩
        · split
          · exact stored _
          · unfold transferred
            split
            · split
              · rw [again]
                exact ⟨rfl, rfl⟩
              · exact ⟨rfl, rfl⟩
            · exact ⟨rfl, rfl⟩
            · split
              · exact stored _
              · simp only
                split
                · exact stored _
                · rw [again]
                  exact stored _

/-- What the callback of a buffer leaves: the buffer goes on, or it is done and the next one is
written. -/
theorem bufCallback_spec (msgNosignal : Bool) {Q : Writeq β γ} (sound : Sound Q)
    (vacant : Q.registry.held Q.slot = none) {cookie : Nat} {C : NetworkBuf Unit}
    (cookies : ∀ other, Q.cookies other = if other = cookie then some C else none)
    (own : C.fd = Q.fd ∧ C.netop = .write) (valid : 0 ≤ Q.fd ∧ Q.fd < FD_SETSIZE)
    (waiting : Q.head ≠ []) {answers : Answers} (fresh : answers.Fresh Q)
    (again : answers.again.Starts) (succeeds : 2 ≤ Q.head.length → answers.write.Succeeds)
    (status : NetworkStatus) :
    ∃ told Q', bufCallback msgNosignal Q cookie status answers = (told, Q') ∧ Settled Q' ∧
      Q'.fd = Q.fd ∧ (told = .nothing ∧ status ≠ .cancel ∧ Q'.head = Q.head ∨
        ∃ QB rest status', Q.head = QB :: rest ∧ told = .calls QB.callback status' ∧
          Q'.head = rest ∧ (status = .cancel → status' = .cancel)) := by
  have allocated : Q.cookies cookie = some C := (cookies cookie).trans (if_pos rfl)
  -- the buffer at the head is done
  have done : ∀ {Q₁ : Writeq β γ} (sound₁ : Sound Q₁), Q₁.registry.held Q₁.slot = none →
      Q₁.fd = Q.fd → Q₁.cookies = Q.cookies → Q₁.head = Q.head → answers.write.Fresh Q₁ →
      ∀ status₁ : NetworkStatus, ∃ told Q', bufDocallback Q₁ cookie status₁ answers = (told, Q') ∧
        Settled Q' ∧ Q'.fd = Q.fd ∧ ∃ QB rest status', Q.head = QB :: rest ∧
          told = .calls QB.callback status' ∧ Q'.head = rest ∧
          (status₁ = .cancel → status' = .cancel) := by
    intro Q₁ sound₁ vacant₁ fd₁ cookies₁ head₁ fresh₁ status₁
    cases head : Q.head with
    | nil => exact absurd head waiting
    | cons QB rest =>
      have longer : rest ≠ [] → answers.write.Succeeds := by
        intro more
        apply succeeds
        rw [head, List.length_cons]
        have positive := List.length_pos_iff.mpr more
        omega
      obtain ⟨status', Q', result, settled, rest', fd', cancel⟩ := bufDocallback_spec sound₁
        vacant₁ (by rw [cookies₁]; exact cookies) (by rw [fd₁]; exact valid) (head₁.trans head)
        fresh₁ longer status₁
      exact ⟨_, Q', result, settled, fd'.trans fd₁, QB, rest, status', rfl, rfl, rest', cancel⟩
  unfold bufCallback
  simp only [allocated]
  have turnOwn := callbackBufTurn_own msgNosignal C status answers.io
  cases next : (callbackBufTurn msgNosignal C status answers.io).next with
  | docallback status₁ =>
    simp only
    have cancelled : status = .cancel → status₁ = .cancel := by
      intro cancel
      unfold callbackBufTurn at next
      rw [cancel, if_pos (by simp)] at next
      simpa using next.symm
    obtain ⟨told, Q', result, settled, fd', QB, rest, status', head, same, rest', cancel⟩ :=
      done sound vacant rfl rfl rfl fresh.1 status₁
    exact ⟨told, Q', result, settled, fd', Or.inr ⟨QB, rest, status', head, same, rest',
      fun cancels => cancel (cancelled cancels)⟩⟩
  | tryagain timeo =>
    simp only
    have going : status ≠ .cancel := by
      intro cancel
      unfold callbackBufTurn at next
      rw [cancel, if_pos (by simp)] at next
      exact absurd next (by simp)
    obtain ⟨id, timer⟩ := Option.isSome_iff_exists.mp again.1
    obtain ⟨rc, R, registered, books, _, result⟩ := networkRegister_exact sound.books C.fd C.netop
      timeo (.buf cookie) timer (fresh.2 id timer) again.2
    rw [own.1, own.2] at registered result ⊢
    cases result with
    | inl refused =>
      rw [refused.1] at registered
      simp only [registered]
      have sound' : Sound { Q with registry := R } :=
        ⟨books, fun place other holder held => sound.others place other holder
          ((refused.2.1 place).symm.trans held)⟩
      have events : R.events = Q.registry.events := by
        by_cases fills : Fills Q.registry Q.fd .write answers.again
        · have held := networkRegister_fills timeo (.buf cookie) fills Q.slot
          rw [registered] at held
          change R.held Q.slot = _ at held
          rw [refused.2.1, vacant] at held
          exact absurd held (by simp [Writeq.slot])
        · obtain ⟨sizes, result, _⟩ := networkRegister_refused timeo (.buf cookie) fills
          rw [registered] at result
          rw [(Prod.mk.inj result).2]
      have fresh' : answers.write.Fresh { Q with registry := R } := by
        refine ⟨fresh.1.1, ?_⟩
        change ∀ id, _ → ∀ timer ∈ R.events.timers, _
        rw [events]
        exact fresh.1.2
      obtain ⟨told, Q', result, settled, fd', QB, rest, status', head, same, rest', cancel⟩ :=
        done sound' ((refused.2.1 Q.slot).trans vacant) rfl rfl rfl fresh' .err
      exact ⟨told, Q', result, settled, fd', Or.inr ⟨QB, rest, status', head, same, rest',
        fun cancels => absurd cancels going⟩⟩
    | inr done =>
      rw [done.1] at registered
      simp only [registered]
      refine ⟨_, _, rfl, ⟨sound.registered books done.2.2 _, fun empty => absurd empty waiting,
        fun _ => ⟨cookie, _, (done.2.2 Q.slot).trans (if_pos rfl), fun other => ?_,
          turnOwn.1.trans own.1, turnOwn.2.trans own.2, valid⟩⟩, rfl, Or.inl ⟨rfl, going, rfl⟩⟩
      by_cases same : other = cookie
      · simp only [same, Function.update_self, if_true]
      · rw [if_neg same]
        change Function.update Q.cookies cookie _ other = none
        rw [Function.update_of_ne same, cookies other, if_neg same]

/-- Adding a buffer: it is the last one then, unless this fails, which changes nothing. -/
theorem networkWriteqAdd_spec {Q : Writeq β γ} (settled : Settled Q) (QB : WriteqBuf β)
    (malloc : Bool) (addctime : Option Timeval) (corks : Bool) {answers : WriteAnswers}
    (fresh : answers.Fresh Q) (starts : answers.register.Starts) :
    ∃ rc Q', networkWriteqAdd Q QB malloc addctime corks answers = (rc, Q') ∧ Settled Q' ∧
      Q'.head.map (·.callback) = Q.head.map (·.callback) ++ if rc = 0 then [QB.callback]
        else [] := by
  have failed : ∃ rc Q', ((-1, Q) : Int × Writeq β γ) = (rc, Q') ∧ Settled Q' ∧
      Q'.head.map (·.callback) =
        Q.head.map (·.callback) ++ if rc = 0 then [QB.callback] else [] :=
    ⟨-1, Q, rfl, settled, by simp⟩
  unfold networkWriteqAdd
  split
  · exact failed
  · split
    · exact failed
    · rename_i timeo _
      have map : (Q.head ++ [{ QB with timeo := timeo }]).map WriteqBuf.callback =
          Q.head.map WriteqBuf.callback ++ [QB.callback] := by simp
      by_cases empty : Q.head = []
      · rw [if_pos empty]
        split
        · exact failed
        · obtain ⟨vacant, free⟩ := settled.idle empty
          have sound : Sound { Q with head := Q.head ++ [{ QB with timeo }] } :=
            ⟨settled.books, settled.others⟩
          cases dowrite_spec sound fresh starts with
          | inl refused =>
            obtain ⟨R, result, books, held⟩ := refused
            simp only [result]
            refine ⟨-1, _, rfl, ⟨⟨books, fun place other holder same => ?_⟩,
              fun _ => ⟨(held Q.slot).trans vacant, free⟩, fun waiting => absurd empty waiting⟩, ?_⟩
            · exact settled.others place other holder ((held place).symm.trans same)
            · simp
          | inr started =>
            obtain ⟨Q', address, C, result, _, started⟩ := started
            simp only [result]
            refine ⟨0, Q', rfl, ⟨started.sound, fun none => ?_, fun _ => ⟨address, C, started.held,
              fun other => ?_, started.own.1.trans started.fd.symm, started.own.2, ?_⟩⟩, ?_⟩
            · rw [started.head] at none
              exact absurd none (by simp)
            · rw [started.cookies]
              change Function.update Q.cookies address (some C) other = _
              by_cases same : other = address
              · rw [same, Function.update_self, if_pos rfl]
              · rw [Function.update_of_ne same, if_neg same, free]
            · rw [started.fd]
              exact started.valid
            · rw [started.head, if_pos rfl]
              exact map
      · rw [if_neg empty]
        refine ⟨0, _, rfl, ⟨⟨settled.books, settled.others⟩, fun none => ?_, fun _ => ?_⟩, ?_⟩
        · exact absurd none (by simp)
        · obtain ⟨cookie, C, writing⟩ := settled.busy empty
          exact ⟨cookie, C, writing.held, writing.cookies, writing.fd, writing.netop, writing.valid⟩
        · rw [if_pos rfl]
          exact map

/-- The registry of a queue changes in other places only. -/
theorem Settled.elsewhere {Q : Writeq β γ} (settled : Settled Q) {R : Registry (Registrant γ)}
    (books : Exact R) (here : R.held Q.slot = Q.registry.held Q.slot)
    (others : ∀ place, place ≠ Q.slot → ∀ cookie, R.held place ≠ some (.buf cookie)) :
    Settled { Q with registry := R } where
  books := books
  others := others
  idle empty := ⟨here.trans (settled.idle empty).1, (settled.idle empty).2⟩
  busy waiting := by
    obtain ⟨cookie, C, writing⟩ := settled.busy waiting
    exact ⟨cookie, C, here.trans writing.held, writing.cookies, writing.fd, writing.netop,
      writing.valid⟩

/-- What others register is not in the place of the queue. -/
theorem registeredBy_foreign {slot place : Slot} {call : Call (Registrant γ)}
    (foreign : call.Foreign slot) {cb : Registrant γ}
    (recorded : registeredBy place (call, .returns 0) = some cb) :
    place ≠ slot ∧ ∀ cookie, cb ≠ .buf cookie := by
  cases call with
  | register fd op timeo given faults =>
    obtain ⟨other, k, same⟩ := foreign
    change (if (op, fd.toNat) = place then some given else none) = some cb at recorded
    split at recorded
    · rename_i here
      rw [← here]
      refine ⟨other, fun cookie buf => ?_⟩
      rw [← Option.some.inj recorded, same] at buf
      exact absurd buf (by simp)
    · exact absurd recorded (by simp)
  | deregister => exact absurd recorded (by simp [registeredBy])
  | suspend => exact absurd recorded (by simp [registeredBy])
  | resume => exact absurd recorded (by simp [registeredBy])
  | expire => exact absurd recorded (by simp [registeredBy])
  | ready => exact absurd recorded (by simp [registeredBy])

/-- A step that meets the conditions keeps the buffers in order, and nothing goes wrong. -/
theorem WriteqStep.spec {Q Q' : Writeq β γ} {call : WriteqCall β γ} {new : List β} {told : Told β}
    (settled : Settled Q) (meets : call.Meets Q)
    (step : WriteqStep msgNosignal Q call new told Q') :
    Settled Q' ∧ told ≠ .crash ∧
      Q.head.map (·.callback) ++ new =
        told.callback.toList ++ Q'.head.map (·.callback) := by
  cases step with
  | add fresh added =>
    rename_i QB malloc addctime corks answers rc
    obtain ⟨rc', Q'', result, settled', order⟩ :=
      networkWriteqAdd_spec settled QB malloc addctime corks fresh meets
    rw [result] at added
    cases added
    exact ⟨settled', by simp, order.symm⟩
  | call foreign freshCall performed fresh dispatched =>
    rename_i call answers ends registry
    obtain ⟨succeeds, again, starts, waits⟩ := meets
    obtain ⟨books, _, outcome⟩ := perform_outcome settled.books freshCall succeeds performed
    cases outcome with
    | quiet same silent idle =>
      cases dispatched
      exact ⟨settled.elsewhere books (same _) fun place other cookie held =>
        settled.others place other cookie ((same place).symm.trans held), by simp, by simp
          [Told.callback]⟩
    | registers vacant held recorded =>
      rename_i slot cb
      cases dispatched
      have apart := registeredBy_foreign foreign ((recorded slot).trans (if_pos rfl))
      refine ⟨settled.elsewhere books ?_ fun place other cookie same => ?_, by simp,
        by simp [Told.callback]⟩
      · rw [held, if_neg fun same => apart.1 same.symm]
      · rw [held] at same
        split at same
        · exact apart.2 cookie (Option.some.inj same)
        · exact settled.others place other cookie same
    | invokes holder held target known =>
      rename_i slot cb status
      by_cases here : slot = Q.slot
      · have waiting : Q.head ≠ [] := by
          intro empty
          rw [here, (settled.idle empty).1] at holder
          exact absurd holder (by simp)
        obtain ⟨cookie, C, writing⟩ := settled.busy waiting
        have same : cb = .buf cookie := by
          rw [here, writing.held] at holder
          exact (Option.some.inj holder).symm
        rw [same] at dispatched
        have sound : Sound { Q with registry } := by
          refine ⟨books, fun place other holder same => ?_⟩
          change registry.held place = _ at same
          change place ≠ Q.slot at other
          rw [held, here, if_neg other] at same
          exact settled.others place other holder same
        have vacant : registry.held Q.slot = none := by rw [held, here, if_pos rfl]
        obtain ⟨told', Q'', result, settled', _, cases'⟩ := bufCallback_spec
          msgNosignal sound vacant writing.cookies ⟨writing.fd, writing.netop⟩ writing.valid waiting
          fresh again waits status
        change bufCallback msgNosignal { Q with registry } cookie status answers = _ at dispatched
        rw [result] at dispatched
        cases dispatched
        cases cases' with
        | inl going =>
          rw [going.1, going.2.2]
          exact ⟨settled', by simp, by simp [Told.callback]⟩
        | inr done =>
          obtain ⟨QB, rest, status', head, same, rest', _⟩ := done
          change Q.head = QB :: rest at head
          rw [same, rest', head]
          exact ⟨settled', by simp, by simp [Told.callback]⟩
      · have elsewhere : Settled { Q with registry } := by
          refine settled.elsewhere books ?_ fun place other cookie same => ?_
          · rw [held, if_neg fun same => here same.symm]
          · rw [held] at same
            split at same
            · exact absurd same (by simp)
            · exact settled.others place other cookie same
        cases cb with
        | buf cookie => exact absurd holder (settled.others slot here cookie)
        | other k =>
          cases dispatched
          exact ⟨elsewhere, by simp, by simp [Told.callback]⟩

/-- A callback that is held is invoked when it is deregistered. -/
theorem networkDeregister_held {κ : Type} {R : Registry κ} (books : Exact R) {fd : Int}
    (valid : 0 ≤ fd) {op : NetworkOp} {cb : κ} (holder : R.held (op, fd.toNat) = some cb) :
    ∃ R', networkDeregister R fd op = (.calls (op, fd.toNat) (some cb) .cancel, R') ∧ Exact R' ∧
      ∀ place, R'.held place = if place = (op, fd.toNat) then none else R.held place := by
  obtain ⟨c, record, filled⟩ := filled_of_held (by rw [holder]; rfl)
  have callback : c.callback = some cb := by rw [← held_of_get record, holder]
  obtain ⟨ends, R', result, books', _, outcome⟩ :=
    networkDeregister_outcome books fd op
  have called : ends = .calls (op, fd.toNat) (some cb) .cancel := by
    have first := congrArg Prod.fst result
    rw [networkDeregister_eq books.within valid] at first
    unfold deregisterWithin at first
    rw [record] at first
    simp only [if_pos filled] at first
    rw [← callback]
    exact first.symm
  rw [called] at result outcome
  cases outcome with
  | invokes _ held _ _ => exact ⟨R', result, books', held⟩

/-- A cancellation invokes every callback and ends with an empty queue. -/
theorem networkWriteqCancel_spec {answers : Writeq β γ → Answers}
    (succeed : ∀ Q : Writeq β γ, Q.Sparse →
      (answers Q).Fresh Q ∧ (answers Q).again.Starts ∧ (answers Q).write.Succeeds)
    (times : Nat) : ∀ {Q : Writeq β γ}, Settled Q → Q.head.length = times →
      ∃ Q', networkWriteqCancel msgNosignal answers times Q =
        some (Q.head.map fun QB => .calls QB.callback .cancel, Q') ∧ Q'.head = [] := by
  induction times with
  | zero =>
    intro Q settled length
    have empty := List.eq_nil_of_length_eq_zero length
    unfold networkWriteqCancel
    rw [if_pos empty, empty]
    exact ⟨Q, rfl, empty⟩
  | succ times ih =>
    intro Q settled length
    have waiting : Q.head ≠ [] := by
      intro empty
      rw [empty] at length
      exact absurd length (by simp)
    obtain ⟨cookie, C, writing⟩ := settled.busy waiting
    obtain ⟨R, deregistered, books, held⟩ :=
      networkDeregister_held settled.books writing.valid.1 writing.held
    have sound : Sound { Q with registry := R } := by
      refine ⟨books, fun place other holder same => ?_⟩
      change R.held place = _ at same
      change place ≠ (.write, Q.fd.toNat) at other
      rw [held, if_neg other] at same
      exact settled.others place other holder same
    have vacant : R.held Q.slot = none := by rw [held]; exact if_pos rfl
    have sparse : ({ Q with registry := R } : Writeq β γ).Sparse :=
      ⟨cookie, fun other apart => (writing.cookies other).trans (if_neg apart)⟩
    obtain ⟨fresh, again, succeeds⟩ := succeed _ sparse
    obtain ⟨told, Q₁, result, settled₁, fd₁, cases₁⟩ := bufCallback_spec msgNosignal sound vacant
      writing.cookies ⟨writing.fd, writing.netop⟩ writing.valid waiting fresh again
      (fun _ => succeeds) .cancel
    cases cases₁ with
    | inl going => exact absurd rfl going.2.1
    | inr done =>
      obtain ⟨QB, rest, status, head, same, rest₁, cancel⟩ := done
      change Q.head = QB :: rest at head
      have shorter : Q₁.head.length = times := by
        rw [head, List.length_cons] at length
        rw [rest₁]
        omega
      obtain ⟨Q', cancelled, empty⟩ := ih settled₁ shorter
      refine ⟨Q', ?_, empty⟩
      unfold networkWriteqCancel
      rw [if_neg waiting, deregistered]
      simp only [dispatch, result]
      rw [cancelled, head, same, rest₁, cancel rfl]
      rfl

/-- In a run whose steps meet the conditions, the queue stays settled. -/
theorem WriteqRun.settled {added : List β} {heard : List (Told β)} {Q : Writeq β γ}
    (run : WriteqRun msgNosignal (fun Q call => call.Meets Q) added heard Q) :
    Settled Q ∧ .crash ∉ heard ∧
      added = heard.filterMap Told.callback ++ Q.head.map (·.callback) := by
  induction run with
  | start history succeeds vacant others =>
    obtain ⟨books, _, _⟩ := history.books succeeds
    exact ⟨⟨⟨books, fun place _ cookie => others place cookie⟩, fun _ => ⟨vacant, fun _ => rfl⟩,
      fun waiting => absurd rfl waiting⟩, by simp, rfl⟩
  | step before meets step ih =>
    obtain ⟨settled, alive, order⟩ := ih
    obtain ⟨settled', fine, balance⟩ := step.spec settled meets
    refine ⟨settled', ?_, ?_⟩
    · intro member
      cases List.mem_append.mp member with
      | inl former => exact alive former
      | inr last => exact fine (List.mem_singleton.mp last).symm
    · rw [order, filterMap_concat, List.append_assoc, List.append_assoc, balance]

/-- In a run whose steps meet the conditions, the callbacks of the buffers are invoked once each and
in order, one buffer is written at a time, and a cancellation ends with an empty queue. -/
theorem network_writeq_keeps {added : List β} {heard : List (Told β)} {Q : Writeq β γ}
    (run : WriteqRun msgNosignal (fun Q call => call.Meets Q) added heard Q) :
    WriteqKeeps msgNosignal added heard Q := by
  obtain ⟨settled, alive, order⟩ := run.settled
  refine ⟨order, alive, ?_, ⟨fun waiting => ?_, fun busy empty => ?_⟩,
    fun answers succeed => networkWriteqCancel_spec succeed Q.head.length settled rfl⟩
  · by_cases empty : Q.head = []
    · exact ⟨0, fun other _ => (settled.idle empty).2 other⟩
    · obtain ⟨cookie, C, writing⟩ := settled.busy empty
      exact ⟨cookie, fun other apart => (writing.cookies other).trans (if_neg apart)⟩
  · obtain ⟨cookie, C, writing⟩ := settled.busy waiting
    exact ⟨cookie, writing.held, by rw [writing.cookies, if_pos rfl]; rfl⟩
  · obtain ⟨cookie, held, _⟩ := busy
    rw [(settled.idle empty).1] at held
    exact absurd held (by simp)

end Steps

section TwoBuffers

/-- Everything succeeds; the cookie is at the first address that is free, and the timer has a
greater cookie than the others. -/
def plainAnswers (Q : Writeq Nat Empty) : Answers where
  io := ⟨some 1460, true, .moves [1], true, true, some ⟨0, 0⟩⟩
  again := onlyTimer (some ((Q.registry.events.timers.map (·.id)).sum + 1))
  write :=
    { subctime := some ⟨0, 0⟩
      malloc := some (if Q.cookies 0 = none then 0 else 1)
      addctime := some ⟨0, 0⟩
      register := onlyTimer (some ((Q.registry.events.timers.map (·.id)).sum + 1)) }
  uncorks := true

/-- These answers are possible as long as no more than one cookie is allocated. -/
theorem plainAnswers_fresh (Q : Writeq Nat Empty) (sparse : Q.Sparse) :
    (plainAnswers Q).Fresh Q ∧ (plainAnswers Q).again.Starts ∧ (plainAnswers Q).write.Succeeds := by
  have timers : ∀ id, some ((Q.registry.events.timers.map (·.id)).sum + 1) = some id →
      ∀ timer ∈ Q.registry.events.timers, timer.id ≠ id := by
    intro id same timer pending equal
    have bound : timer.id ≤ (Q.registry.events.timers.map (·.id)).sum :=
      List.single_le_sum (fun _ _ => Nat.zero_le _) timer.id (List.mem_map_of_mem pending)
    rw [equal, ← Option.some.inj same] at bound
    omega
  have address : Q.cookies (if Q.cookies 0 = none then 0 else 1) = none := by
    obtain ⟨only, free⟩ := sparse
    split
    · rename_i zero
      exact zero
    · rename_i zero
      apply free
      intro same
      exact zero (free 0 (by omega))
  refine ⟨⟨⟨fun place same => ?_, timers⟩, timers⟩, ⟨rfl, rfl⟩,
    ⟨rfl, rfl, rfl, ⟨rfl, rfl, rfl⟩, ⟨rfl, rfl⟩⟩⟩
  rw [← Option.some.inj same]
  exact address

/-- A buffer of one byte. -/
def oneByte (callback : Nat) : WriteqBuf Nat :=
  ⟨[1], ⟨5, 0⟩, false, callback⟩

/-- A queue for a socket that has not been used. -/
def unusedQueue : Writeq Nat Empty :=
  networkWriteqInit 3 Registry.empty

/-- A buffer is added. -/
def addByte (Q : Writeq Nat Empty) (callback : Nat) : WriteqCall Nat Empty :=
  .add (oneByte callback) false none true (plainAnswers Q).write

/-- The queue with one buffer, which is being written. -/
def oneBuffer : Writeq Nat Empty :=
  (networkWriteqAdd unusedQueue (oneByte 1) false none true (plainAnswers unusedQueue).write).2

/-- The queue with two buffers, the first of which is being written. -/
def twoBuffers : Writeq Nat Empty :=
  (networkWriteqAdd oneBuffer (oneByte 2) false none true (plainAnswers oneBuffer).write).2

/-- The cookie of the first buffer is the only one. -/
theorem oneBuffer_sparse : oneBuffer.Sparse :=
  ⟨0, fun other apart => (Function.update_of_ne apart _ _ :
    Function.update (fun _ : Nat => (none : Option (NetworkBuf Unit))) 0 _ other = none)⟩

/-- Two buffers are added. -/
theorem twoBuffers_run {allowed : Writeq Nat Empty → WriteqCall Nat Empty → Prop}
    (add : ∀ Q callback, allowed Q (addByte Q callback)) :
    WriteqRun true allowed [1, 2] [.nothing, .nothing] twoBuffers := by
  have started : WriteqRun true allowed [] [] unusedQueue :=
    .start History.empty (by simp) rfl
      (fun _ _ => by simp [Registry.held, Registry.get, Registry.empty])
  have first : WriteqRun true allowed [1] [.nothing] oneBuffer :=
    .step started (add unusedQueue 1)
      (.add (plainAnswers_fresh unusedQueue ⟨0, fun _ _ => rfl⟩).1.1 rfl)
  exact .step first (add oneBuffer 2) (.add (plainAnswers_fresh oneBuffer oneBuffer_sparse).1.1 rfl)

/-- A queue with two buffers is cancelled. -/
theorem network_writeq_keeps_two :
    ∃ Q', networkWriteqCancel true plainAnswers 2 twoBuffers =
      some ([.calls 1 .cancel, .calls 2 .cancel], Q') ∧ Q'.head = [] := by
  have run : WriteqRun true (fun Q call => call.Meets Q) [1, 2] [.nothing, .nothing] twoBuffers :=
    twoBuffers_run fun _ _ => ⟨rfl, rfl⟩
  exact (network_writeq_keeps run).cancels plainAnswers plainAnswers_fresh

/-- The answers when the first buffer is written, but there is no memory for the write of the
second. -/
def noMemory : Answers :=
  let answers := plainAnswers twoBuffers
  { answers with write := { answers.write with malloc := none } }

/-- The first buffer is written, and the second one is not. -/
def stuckQueue : Writeq Nat Empty :=
  match perform twoBuffers.registry (.ready .write 3) with
  | none => twoBuffers
  | some (ends, registry) => (dispatch true { twoBuffers with registry } ends noMemory).2

/-- The event after which the second buffer is not written. -/
theorem stuckQueue_step : WriteqStep true twoBuffers (.call (.ready .write 3) noMemory) []
    (.calls 1 .ok) stuckQueue := by
  refine .call trivial trivial rfl ⟨⟨fun _ same => (nomatch same), ?_⟩, ?_⟩ rfl
  · exact fun _ _ timer pending => nomatch (show timer ∈ ([] : List Timer) from pending)
  · exact fun _ _ timer pending => nomatch (show timer ∈ ([] : List Timer) from pending)

/-- One buffer is left that nobody writes: a cancellation never ends. -/
theorem network_writeq_stuck :
    ∃ (added : List Nat) (heard : List (Told Nat)) (Q : Writeq Nat Empty),
      WriteqRun true (fun _ _ => True) added heard Q ∧ ¬ WriteqKeeps true added heard Q ∧
        ∀ answers times, networkWriteqCancel true answers times Q = none := by
  have run : WriteqRun true (fun _ _ => True) [1, 2] [.nothing, .nothing, .calls 1 .ok]
    stuckQueue :=
    .step (twoBuffers_run fun _ _ => trivial) trivial stuckQueue_step
  have never : ∀ answers times, networkWriteqCancel true answers times stuckQueue = none := by
    intro answers times
    induction times with
    | zero => rfl
    | succ times ih =>
      have waiting : stuckQueue.head ≠ [] := by
        change [oneByte 2] ≠ []
        simp
      have nothing : networkDeregister stuckQueue.registry stuckQueue.fd .write =
          (.returns 0, stuckQueue.registry) := rfl
      unfold networkWriteqCancel
      rw [if_neg waiting, nothing]
      simp only [dispatch]
      rw [ih]
      rfl
  refine ⟨_, _, stuckQueue, run, fun keeps => ?_, never⟩
  obtain ⟨Q', ends, _⟩ := keeps.cancels plainAnswers plainAnswers_fresh
  rw [never] at ends
  exact absurd ends (by simp)

end TwoBuffers

end Tarsnap.Network
