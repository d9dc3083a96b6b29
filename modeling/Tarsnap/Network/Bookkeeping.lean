import Tarsnap.Network.Register
import Mathlib.Data.List.Nodup

/-!
# Bookkeeping of registered callbacks

A history of the registry consists of calls of its functions, in any order and from anywhere, and of
events that the event loop delivers, any pending one at any time. As long as starting an event never
fails, a record with a callback has one pending timer, and its socket event is pending unless its
direction is suspended; a record without a callback has no event. Every callback that is registered
is either still held by its record or was invoked once, in the order of registration.
-/

namespace Tarsnap.Network

section History

variable {κ : Type}

/-- What happens to the registry: calls, from anywhere, and events, from the event loop. -/
inductive Call (κ : Type) where
  /-- `network_register` is called. -/
  | register (fd : Int) (op : NetworkOp) (timeo : Timeval) (cb : κ) (faults : RegisterFaults)
  /-- `network_deregister` is called. -/
  | deregister (fd : Int) (op : NetworkOp)
  /-- `network_register_suspend` is called. -/
  | suspend (op : NetworkOp)
  /-- `network_register_resume` is called, with the socket events that cannot be started. -/
  | resume (op : NetworkOp) (fails : Nat → Bool)
  /-- A timer has expired. -/
  | expire (timer : Timer)
  /-- A socket is ready. -/
  | ready (op : NetworkOp) (s : Nat)

/-- The effect of a call or an event. An event that is delivered is no longer pending; one that is
not pending is not delivered. -/
def perform (R : Registry κ) : Call κ → Option (Ends κ × Registry κ)
  | .register fd op timeo cb faults =>
    some (.returns (networkRegister R fd op timeo cb faults).1,
      (networkRegister R fd op timeo cb faults).2)
  | .deregister fd op => some (networkDeregister R fd op)
  | .suspend op => some (.returns (networkRegisterSuspend R op).1, (networkRegisterSuspend R op).2)
  | .resume op fails =>
    some (.returns (networkRegisterResume R op fails).1, (networkRegisterResume R op fails).2)
  | .expire timer =>
    if timer ∈ R.events.timers then
      some (callbackTimer { R with events := R.events.timerCancel timer.id } timer.cookie)
    else none
  | .ready op s =>
    match R.events.network op s with
    | none => none
    | some slot =>
      (R.events.networkCancel s op).map fun events => callbackNetwork { R with events } slot

/-- A timer that is started gets a cookie that no pending timer has. -/
def Call.Fresh (R : Registry κ) : Call κ → Prop
  | .register _ _ _ _ faults =>
    ∀ id, faults.timer = some id → ∀ timer ∈ R.events.timers, timer.id ≠ id
  | _ => True

/-- No event that a call starts fails to be registered; memory may run out otherwise. -/
def Call.Succeeds : Call κ → Prop
  | .register _ _ _ _ faults => faults.timer.isSome ∧ faults.network = false
  | .resume _ fails => ∀ i, fails i = false
  | _ => True

/-- The status with which a call or an event invokes a callback. -/
def Call.status : Call κ → Option NetworkStatus
  | .ready _ _ => some .ok
  | .expire _ => some .timeout
  | .deregister _ _ => some .cancel
  | _ => none

/-- The record whose callback a call or an event invokes. -/
def Call.target : Call κ → Option Slot
  | .ready op s => some (op, s)
  | .expire timer => some timer.cookie
  | .deregister fd op => some (op, fd.toNat)
  | _ => none

/-- The directions that are suspended after a call or an event. -/
def Call.suspends (suspended : NetworkOp → Bool) : Call κ → NetworkOp → Bool
  | .suspend op => Function.update suspended op true
  | .resume op _ => Function.update suspended op false
  | _ => suspended

/-- What happened to the registry since it was empty, with the registry that results. -/
inductive History : List (Call κ × Ends κ) → Registry κ → Prop where
  /-- Nothing has happened. -/
  | empty : History [] Registry.empty
  /-- A call or an event follows. -/
  | step {log : List (Call κ × Ends κ)} {R R' : Registry κ} {call : Call κ} {ends : Ends κ} :
      History log R → call.Fresh R → perform R call = some (ends, R') →
      History (log ++ [(call, ends)]) R'

/-- The callback that a record holds. -/
def Registry.held (R : Registry κ) (slot : Slot) : Option κ :=
  (R.get slot).bind (·.callback)

/-- The callback that an entry of a history registered in a record. -/
def registeredBy (slot : Slot) : Call κ × Ends κ → Option κ
  | (.register fd op _ cb _, .returns 0) => if (op, fd.toNat) = slot then some cb else none
  | _ => none

/-- Whether an entry of a history suspended or resumed a direction, if it did either. -/
def suspendedBy (op : NetworkOp) : Call κ × Ends κ → Option Bool
  | (.suspend place, _) => if place = op then some true else none
  | (.resume place _, _) => if place = op then some false else none
  | _ => none

/-- The callback of a record that an entry of a history invoked. -/
def calledBy (slot : Slot) : Call κ × Ends κ → Option κ
  | (_, .calls place cb _) => if place = slot then cb else none
  | _ => none

end History

section Records

variable {κ : Type}

/-- A table with one place changed. -/
theorem update_place {α : Type} (table : NetworkOp → Nat → α) (slot place : Slot) (value : α) :
    Function.update table slot.1 (Function.update (table slot.1) slot.2 value) place.1 place.2 =
      if place = slot then value else table place.1 place.2 := by
  obtain ⟨op, fd⟩ := slot
  obtain ⟨op', fd'⟩ := place
  by_cases ops : op' = op
  · subst ops
    by_cases fds : fd' = fd
    · simp [fds]
    · simp [fds]
  · simp [ops]

/-- The records after one was set. -/
@[simp] theorem Registry.get_set (R : Registry κ) (slot place : Slot) (c : Callback κ) :
    (R.set slot c).get place = if place = slot then some c else R.get place :=
  update_place R.callbacks slot place (some c)

/-- The callbacks that are held after a record was set. -/
@[simp] theorem Registry.held_set (R : Registry κ) (slot place : Slot) (c : Callback κ) :
    (R.set slot c).held place = if place = slot then c.callback else R.held place := by
  unfold Registry.held
  rw [Registry.get_set]
  split
  · rfl
  · rfl

/-- Setting a record does not touch the events. -/
@[simp] theorem Registry.set_events (R : Registry κ) (slot : Slot) (c : Callback κ) :
    (R.set slot c).events = R.events := rfl

/-- Setting a record does not enlarge the registry. -/
@[simp] theorem Registry.set_getsize (R : Registry κ) (slot : Slot) (c : Callback κ) :
    (R.set slot c).getsize = R.getsize := rfl

/-- Setting a record suspends nothing. -/
@[simp] theorem Registry.set_suspended (R : Registry κ) (slot : Slot) (c : Callback κ) :
    (R.set slot c).suspended = R.suspended := rfl

/-- Records do not depend on events. -/
@[simp] theorem Registry.get_events (R : Registry κ) (E : Events) (slot : Slot) :
    ({ R with events := E }).get slot = R.get slot := rfl

/-- Nor do the callbacks that they hold. -/
@[simp] theorem Registry.held_events (R : Registry κ) (E : Events) (slot : Slot) :
    ({ R with events := E }).held slot = R.held slot := rfl

/-- Which record a socket event is for, after it was registered. -/
theorem networkRegister_eq {E E' : Events} {cookie : Slot} {s : Nat} {op : NetworkOp} {fails : Bool}
    (registered : E.networkRegister cookie s op fails = some E') :
    fails = false ∧ E.network op s = none ∧ E'.timers = E.timers ∧ ∀ place : Slot,
      E'.network place.1 place.2 =
        if place = (op, s) then some cookie else E.network place.1 place.2 := by
  unfold Events.networkRegister at registered
  split at registered
  · exact absurd registered (by simp)
  · rename_i free
    have fields := Option.some.inj registered
    subst fields
    refine ⟨by simpa using fun h => free (Or.inl h), ?_, rfl, fun place => ?_⟩
    · cases taken : E.network op s with
      | none => rfl
      | some slot => exact absurd (Or.inr (by simp [taken])) free
    · exact update_place E.network (op, s) place (some cookie)

/-- Which record a socket event is for, after it was cancelled. -/
theorem networkCancel_eq {E E' : Events} {s : Nat} {op : NetworkOp}
    (cancelled : E.networkCancel s op = some E') :
    (E.network op s).isSome ∧ E'.timers = E.timers ∧ ∀ place : Slot,
      E'.network place.1 place.2 =
        if place = (op, s) then none else E.network place.1 place.2 := by
  unfold Events.networkCancel at cancelled
  split at cancelled
  · rename_i pending
    have fields := Option.some.inj cancelled
    subst fields
    exact ⟨pending, rfl, fun place => update_place E.network (op, s) place none⟩
  · exact absurd cancelled (by simp)

end Records

section Exact

variable {κ : Type} {R : Registry κ} {halted : Slot → Bool}

/-- The bookkeeping is exact, with the socket events of some records halted. -/
structure ExactWith (halted : Slot → Bool) (R : Registry κ) : Prop where
  /-- The records are within the arrays. -/
  within : ∀ slot, (R.getsize slot.1).getD 0 ≤ slot.2 → R.get slot = none
  /-- A record with a callback is for its own place and has one timer; its flag is right. -/
  record : ∀ slot c, R.get slot = some c → c.callback.isSome →
    (c.eop, c.s) = slot ∧ c.eventNetworkPending = !halted slot ∧
      ∃ timer, R.events.timers.filter (·.cookie = slot) = [timer] ∧ c.eventTimer = some timer.id
  /-- The socket event of a record is pending if it has a callback and is not halted. -/
  socket : ∀ slot : Slot, R.events.network slot.1 slot.2 =
    if (R.held slot).isSome ∧ halted slot = false then some slot else none
  /-- Every timer is for a record with a callback. -/
  timers : ∀ timer ∈ R.events.timers, (R.held timer.cookie).isSome
  /-- The cookies of the timers are distinct. -/
  distinct : (R.events.timers.map (·.id)).Nodup

/-- The bookkeeping is exact: just the suspended directions are halted. -/
def Exact (R : Registry κ) : Prop :=
  ExactWith (fun slot => R.suspended slot.1) R

/-- The callback that a record without one holds. -/
theorem held_of_get {slot : Slot} {c : Callback κ} (record : R.get slot = some c) :
    R.held slot = c.callback := by
  unfold Registry.held
  rw [record]
  rfl

/-- Only the halting of records with a callback matters. -/
theorem ExactWith.congr {halted' : Slot → Bool} (books : ExactWith halted R)
    (same : ∀ slot, (R.held slot).isSome → halted' slot = halted slot) : ExactWith halted' R where
  within := books.within
  record slot c record filled := by
    rw [same slot (by rw [held_of_get record]; exact filled)]
    exact books.record slot c record filled
  socket slot := by
    rw [books.socket slot]
    by_cases filled : (R.held slot).isSome
    · rw [same slot filled]
    · simp [filled]
  timers := books.timers
  distinct := books.distinct

/-- An empty record has no events. -/
theorem ExactWith.vacant (books : ExactWith halted R) {slot : Slot} (empty : R.held slot = none) :
    R.events.network slot.1 slot.2 = none ∧ R.events.timers.filter (·.cookie = slot) = [] := by
  constructor
  · rw [books.socket slot, empty]
    simp
  · apply List.filter_eq_nil_iff.mpr
    intro timer pending
    have filled := books.timers timer pending
    simp only [decide_eq_true_eq]
    intro same
    rw [same, empty] at filled
    exact absurd filled (by simp)

/-- Timers that belong to the one record are the ones with the cookie of its one timer. -/
theorem ExactWith.filter_id (books : ExactWith halted R) {slot : Slot} {timer : Timer}
    (only : R.events.timers.filter (·.cookie = slot) = [timer]) :
    R.events.timers.filter (·.id ≠ timer.id) = R.events.timers.filter (·.cookie ≠ slot) := by
  have found : timer ∈ R.events.timers ∧ timer.cookie = slot := by
    have member : timer ∈ R.events.timers.filter (·.cookie = slot) := by rw [only]; simp
    simpa using member
  apply List.filter_congr
  intro other pending
  rw [decide_eq_decide, not_iff_not]
  constructor
  · intro same
    rw [List.inj_on_of_nodup_map books.distinct pending found.1 same]
    exact found.2
  · intro same
    have member : other ∈ R.events.timers.filter (·.cookie = slot) := by simp [pending, same]
    rw [only, List.mem_singleton] at member
    rw [member]

/-- A record that is emptied together with its events. -/
theorem ExactWith.emptied (books : ExactWith halted R) {slot : Slot} {c : Callback κ} {E : Events}
    (present : (R.get slot).isSome)
    (network : ∀ place : Slot, E.network place.1 place.2 =
      if place = slot then none else R.events.network place.1 place.2)
    (timers : E.timers = R.events.timers.filter (·.cookie ≠ slot)) :
    ExactWith halted ({ R with events := E }.set slot { c with callback := none }) where
  within place beyond := by
    have missing := books.within place beyond
    rw [Registry.get_set, Registry.get_events]
    split
    · rename_i same
      rw [same] at missing
      rw [missing] at present
      exact absurd present (by simp)
    · exact missing
  record place d record filled := by
    rw [Registry.get_set, Registry.get_events] at record
    split at record
    · rw [← Option.some.inj record] at filled
      exact absurd filled (by simp)
    · rename_i other
      have former := books.record place d record filled
      refine ⟨former.1, former.2.1, ?_⟩
      obtain ⟨timer, only, cookie⟩ := former.2.2
      refine ⟨timer, ?_, cookie⟩
      rw [Registry.set_events, timers, List.filter_filter, ← only]
      apply List.filter_congr
      intro entry _
      rw [← Bool.decide_and, decide_eq_decide]
      constructor
      · exact And.left
      · intro same
        exact ⟨same, by rw [same]; exact other⟩
  socket place := by
    rw [Registry.set_events, network place, Registry.held_set, Registry.held_events]
    split
    · rename_i same
      simp
    · exact books.socket place
  timers timer pending := by
    rw [Registry.set_events, timers, List.mem_filter] at pending
    rw [Registry.held_set, Registry.held_events, if_neg (by simpa using pending.2)]
    exact books.timers timer pending.1
  distinct := by
    rw [Registry.set_events, timers]
    exact books.distinct.sublist (List.Sublist.map _ List.filter_sublist)

/-- A record that is filled together with its events. -/
theorem ExactWith.filled (books : ExactWith halted R) {slot : Slot} {c : Callback κ} {E : Events}
    {t : Timer} (vacant : R.held slot = none) (inside : slot.2 < (R.getsize slot.1).getD 0)
    (own : (c.eop, c.s) = slot) (callback : c.callback.isSome)
    (flag : c.eventNetworkPending = !halted slot) (cookie : c.eventTimer = some t.id)
    (timed : t.cookie = slot) (fresh : ∀ other ∈ R.events.timers, other.id ≠ t.id)
    (network : ∀ place : Slot, E.network place.1 place.2 =
      if place = slot ∧ halted slot = false then some slot else R.events.network place.1 place.2)
    (timers : E.timers = t :: R.events.timers) :
    ExactWith halted ({ R with events := E }.set slot c) where
  within place beyond := by
    rw [Registry.get_set, Registry.get_events]
    split
    · rename_i same
      rw [same] at beyond
      exact absurd inside (by simpa using beyond)
    · exact books.within place beyond
  record place d record filled := by
    rw [Registry.get_set, Registry.get_events] at record
    rw [Registry.set_events, timers]
    split at record
    · rename_i same
      rw [same, ← Option.some.inj record]
      refine ⟨own, flag, t, ?_, cookie⟩
      rw [List.filter_cons_of_pos (by simpa using timed), (books.vacant vacant).2]
    · rename_i other
      have former := books.record place d record filled
      rw [List.filter_cons_of_neg (by rw [timed]; simpa using fun same => other same.symm)]
      exact former
  socket place := by
    rw [Registry.set_events, network place, Registry.held_set, Registry.held_events]
    by_cases same : place = slot
    · rw [same, if_pos rfl]
      by_cases running : halted slot = false
      · rw [if_pos ⟨rfl, running⟩, if_pos ⟨callback, running⟩]
      · rw [if_neg fun h => running h.2, if_neg fun h => running h.2]
        exact (books.vacant vacant).1
    · rw [if_neg fun h => same h.1, if_neg same]
      exact books.socket place
  timers entry pending := by
    rw [Registry.set_events, timers, List.mem_cons] at pending
    rw [Registry.held_set, Registry.held_events]
    cases pending with
    | inl new => rw [new, if_pos timed]; exact callback
    | inr old =>
      split
      · exact callback
      · exact books.timers entry old
  distinct := by
    rw [Registry.set_events, timers, List.map_cons, List.nodup_cons]
    refine ⟨?_, books.distinct⟩
    intro taken
    obtain ⟨other, pending, same⟩ := List.mem_map.mp taken
    exact fresh other pending same

/-- The callback of a record is invoked. Either event may have been delivered before, as the record
says. -/
theorem docallback_exact (books : ExactWith halted R) {slot : Slot} {c d : Callback κ} {E : Events}
    (record : R.get slot = some c) (filled : c.callback.isSome) (own : (d.eop, d.s) = slot)
    (flag : d.eventNetworkPending → halted slot = false)
    (network : ∀ place : Slot, E.network place.1 place.2 =
      if place = slot ∧ d.eventNetworkPending = false then none
      else R.events.network place.1 place.2)
    (timer : d.eventTimer = c.eventTimer ∧ E.timers = R.events.timers ∨
      d.eventTimer = none ∧ E.timers = R.events.timers.filter (·.cookie ≠ slot))
    (status : NetworkStatus) :
    ∃ R', docallback { R with events := E } slot d status = (.calls slot d.callback status, R') ∧
      ExactWith halted R' ∧ R'.suspended = R.suspended ∧
      ∀ place, R'.held place = if place = slot then none else R.held place := by
  have present : (R.get slot).isSome := by rw [record]; rfl
  have heldHere : (R.held slot).isSome := by rw [held_of_get record]; exact filled
  -- the socket event, if the record says that it is pending
  obtain ⟨E₁, first, network₁, timers₁⟩ : ∃ E₁ : Events,
      (if d.eventNetworkPending then (E.networkCancel d.s d.eop).getD E else E) = E₁ ∧
      (∀ place : Slot, E₁.network place.1 place.2 =
        if place = slot then none else R.events.network place.1 place.2) ∧
      E₁.timers = E.timers := by
    refine ⟨_, rfl, ?_⟩
    by_cases pending : d.eventNetworkPending = true
    · have waiting : E.network d.eop d.s = some slot := by
        have eop : d.eop = slot.1 := congrArg Prod.fst own
        have s : d.s = slot.2 := congrArg Prod.snd own
        have here := network slot
        rw [if_neg (by simp [pending]), books.socket slot, if_pos ⟨heldHere, flag pending⟩] at here
        rw [eop, s]
        exact here
      obtain ⟨E', cancelled⟩ : ∃ E', E.networkCancel d.s d.eop = some E' := by
        unfold Events.networkCancel
        rw [waiting]
        exact ⟨_, rfl⟩
      have spec := networkCancel_eq cancelled
      rw [if_pos pending, cancelled, Option.getD_some]
      refine ⟨fun place => ?_, spec.2.1⟩
      rw [spec.2.2 place, own, network place, pending]
      simp
    · rw [if_neg pending]
      refine ⟨fun place => ?_, rfl⟩
      rw [network place]
      simp [pending]
  -- the timer, if it has not expired
  obtain ⟨E₂, second, network₂, timers₂⟩ : ∃ E₂ : Events,
      (d.eventTimer.map E₁.timerCancel).getD E₁ = E₂ ∧
      (∀ place : Slot, E₂.network place.1 place.2 = E₁.network place.1 place.2) ∧
      E₂.timers = R.events.timers.filter (·.cookie ≠ slot) := by
    refine ⟨_, rfl, ?_⟩
    obtain ⟨_, _, entry, only, cookie⟩ := books.record slot c record filled
    cases timer with
    | inl still =>
      rw [still.1, cookie]
      refine ⟨fun _ => rfl, ?_⟩
      change E₁.timers.filter (·.id ≠ entry.id) = _
      rw [timers₁, still.2]
      exact books.filter_id only
    | inr expired =>
      rw [expired.1]
      exact ⟨fun _ => rfl, timers₁.trans expired.2⟩
  refine ⟨{ R with events := E₂ }.set slot { d with callback := none }, ?_, ?_, rfl, ?_⟩
  · unfold docallback
    simp only [first, second]
  · exact books.emptied present (fun place => (network₂ place).trans (network₁ place)) timers₂
  · intro place
    rw [Registry.held_set, Registry.held_events]

/-- Larger arrays change nothing else. -/
theorem ExactWith.larger (books : ExactWith halted R) {getsize : NetworkOp → Option Nat}
    (grown : ∀ op, (R.getsize op).getD 0 ≤ (getsize op).getD 0) :
    ExactWith halted { R with getsize } where
  within slot beyond := books.within slot (Nat.le_trans (grown slot.1) beyond)
  record := books.record
  socket := books.socket
  timers := books.timers
  distinct := books.distinct

/-- Replacing one size by a larger one. -/
theorem getD_update_le {getsize : NetworkOp → Option Nat} {op : NetworkOp} {size : Nat}
    (larger : (getsize op).getD 0 ≤ size) (other : NetworkOp) :
    (getsize other).getD 0 ≤ (Function.update getsize op (some size) other).getD 0 := by
  by_cases same : other = op
  · rw [same, Function.update_self]
    exact larger
  · apply Nat.le_of_eq
    rw [Function.update_of_ne same]

/-- Enlarging touches the sizes only, and makes a place for the descriptor. -/
theorem enlarge_eq {R' : Registry κ} {fd : Nat} {op : NetworkOp} {faults : RegisterFaults}
    (enlarged : R.enlarge fd op faults = some R') :
    ∃ getsize, R' = { R with getsize } ∧ fd < (getsize op).getD 0 ∧
      ∀ other, (R.getsize other).getD 0 ≤ (getsize other).getD 0 := by
  unfold Registry.enlarge at enlarged
  cases size : R.getsize op with
  | none =>
    simp only [size] at enlarged
    split at enlarged
    · exact absurd enlarged (by simp)
    · split at enlarged
      · exact absurd enlarged (by simp)
      · refine ⟨_, (Option.some.inj enlarged).symm, by simp, getD_update_le ?_⟩
        rw [size]
        exact Nat.zero_le _
  | some osize =>
    simp only [size] at enlarged
    split at enlarged
    · rename_i small
      split at enlarged
      · exact absurd enlarged (by simp)
      · refine ⟨_, (Option.some.inj enlarged).symm, by simp, getD_update_le ?_⟩
        rw [size, Option.getD_some]
        omega
    · refine ⟨R.getsize, (Option.some.inj enlarged).symm, ?_, fun _ => Nat.le_refl _⟩
      rw [size, Option.getD_some]
      omega

/-- A record that was filled gets its events. -/
theorem networkRegisterEvents_exact (books : Exact R) {slot : Slot} {c : Callback κ}
    (timeo : Timeval) {faults : RegisterFaults} {id : Nat} (vacant : R.held slot = none)
    (inside : slot.2 < (R.getsize slot.1).getD 0) (own : (c.eop, c.s) = slot)
    (callback : c.callback.isSome) (timer : faults.timer = some id)
    (fresh : ∀ other ∈ R.events.timers, other.id ≠ id) (network : faults.network = false) :
    ∃ R', networkRegisterEvents R slot c timeo faults = (0, R') ∧ Exact R' ∧
      R'.suspended = R.suspended ∧
      ∀ place, R'.held place = if place = slot then c.callback else R.held place := by
  have started : R.events.timerRegister slot timeo faults.timer =
      some (id, { R.events with timers := ⟨id, slot, timeo⟩ :: R.events.timers }) := by
    rw [timer]
    rfl
  unfold networkRegisterEvents
  rw [started]
  by_cases running : R.suspended slot.1 = false
  · have free : R.events.network c.eop c.s = none := by
      have eop : c.eop = slot.1 := congrArg Prod.fst own
      have s : c.s = slot.2 := congrArg Prod.snd own
      rw [eop, s]
      exact (books.vacant vacant).1
    obtain ⟨E, registered⟩ : ∃ E, Events.networkRegister
        { R.events with timers := ⟨id, slot, timeo⟩ :: R.events.timers } slot c.s c.eop
        faults.network = some E := by
      unfold Events.networkRegister
      rw [network, free]
      exact ⟨_, rfl⟩
    have spec := networkRegister_eq registered
    simp only [if_pos running, registered]
    refine ⟨_, rfl, ?_, rfl, fun place => by rw [Registry.held_set, Registry.held_events]⟩
    refine ExactWith.filled (c := { c with eventTimer := some id, eventNetworkPending := true })
      (t := ⟨id, slot, timeo⟩) books vacant inside own callback ?_ rfl rfl fresh ?_ spec.2.2.1
    · rw [running]
      rfl
    · intro place
      rw [spec.2.2.2 place, own]
      simp [running]
  · simp only [if_neg running]
    refine ⟨_, rfl, ?_, rfl, fun place => by rw [Registry.held_set, Registry.held_events]⟩
    refine ExactWith.filled (c := { c with eventTimer := some id, eventNetworkPending := false })
      (t := ⟨id, slot, timeo⟩) books vacant inside own callback ?_ rfl rfl fresh ?_ rfl
    · simp only [Bool.not_eq_false] at running
      rw [running]
      rfl
    · intro place
      rw [if_neg fun both => running both.2]

/-- There is no memory for an array or a record. -/
def NoMemory (faults : RegisterFaults) : Prop :=
  faults.init = true ∨ faults.resize = true ∨ faults.malloc = true

/-- Why a registration whose events can be started is refused: the descriptor is out of range, there
is no memory, or the record holds a callback. -/
def Refused (R : Registry κ) (fd : Int) (op : NetworkOp) (faults : RegisterFaults) : Prop :=
  (fd < 0 ∨ (FD_SETSIZE : Int) ≤ fd) ∨ NoMemory faults ∨ (R.held (op, fd.toNat)).isSome

/-- Enlarging fails only if there is no memory. -/
theorem enlarge_none {fd : Nat} {op : NetworkOp} {faults : RegisterFaults}
    (failed : R.enlarge fd op faults = none) : NoMemory faults := by
  unfold Registry.enlarge at failed
  cases size : R.getsize op with
  | none =>
    simp only [size] at failed
    split at failed
    · rename_i init
      exact Or.inl init
    · split at failed
      · rename_i resize
        exact Or.inr (Or.inl resize)
      · exact absurd failed (by simp)
  | some osize =>
    simp only [size] at failed
    split at failed
    · split at failed
      · rename_i resize
        exact Or.inr (Or.inl resize)
      · exact absurd failed (by simp)
    · exact absurd failed (by simp)

/-- A registration whose events can be started either fails before it fills the record, or
registers the callback. -/
theorem networkRegister_exact (books : Exact R) (fd : Int) (op : NetworkOp) (timeo : Timeval)
    (cb : κ) {faults : RegisterFaults} {id : Nat} (timer : faults.timer = some id)
    (fresh : ∀ other ∈ R.events.timers, other.id ≠ id) (network : faults.network = false) :
    ∃ rc R', networkRegister R fd op timeo cb faults = (rc, R') ∧ Exact R' ∧
      R'.suspended = R.suspended ∧
      (rc = -1 ∧ (∀ place, R'.held place = R.held place) ∧ Refused R fd op faults ∨
        rc = 0 ∧ R.held (op, fd.toNat) = none ∧
          ∀ place, R'.held place = if place = (op, fd.toNat) then some cb else R.held place) := by
  unfold networkRegister
  by_cases valid : fd < 0 ∨ (FD_SETSIZE : Int) ≤ fd
  · rw [if_pos valid]
    exact ⟨_, _, rfl, books, rfl, Or.inl ⟨rfl, fun _ => rfl, Or.inl valid⟩⟩
  · rw [if_neg valid]
    cases enlarged : R.enlarge fd.toNat op faults with
    | none =>
      simp only [enlarged]
      refine ⟨_, _, rfl, ?_, ?_, Or.inl ⟨rfl, fun place => ?_,
        Or.inr (Or.inl (enlarge_none enlarged))⟩⟩
      · split
        · rename_i created
          apply ExactWith.larger books
          apply getD_update_le
          rw [Option.isNone_iff_eq_none.mp created.1]
          exact Nat.le_refl _
        · exact books
      · split
        · rfl
        · rfl
      · split
        · rfl
        · rfl
    | some R₁ =>
      obtain ⟨getsize, sized, inside, grown⟩ := enlarge_eq enlarged
      subst sized
      have larger : Exact { R with getsize } := ExactWith.larger books grown
      simp only [enlarged]
      cases record : ({ R with getsize } : Registry κ).get (op, fd.toNat) with
      | none =>
        have vacant : ({ R with getsize } : Registry κ).held (op, fd.toNat) = none := by
          unfold Registry.held
          rw [record]
          rfl
        simp only
        by_cases memory : faults.malloc = true
        · rw [if_pos memory]
          exact ⟨_, _, rfl, larger, rfl, Or.inl ⟨rfl, fun _ => rfl,
            Or.inr (Or.inl (Or.inr (Or.inr memory)))⟩⟩
        · rw [if_neg memory]
          obtain ⟨R', done, books', suspended, held⟩ := networkRegisterEvents_exact
            (c := ⟨some cb, fd.toNat, op, false, none⟩) larger timeo vacant inside rfl rfl timer
            fresh network
          exact ⟨0, R', done, books', suspended, Or.inr ⟨rfl, vacant, held⟩⟩
      | some c =>
        simp only
        by_cases filled : c.callback.isSome
        · rw [if_pos filled]
          have taken : (R.held (op, fd.toNat)).isSome := by
            rw [show R.held (op, fd.toNat) = c.callback from held_of_get record]
            exact filled
          exact ⟨_, _, rfl, larger, rfl, Or.inl ⟨rfl, fun _ => rfl, Or.inr (Or.inr taken)⟩⟩
        · rw [if_neg filled]
          have vacant : ({ R with getsize } : Registry κ).held (op, fd.toNat) = none := by
            rw [held_of_get record]
            simpa using filled
          obtain ⟨R', done, books', suspended, held⟩ := networkRegisterEvents_exact
            (c := { c with callback := some cb, s := fd.toNat, eop := op }) larger timeo vacant
            inside rfl rfl timer fresh network
          exact ⟨0, R', done, books', suspended, Or.inr ⟨rfl, vacant, held⟩⟩

/-- The socket event of a record with a callback is started or cancelled. -/
theorem ExactWith.switched (books : ExactWith halted R) {slot : Slot} {c : Callback κ} {E : Events}
    (record : R.get slot = some c) (callback : c.callback.isSome) (on : Bool)
    (network : ∀ place : Slot, E.network place.1 place.2 =
      if place = slot then (if on then some slot else none) else R.events.network place.1 place.2)
    (timers : E.timers = R.events.timers) :
    ExactWith (Function.update halted slot !on)
      { R.set slot { c with eventNetworkPending := on } with events := E } where
  within place beyond := by
    have missing := books.within place beyond
    rw [Registry.get_events, Registry.get_set]
    split
    · rename_i same
      rw [same, record] at missing
      exact absurd missing (by simp)
    · exact missing
  record place d found filled := by
    rw [Registry.get_events, Registry.get_set] at found
    change _ ∧ _ ∧ ∃ timer, E.timers.filter (·.cookie = place) = [timer] ∧ _
    rw [timers]
    split at found
    · rename_i same
      have former := books.record slot c record callback
      rw [same, ← Option.some.inj found, Function.update_self]
      exact ⟨former.1, by simp, former.2.2⟩
    · rename_i other
      rw [Function.update_of_ne other]
      exact books.record place d found filled
  socket place := by
    change E.network place.1 place.2 = _
    rw [network place, Registry.held_events, Registry.held_set]
    by_cases same : place = slot
    · rw [if_pos same, if_pos same, same, Function.update_self]
      simp [callback]
    · rw [if_neg same, if_neg same, Function.update_of_ne same]
      exact books.socket place
  timers timer pending := by
    change timer ∈ E.timers at pending
    rw [timers] at pending
    rw [Registry.held_events, Registry.held_set]
    split
    · exact callback
    · exact books.timers timer pending
  distinct := by
    change (E.timers.map (·.id)).Nodup
    rw [timers]
    exact books.distinct

/-- A record whose socket event is as it shall be. -/
theorem ExactWith.unswitched (books : ExactWith halted R) {slot : Slot} (on : Bool)
    (already : ∀ c, R.get slot = some c → c.callback.isSome → c.eventNetworkPending = on) :
    ExactWith (Function.update halted slot !on) R := by
  apply books.congr
  intro place filled
  by_cases same : place = slot
  · rw [same, Function.update_self]
    cases record : R.get slot with
    | none =>
      unfold Registry.held at filled
      rw [same, record] at filled
      exact absurd filled (by simp)
    | some c =>
      rw [same, held_of_get record] at filled
      have flag := (books.record slot c record filled).2.1
      rw [already c record filled] at flag
      rw [flag, Bool.not_not]
  · exact Function.update_of_ne same _ _

/-- Within a scan, the socket event of one record is cancelled. -/
theorem suspendOne_exact (books : ExactWith halted R) (op : NetworkOp) (i : Nat) :
    ∃ R', suspendOne op R i = (0, R') ∧ ExactWith (Function.update halted (op, i) true) R' ∧
      R'.getsize = R.getsize ∧ R'.suspended = R.suspended ∧
      ∀ place, R'.held place = R.held place := by
  unfold suspendOne
  cases record : R.get (op, i) with
  | none =>
    refine ⟨R, rfl, books.unswitched false fun c found => ?_, rfl, rfl, fun _ => rfl⟩
    rw [record] at found
    exact absurd found (by simp)
  | some c =>
    simp only
    by_cases running : c.callback.isSome ∧ c.eventNetworkPending
    · obtain ⟨own, flag, timer⟩ := books.record (op, i) c record running.1
      have held : (R.held (op, i)).isSome := by rw [held_of_get record]; exact running.1
      have waiting : halted (op, i) = false := by
        rw [running.2] at flag
        simpa using flag.symm
      have eop : c.eop = op := congrArg Prod.fst own
      have s : c.s = i := congrArg Prod.snd own
      obtain ⟨E, cancelled⟩ : ∃ E, R.events.networkCancel c.s c.eop = some E := by
        have pending : R.events.network op i = some (op, i) := by
          rw [books.socket (op, i), if_pos ⟨held, waiting⟩]
        unfold Events.networkCancel
        rw [eop, s, pending]
        exact ⟨_, rfl⟩
      have spec := networkCancel_eq cancelled
      simp only [if_pos running, Registry.set_events, cancelled]
      refine ⟨_, rfl, books.switched record running.1 false (fun place => ?_) spec.2.1, rfl, rfl,
        fun place => ?_⟩
      · rw [spec.2.2 place, own]
        rfl
      · rw [Registry.held_events, Registry.held_set]
        split
        · rename_i same
          rw [same, held_of_get record]
        · rfl
    · simp only [if_neg running]
      refine ⟨R, rfl, books.unswitched false fun d found filled => ?_, rfl, rfl, fun _ => rfl⟩
      rw [record] at found
      rw [← Option.some.inj found] at filled ⊢
      simpa [filled] using running

/-- Within a scan, the socket event of one record is started. -/
theorem resumeOne_exact (books : ExactWith halted R) (op : NetworkOp) {fails : Nat → Bool}
    (succeeds : ∀ i, fails i = false) (i : Nat) :
    ∃ R', resumeOne op fails R i = (0, R') ∧ ExactWith (Function.update halted (op, i) false) R' ∧
      R'.getsize = R.getsize ∧ R'.suspended = R.suspended ∧
      ∀ place, R'.held place = R.held place := by
  unfold resumeOne
  cases record : R.get (op, i) with
  | none =>
    refine ⟨R, rfl, books.unswitched true fun c found => ?_, rfl, rfl, fun _ => rfl⟩
    rw [record] at found
    exact absurd found (by simp)
  | some c =>
    simp only
    by_cases stopped : c.callback.isSome ∧ c.eventNetworkPending = false
    · obtain ⟨own, flag, timer⟩ := books.record (op, i) c record stopped.1
      have waiting : halted (op, i) = true := by
        rw [stopped.2] at flag
        simpa using flag.symm
      have eop : c.eop = op := congrArg Prod.fst own
      have s : c.s = i := congrArg Prod.snd own
      obtain ⟨E, registered⟩ :
          ∃ E, R.events.networkRegister (op, i) c.s c.eop (fails i) = some E := by
        have free : R.events.network op i = none := by
          rw [books.socket (op, i), waiting]
          simp
        unfold Events.networkRegister
        rw [eop, s, free, succeeds i]
        exact ⟨_, rfl⟩
      have spec := networkRegister_eq registered
      simp only [if_pos stopped, Registry.set_events, registered]
      refine ⟨_, rfl, books.switched record stopped.1 true (fun place => ?_) spec.2.2.1, rfl, rfl,
        fun place => ?_⟩
      · rw [spec.2.2.2 place, own]
        rfl
      · rw [Registry.held_events, Registry.held_set]
        split
        · rename_i same
          rw [same, held_of_get record]
        · rfl
    · simp only [if_neg stopped]
      refine ⟨R, rfl, books.unswitched true fun d found filled => ?_, rfl, rfl, fun _ => rfl⟩
      rw [record] at found
      rw [← Option.some.inj found] at filled ⊢
      simpa [filled] using stopped

/-- A scan that switches the socket event of every record that it visits. -/
theorem scan_exact {visit : Registry κ → Nat → Int × Registry κ} {op : NetworkOp} {value : Bool}
    (each : ∀ halted R i, ExactWith halted R → ∃ R', visit R i = (0, R') ∧
      ExactWith (Function.update halted (op, i) value) R' ∧ R'.getsize = R.getsize ∧
      R'.suspended = R.suspended ∧ ∀ place, R'.held place = R.held place)
    (places : List Nat) :
    ∀ {halted : Slot → Bool} {R : Registry κ}, ExactWith halted R →
      ∃ R', scan visit places R = (0, R') ∧
        ExactWith (fun slot => if slot.1 = op ∧ slot.2 ∈ places then value else halted slot) R' ∧
        R'.getsize = R.getsize ∧ R'.suspended = R.suspended ∧
        ∀ place, R'.held place = R.held place := by
  induction places with
  | nil =>
    intro halted R books
    refine ⟨R, rfl, books.congr fun slot _ => ?_, rfl, rfl, fun _ => rfl⟩
    simp
  | cons i rest ih =>
    intro halted R books
    obtain ⟨R₁, visited, books₁, size₁, suspended₁, held₁⟩ := each halted R i books
    obtain ⟨R₂, scanned, books₂, size₂, suspended₂, held₂⟩ := ih books₁
    refine ⟨R₂, ?_, books₂.congr fun slot _ => ?_, size₂.trans size₁,
      suspended₂.trans suspended₁, fun place => (held₂ place).trans (held₁ place)⟩
    · rw [scan, visited]
      exact scanned
    · obtain ⟨op', fd⟩ := slot
      by_cases later : op' = op ∧ fd ∈ rest
      · rw [if_pos ⟨later.1, List.mem_cons_of_mem _ later.2⟩, if_pos later]
      · rw [if_neg later]
        by_cases here : op' = op ∧ fd = i
        · rw [if_pos ⟨here.1, by rw [here.2]; exact List.mem_cons_self⟩, here.1, here.2,
            Function.update_self]
        · rw [if_neg, Function.update_of_ne]
          · intro same
            exact here ⟨congrArg Prod.fst same, congrArg Prod.snd same⟩
          · intro visited
            cases List.mem_cons.mp visited.2 with
            | inl same => exact here ⟨visited.1, same⟩
            | inr member => exact later ⟨visited.1, member⟩

/-- A scan over all records of a direction that is suspended or resumed. -/
theorem scan_all_exact (visit : Registry κ → Nat → Int × Registry κ) (op : NetworkOp) (value : Bool)
    (each : ∀ halted R i, ExactWith halted R → ∃ R', visit R i = (0, R') ∧
      ExactWith (Function.update halted (op, i) value) R' ∧ R'.getsize = R.getsize ∧
      R'.suspended = R.suspended ∧ ∀ place, R'.held place = R.held place)
    (books : Exact R) :
    ∃ R', scan visit (List.range ((R.getsize op).getD 0))
        { R with suspended := Function.update R.suspended op value } = (0, R') ∧ Exact R' ∧
      R'.suspended = Function.update R.suspended op value ∧
      ∀ place, R'.held place = R.held place := by
  have start : ExactWith (fun slot => R.suspended slot.1)
      { R with suspended := Function.update R.suspended op value } :=
    ⟨books.within, books.record, books.socket, books.timers, books.distinct⟩
  obtain ⟨R', scanned, books', size, suspended, held⟩ :=
    scan_exact each (List.range ((R.getsize op).getD 0)) start
  refine ⟨R', scanned, books'.congr fun slot filled => ?_, suspended, held⟩
  rw [suspended]
  change Function.update R.suspended op value slot.1 = _
  by_cases same : slot.1 = op
  · have inside : slot.2 < (R.getsize op).getD 0 := by
      by_contra beyond
      have missing := books.within slot (by rw [same]; omega)
      rw [held slot] at filled
      have empty : R.held slot = none := by
        unfold Registry.held
        rw [missing]
        rfl
      change (R.held slot).isSome at filled
      rw [empty] at filled
      exact absurd filled (by simp)
    rw [if_pos ⟨same, List.mem_range.mpr inside⟩, same, Function.update_self]
  · rw [if_neg fun both => same both.1, Function.update_of_ne same]

/-- When a call registers nothing and invokes nothing, and what it returns then. -/
def Call.Quiet (R : Registry κ) (rc : Int) : Call κ → Prop
  | .register fd op _ _ faults => rc = -1 ∧ Refused R fd op faults
  | .deregister fd op => fd < 0 ∨ R.held (op, fd.toNat) = none
  | .suspend _ => rc = 0
  | .resume _ _ => rc = 0
  | .expire _ => False
  | .ready _ _ => False

/-- What a call or an event does to the callbacks that are held: nothing; one is registered in an
empty record; or one is invoked, that of the cause with the status of the cause, and its record
emptied. -/
inductive Outcome (R R' : Registry κ) : Call κ → Ends κ → Prop where
  /-- Nothing is registered, and nothing is invoked. -/
  | quiet {call : Call κ} {rc : Int} (same : ∀ place, R'.held place = R.held place)
      (silent : ∀ place, registeredBy place (call, .returns rc) = none)
      (idle : call.Quiet R rc) : Outcome R R' call (.returns rc)
  /-- A callback is registered. -/
  | registers {call : Call κ} {slot : Slot} {cb : κ} (vacant : R.held slot = none)
      (held : ∀ place, R'.held place = if place = slot then some cb else R.held place)
      (recorded : ∀ place, registeredBy place (call, .returns 0) =
        if slot = place then some cb else none) :
      Outcome R R' call (.returns 0)
  /-- The callback of a record is invoked. -/
  | invokes {call : Call κ} {slot : Slot} {cb : κ} {status : NetworkStatus}
      (holder : R.held slot = some cb)
      (held : ∀ place, R'.held place = if place = slot then none else R.held place)
      (target : call.target = some slot) (known : call.status = some status) :
      Outcome R R' call (.calls slot (some cb) status)

/-- A call that invokes the callback of a record with a known status. -/
theorem outcome_of_docallback {R' : Registry κ} {call : Call κ} {slot : Slot} {c : Callback κ}
    {status : NetworkStatus} (record : R.get slot = some c) (filled : c.callback.isSome)
    (held : ∀ place, R'.held place = if place = slot then none else R.held place)
    (target : call.target = some slot) (known : call.status = some status) :
    Outcome R R' call (.calls slot c.callback status) := by
  cases callback : c.callback with
  | none =>
    rw [callback] at filled
    exact absurd filled (by simp)
  | some cb =>
    have holder : R.held slot = some cb := by rw [held_of_get record, callback]
    exact Outcome.invokes holder held target known

/-- A record beyond the array holds no callback. -/
theorem ExactWith.beyond (books : ExactWith halted R) {slot : Slot}
    (outside : (R.getsize slot.1).getD 0 ≤ slot.2) : R.held slot = none := by
  unfold Registry.held
  rw [books.within slot outside]
  rfl

/-- Deregistering a callback. -/
theorem networkDeregister_outcome (books : Exact R) (fd : Int) (op : NetworkOp) :
    ∃ ends R', networkDeregister R fd op = (ends, R') ∧ Exact R' ∧
      R'.suspended = R.suspended ∧ Outcome R R' (.deregister fd op) ends := by
  have idle : ∀ rc : Int, fd < 0 ∨ R.held (op, fd.toNat) = none →
      Outcome R R (.deregister fd op) (.returns rc) := fun rc none =>
    Outcome.quiet (fun _ => rfl) (fun _ => rfl) none
  unfold networkDeregister
  cases sized : R.getsize op with
  | none =>
    have empty : R.held (op, fd.toNat) = none :=
      ExactWith.beyond books (by rw [sized]; exact Nat.zero_le _)
    exact ⟨_, _, rfl, books, rfl, idle 0 (Or.inr empty)⟩
  | some size =>
    simp only
    by_cases large : (size : Int) ≤ fd
    · have empty : R.held (op, fd.toNat) = none :=
        ExactWith.beyond books (by rw [sized, Option.getD_some]; omega)
      rw [if_pos large]
      exact ⟨_, _, rfl, books, rfl, idle 0 (Or.inr empty)⟩
    · rw [if_neg large]
      by_cases negative : fd < 0
      · rw [if_pos negative]
        exact ⟨_, _, rfl, books, rfl, idle (-1) (Or.inl negative)⟩
      · rw [if_neg negative]
        cases record : R.get (op, fd.toNat) with
        | none =>
          have empty : R.held (op, fd.toNat) = none := by
            unfold Registry.held
            rw [record]
            rfl
          exact ⟨_, _, rfl, books, rfl, idle 0 (Or.inr empty)⟩
        | some c =>
          simp only
          by_cases filled : c.callback.isSome
          · rw [if_pos filled]
            obtain ⟨own, flag, _⟩ := books.record _ c record filled
            obtain ⟨R', called, books', suspended, held⟩ := docallback_exact (E := R.events)
              (d := c)
              books record filled own (fun pending => by simpa [pending] using flag.symm)
              (fun place => by
                split
                · rename_i both
                  rw [both.2] at flag
                  rw [books.socket place, both.1, if_neg]
                  intro running
                  rw [running.2] at flag
                  exact absurd flag (by simp)
                · rfl)
              (Or.inl ⟨rfl, rfl⟩) .cancel
            refine ⟨_, R', called, ?_, suspended, outcome_of_docallback record filled held rfl rfl⟩
            unfold Exact
            rw [suspended]
            exact books'
          · rw [if_neg filled]
            have empty : R.held (op, fd.toNat) = none := by
              rw [held_of_get record]
              simpa using filled
            exact ⟨_, _, rfl, books, rfl, idle 0 (Or.inr empty)⟩

/-- The callback that a pending event is for. -/
theorem filled_of_held {slot : Slot} (held : (R.held slot).isSome) :
    ∃ c, R.get slot = some c ∧ c.callback.isSome := by
  cases record : R.get slot with
  | none =>
    unfold Registry.held at held
    rw [record] at held
    exact absurd held (by simp)
  | some c =>
    rw [held_of_get record] at held
    exact ⟨c, rfl, held⟩

/-- A timer expires. -/
theorem callbackTimer_outcome (books : Exact R) {timer : Timer}
    (pending : timer ∈ R.events.timers) :
    ∃ ends R',
      callbackTimer { R with events := R.events.timerCancel timer.id } timer.cookie = (ends, R') ∧
        Exact R' ∧ R'.suspended = R.suspended ∧ Outcome R R' (.expire timer) ends := by
  obtain ⟨c, record, filled⟩ := filled_of_held (books.timers timer pending)
  obtain ⟨own, flag, only, alone, cookie⟩ := books.record _ c record filled
  have same : timer = only := by
    have member : timer ∈ R.events.timers.filter (·.cookie = timer.cookie) := by simp [pending]
    rw [alone, List.mem_singleton] at member
    exact member
  rw [← same] at alone
  obtain ⟨R', called, books', suspended, held⟩ := docallback_exact
    (E := R.events.timerCancel timer.id) (d := { c with eventTimer := none })
    books record filled own
    (fun (waiting : c.eventNetworkPending = true) => by simpa [waiting] using flag.symm)
    (fun place => by
      split
      · rename_i both
        rw [both.2] at flag
        change R.events.network place.1 place.2 = none
        rw [books.socket place, both.1, if_neg]
        intro running
        rw [running.2] at flag
        exact absurd flag (by simp)
      · rfl)
    (Or.inr ⟨rfl, books.filter_id alone⟩) .timeout
  refine ⟨_, R', ?_, ?_, suspended, outcome_of_docallback record filled held rfl rfl⟩
  · unfold callbackTimer
    rw [Registry.get_events, record]
    exact called
  · unfold Exact
    rw [suspended]
    exact books'

/-- A socket is ready. -/
theorem callbackNetwork_outcome (books : Exact R) {op : NetworkOp} {s : Nat} {slot : Slot}
    (pending : R.events.network op s = some slot) :
    ∃ E ends R', R.events.networkCancel s op = some E ∧
      callbackNetwork { R with events := E } slot = (ends, R') ∧ Exact R' ∧
        R'.suspended = R.suspended ∧ Outcome R R' (.ready op s) ends := by
  have here := books.socket (op, s)
  rw [pending] at here
  by_cases running : (R.held (op, s)).isSome ∧ R.suspended op = false
  · rw [if_pos running] at here
    rw [Option.some.inj here]
    obtain ⟨c, record, filled⟩ := filled_of_held running.1
    obtain ⟨own, flag, only, alone, cookie⟩ := books.record _ c record filled
    obtain ⟨E, cancelled⟩ : ∃ E, R.events.networkCancel s op = some E := by
      unfold Events.networkCancel
      rw [pending]
      exact ⟨_, rfl⟩
    have spec := networkCancel_eq cancelled
    obtain ⟨R', called, books', suspended, held⟩ := docallback_exact
      (E := E) (d := { c with eventNetworkPending := false })
      books record filled own (fun waiting => absurd waiting (by simp))
      (fun place => by rw [spec.2.2 place]; simp)
      (Or.inl ⟨rfl, spec.2.1⟩) .ok
    refine ⟨E, _, R', cancelled, ?_, ?_, suspended,
      outcome_of_docallback record filled held rfl rfl⟩
    · unfold callbackNetwork
      rw [Registry.get_events, record]
      exact called
    · unfold Exact
      rw [suspended]
      exact books'
  · rw [if_neg running] at here
    exact absurd here (by simp)

/-- Whatever happens, the bookkeeping stays exact as long as events can be started. -/
theorem perform_outcome (books : Exact R) {call : Call κ} {ends : Ends κ} {R' : Registry κ}
    (fresh : call.Fresh R) (succeeds : call.Succeeds)
    (performed : perform R call = some (ends, R')) :
    Exact R' ∧ R'.suspended = call.suspends R.suspended ∧ Outcome R R' call ends := by
  cases call with
  | register fd op timeo cb faults =>
    obtain ⟨id, timer⟩ := Option.isSome_iff_exists.mp succeeds.1
    obtain ⟨rc, R₁, registered, books', suspended, result⟩ := networkRegister_exact books fd op
      timeo cb timer (fresh id timer) succeeds.2
    simp only [perform, registered, Option.some.injEq, Prod.mk.injEq] at performed
    rw [← performed.1, ← performed.2]
    refine ⟨books', suspended, ?_⟩
    cases result with
    | inl failed =>
      rw [failed.1]
      exact Outcome.quiet failed.2.1 (fun _ => rfl) ⟨rfl, failed.2.2⟩
    | inr done =>
      rw [done.1]
      exact Outcome.registers done.2.1 done.2.2 fun _ => rfl
  | deregister fd op =>
    obtain ⟨ends', R₁, deregistered, books', suspended, outcome⟩ :=
      networkDeregister_outcome books fd op
    simp only [perform, deregistered, Option.some.injEq, Prod.mk.injEq] at performed
    rw [← performed.1, ← performed.2]
    exact ⟨books', suspended, outcome⟩
  | suspend op =>
    obtain ⟨R₁, scanned, books', flags, held⟩ := scan_all_exact (suspendOne op) op true
      (fun halted R i books => suspendOne_exact books op i) books
    have suspended : networkRegisterSuspend R op = (0, R₁) := scanned
    simp only [perform, suspended, Option.some.injEq, Prod.mk.injEq] at performed
    rw [← performed.1, ← performed.2]
    exact ⟨books', flags, Outcome.quiet held (fun _ => rfl) rfl⟩
  | resume op fails =>
    obtain ⟨R₁, scanned, books', flags, held⟩ := scan_all_exact (resumeOne op fails) op false
      (fun halted R i books => resumeOne_exact books op succeeds i) books
    have resumed : networkRegisterResume R op fails = (0, R₁) := scanned
    simp only [perform, resumed, Option.some.injEq, Prod.mk.injEq] at performed
    rw [← performed.1, ← performed.2]
    exact ⟨books', flags, Outcome.quiet held (fun _ => rfl) rfl⟩
  | expire timer =>
    simp only [perform] at performed
    split at performed
    · rename_i pending
      obtain ⟨ends', R₁, called, books', suspended, outcome⟩ := callbackTimer_outcome books pending
      simp only [called, Option.some.injEq, Prod.mk.injEq] at performed
      rw [← performed.1, ← performed.2]
      exact ⟨books', suspended, outcome⟩
    · exact absurd performed (by simp)
  | ready op s =>
    simp only [perform] at performed
    cases pending : R.events.network op s with
    | none =>
      rw [pending] at performed
      exact absurd performed (by simp)
    | some slot =>
      obtain ⟨E, ends', R₁, cancelled, called, books', suspended, outcome⟩ :=
        callbackNetwork_outcome books pending
      simp only [pending, cancelled, Option.map_some, called, Option.some.injEq,
        Prod.mk.injEq] at performed
      rw [← performed.1, ← performed.2]
      exact ⟨books', suspended, outcome⟩

/-- What one more entry adds to a projection of a history. -/
theorem filterMap_concat {α β : Type} (f : α → Option β) (entries : List α) (entry : α) :
    (entries ++ [entry]).filterMap f = entries.filterMap f ++ (f entry).toList := by
  rw [List.filterMap_append]
  cases result : f entry <;> simp [result]

/-- What a record held and what was registered in it is what was invoked and what it holds. -/
theorem outcome_balance {R' : Registry κ} {call : Call κ} {ends : Ends κ}
    (outcome : Outcome R R' call ends) (slot : Slot) :
    (R.held slot).toList ++ (registeredBy slot (call, ends)).toList =
      (calledBy slot (call, ends)).toList ++ (R'.held slot).toList := by
  cases outcome with
  | quiet same silent =>
    rw [same slot, silent slot]
    simp [calledBy]
  | registers vacant held recorded =>
    rename_i place cb
    rw [recorded slot, held slot]
    by_cases here : slot = place
    · rw [here, vacant, if_pos rfl]
      rfl
    · rw [if_neg here, if_neg fun same => here same.symm]
      simp [calledBy]
  | invokes holder held target known =>
    rename_i place cb status
    have silent : registeredBy slot (call, Ends.calls place (some cb) status) = none := by
      cases call with
      | register => rfl
      | _ => rfl
    rw [silent, held slot]
    by_cases here : slot = place
    · rw [here, holder, if_pos rfl]
      simp [calledBy]
    · rw [if_neg here]
      have apart : place ≠ slot := fun same => here same.symm
      simp [calledBy, apart]

/-- The empty registry is exact. -/
theorem empty_exact : Exact (Registry.empty : Registry κ) where
  within _ _ := rfl
  record _ _ record _ := absurd record (by simp [Registry.get, Registry.empty])
  socket _ := rfl
  timers _ pending := absurd pending (by simp [Registry.empty])
  distinct := List.nodup_nil

/-- The last time that a direction was suspended or resumed says whether it is suspended. -/
theorem suspendedBy_last {log : List (Call κ × Ends κ)} {suspended : NetworkOp → Bool}
    (last : ∀ op, suspended op = ((log.filterMap (suspendedBy op)).getLast?).getD false)
    (call : Call κ) (ends : Ends κ) (op : NetworkOp) : call.suspends suspended op =
      (((log ++ [(call, ends)]).filterMap (suspendedBy op)).getLast?).getD false := by
  have others : suspendedBy op (call, ends) = none → call.suspends suspended op = suspended op →
      call.suspends suspended op =
        (((log ++ [(call, ends)]).filterMap (suspendedBy op)).getLast?).getD false := by
    intro neither same
    rw [filterMap_concat, neither, Option.toList_none, List.append_nil, same]
    exact last op
  have switched : ∀ place value, (call.suspends suspended = Function.update suspended place value) →
      (suspendedBy op (call, ends) = if place = op then some value else none) →
      call.suspends suspended op =
        (((log ++ [(call, ends)]).filterMap (suspendedBy op)).getLast?).getD false := by
    intro place value changed entry
    by_cases here : place = op
    · rw [if_pos here] at entry
      rw [filterMap_concat, entry, changed, here, Function.update_self, Option.toList_some,
        List.getLast?_concat, Option.getD_some]
    · rw [if_neg here] at entry
      apply others entry
      rw [changed, Function.update_of_ne fun same => here same.symm]
  cases call with
  | suspend place => exact switched place true rfl rfl
  | resume place fails => exact switched place false rfl rfl
  | register => exact others rfl rfl
  | deregister => exact others rfl rfl
  | expire => exact others rfl rfl
  | ready => exact others rfl rfl

/-- The bookkeeping is exact throughout a history in which events can be started. -/
theorem History.books {log : List (Call κ × Ends κ)} {R : Registry κ} (history : History log R)
    (succeeds : ∀ entry ∈ log, entry.1.Succeeds) :
    Exact R ∧
      (∀ slot, log.filterMap (registeredBy slot) =
        log.filterMap (calledBy slot) ++ (R.held slot).toList) ∧
      (∀ entry ∈ log, ∀ slot cb status, entry.2 = .calls slot cb status →
        cb.isSome ∧ entry.1.target = some slot ∧ entry.1.status = some status) ∧
      ∀ op, R.suspended op = ((log.filterMap (suspendedBy op)).getLast?).getD false := by
  induction history with
  | empty =>
    exact ⟨empty_exact, fun _ => rfl, fun entry member => absurd member (by simp), fun _ => rfl⟩
  | step before fresh performed ih =>
    rename_i log R R' call ends
    obtain ⟨books, balance, invoked, last⟩ := ih fun entry member => succeeds entry
      (by simp [member])
    obtain ⟨books', suspended, outcome⟩ := perform_outcome books fresh
      (succeeds (call, ends) (by simp)) performed
    refine ⟨books', fun slot => ?_, fun entry member slot cb status calls => ?_, fun op => ?_⟩
    · calc (log ++ [(call, ends)]).filterMap (registeredBy slot)
          = log.filterMap (calledBy slot) ++ (R.held slot).toList ++
              (registeredBy slot (call, ends)).toList := by
            rw [filterMap_concat, balance slot]
        _ = log.filterMap (calledBy slot) ++ ((calledBy slot (call, ends)).toList ++
              (R'.held slot).toList) := by
            rw [List.append_assoc, outcome_balance outcome slot]
        _ = (log ++ [(call, ends)]).filterMap (calledBy slot) ++ (R'.held slot).toList := by
            rw [filterMap_concat, List.append_assoc]
    · cases List.mem_append.mp member with
      | inl former => exact invoked entry former slot cb status calls
      | inr final =>
        rw [List.mem_singleton.mp final] at calls ⊢
        change ends = _ at calls
        rw [calls] at outcome
        cases outcome with
        | invokes holder held target known => exact ⟨rfl, target, known⟩
    · rw [suspended]
      exact suspendedBy_last last call ends op

/-- What holds of the registry after a history. -/
structure Bookkept (log : List (Call κ × Ends κ)) (R : Registry κ) : Prop where
  /-- Every callback that was registered in a record was invoked once, in this order, or is held. -/
  balance : ∀ slot, log.filterMap (registeredBy slot) =
    log.filterMap (calledBy slot) ++ (R.held slot).toList
  /-- No record without a callback was called, and a callback gets the status of the cause. -/
  invoked : ∀ entry ∈ log, ∀ slot cb status, entry.2 = .calls slot cb status →
    cb.isSome ∧ entry.1.target = some slot ∧ entry.1.status = some status
  /-- A record with a callback has one timer. -/
  timer : ∀ slot, (R.held slot).isSome → ∃ timer,
    R.events.timers.filter (·.cookie = slot) = [timer]
  /-- A record with a callback has a socket event unless its direction is suspended. -/
  socket : ∀ slot : Slot, (R.held slot).isSome →
    R.events.network slot.1 slot.2 = if R.suspended slot.1 then none else some slot
  /-- A record without a callback has no events. -/
  vacant : ∀ slot : Slot, R.held slot = none →
    R.events.network slot.1 slot.2 = none ∧ R.events.timers.filter (·.cookie = slot) = []
  /-- A direction is suspended if it was suspended after it was resumed the last time. -/
  suspended : ∀ op, R.suspended op = ((log.filterMap (suspendedBy op)).getLast?).getD false
  /-- Whatever is called or happens next has its effect: a registration is refused only if it has
  to be, deregistering invokes a callback that is held, so does an event, and suspending and
  resuming succeed. -/
  next : ∀ (call : Call κ) ends R', call.Fresh R → call.Succeeds →
    perform R call = some (ends, R') → Outcome R R' call ends
  /-- A pending event can be delivered. -/
  delivered : (∀ timer ∈ R.events.timers, (perform R (.expire timer)).isSome) ∧
    ∀ op s, (R.events.network op s).isSome → (perform R (.ready op s)).isSome

/-- The bookkeeping is right after every history in which events can be started: every registered
callback is invoked once or still held, with the status of the cause and never for an empty record;
just the records with a callback have a timer, and of these just the ones whose direction is not
suspended have a socket event. -/
theorem network_register_bookkeeping {log : List (Call κ × Ends κ)} {R : Registry κ}
    (history : History log R) (succeeds : ∀ entry ∈ log, entry.1.Succeeds) : Bookkept log R := by
  obtain ⟨books, balance, invoked, suspended⟩ := history.books succeeds
  refine ⟨balance, invoked, fun slot held => ?_, fun slot held => ?_, fun slot => books.vacant,
    suspended, fun call ends R' fresh succeeds performed => ?_, fun timer pending => ?_,
    fun op s pending => ?_⟩
  · obtain ⟨c, record, filled⟩ := filled_of_held held
    obtain ⟨_, _, timer, only, _⟩ := books.record slot c record filled
    exact ⟨timer, only⟩
  · rw [books.socket slot]
    cases R.suspended slot.1 with
    | true => simp
    | false => simp [held]
  · exact (perform_outcome books fresh succeeds performed).2.2
  · rw [perform, if_pos pending]
    rfl
  · obtain ⟨slot, waiting⟩ := Option.isSome_iff_exists.mp pending
    obtain ⟨E, _, _, cancelled, _⟩ := callbackNetwork_outcome books waiting
    rw [perform, waiting]
    simp only [cancelled]
    rfl

end Exact

section Reuse

/-- Nothing fails but possibly the start of a timer. -/
def onlyTimer (timer : Option Nat) : RegisterFaults :=
  ⟨false, false, false, timer, false⟩

/-- A record is used again by the callback that it invoked. -/
def reuse : List (Call Nat × Ends Nat) :=
  [(.register 3 .read ⟨5, 0⟩ 7 (onlyTimer (some 0)), .returns 0),
    (.suspend .read, .returns 0),
    (.resume .read fun _ => false, .returns 0),
    (.ready .read 3, .calls (.read, 3) (some 7) .ok),
    (.register 3 .read ⟨5, 0⟩ 8 (onlyTimer (some 0)), .returns 0)]

/-- The record holds the second callback in the end, while the first one was invoked. -/
theorem network_register_bookkeeping_reuse :
    ∃ R : Registry Nat, History reuse R ∧
      reuse.filterMap (registeredBy (.read, 3)) = [7, 8] ∧
      reuse.filterMap (registeredBy (.read, 3)) =
        reuse.filterMap (calledBy (.read, 3)) ++ (R.held (.read, 3)).toList := by
  have first : History (_ ++ [(.register 3 .read ⟨5, 0⟩ 7 (onlyTimer (some 0)), .returns 0)]) _ :=
    History.step (History.empty : History [] (Registry.empty : Registry Nat))
      (fun _ _ _ pending => nomatch pending) rfl
  have second : History (_ ++ [(.suspend .read, .returns 0)]) _ := History.step first trivial rfl
  have third : History (_ ++ [(.resume .read fun _ => false, .returns 0)]) _ :=
    History.step second trivial rfl
  have fourth : History (_ ++ [(.ready .read 3, .calls (.read, 3) (some 7) .ok)]) _ :=
    History.step third trivial rfl
  have history : History (_ ++ [(.register 3 .read ⟨5, 0⟩ 8 (onlyTimer (some 0)), .returns 0)]) _ :=
    History.step fourth
      (fun _ _ timer pending => nomatch (show timer ∈ ([] : List Timer) from pending)) rfl
  refine ⟨_, history, rfl, ?_⟩
  apply (network_register_bookkeeping history ?_).balance
  simp [Call.Succeeds, onlyTimer]

end Reuse

end Tarsnap.Network
