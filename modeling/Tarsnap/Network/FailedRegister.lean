import Tarsnap.Network.Bookkeeping

/-!
# Failed registrations

A registration that fails before it fills the record leaves behind a larger array at most, which no
later call can tell. One that fails to start its timer or its socket event leaves its callback in
the record: a later deregistration, or a resumption followed by an event, invokes a callback whose
cookie the caller has freed.
-/

namespace Tarsnap.Network

section Later

variable {κ : Type}

/-- What later calls and events end with, one after the other; an event that is not pending ends
with nothing. -/
def outcomes (R : Registry κ) : List (Call κ) → List (Option (Ends κ))
  | [] => []
  | call :: rest =>
    match perform R call with
    | none => none :: outcomes R rest
    | some (ends, R) => some ends :: outcomes R rest

/-- A later call is for a descriptor and finds memory for the arrays. -/
def Call.Plain : Call κ → Prop
  | .register _ _ _ _ faults => faults.init = false ∧ faults.resize = false
  | .deregister fd _ => 0 ≤ fd
  | _ => True

/-- A call has the callback as an argument. -/
def Call.Registers (cb : κ) : Call κ → Prop
  | .register _ _ _ given _ => given = cb
  | _ => False

/-- A failed registration of a callback was undone. -/
structure Undone (R R' : Registry κ) (cb : κ) : Prop where
  /-- The records hold the callbacks that they held before. -/
  held : ∀ place, R'.held place = R.held place
  /-- Later calls and events end as if the registration had never been tried. -/
  behaves : ∀ calls : List (Call κ), (∀ call ∈ calls, call.Plain) →
    outcomes R' calls = outcomes R calls
  /-- The callback is not invoked unless it is registered again, or was registered before. -/
  never : (∀ place, R.held place ≠ some cb) → ∀ calls : List (Call κ),
    (∀ call ∈ calls, call.Plain ∧ ¬ call.Registers cb) →
      ∀ slot status, some (.calls slot (some cb) status) ∉ outcomes R' calls

/-- A registration fills the record: its arguments and the memory suffice, and the record is
empty. -/
def Fills (R : Registry κ) (fd : Int) (op : NetworkOp) (faults : RegisterFaults) : Prop :=
  0 ≤ fd ∧ fd < FD_SETSIZE ∧ (R.enlarge fd.toNat op faults).isSome ∧
    R.held (op, fd.toNat) = none ∧ ((R.get (op, fd.toNat)).isSome ∨ faults.malloc = false)

/-- The records are within the arrays. -/
def Within (R : Registry κ) : Prop :=
  ∀ slot : Slot, (R.getsize slot.1).getD 0 ≤ slot.2 → R.get slot = none

end Later

section Sizes

variable {κ : Type} {R : Registry κ} {getsize : NetworkOp → Option Nat}

/-- A record is within its array. -/
theorem Within.inside (within : Within R) {slot : Slot} {c : Callback κ}
    (record : R.get slot = some c) : slot.2 < (R.getsize slot.1).getD 0 := by
  by_contra beyond
  have missing := within slot (by omega)
  rw [record] at missing
  exact absurd missing (by simp)

/-- Records may be set within the arrays. -/
theorem Within.set (within : Within R) {slot : Slot} (c : Callback κ)
    (inside : slot.2 < (R.getsize slot.1).getD 0) : Within (R.set slot c) := by
  intro place beyond
  rw [Registry.get_set]
  split
  · rename_i same
    rw [same] at beyond
    exact absurd inside (by simpa using beyond)
  · exact within place beyond

/-- Records do not depend on the sizes. -/
theorem Registry.get_getsize (slot : Slot) : ({ R with getsize }).get slot = R.get slot := rfl

/-- Invoking a callback does not depend on the sizes. -/
theorem docallback_sized (slot : Slot) (c : Callback κ) (status : NetworkStatus) :
    docallback { R with getsize } slot c status =
      ((docallback R slot c status).1, { (docallback R slot c status).2 with getsize }) := rfl

/-- Nor does starting the events of a record. -/
theorem networkRegisterEvents_sized (slot : Slot) (c : Callback κ) (timeo : Timeval)
    (faults : RegisterFaults) :
    networkRegisterEvents { R with getsize } slot c timeo faults =
      ((networkRegisterEvents R slot c timeo faults).1,
        { (networkRegisterEvents R slot c timeo faults).2 with getsize }) := by
  unfold networkRegisterEvents
  cases R.events.timerRegister slot timeo faults.timer with
  | none => rfl
  | some started =>
    simp only
    by_cases running : R.suspended slot.1 = false
    · simp only [if_pos running]
      cases started.2.networkRegister slot c.s c.eop faults.network with
      | none => rfl
      | some events => rfl
    · simp only [if_neg running]
      rfl

/-- Starting the events of a record keeps the records within the arrays. -/
theorem networkRegisterEvents_within (within : Within R) {slot : Slot}
    (inside : slot.2 < (R.getsize slot.1).getD 0) (c : Callback κ) (timeo : Timeval)
    (faults : RegisterFaults) :
    Within (networkRegisterEvents R slot c timeo faults).2 ∧
      (networkRegisterEvents R slot c timeo faults).2.getsize = R.getsize := by
  unfold networkRegisterEvents
  cases R.events.timerRegister slot timeo faults.timer with
  | none => exact ⟨within.set _ inside, rfl⟩
  | some started =>
    simp only
    by_cases running : R.suspended slot.1 = false
    · simp only [if_pos running]
      cases started.2.networkRegister slot c.s c.eop faults.network with
      | none => exact ⟨Within.set (R := { R with events := _ }) within _ inside, rfl⟩
      | some events => exact ⟨Within.set (R := { R with events := _ }) within _ inside, rfl⟩
    · simp only [if_neg running]
      exact ⟨Within.set (R := { R with events := _ }) within _ inside, rfl⟩

/-- A visit of a scan depends on the sizes only through the range of the scan. -/
structure Visits (op : NetworkOp) (visit : Registry κ → Nat → Int × Registry κ) : Prop where
  /-- The visit does not depend on the sizes. -/
  sized : ∀ (R : Registry κ) getsize i, visit { R with getsize } i =
    ((visit R i).1, { (visit R i).2 with getsize })
  /-- It keeps the records within the arrays. -/
  within : ∀ (R : Registry κ) i, Within R → Within (visit R i).2
  /-- It does not change the sizes. -/
  getsize : ∀ (R : Registry κ) i, (visit R i).2.getsize = R.getsize
  /-- It does nothing where there is no record. -/
  missing : ∀ (R : Registry κ) i, R.get (op, i) = none → visit R i = (0, R)

/-- Cancelling the socket event of one record is such a visit. -/
theorem suspendOne_visits (op : NetworkOp) : Visits op (suspendOne op : Registry κ → _) where
  sized R getsize i := by
    unfold suspendOne
    rw [Registry.get_getsize]
    cases R.get (op, i) with
    | none => rfl
    | some c =>
      simp only
      by_cases running : c.callback.isSome ∧ c.eventNetworkPending
      · simp only [if_pos running, Registry.set_events]
        cases R.events.networkCancel c.s c.eop with
        | none => rfl
        | some events => rfl
      · simp only [if_neg running]
  within R i within := by
    unfold suspendOne
    cases record : R.get (op, i) with
    | none => exact within
    | some c =>
      simp only
      by_cases running : c.callback.isSome ∧ c.eventNetworkPending
      · simp only [if_pos running, Registry.set_events]
        cases R.events.networkCancel c.s c.eop with
        | none => exact within.set _ (within.inside record)
        | some events => exact within.set _ (within.inside record)
      · simp only [if_neg running]
        exact within
  getsize R i := by
    unfold suspendOne
    cases R.get (op, i) with
    | none => rfl
    | some c =>
      simp only
      by_cases running : c.callback.isSome ∧ c.eventNetworkPending
      · simp only [if_pos running, Registry.set_events]
        cases R.events.networkCancel c.s c.eop with
        | none => rfl
        | some events => rfl
      · simp only [if_neg running]
  missing R i missing := by
    unfold suspendOne
    rw [missing]

/-- Starting the socket event of one record is such a visit. -/
theorem resumeOne_visits (op : NetworkOp) (fails : Nat → Bool) :
    Visits op (resumeOne op fails : Registry κ → _) where
  sized R getsize i := by
    unfold resumeOne
    rw [Registry.get_getsize]
    cases R.get (op, i) with
    | none => rfl
    | some c =>
      simp only
      by_cases stopped : c.callback.isSome ∧ c.eventNetworkPending = false
      · simp only [if_pos stopped, Registry.set_events]
        cases R.events.networkRegister (op, i) c.s c.eop (fails i) with
        | none => rfl
        | some events => rfl
      · simp only [if_neg stopped]
  within R i within := by
    unfold resumeOne
    cases record : R.get (op, i) with
    | none => exact within
    | some c =>
      simp only
      by_cases stopped : c.callback.isSome ∧ c.eventNetworkPending = false
      · simp only [if_pos stopped, Registry.set_events]
        cases R.events.networkRegister (op, i) c.s c.eop (fails i) with
        | none => exact within.set _ (within.inside record)
        | some events => exact within.set _ (within.inside record)
      · simp only [if_neg stopped]
        exact within
  getsize R i := by
    unfold resumeOne
    cases R.get (op, i) with
    | none => rfl
    | some c =>
      simp only
      by_cases stopped : c.callback.isSome ∧ c.eventNetworkPending = false
      · simp only [if_pos stopped, Registry.set_events]
        cases R.events.networkRegister (op, i) c.s c.eop (fails i) with
        | none => rfl
        | some events => rfl
      · simp only [if_neg stopped]
  missing R i missing := by
    unfold resumeOne
    rw [missing]

/-- A scan step by step. -/
theorem scan_cons (visit : Registry κ → Nat → Int × Registry κ) (i : Nat) (rest : List Nat)
    (R : Registry κ) : scan visit (i :: rest) R =
      if (visit R i).1 = 0 then scan visit rest (visit R i).2 else (-1, (visit R i).2) := by
  rw [scan]
  split
  · rename_i visited
    rw [visited, if_pos rfl]
  · rename_i failed visited
    rw [visited, if_neg]
    exact failed

/-- A scan depends on the sizes only through its range. -/
theorem Visits.scan_sized {op : NetworkOp} {visit : Registry κ → Nat → Int × Registry κ}
    (visits : Visits op visit) (getsize : NetworkOp → Option Nat) (places : List Nat) :
    ∀ R : Registry κ, scan visit places { R with getsize } =
      ((scan visit places R).1, { (scan visit places R).2 with getsize }) := by
  induction places with
  | nil => exact fun R => rfl
  | cons i rest ih =>
    intro R
    rw [scan_cons, scan_cons, visits.sized]
    by_cases ok : (visit R i).1 = 0
    · rw [if_pos ok, if_pos ok]
      exact ih _
    · rw [if_neg ok, if_neg ok]

/-- A scan keeps the records within the arrays, which keep their sizes. -/
theorem Visits.scan_within {op : NetworkOp} {visit : Registry κ → Nat → Int × Registry κ}
    (visits : Visits op visit) (places : List Nat) :
    ∀ R : Registry κ, Within R →
      Within (scan visit places R).2 ∧ (scan visit places R).2.getsize = R.getsize := by
  induction places with
  | nil => exact fun R within => ⟨within, rfl⟩
  | cons i rest ih =>
    intro R within
    have next := visits.within R i within
    rw [scan_cons]
    by_cases ok : (visit R i).1 = 0
    · rw [if_pos ok]
      have rested := ih _ next
      exact ⟨rested.1, rested.2.trans (visits.getsize R i)⟩
    · rw [if_neg ok]
      exact ⟨next, visits.getsize R i⟩

/-- A scan of places without records does nothing. -/
theorem Visits.scan_missing {op : NetworkOp} {visit : Registry κ → Nat → Int × Registry κ}
    (visits : Visits op visit) {R : Registry κ} (places : List Nat)
    (missing : ∀ i ∈ places, R.get (op, i) = none) : scan visit places R = (0, R) := by
  induction places with
  | nil => rfl
  | cons i rest ih =>
    rw [scan_cons, visits.missing R i (missing i (by simp)), if_pos rfl]
    exact ih fun j member => missing j (by simp [member])

/-- Places without records may follow in a scan. -/
theorem Visits.scan_longer {op : NetworkOp} {visit : Registry κ → Nat → Int × Registry κ}
    (visits : Visits op visit) (more : List Nat) :
    ∀ (places : List Nat) (R : Registry κ), Within R →
      (∀ i ∈ more, (R.getsize op).getD 0 ≤ i) →
      scan visit (places ++ more) R = scan visit places R := by
  intro places
  induction places with
  | nil =>
    intro R within beyond
    exact visits.scan_missing more fun i member => within (op, i) (beyond i member)
  | cons i rest ih =>
    intro R within beyond
    rw [List.cons_append, scan_cons, scan_cons]
    by_cases ok : (visit R i).1 = 0
    · rw [if_pos ok, if_pos ok]
      apply ih _ (visits.within R i within)
      rw [visits.getsize]
      exact beyond
    · rw [if_neg ok, if_neg ok]

/-- A scan of all records, with larger arrays. -/
theorem Visits.scan_all {op : NetworkOp} {visit : Registry κ → Nat → Int × Registry κ}
    (visits : Visits op visit) (within : Within R)
    (grown : (R.getsize op).getD 0 ≤ (getsize op).getD 0) :
    scan visit (List.range ((getsize op).getD 0)) { R with getsize } =
      ((scan visit (List.range ((R.getsize op).getD 0)) R).1,
        { (scan visit (List.range ((R.getsize op).getD 0)) R).2 with getsize }) := by
  obtain ⟨more, sizes⟩ := Nat.exists_eq_add_of_le grown
  rw [visits.scan_sized, sizes, List.range_add, visits.scan_longer _ _ _ within]
  intro i member
  obtain ⟨j, _, same⟩ := List.mem_map.mp member
  omega

/-- What a registration does once the array is large enough. -/
def registerWithin (R : Registry κ) (fd : Nat) (op : NetworkOp) (timeo : Timeval) (cb : κ)
    (faults : RegisterFaults) : Int × Registry κ :=
  match R.get (op, fd) with
  | none =>
    if faults.malloc then (-1, R)
    else networkRegisterEvents R (op, fd) ⟨some cb, fd, op, false, none⟩ timeo faults
  | some c =>
    if c.callback.isSome then (-1, R)
    else networkRegisterEvents R (op, fd) { c with callback := some cb, s := fd, eop := op } timeo
      faults

/-- A registration for a descriptor, with memory for the array. -/
theorem networkRegister_eq_within {R' : Registry κ} {fd : Int} {op : NetworkOp} (timeo : Timeval)
    (cb : κ) {faults : RegisterFaults} (valid : 0 ≤ fd ∧ fd < FD_SETSIZE)
    (enlarged : R.enlarge fd.toNat op faults = some R') :
    networkRegister R fd op timeo cb faults = registerWithin R' fd.toNat op timeo cb faults := by
  unfold networkRegister
  rw [if_neg (by omega)]
  simp only [enlarged]
  rfl

/-- The rest of a registration does not depend on the sizes. -/
theorem registerWithin_sized (fd : Nat) (op : NetworkOp) (timeo : Timeval) (cb : κ)
    (faults : RegisterFaults) :
    registerWithin { R with getsize } fd op timeo cb faults =
      ((registerWithin R fd op timeo cb faults).1,
        { (registerWithin R fd op timeo cb faults).2 with getsize }) := by
  unfold registerWithin
  rw [Registry.get_getsize]
  cases R.get (op, fd) with
  | none =>
    simp only
    by_cases memory : faults.malloc = true
    · rw [if_pos memory, if_pos memory]
    · rw [if_neg memory, if_neg memory]
      exact networkRegisterEvents_sized _ _ _ _
  | some c =>
    simp only
    by_cases filled : c.callback.isSome
    · rw [if_pos filled, if_pos filled]
    · rw [if_neg filled, if_neg filled]
      exact networkRegisterEvents_sized _ _ _ _

/-- It keeps the records within the arrays. -/
theorem registerWithin_within (within : Within R) {fd : Nat} {op : NetworkOp}
    (inside : fd < (R.getsize op).getD 0) (timeo : Timeval) (cb : κ) (faults : RegisterFaults) :
    Within (registerWithin R fd op timeo cb faults).2 ∧
      (registerWithin R fd op timeo cb faults).2.getsize = R.getsize := by
  unfold registerWithin
  cases R.get (op, fd) with
  | none =>
    simp only
    by_cases memory : faults.malloc = true
    · rw [if_pos memory]
      exact ⟨within, rfl⟩
    · rw [if_neg memory]
      exact networkRegisterEvents_within within inside _ timeo faults
  | some c =>
    simp only
    by_cases filled : c.callback.isSome
    · rw [if_pos filled]
      exact ⟨within, rfl⟩
    · rw [if_neg filled]
      exact networkRegisterEvents_within within inside _ timeo faults

/-- With memory for it, an array is as large as it was, and as the descriptor requires. -/
theorem enlarge_plain (R : Registry κ) (fd : Nat) (op : NetworkOp) {faults : RegisterFaults}
    (memory : faults.init = false ∧ faults.resize = false) :
    ∃ sizes, R.enlarge fd op faults = some { R with getsize := sizes } ∧
      ∀ other, (sizes other).getD 0 =
        if other = op then max ((R.getsize op).getD 0) (fd + 1) else (R.getsize other).getD 0 := by
  unfold Registry.enlarge
  have updated : ∀ other, (Function.update R.getsize op (some (fd + 1)) other).getD 0 =
      if other = op then fd + 1 else (R.getsize other).getD 0 := by
    intro other
    by_cases same : other = op
    · rw [same, Function.update_self, if_pos rfl]
      rfl
    · rw [Function.update_of_ne same, if_neg same]
  cases size : R.getsize op with
  | none =>
    simp only [memory.1, memory.2, Bool.false_eq_true, if_false]
    refine ⟨_, rfl, fun other => ?_⟩
    rw [updated other]
    simp
  | some osize =>
    simp only [memory.2, Bool.false_eq_true, if_false]
    by_cases small : osize ≤ fd
    · rw [if_pos small]
      refine ⟨_, rfl, fun other => ?_⟩
      rw [updated other, Option.getD_some, Nat.max_eq_right (by omega)]
    · rw [if_neg small]
      refine ⟨R.getsize, rfl, fun other => ?_⟩
      by_cases same : other = op
      · rw [if_pos same, same, size, Option.getD_some, Nat.max_eq_left (by omega)]
      · rw [if_neg same]

/-- The sizes of one registry are at most those of another. -/
def Grown (getsize larger : NetworkOp → Option Nat) : Prop :=
  ∀ op, (getsize op).getD 0 ≤ (larger op).getD 0

/-- A registration does the same with larger arrays, if there is memory for them. -/
theorem networkRegister_sized (within : Within R) (grown : Grown R.getsize getsize) (fd : Int)
    (op : NetworkOp) (timeo : Timeval) (cb : κ) {faults : RegisterFaults}
    (memory : faults.init = false ∧ faults.resize = false) :
    ∃ sizes, networkRegister { R with getsize } fd op timeo cb faults =
        ((networkRegister R fd op timeo cb faults).1,
          { (networkRegister R fd op timeo cb faults).2 with getsize := sizes }) ∧
      Within (networkRegister R fd op timeo cb faults).2 ∧
      Grown (networkRegister R fd op timeo cb faults).2.getsize sizes := by
  by_cases valid : 0 ≤ fd ∧ fd < FD_SETSIZE
  · obtain ⟨sizes₁, enlarged₁, max₁⟩ := enlarge_plain R fd.toNat op memory
    obtain ⟨sizes₂, enlarged₂, max₂⟩ := enlarge_plain { R with getsize } fd.toNat op memory
    have within₁ : Within { R with getsize := sizes₁ } := by
      intro slot beyond
      apply within slot
      change (sizes₁ slot.1).getD 0 ≤ slot.2 at beyond
      rw [max₁ slot.1] at beyond
      split at beyond
      · rename_i same
        rw [same]
        omega
      · exact beyond
    have inside : fd.toNat < (sizes₁ op).getD 0 := by
      rw [max₁ op, if_pos rfl]
      omega
    have result := registerWithin_within (R := { R with getsize := sizes₁ }) within₁ inside timeo cb
      faults
    have first := networkRegister_eq_within timeo cb valid enlarged₁
    have second := networkRegister_eq_within timeo cb valid enlarged₂
    refine ⟨sizes₂, ?_, ?_, ?_⟩
    · rw [first, second]
      exact registerWithin_sized (R := { R with getsize := sizes₁ }) _ _ _ _ _
    · rw [first]
      exact result.1
    · intro other
      rw [first, result.2]
      change (sizes₁ other).getD 0 ≤ (sizes₂ other).getD 0
      rw [max₁ other, max₂ other]
      have larger := grown other
      split
      · rename_i same
        rw [same] at larger
        change (R.getsize op).getD 0 ≤ (getsize op).getD 0 at larger
        change max _ _ ≤ max ((getsize op).getD 0) _
        omega
      · exact larger
  · have refused : ∀ S : Registry κ, networkRegister S fd op timeo cb faults = (-1, S) := by
      intro S
      unfold networkRegister
      rw [if_pos (by omega)]
    refine ⟨getsize, ?_, ?_⟩
    · rw [refused, refused]
    · rw [refused]
      exact ⟨within, grown⟩

/-- What a deregistration does with the record. -/
def deregisterWithin (R : Registry κ) (slot : Slot) : Ends κ × Registry κ :=
  match R.get slot with
  | none => (.returns 0, R)
  | some c => if c.callback.isSome then docallback R slot c .cancel else (.returns 0, R)

/-- What a deregistration for a descriptor does depends on the record only. -/
theorem networkDeregister_eq (within : Within R) {fd : Int} (valid : 0 ≤ fd) (op : NetworkOp) :
    networkDeregister R fd op = deregisterWithin R (op, fd.toNat) := by
  unfold networkDeregister
  cases size : R.getsize op with
  | none =>
    unfold deregisterWithin
    rw [within (op, fd.toNat) (by rw [size]; exact Nat.zero_le _)]
  | some size' =>
    simp only
    by_cases beyond : (size' : Int) ≤ fd
    · unfold deregisterWithin
      rw [if_pos beyond, within (op, fd.toNat) (by rw [size, Option.getD_some]; omega)]
    · have natural : ¬ fd < 0 := by omega
      exact (if_neg beyond).trans (if_neg natural)

/-- It does not depend on the sizes. -/
theorem deregisterWithin_sized (slot : Slot) : deregisterWithin { R with getsize } slot =
    ((deregisterWithin R slot).1, { (deregisterWithin R slot).2 with getsize }) := by
  unfold deregisterWithin
  rw [Registry.get_getsize]
  cases R.get slot with
  | none => rfl
  | some c =>
    simp only
    by_cases filled : c.callback.isSome
    · rw [if_pos filled, if_pos filled]
      rfl
    · rw [if_neg filled, if_neg filled]

/-- Invoking the callback of a record keeps the records within the arrays. -/
theorem docallback_within (within : Within R) {slot : Slot}
    (inside : slot.2 < (R.getsize slot.1).getD 0) (d : Callback κ) (status : NetworkStatus) :
    Within (docallback R slot d status).2 ∧ (docallback R slot d status).2.getsize = R.getsize :=
  ⟨Within.set (R := { R with events := _ }) within _ inside, rfl⟩

/-- An expired timer does the same with other sizes. -/
theorem callbackTimer_sized (slot : Slot) : callbackTimer { R with getsize } slot =
    ((callbackTimer R slot).1, { (callbackTimer R slot).2 with getsize }) := by
  unfold callbackTimer
  rw [Registry.get_getsize]
  cases R.get slot with
  | none => rfl
  | some c => exact docallback_sized slot _ _

/-- It keeps the records within the arrays. -/
theorem callbackTimer_within (within : Within R) (slot : Slot) :
    Within (callbackTimer R slot).2 ∧ (callbackTimer R slot).2.getsize = R.getsize := by
  unfold callbackTimer
  cases record : R.get slot with
  | none => exact ⟨within, rfl⟩
  | some c => exact docallback_within within (within.inside record) _ _

/-- A socket that is ready does the same with other sizes. -/
theorem callbackNetwork_sized (slot : Slot) : callbackNetwork { R with getsize } slot =
    ((callbackNetwork R slot).1, { (callbackNetwork R slot).2 with getsize }) := by
  unfold callbackNetwork
  rw [Registry.get_getsize]
  cases R.get slot with
  | none => rfl
  | some c => exact docallback_sized slot _ _

/-- It keeps the records within the arrays. -/
theorem callbackNetwork_within (within : Within R) (slot : Slot) :
    Within (callbackNetwork R slot).2 ∧ (callbackNetwork R slot).2.getsize = R.getsize := by
  unfold callbackNetwork
  cases record : R.get slot with
  | none => exact ⟨within, rfl⟩
  | some c => exact docallback_within within (within.inside record) _ _

/-- A call or an event does the same with larger arrays. -/
theorem perform_sized (within : Within R) (grown : Grown R.getsize getsize) {call : Call κ}
    (plain : call.Plain) :
    (perform R call = none ∧ perform { R with getsize } call = none) ∨
      ∃ ends S sizes, perform R call = some (ends, S) ∧
        perform { R with getsize } call = some (ends, { S with getsize := sizes }) ∧
        Within S ∧ Grown S.getsize sizes := by
  cases call with
  | register fd op timeo cb faults =>
    obtain ⟨sizes, same, within', grown'⟩ :=
      networkRegister_sized within grown fd op timeo cb plain
    refine Or.inr ⟨_, _, sizes, rfl, ?_, within', grown'⟩
    unfold perform
    simp only [same]
  | deregister fd op =>
    have within' : Within { R with getsize } := fun slot beyond =>
      within slot (Nat.le_trans (grown slot.1) beyond)
    have same : networkDeregister { R with getsize } fd op =
        ((networkDeregister R fd op).1, { (networkDeregister R fd op).2 with getsize }) := by
      rw [networkDeregister_eq within plain op, networkDeregister_eq within' plain op]
      exact deregisterWithin_sized _
    refine Or.inr ⟨_, _, getsize, rfl, congrArg some same, ?_⟩
    change Within (networkDeregister R fd op).2 ∧
      Grown (networkDeregister R fd op).2.getsize getsize
    rw [networkDeregister_eq within plain op]
    unfold deregisterWithin
    cases record : R.get (op, fd.toNat) with
    | none => exact ⟨within, grown⟩
    | some c =>
      simp only
      by_cases filled : c.callback.isSome
      · rw [if_pos filled]
        have result := docallback_within within (within.inside record) c .cancel
        refine ⟨result.1, ?_⟩
        rw [result.2]
        exact grown
      · rw [if_neg filled]
        exact ⟨within, grown⟩
  | suspend op =>
    have visits := suspendOne_visits (κ := κ) op
    have same := visits.scan_all (R := { R with suspended := Function.update R.suspended op true })
      within (grown op)
    have result := visits.scan_within (List.range ((R.getsize op).getD 0))
      { R with suspended := Function.update R.suspended op true } within
    refine Or.inr ⟨_, _, getsize, rfl, ?_, result.1, ?_⟩
    · have whole : networkRegisterSuspend { R with getsize } op =
          ((networkRegisterSuspend R op).1, { (networkRegisterSuspend R op).2 with getsize }) :=
            same
      unfold perform
      simp only [whole]
    · have kept : (networkRegisterSuspend R op).2.getsize = R.getsize := result.2
      rw [kept]
      exact grown
  | resume op fails =>
    have visits := resumeOne_visits (κ := κ) op fails
    have same := visits.scan_all (R := { R with suspended := Function.update R.suspended op false })
      within (grown op)
    have result := visits.scan_within (List.range ((R.getsize op).getD 0))
      { R with suspended := Function.update R.suspended op false } within
    refine Or.inr ⟨_, _, getsize, rfl, ?_, result.1, ?_⟩
    · have whole : networkRegisterResume { R with getsize } op fails =
          ((networkRegisterResume R op fails).1,
            { (networkRegisterResume R op fails).2 with getsize }) := same
      unfold perform
      simp only [whole]
    · have kept : (networkRegisterResume R op fails).2.getsize = R.getsize := result.2
      rw [kept]
      exact grown
  | expire timer =>
    by_cases pending : timer ∈ R.events.timers
    · let E := R.events.timerCancel timer.id
      have result := callbackTimer_within (R := { R with events := E }) within timer.cookie
      have first : perform R (.expire timer) =
          some (callbackTimer { R with events := E } timer.cookie) := if_pos pending
      have second : perform { R with getsize } (.expire timer) =
          some (callbackTimer { R with getsize, events := E } timer.cookie) := if_pos pending
      have kept : Grown (callbackTimer { R with events := E } timer.cookie).2.getsize getsize := by
        rw [result.2]
        exact grown
      refine Or.inr ⟨_, _, getsize, first, second.trans (congrArg some ?_), result.1, kept⟩
      exact callbackTimer_sized (R := { R with events := E }) timer.cookie
    · exact Or.inl ⟨if_neg pending, if_neg pending⟩
  | ready op s =>
    unfold perform
    cases pending : R.events.network op s with
    | none => exact Or.inl ⟨by simp only [pending], by simp only [pending]⟩
    | some slot =>
      simp only [pending]
      cases R.events.networkCancel s op with
      | none => exact Or.inl ⟨rfl, rfl⟩
      | some E =>
        have result := callbackNetwork_within (R := { R with events := E }) within slot
        have kept : Grown (callbackNetwork { R with events := E } slot).2.getsize getsize := by
          rw [result.2]
          exact grown
        refine Or.inr ⟨_, _, getsize, rfl, congrArg some ?_, result.1, kept⟩
        exact callbackNetwork_sized (R := { R with events := E }) slot

/-- Later calls and events end the same with larger arrays. -/
theorem outcomes_sized (calls : List (Call κ)) (plain : ∀ call ∈ calls, call.Plain) :
    ∀ {R : Registry κ} {getsize : NetworkOp → Option Nat}, Within R → Grown R.getsize getsize →
      outcomes { R with getsize } calls = outcomes R calls := by
  induction calls with
  | nil => exact fun _ _ => rfl
  | cons call rest ih =>
    intro R getsize within grown
    have later := fun other member => plain other (List.mem_cons_of_mem call member)
    cases perform_sized within grown (plain call List.mem_cons_self) with
    | inl nothing =>
      simp only [outcomes, nothing.1, nothing.2]
      rw [ih later within grown]
    | inr something =>
      obtain ⟨ends, S, sizes, first, second, within', grown'⟩ := something
      simp only [outcomes, first, second]
      rw [ih later within' grown']

/-- A registration keeps the records within the arrays, whatever fails. -/
theorem networkRegister_within (within : Within R) (fd : Int) (op : NetworkOp) (timeo : Timeval)
    (cb : κ) (faults : RegisterFaults) :
    Within (networkRegister R fd op timeo cb faults).2 := by
  by_cases valid : 0 ≤ fd ∧ fd < FD_SETSIZE
  · cases enlarged : R.enlarge fd.toNat op faults with
    | none =>
      unfold networkRegister
      rw [if_neg (by omega)]
      simp only [enlarged]
      split
      · rename_i created
        intro slot beyond
        apply within slot
        by_cases same : slot.1 = op
        · rw [same, Option.isNone_iff_eq_none.mp created.1]
          exact Nat.zero_le _
        · change (Function.update R.getsize op (some 0) slot.1).getD 0 ≤ slot.2 at beyond
          rw [Function.update_of_ne same] at beyond
          exact beyond
      · exact within
    | some S =>
      obtain ⟨sizes, sized, inside, grown⟩ := enlarge_eq enlarged
      rw [networkRegister_eq_within timeo cb valid enlarged, sized]
      have larger : Within { R with getsize := sizes } := fun slot beyond =>
        within slot (Nat.le_trans (grown slot.1) beyond)
      exact (registerWithin_within larger inside timeo cb faults).1
  · unfold networkRegister
    rw [if_pos (by omega)]
    exact within

/-- A call or an event keeps the records within the arrays, whatever fails. -/
theorem perform_within (within : Within R) {call : Call κ} {ends : Ends κ} {S : Registry κ}
    (performed : perform R call = some (ends, S)) : Within S := by
  by_cases plain : call.Plain
  · have grown : Grown R.getsize R.getsize := fun _ => Nat.le_refl _
    cases perform_sized within grown plain with
    | inl nothing =>
      rw [nothing.1] at performed
      exact absurd performed (by simp)
    | inr something =>
      obtain ⟨_, S', _, first, _, within', _⟩ := something
      rw [first] at performed
      cases performed
      exact within'
  · cases call with
    | register fd op timeo cb faults =>
      cases performed
      exact networkRegister_within within fd op timeo cb faults
    | deregister fd op =>
      have negative : fd < 0 := by
        by_contra valid
        exact plain (by simpa [Call.Plain] using valid)
      have refused : ∃ rc, networkDeregister R fd op = (.returns rc, R) := by
        unfold networkDeregister
        cases R.getsize op with
        | none => exact ⟨0, rfl⟩
        | some size =>
          simp only
          rw [if_neg (by omega), if_pos negative]
          exact ⟨-1, rfl⟩
      obtain ⟨rc, refused⟩ := refused
      change some (networkDeregister R fd op) = _ at performed
      rw [refused] at performed
      cases performed
      exact within
    | suspend => exact absurd trivial plain
    | resume => exact absurd trivial plain
    | expire => exact absurd trivial plain
    | ready => exact absurd trivial plain

/-- In every history, the records are within the arrays. -/
theorem History.within {log : List (Call κ × Ends κ)} {R : Registry κ} (history : History log R) :
    Within R := by
  induction history with
  | empty => exact fun _ _ => rfl
  | step _ _ performed ih => exact perform_within ih performed

end Sizes

section Held

variable {κ : Type} {R : Registry κ}

/-- Every callback that is held was held before. -/
def Keeps (R S : Registry κ) : Prop :=
  ∀ place cb, S.held place = some cb → R.held place = some cb

/-- Nothing new is held if a record is set that holds nothing new. -/
theorem Keeps.set {slot : Slot} {c : Callback κ}
    (kept : ∀ cb, c.callback = some cb → R.held slot = some cb) : Keeps R (R.set slot c) := by
  intro place cb held
  rw [Registry.held_set] at held
  split at held
  · rename_i same
    rw [same]
    exact kept cb held
  · exact held

/-- Invoking the callback of a record registers nothing. -/
theorem docallback_keeps (slot : Slot) (c : Callback κ) (status : NetworkStatus) :
    Keeps R (docallback R slot c status).2 :=
  Keeps.set (R := { R with events := _ }) fun _ held => absurd held (by simp)

/-- A visit of a scan leaves the callbacks as they are. -/
theorem suspendOne_keeps (op : NetworkOp) (R : Registry κ) (i : Nat) :
    Keeps R (suspendOne op R i).2 := by
  unfold suspendOne
  cases record : R.get (op, i) with
  | none => exact fun _ _ held => held
  | some c =>
    simp only
    have kept : Keeps R (R.set (op, i) { c with eventNetworkPending := false }) :=
      Keeps.set fun cb held => by rw [held_of_get record]; exact held
    split
    · split
      · exact kept
      · exact kept
    · exact fun _ _ held => held

/-- So does one that starts a socket event. -/
theorem resumeOne_keeps (op : NetworkOp) (fails : Nat → Bool) (R : Registry κ) (i : Nat) :
    Keeps R (resumeOne op fails R i).2 := by
  unfold resumeOne
  cases record : R.get (op, i) with
  | none => exact fun _ _ held => held
  | some c =>
    simp only
    have kept : Keeps R (R.set (op, i) { c with eventNetworkPending := true }) :=
      Keeps.set fun cb held => by rw [held_of_get record]; exact held
    split
    · split
      · exact kept
      · exact kept
    · exact fun _ _ held => held

/-- A scan of such visits leaves the callbacks as they are. -/
theorem scan_keeps {visit : Registry κ → Nat → Int × Registry κ}
    (each : ∀ R i, Keeps R (visit R i).2) (places : List Nat) :
    ∀ R : Registry κ, Keeps R (scan visit places R).2 := by
  induction places with
  | nil => exact fun R _ _ held => held
  | cons i rest ih =>
    intro R place cb held
    rw [scan_cons] at held
    apply each R i place cb
    split at held
    · exact ih _ place cb held
    · exact held

/-- Starting the events of a record leaves the callbacks as they are but for its own. -/
theorem networkRegisterEvents_held (slot : Slot) (c : Callback κ) (timeo : Timeval)
    (faults : RegisterFaults) (place : Slot) :
    (networkRegisterEvents R slot c timeo faults).2.held place =
      if place = slot then c.callback else R.held place := by
  unfold networkRegisterEvents
  cases R.events.timerRegister slot timeo faults.timer with
  | none =>
    simp only
    rw [Registry.held_set]
  | some started =>
    simp only
    split
    · cases started.2.networkRegister slot c.s c.eop faults.network with
      | none =>
        simp only
        rw [Registry.held_set, Registry.held_events]
      | some events =>
        simp only
        rw [Registry.held_set, Registry.held_events]
    · simp only
      rw [Registry.held_set, Registry.held_events]

/-- A registration that does not fill the record fails, and leaves larger arrays at most. -/
theorem networkRegister_refused {fd : Int} {op : NetworkOp} (timeo : Timeval) (cb : κ)
    {faults : RegisterFaults} (refused : ¬ Fills R fd op faults) :
    ∃ sizes, networkRegister R fd op timeo cb faults = (-1, { R with getsize := sizes }) ∧
      Grown R.getsize sizes := by
  by_cases valid : 0 ≤ fd ∧ fd < FD_SETSIZE
  · cases enlarged : R.enlarge fd.toNat op faults with
    | none =>
      unfold networkRegister
      rw [if_neg (by omega)]
      simp only [enlarged]
      split
      · rename_i created
        refine ⟨_, rfl, getD_update_le ?_⟩
        rw [Option.isNone_iff_eq_none.mp created.1]
        exact Nat.le_refl _
      · exact ⟨R.getsize, rfl, fun _ => Nat.le_refl _⟩
    | some S =>
      obtain ⟨sizes, sized, _, grown⟩ := enlarge_eq enlarged
      refine ⟨sizes, ?_, grown⟩
      rw [networkRegister_eq_within timeo cb valid enlarged, sized, registerWithin_sized]
      have failed : registerWithin R fd.toNat op timeo cb faults = (-1, R) := by
        unfold registerWithin
        cases record : R.get (op, fd.toNat) with
        | none =>
          have vacant : R.held (op, fd.toNat) = none := by
            unfold Registry.held
            rw [record]
            rfl
          have memory : faults.malloc = true := by
            by_contra memory
            exact refused ⟨valid.1, valid.2, by rw [enlarged]; rfl, vacant,
              Or.inr (by simpa using memory)⟩
          exact if_pos memory
        | some c =>
          have filled : c.callback.isSome := by
            by_contra vacant
            exact refused ⟨valid.1, valid.2, by rw [enlarged]; rfl,
              by rw [held_of_get record]; simpa using vacant, Or.inl (by rw [record]; rfl)⟩
          exact if_pos filled
      rw [failed]
  · refine ⟨R.getsize, ?_, fun _ => Nat.le_refl _⟩
    unfold networkRegister
    rw [if_pos (by omega)]

/-- A registration that fills the record leaves its callback there, whether it fails or not. -/
theorem networkRegister_fills {fd : Int} {op : NetworkOp} (timeo : Timeval) (cb : κ)
    {faults : RegisterFaults} (fills : Fills R fd op faults) (place : Slot) :
    (networkRegister R fd op timeo cb faults).2.held place =
      if place = (op, fd.toNat) then some cb else R.held place := by
  obtain ⟨least, most, enlarges, vacant, allocated⟩ := fills
  obtain ⟨S, enlarged⟩ := Option.isSome_iff_exists.mp enlarges
  obtain ⟨sizes, sized, _, _⟩ := enlarge_eq enlarged
  rw [networkRegister_eq_within timeo cb ⟨least, most⟩ enlarged, sized, registerWithin_sized]
  change (registerWithin R fd.toNat op timeo cb faults).2.held place = _
  unfold registerWithin
  cases record : R.get (op, fd.toNat) with
  | none =>
    rw [record] at allocated
    have memory : ¬ faults.malloc = true := by simpa using allocated
    simp only
    rw [if_neg memory, networkRegisterEvents_held]
  | some c =>
    rw [held_of_get record] at vacant
    simp only
    rw [if_neg (by rw [vacant]; simp), networkRegisterEvents_held]

/-- A call that does not register a callback makes no record hold it, and invokes it only if a
record held it. -/
theorem perform_unheld {cb : κ} (unheld : ∀ place, R.held place ≠ some cb) {call : Call κ}
    (other : ¬ call.Registers cb) {ends : Ends κ} {S : Registry κ}
    (performed : perform R call = some (ends, S)) :
    (∀ place, S.held place ≠ some cb) ∧ ∀ slot status, ends ≠ .calls slot (some cb) status := by
  have unkept : ∀ {S : Registry κ}, Keeps R S → ∀ place, S.held place ≠ some cb :=
    fun kept place held => unheld place (kept place cb held)
  -- the callback that is invoked is that of a record
  have invoked : ∀ {slot : Slot} {c d : Callback κ} {E : Events} {status : NetworkStatus},
      R.get slot = some c → d.callback = c.callback →
      (∀ place, (docallback { R with events := E } slot d status).2.held place ≠ some cb) ∧
        ∀ place status', (docallback { R with events := E } slot d status).1 ≠
          .calls place (some cb) status' := by
    intro slot c d E status record same
    refine ⟨unkept (docallback_keeps (R := { R with events := E }) slot d status), ?_⟩
    intro place status' calls
    have ends : Ends.calls slot d.callback status = .calls place (some cb) status' := calls
    injection ends with _ callback _
    apply unheld slot
    rw [held_of_get record, ← same, callback]
  cases call with
  | register fd op timeo given faults =>
    cases performed
    refine ⟨fun place held => ?_, fun _ _ => by simp⟩
    by_cases fills : Fills R fd op faults
    · rw [networkRegister_fills timeo given fills] at held
      split at held
      · exact other (Option.some.inj held)
      · exact unheld place held
    · obtain ⟨sizes, refused, _⟩ := networkRegister_refused timeo given fills
      rw [refused] at held
      exact unheld place held
  | deregister fd op =>
    have quiet : ∀ rc : Int, (∀ place, R.held place ≠ some cb) ∧
        ∀ slot status, Ends.returns rc ≠ Ends.calls slot (some cb) status :=
      fun rc => ⟨unheld, fun _ _ => by simp⟩
    have both : (∀ place, (networkDeregister R fd op).2.held place ≠ some cb) ∧
        ∀ slot status, (networkDeregister R fd op).1 ≠ .calls slot (some cb) status := by
      unfold networkDeregister
      cases R.getsize op with
      | none => exact quiet 0
      | some size =>
        simp only
        split
        · exact quiet 0
        · split
          · exact quiet (-1)
          · cases record : R.get (op, fd.toNat) with
            | none => exact quiet 0
            | some c =>
              simp only
              split
              · exact invoked record rfl
              · exact quiet 0
    have same : networkDeregister R fd op = (ends, S) := Option.some.inj performed
    rw [same] at both
    exact both
  | suspend op =>
    cases performed
    exact ⟨unkept (scan_keeps (suspendOne_keeps op) _ _), fun _ _ => by simp⟩
  | resume op fails =>
    cases performed
    exact ⟨unkept (scan_keeps (resumeOne_keeps op fails) _ _), fun _ _ => by simp⟩
  | expire timer =>
    simp only [perform] at performed
    split at performed
    · have same := Option.some.inj performed
      have both : (∀ place, (callbackTimer { R with events := R.events.timerCancel timer.id }
            timer.cookie).2.held place ≠ some cb) ∧
          ∀ slot status, (callbackTimer { R with events := R.events.timerCancel timer.id }
            timer.cookie).1 ≠ .calls slot (some cb) status := by
        unfold callbackTimer
        rw [Registry.get_events]
        cases record : R.get timer.cookie with
        | none => exact ⟨unheld, fun _ _ => by simp⟩
        | some c => exact invoked record rfl
      rw [same] at both
      exact both
    · exact absurd performed (by simp)
  | ready op s =>
    simp only [perform] at performed
    cases pending : R.events.network op s with
    | none =>
      rw [pending] at performed
      exact absurd performed (by simp)
    | some slot =>
      simp only [pending] at performed
      obtain ⟨E, _, same⟩ := Option.map_eq_some_iff.mp performed
      have both : (∀ place, (callbackNetwork { R with events := E } slot).2.held place ≠ some cb) ∧
          ∀ place status, (callbackNetwork { R with events := E } slot).1 ≠
            .calls place (some cb) status := by
        unfold callbackNetwork
        rw [Registry.get_events]
        cases record : R.get slot with
        | none => exact ⟨unheld, fun _ _ => by simp⟩
        | some c => exact invoked record rfl
      rw [same] at both
      exact both

/-- A callback that no record holds is not invoked before it is registered. -/
theorem outcomes_unheld {cb : κ} (calls : List (Call κ))
    (others : ∀ call ∈ calls, ¬ call.Registers cb) :
    ∀ {R : Registry κ}, (∀ place, R.held place ≠ some cb) →
      ∀ slot status, some (.calls slot (some cb) status) ∉ outcomes R calls := by
  induction calls with
  | nil => exact fun _ _ _ member => nomatch member
  | cons call rest ih =>
    intro R unheld slot status member
    have later := fun other within => others other (List.mem_cons_of_mem call within)
    unfold outcomes at member
    split at member
    · cases List.mem_cons.mp member with
      | inl same => exact absurd same (by simp)
      | inr within => exact ih later unheld slot status within
    · rename_i ends S performed
      have next := perform_unheld unheld (others call List.mem_cons_self) performed
      cases List.mem_cons.mp member with
      | inl same => exact next.2 slot status (Option.some.inj same).symm
      | inr within => exact ih later next.1 slot status within

end Held

section Failed

variable {κ : Type} {R : Registry κ}

/-- A failed registration was undone if and only if it failed before it filled the record, that is,
not when its timer or its socket event was to be started. -/
theorem networkRegister_undone_iff {log : List (Call κ × Ends κ)} (history : History log R)
    {fd : Int} {op : NetworkOp} {timeo : Timeval} {cb : κ} {faults : RegisterFaults}
    (_failed : (networkRegister R fd op timeo cb faults).1 = -1) :
    Undone R (networkRegister R fd op timeo cb faults).2 cb ↔ ¬ Fills R fd op faults := by
  constructor
  · intro undone fills
    have held := networkRegister_fills timeo cb fills (op, fd.toNat)
    rw [if_pos rfl, undone.held, fills.2.2.2.1] at held
    exact absurd held (by simp)
  · intro refused
    obtain ⟨sizes, result, grown⟩ := networkRegister_refused timeo cb refused
    rw [result]
    have behaves : ∀ calls : List (Call κ), (∀ call ∈ calls, call.Plain) →
        outcomes { R with getsize := sizes } calls = outcomes R calls :=
      fun calls plain => outcomes_sized calls plain history.within grown
    refine ⟨fun _ => rfl, behaves, fun unheld calls later slot status => ?_⟩
    rw [behaves calls fun call member => (later call member).1]
    exact outcomes_unheld calls (fun call member => (later call member).2) unheld slot status

/-- The timer of a first registration cannot be started; a later deregistration invokes the
callback. -/
theorem networkRegister_not_undone :
    ¬ ∀ (log : List (Call Nat × Ends Nat)) (R : Registry Nat), History log R →
      ∀ (fd : Int) (op : NetworkOp) (timeo : Timeval) (cb : Nat) (faults : RegisterFaults),
        (networkRegister R fd op timeo cb faults).1 = -1 →
          Undone R (networkRegister R fd op timeo cb faults).2 cb := by
  intro all
  have undone := all [] Registry.empty History.empty 3 .write ⟨5, 0⟩ 7 (onlyTimer none) rfl
  have never := undone.never (fun place held => nomatch held) [.deregister 3 .write]
    (by simp [Call.Plain, Call.Registers]) (.write, 3) .cancel
  exact never (List.mem_cons_self)

/-- There is no memory for the record; nothing is left behind. -/
theorem networkRegister_undone_memory :
    (networkRegister Registry.empty 3 .write ⟨5, 0⟩ 7 { onlyTimer (some 0) with malloc := true }).1
      = -1 ∧
    (Undone Registry.empty (networkRegister Registry.empty 3 .write ⟨5, 0⟩ 7
        { onlyTimer (some 0) with malloc := true }).2 7 ↔
      ¬ Fills (Registry.empty : Registry Nat) 3 .write { onlyTimer (some 0) with malloc :=
        true }) :=
  ⟨rfl, networkRegister_undone_iff History.empty rfl⟩

end Failed

end Tarsnap.Network
