import Tarsnap.Network.Bwlimit

/-!
# Runs of the bandwidth limiter

The quota is got and eaten, and timers expire, in any order and with a clock that does not go back.
The buckets stay between zero and two seconds of bandwidth, a direction is suspended just while its
bucket holds less than a segment, and a timer runs just then. What is eaten of the quotas that are
got within an interval is bounded by two seconds of bandwidth and the length of the interval.
-/

namespace Tarsnap.Network

/-- The entry points of the limiter. -/
inductive BwCall where
  /-- `network_bwlimit_get`. -/
  | get (op : NetworkOp)
  /-- `network_bwlimit_eat`. -/
  | eat (op : NetworkOp) (len : Nat)
  /-- The timer of a direction expires. -/
  | wake (op : NetworkOp)
deriving DecidableEq, Repr

/-- The limiter, with what has happened to it. -/
structure Metered where
  /-- The limiter. -/
  limits : Limits
  /-- The quota that was got last. -/
  got : NetworkOp → Nat
  /-- What was eaten since. -/
  used : NetworkOp → Nat
  /-- The calls of the registration. -/
  switches : NetworkOp → List Switch

/-- The clock works, and nothing fails. -/
def plainPoke (tnow : ℚ) : PokeAnswers :=
  ⟨some tnow, ⟨false, false, false⟩, ⟨false, false, false⟩⟩

/-- What is eaten by a call, in one direction. -/
def BwCall.eaten (op : NetworkOp) : BwCall → Nat
  | .eat op' len => if op' = op then len else 0
  | _ => 0

/-- The limiter as a call finds it when it updates the state. -/
def BwCall.prepare (L : Limits) : BwCall → Limits
  | .get _ => L
  | .eat op len => L.update op fun l => { l with bucket := l.bucket - len }
  | .wake op => L.update op fun l => { l with timerCookie := none }

/-- A call at a time, where nothing fails: the quota that is got, and what becomes of the
limiter. -/
def BwCall.run (L : Limits) (tnow : ℚ) :
    BwCall → Option Nat × Limits × List Switch × List Switch
  | .get op => networkBwlimitGet L op (plainPoke tnow)
  | .eat op len => (none, (networkBwlimitEat L op len (plainPoke tnow)).2)
  | .wake op => (none, (bwlimitCallbackTimer L op (plainPoke tnow)).2)

/-- One of two values, by direction. -/
def NetworkOp.choose {α : Type} (read write : α) : NetworkOp → α
  | .read => read
  | .write => write

/-- The effect of a call at a time. -/
def Metered.perform (M : Metered) (tnow : ℚ) (call : BwCall) : Metered :=
  let (quota, limits, reads, writes) := call.run M.limits tnow
  { limits
    got := fun op => if call = .get op then quota.getD 0 else M.got op
    used := fun op => if call = .get op then 0 else M.used op + call.eaten op
    switches := fun op => M.switches op ++ op.choose reads writes }

/-- What is eaten of a quota is, in total, within the quota. -/
def BwCall.Within (M : Metered) : BwCall → Prop
  | .eat op len => M.used op + len ≤ M.got op
  | _ => True

/-- What is eaten at once is within the quota that was got last. -/
def BwCall.WithinEach (M : Metered) : BwCall → Prop
  | .eat op len => len ≤ M.got op
  | _ => True

/-- Only a timer that runs expires. -/
def BwCall.Possible (M : Metered) : BwCall → Prop
  | .wake op => (M.limits.limit op).timerCookie.isSome
  | _ => True

/-- Calls with their times, from one state to another. -/
inductive BwRun (allowed : Metered → BwCall → Prop) :
    Metered → List (ℚ × BwCall) → Metered → Prop where
  /-- No calls. -/
  | nil {M : Metered} : BwRun allowed M [] M
  /-- A call, and others after it; the clock does not go back. -/
  | cons {M M' : Metered} {tnow : ℚ} {call : BwCall} {rest : List (ℚ × BwCall)} :
      (∀ tlast, M.limits.tlast = some tlast → tlast ≤ tnow) → call.Possible M → allowed M call →
      BwRun allowed (M.perform tnow call) rest M' → BwRun allowed M ((tnow, call) :: rest) M'

/-- The limiter with its rates set, before it is used. -/
def Metered.start (down up : ℚ) : Metered :=
  ⟨networkBwlimit Limits.init down up, fun _ => 0, fun _ => 0, fun _ => []⟩

/-- What is eaten in one direction. -/
def eatenBy (op : NetworkOp) (calls : List (ℚ × BwCall)) : Nat :=
  (calls.map fun entry => entry.2.eaten op).sum

/-- The calls from the first one on that gets a quota of a direction. -/
def fromGet (op : NetworkOp) (calls : List (ℚ × BwCall)) : List (ℚ × BwCall) :=
  calls.dropWhile fun entry => entry.2 ≠ .get op

/-- Calls of the registration alternate: from one state of the traffic to another. -/
def Alternates : Bool → List Switch → Bool → Prop
  | before, [], after => before = after
  | false, .suspend :: rest, after => Alternates true rest after
  | true, .resume :: rest, after => Alternates false rest after
  | _, _ :: _, _ => False

section Poke

/-- The call of the registration for a change of the traffic, if it changes. -/
def switchFor : Bool → Bool → List Switch
  | false, true => [.suspend]
  | true, false => [.resume]
  | _, _ => []

/-- What an update does to one direction, where nothing fails. -/
structure Refilled (l : Bwlimit) (t : ℚ) (l' : Bwlimit) (switches : List Switch) : Prop where
  /-- The rate is the same. -/
  Bps : l'.Bps = l.Bps
  /-- The bucket is refilled, and overflows at 2 seconds of bandwidth. -/
  bucket : l'.bucket = min (l.bucket + l.Bps * t) (2 * l.Bps)
  /-- Traffic is suspended without a segment's worth of tokens. -/
  suspended : l'.suspended = true ↔ l'.bucket < 1460
  /-- A timer runs while traffic is suspended. -/
  timer : l'.timerCookie.isSome = l'.suspended
  /-- The registration is told of a change. -/
  switches : switches = switchFor l.suspended l'.suspended

/-- The timer runs while traffic is suspended, and nothing else changes. -/
theorem pokeTimer_plain (l : Bwlimit) :
    ∃ cookie, pokeTimer l ⟨false, false, false⟩ = (0, { l with timerCookie := cookie }) ∧
      cookie.isSome = l.suspended := by
  obtain ⟨Bps, bucket, timerCookie, suspended⟩ := l
  cases suspended with
  | false => exact ⟨none, rfl, rfl⟩
  | true =>
    cases timerCookie with
    | none => exact ⟨_, rfl, rfl⟩
    | some cookie => exact ⟨some cookie, rfl, rfl⟩

/-- Updating one direction. -/
theorem pokeone_plain (l : Bwlimit) (t : ℚ) :
    ∃ l' switches, pokeone l t ⟨false, false, false⟩ = (0, l', switches) ∧
      Refilled l t l' switches := by
  have full : (if 2 * l.Bps < l.bucket + l.Bps * t then 2 * l.Bps else l.bucket + l.Bps * t) =
      min (l.bucket + l.Bps * t) (2 * l.Bps) := by
    split
    · rename_i above
      rw [min_eq_right (le_of_lt above)]
    · rename_i under
      rw [min_eq_left (not_lt.mp under)]
  unfold pokeone
  simp only [full, Bool.false_eq_true, if_false]
  generalize bucket : min (l.bucket + l.Bps * t) (2 * l.Bps) = tokens
  by_cases low : tokens < 1460
  · have notHigh : ¬ 1460 ≤ tokens := not_le.mpr low
    rw [if_neg fun both => notHigh both.1]
    by_cases running : l.suspended = false
    · rw [if_pos ⟨low, running⟩]
      obtain ⟨cookie, poked, runs⟩ := pokeTimer_plain
        { l with bucket := tokens, suspended := true }
      rw [poked]
      exact ⟨_, _, rfl, rfl, bucket.symm, by simp [low], runs, by rw [running]; rfl⟩
    · rw [if_neg fun both => running both.2]
      obtain ⟨cookie, poked, runs⟩ := pokeTimer_plain { l with bucket := tokens }
      rw [poked]
      rw [Bool.not_eq_false] at running
      exact ⟨_, _, rfl, rfl, bucket.symm, by simp [low, running], runs, by rw [running]; rfl⟩
  · have high : 1460 ≤ tokens := not_lt.mp low
    by_cases stopped : l.suspended = true
    · rw [if_pos ⟨high, stopped⟩]
      obtain ⟨cookie, poked, runs⟩ := pokeTimer_plain
        { l with bucket := tokens, suspended := false }
      rw [poked]
      exact ⟨_, _, rfl, rfl, bucket.symm, by simp [high], runs, by rw [stopped]; rfl⟩
    · rw [if_neg fun both => stopped both.2, if_neg fun both => low both.1]
      obtain ⟨cookie, poked, runs⟩ := pokeTimer_plain { l with bucket := tokens }
      rw [poked]
      rw [Bool.not_eq_true] at stopped
      exact ⟨_, _, rfl, rfl, bucket.symm, by simp [high, stopped], runs, by rw [stopped]; rfl⟩

/-- Updating the state. -/
theorem poke_plain (L : Limits) (tnow : ℚ) :
    ∃ L' reads writes, poke L (plainPoke tnow) = (0, L', reads, writes) ∧
      L'.tlast = some tnow ∧ Refilled (L.limit .read) (L.since tnow) (L'.limit .read) reads ∧
      Refilled (L.limit .write) (L.since tnow) (L'.limit .write) writes := by
  obtain ⟨limitRead, reads, read, readRefilled⟩ := pokeone_plain L.limitRead (L.since tnow)
  obtain ⟨limitWrite, writes, write, writeRefilled⟩ := pokeone_plain L.limitWrite (L.since tnow)
  refine ⟨⟨limitRead, limitWrite, some tnow⟩, reads, writes, ?_, rfl, readRefilled, writeRefilled⟩
  simp only [poke, plainPoke, read, write]

/-- What a call does to one direction. -/
structure Moved (op : NetworkOp) (tnow : ℚ) (call : BwCall) (M M' : Metered) : Prop where
  /-- The bucket is emptied by what is eaten, and refilled. -/
  bucket : (M'.limits.limit op).bucket =
    min ((M.limits.limit op).bucket - call.eaten op +
      (M.limits.limit op).Bps * M.limits.since tnow) (2 * (M.limits.limit op).Bps)
  /-- The rate is the same. -/
  Bps : (M'.limits.limit op).Bps = (M.limits.limit op).Bps
  /-- Traffic is suspended without a segment's worth of tokens. -/
  suspended : (M'.limits.limit op).suspended = true ↔ (M'.limits.limit op).bucket < 1460
  /-- A timer runs while traffic is suspended. -/
  timer : (M'.limits.limit op).timerCookie.isSome = (M'.limits.limit op).suspended
  /-- The registration is told of a change. -/
  switches : M'.switches op = M.switches op ++
    switchFor (M.limits.limit op).suspended (M'.limits.limit op).suspended
  /-- The time is that of the call. -/
  tlast : M'.limits.tlast = some tnow
  /-- A quota is what the bucket holds. -/
  got : M'.got op = if call = .get op then (M'.limits.limit op).quota else M.got op
  /-- What is used of a quota. -/
  used : M'.used op = if call = .get op then 0 else M.used op + call.eaten op

/-- What a call does to either direction. -/
theorem perform_moved (M : Metered) (tnow : ℚ) (call : BwCall) (op : NetworkOp) :
    Moved op tnow call M (M.perform tnow call) := by
  obtain ⟨L', reads, writes, poked, tlast, read, write⟩ := poke_plain (call.prepare M.limits) tnow
  -- what a call prepares
  have prepared : ((call.prepare M.limits).limit op).bucket =
        (M.limits.limit op).bucket - call.eaten op ∧
      ((call.prepare M.limits).limit op).Bps = (M.limits.limit op).Bps ∧
      ((call.prepare M.limits).limit op).suspended = (M.limits.limit op).suspended ∧
      (call.prepare M.limits).since tnow = M.limits.since tnow := by
    cases call with
    | get => exact ⟨by simp [BwCall.prepare, BwCall.eaten], rfl, rfl, rfl⟩
    | eat op' len =>
      cases op' <;> cases op <;>
        simp [BwCall.prepare, BwCall.eaten, Limits.update, Limits.limit, Limits.since]
    | wake op' =>
      cases op' <;> cases op <;>
        simp [BwCall.prepare, BwCall.eaten, Limits.update, Limits.limit, Limits.since]
  have refilled : Refilled ((call.prepare M.limits).limit op) ((call.prepare M.limits).since tnow)
      (L'.limit op) (op.choose reads writes) := by
    cases op with
    | read => exact read
    | write => exact write
  -- what it then updates
  have ran : ∃ quota, call.run M.limits tnow = (quota, L', reads, writes) ∧
      (call = .get op → quota = some (L'.limit op).quota) := by
    cases call with
    | get op' =>
      change poke M.limits (plainPoke tnow) = _ at poked
      refine ⟨some (L'.limit op').quota, ?_, fun same => by cases same; rfl⟩
      simp only [BwCall.run, networkBwlimitGet, poked]
    | eat op' len =>
      change networkBwlimitEat M.limits op' len (plainPoke tnow) = _ at poked
      exact ⟨none, by simp only [BwCall.run, poked], fun same => absurd same (by simp)⟩
    | wake op' =>
      change bwlimitCallbackTimer M.limits op' (plainPoke tnow) = _ at poked
      exact ⟨none, by simp only [BwCall.run, poked], fun same => absurd same (by simp)⟩
  obtain ⟨quota, ran, got⟩ := ran
  have result : M.perform tnow call =
      { limits := L'
        got := fun op => if call = .get op then quota.getD 0 else M.got op
        used := fun op => if call = .get op then 0 else M.used op + call.eaten op
        switches := fun op => M.switches op ++ op.choose reads writes } := by
    unfold Metered.perform
    rw [ran]
  rw [result]
  refine ⟨?_, ?_, refilled.suspended, refilled.timer, ?_, tlast, ?_, rfl⟩
  · rw [← prepared.1, ← prepared.2.1, ← prepared.2.2.2]
    exact refilled.bucket
  · rw [← prepared.2.1]
    exact refilled.Bps
  · rw [← prepared.2.2.1]
    exact congrArg (M.switches op ++ ·) refilled.switches
  · change (if call = .get op then quota.getD 0 else M.got op) = _
    split
    · rename_i get
      rw [got get]
      rfl
    · rfl

end Poke

section Runs

/-- What holds of one direction between calls. -/
structure Direction (Bps : ℚ) (op : NetworkOp) (M : Metered) : Prop where
  /-- The rate. -/
  rate : (M.limits.limit op).Bps = Bps
  /-- There is no debt. -/
  low : 0 ≤ (M.limits.limit op).bucket
  /-- No more than two seconds of bandwidth are saved up. -/
  high : (M.limits.limit op).bucket ≤ 2 * Bps
  /-- Traffic is suspended without a segment's worth of tokens. -/
  suspended : (M.limits.limit op).suspended = true ↔ (M.limits.limit op).bucket < 1460
  /-- A timer runs while traffic is suspended. -/
  timer : (M.limits.limit op).timerCookie.isSome = (M.limits.limit op).suspended
  /-- What is left of the quota is in the bucket. -/
  quota : M.used op ≤ M.got op ∧
    (M.got op : ℚ) - M.used op ≤ (M.limits.limit op).bucket
  /-- The calls of the registration alternate. -/
  switches : Alternates false (M.switches op) (M.limits.limit op).suspended

/-- Alternating calls follow each other. -/
theorem Alternates.append {first second : List Switch} :
    ∀ {before middle after : Bool}, Alternates before first middle →
      Alternates middle second after → Alternates before (first ++ second) after := by
  induction first with
  | nil =>
    intro before middle after same rest
    have equal : before = middle := by cases before <;> exact same
    rw [equal]
    exact rest
  | cons switch more ih =>
    intro before middle after alternates rest
    cases before <;> cases switch
    · exact ih alternates rest
    · exact alternates.elim
    · exact alternates.elim
    · exact ih alternates rest

/-- A change of the traffic is one call, or none. -/
theorem alternates_switchFor (before after : Bool) :
    Alternates before (switchFor before after) after := by
  cases before <;> cases after <;> exact rfl

/-- A quota is in the bucket. -/
theorem quota_le {l : Bwlimit} (low : 0 ≤ l.bucket) : (l.quota : ℚ) ≤ l.bucket := by
  unfold Bwlimit.quota
  simp only
  split
  · exact_mod_cast low
  · have nonneg : 0 ≤ l.bucket.floor := Rat.le_floor_iff.mpr (by exact_mod_cast low)
    have whole : ((l.bucket.floor.toNat : Int) : ℚ) ≤ l.bucket := by
      rw [Int.toNat_of_nonneg nonneg]
      exact Rat.floor_le _
    exact_mod_cast whole

/-- A call keeps what holds of a direction, if it eats what is left of the quota at most. -/
theorem Direction.moved {Bps : ℚ} (fast : 8000 ≤ Bps) {op : NetworkOp} {tnow : ℚ} {call : BwCall}
    {M M' : Metered} (direction : Direction Bps op M) (moved : Moved op tnow call M M')
    (forward : 0 ≤ M.limits.since tnow) (within : call.Within M) : Direction Bps op M' := by
  have eats : (M.used op : ℚ) + call.eaten op ≤ M.got op := by
    have bound : M.used op + call.eaten op ≤ M.got op := by
      cases call with
      | get => exact direction.quota.1
      | wake => exact direction.quota.1
      | eat op' len =>
        by_cases same : op' = op
        · have total : M.used op' + len ≤ M.got op' := within
          rw [same] at total
          simpa [BwCall.eaten, same] using total
        · simpa [BwCall.eaten, same] using direction.quota.1
    exact_mod_cast bound
  have added : 0 ≤ Bps * M.limits.since tnow := mul_nonneg (by linarith only [fast]) forward
  have left := direction.quota.2
  have bucket := moved.bucket
  rw [direction.rate] at bucket
  have low : 0 ≤ (M'.limits.limit op).bucket := by
    rw [bucket]
    apply le_min
    · linarith only [eats, left, added]
    · linarith only [fast]
  refine ⟨moved.Bps.trans direction.rate, low, ?_, moved.suspended, moved.timer, ?_, ?_⟩
  · rw [bucket]
    exact min_le_right _ _
  · rw [moved.got, moved.used]
    by_cases get : call = .get op
    · rw [if_pos get, if_pos get]
      refine ⟨Nat.zero_le _, ?_⟩
      have fits := quota_le low
      push_cast
      linarith only [fits]
    · rw [if_neg get, if_neg get]
      refine ⟨by exact_mod_cast eats, ?_⟩
      rw [bucket]
      push_cast
      apply le_min
      · linarith only [left, added]
      · have high := direction.high
        have nonneg : (0 : ℚ) ≤ call.eaten op := by positivity
        linarith only [left, high, nonneg]
  · rw [moved.switches]
    exact direction.switches.append (alternates_switchFor _ _)

/-- Before the limiter is used, the buckets are full and nothing is suspended. -/
theorem start_direction {down up : ℚ} (fastDown : 8000 ≤ down) (fastUp : 8000 ≤ up)
    (op : NetworkOp) : Direction (op.choose down up) op (Metered.start down up) := by
  have full : ∀ Bps : ℚ, 8000 ≤ Bps →
      1460 ≤ (Bwlimit.init.setRate Bps).bucket ∧ (Bwlimit.init.setRate Bps).bucket ≤ 2 * Bps := by
    intro Bps fast
    unfold Bwlimit.setRate
    simp only
    split
    · exact ⟨by linarith only [fast], le_refl _⟩
    · rename_i under
      exact ⟨by simp [Bwlimit.init]; norm_num, not_lt.mp under⟩
  have holds : ∀ Bps : ℚ, 8000 ≤ Bps →
      (Metered.start down up).limits.limit op = Bwlimit.init.setRate Bps →
        Direction Bps op (Metered.start down up) := by
    intro Bps fast same
    obtain ⟨segment, high⟩ := full Bps fast
    refine ⟨by rw [same]; rfl, ?_, ?_, ?_, by rw [same]; rfl, ⟨Nat.le_refl _, ?_⟩, ?_⟩
    · rw [same]
      linarith only [segment]
    · rw [same]
      exact high
    · rw [same]
      simp [Bwlimit.setRate, Bwlimit.init] at segment ⊢
      exact segment
    · rw [same]
      simp only [Metered.start, Nat.cast_zero, sub_zero]
      linarith only [segment]
    · rw [same]
      rfl
  cases op with
  | read => exact holds down fastDown rfl
  | write => exact holds up fastUp rfl

/-- The time since the last update is not negative while the clock does not go back. -/
theorem since_nonneg {L : Limits} {tnow : ℚ}
    (forward : ∀ tlast, L.tlast = some tlast → tlast ≤ tnow) : 0 ≤ L.since tnow := by
  unfold Limits.since
  cases tlast : L.tlast with
  | none => exact le_refl _
  | some time =>
    have before := forward time tlast
    simp only
    linarith only [before]

/-- Calls keep what holds of a direction. -/
theorem BwRun.direction {Bps : ℚ} (fast : 8000 ≤ Bps) {op : NetworkOp} {M M' : Metered}
    {calls : List (ℚ × BwCall)} (run : BwRun (fun M call => call.Within M) M calls M') :
    Direction Bps op M → Direction Bps op M' := by
  induction run with
  | nil => exact id
  | cons forward _ within _ ih =>
    exact fun direction =>
      ih (direction.moved fast (perform_moved _ _ _ op) (since_nonneg forward) within)

/-- Calls in two parts. -/
theorem BwRun.split {allowed : Metered → BwCall → Prop} {M' : Metered}
    {second : List (ℚ × BwCall)} (first : List (ℚ × BwCall)) :
    ∀ {M : Metered}, BwRun allowed M (first ++ second) M' →
      ∃ middle, BwRun allowed M first middle ∧ BwRun allowed middle second M' := by
  induction first with
  | nil => exact fun run => ⟨_, .nil, run⟩
  | cons entry rest ih =>
    intro M run
    cases run with
    | cons forward possible within later =>
      obtain ⟨middle, before, after⟩ := ih later
      exact ⟨middle, .cons forward possible within before, after⟩

/-- What is eaten after an update, with what is in the bucket then, was in the bucket or was added
to it since. -/
theorem BwRun.eaten {Bps : ℚ} (fast : 8000 ≤ Bps) {op : NetworkOp} {M M' : Metered}
    {calls : List (ℚ × BwCall)} (run : BwRun (fun M call => call.Within M) M calls M') :
    ∀ {tfirst : ℚ}, Direction Bps op M → M.limits.tlast = some tfirst →
      ∃ tlast, M'.limits.tlast = some tlast ∧
        (∀ upto, tfirst ≤ upto → (∀ entry ∈ calls, entry.1 ≤ upto) → tlast ≤ upto) ∧
        (eatenBy op calls : ℚ) + (M'.limits.limit op).bucket ≤
          (M.limits.limit op).bucket + Bps * (tlast - tfirst) := by
  induction run with
  | nil =>
    intro tfirst _ first
    refine ⟨tfirst, first, fun upto before _ => before, ?_⟩
    simp [eatenBy]
  | cons forward possible within later ih =>
    rename_i M M' tnow call rest
    intro tfirst direction first
    have moved := perform_moved M tnow call op
    obtain ⟨tlast, last, bounded, total⟩ :=
      ih (direction.moved fast moved (since_nonneg forward) within) moved.tlast
    refine ⟨tlast, last, fun upto before times => ?_, ?_⟩
    · exact bounded upto (times (tnow, call) (by simp)) fun entry member =>
        times entry (by simp [member])
    · have step : (M.limits.limit op).bucket - call.eaten op + Bps * (tnow - tfirst) ≥
          ((M.perform tnow call).limits.limit op).bucket := by
        have since : M.limits.since tnow = tnow - tfirst := by
          unfold Limits.since
          rw [first]
        rw [moved.bucket, direction.rate, since]
        exact min_le_left _ _
      have sum : (eatenBy op ((tnow, call) :: rest) : ℚ) = call.eaten op + eatenBy op rest := by
        simp [eatenBy]
      rw [sum]
      linarith only [total, step]

/-- What is eaten from the first get of a quota on, up to a time. -/
theorem BwRun.eaten_fromGet {Bps : ℚ} (fast : 8000 ≤ Bps) {op : NetworkOp} {M M' : Metered}
    {calls : List (ℚ × BwCall)} (run : BwRun (fun M call => call.Within M) M calls M')
    {since upto : ℚ} (interval : since ≤ upto)
    (times : ∀ entry ∈ calls, since ≤ entry.1 ∧ entry.1 ≤ upto) :
    Direction Bps op M →
      (eatenBy op (fromGet op calls) : ℚ) ≤ 2 * Bps + Bps * (upto - since) := by
  induction run with
  | nil =>
    intro _
    have length : 0 ≤ Bps * (upto - since) :=
      mul_nonneg (by linarith only [fast]) (by linarith only [interval])
    simp only [fromGet, List.dropWhile_nil, eatenBy, List.map_nil, List.sum_nil, Nat.cast_zero]
    linarith only [fast, length]
  | cons forward possible within later ih =>
    rename_i M M' tnow call rest
    intro direction
    have moved := perform_moved M tnow call op
    have next := direction.moved fast moved (since_nonneg forward) within
    have laterTimes : ∀ entry ∈ rest, since ≤ entry.1 ∧ entry.1 ≤ upto :=
      fun entry member => times entry (by simp [member])
    have now := times (tnow, call) (by simp)
    by_cases get : call = .get op
    · have whole : fromGet op ((tnow, call) :: rest) = (tnow, call) :: rest := by
        simp [fromGet, get]
      obtain ⟨tlast, last, bounded, total⟩ := later.eaten fast next moved.tlast
      have final := later.direction fast next
      have ends := bounded upto now.2 fun entry member => (laterTimes entry member).2
      have low := final.low
      have high := next.high
      have length : Bps * (tlast - tnow) ≤ Bps * (upto - since) :=
        mul_le_mul_of_nonneg_left (by linarith only [ends, now.1]) (by linarith only [fast])
      have sum : (eatenBy op ((tnow, call) :: rest) : ℚ) = eatenBy op rest := by
        simp [eatenBy, get, BwCall.eaten]
      rw [whole, sum]
      linarith only [total, low, high, length]
    · have shorter : fromGet op ((tnow, call) :: rest) = fromGet op rest := by
        simp [fromGet, get]
      rw [shorter]
      exact ih laterTimes next

/-- The limiter bounds the traffic of a direction and never stalls it, if what is eaten after a get
of its quota is within that quota in total. -/
theorem network_bwlimit_bounds {down up : ℚ} (fastDown : 8000 ≤ down) (fastUp : 8000 ≤ up)
    {calls : List (ℚ × BwCall)} {M : Metered}
    (run : BwRun (fun M call => call.Within M) (Metered.start down up) calls M) (op : NetworkOp) :
    0 ≤ (M.limits.limit op).bucket ∧ (M.limits.limit op).bucket ≤ 2 * op.choose down up ∧
    (∀ before middle after, calls = before ++ middle ++ after → ∀ since upto : ℚ, since ≤ upto →
      (∀ entry ∈ middle, since ≤ entry.1 ∧ entry.1 ≤ upto) →
        (eatenBy op (fromGet op middle) : ℚ) ≤
          2 * op.choose down up + op.choose down up * (upto - since)) ∧
    ((M.limits.limit op).suspended = true ↔ (M.limits.limit op).bucket < 1460) ∧
    ((M.limits.limit op).timerCookie.isSome = true ↔ (M.limits.limit op).suspended = true) ∧
    Alternates false (M.switches op) (M.limits.limit op).suspended := by
  have fast : 8000 ≤ op.choose down up := by
    cases op with
    | read => exact fastDown
    | write => exact fastUp
  have start := start_direction fastDown fastUp op
  have final := run.direction fast start
  refine ⟨final.low, final.high, ?_, final.suspended, by rw [final.timer], final.switches⟩
  intro before middle after parts since upto interval times
  rw [parts, List.append_assoc] at run
  obtain ⟨M₁, first, rest⟩ := run.split before
  obtain ⟨M₂, second, _⟩ := rest.split middle
  exact second.eaten_fromGet fast interval times (first.direction fast start)

end Runs

section Examples

/-- One more call at a time that is not before that of the last one. -/
theorem forward_perform {M : Metered} {before tnow : ℚ} {call : BwCall} (later : before ≤ tnow) :
    ∀ tlast, (M.perform before call).limits.tlast = some tlast → tlast ≤ tnow := by
  intro tlast same
  rw [(perform_moved M before call .read).tlast, Option.some.injEq] at same
  rw [← same]
  exact later

/-- A quota is got and eaten. -/
theorem network_bwlimit_bounds_once :
    ∃ M, BwRun (fun M call => call.Within M) (Metered.start 8000 8000)
        [(0, .get .read), (1, .eat .read 16000)] M ∧
      0 ≤ (M.limits.limit .read).bucket ∧
      ((M.limits.limit .read).suspended = true ↔ (M.limits.limit .read).bucket < 1460) := by
  have run : BwRun (fun M call => call.Within M) (Metered.start 8000 8000)
      [(0, .get .read), (1, .eat .read 16000)] _ :=
    .cons (fun _ same => (nomatch same)) trivial trivial
      (.cons (forward_perform (by norm_num)) trivial (by unfold BwCall.Within; decide +kernel) .nil)
  have bounds := network_bwlimit_bounds (by norm_num) (by norm_num) run .read
  exact ⟨_, run, bounds.1, bounds.2.2.2.1⟩

/-- A quota that is got once may be eaten twice: the bucket then holds less than nothing. A quota
that is eaten long after it was got, followed by another one, exceeds the bound for the moment of
both. -/
theorem network_bwlimit_exceeded :
    (¬ ∀ (calls : List (ℚ × BwCall)) (M : Metered),
      BwRun (fun M call => call.WithinEach M) (Metered.start 8000 8000) calls M →
        0 ≤ (M.limits.limit .read).bucket) ∧
    ¬ ∀ (before middle : List (ℚ × BwCall)) (M : Metered) (since upto : ℚ),
      BwRun (fun M call => call.WithinEach M) (Metered.start 8000 8000) (before ++ middle) M →
        (∀ entry ∈ middle, since ≤ entry.1 ∧ entry.1 ≤ upto) →
          (eatenBy .read middle : ℚ) ≤ 2 * 8000 + 8000 * (upto - since) := by
  constructor
  · intro all
    have run : BwRun (fun M call => call.WithinEach M) (Metered.start 8000 8000)
        [(0, .get .read), (0, .eat .read 16000), (0, .eat .read 16000)] _ :=
      .cons (fun _ same => (nomatch same)) trivial trivial
        (.cons (forward_perform (le_refl _)) trivial
          (by unfold BwCall.WithinEach; decide +kernel)
          (.cons (forward_perform (le_refl _)) trivial
            (by unfold BwCall.WithinEach; decide +kernel) .nil))
    exact absurd (all _ _ run) (by decide +kernel)
  · intro all
    have run : BwRun (fun M call => call.WithinEach M) (Metered.start 8000 8000)
        ([(0, .get .read)] ++ [(10, .eat .read 16000), (10, .get .read), (10, .eat .read 16000)])
          _ :=
      .cons (fun _ same => (nomatch same)) trivial trivial
        (.cons (forward_perform (by norm_num)) trivial
          (by unfold BwCall.WithinEach; decide +kernel)
          (.cons (forward_perform (le_refl _)) trivial trivial
            (.cons (forward_perform (le_refl _)) trivial
              (by unfold BwCall.WithinEach; decide +kernel) .nil)))
    have bound := all _ _ _ 10 10 run (by simp)
    exact absurd bound (by decide +kernel)

end Examples

end Tarsnap.Network
