import Tarsnap.Network.Register
import Mathlib.Data.Rat.Floor
import Mathlib.Tactic.Linarith
import Mathlib.Tactic.Ring

/-!
# The bandwidth limiter

Each direction has a bucket of tokens, one for each byte; it fills at the rate of the direction and
holds the tokens of two seconds. While there are not enough tokens for a segment, the callbacks of
the direction are suspended and a timer runs. The arithmetic is exact here. Times are in seconds.
-/

namespace Tarsnap.Network

/-- The state of one direction. -/
structure Bwlimit where
  /-- The rate, in bytes per second. -/
  Bps : ℚ
  /-- The tokens. -/
  bucket : ℚ
  /-- The timer that runs, if any, with the time it was started for. -/
  timerCookie : Option ℚ
  /-- Traffic is suspended. -/
  suspended : Bool

/-- The state of the limiter. -/
structure Limits where
  /-- The direction of reading. -/
  limitRead : Bwlimit
  /-- The direction of writing. -/
  limitWrite : Bwlimit
  /-- Last time tokens were added to buckets, if they were. -/
  tlast : Option ℚ

/-- Calls of the registration of callbacks. -/
inductive Switch where
  /-- `network_register_suspend`. -/
  | suspend
  /-- `network_register_resume`. -/
  | resume
deriving DecidableEq, Repr

/-- What fails while the state of one direction is updated. -/
structure PokeFaults where
  /-- The traffic cannot be resumed. -/
  resume : Bool
  /-- The traffic cannot be suspended. -/
  suspend : Bool
  /-- The timer cannot be started. -/
  timer : Bool

/-- What the calls answer that an update makes. -/
structure PokeAnswers where
  /-- The time, unless the clock fails. -/
  tnow : Option ℚ
  /-- What fails for reading. -/
  read : PokeFaults
  /-- What fails for writing. -/
  write : PokeFaults

/-- Traffic is limited to 1 GBps by default, with 2 s burst. -/
def Bwlimit.init : Bwlimit :=
  ⟨1000000000, 2 * 1000000000, none, false⟩

/-- The limiter before it is used. -/
def Limits.init : Limits :=
  ⟨Bwlimit.init, Bwlimit.init, none⟩

/-- The state of a direction. -/
def Limits.limit (L : Limits) : NetworkOp → Bwlimit
  | .read => L.limitRead
  | .write => L.limitWrite

/-- Change the state of a direction. -/
def Limits.update (L : Limits) (op : NetworkOp) (change : Bwlimit → Bwlimit) : Limits :=
  match op with
  | .read => { L with limitRead := change L.limitRead }
  | .write => { L with limitWrite := change L.limitWrite }

/-- Set the rate of one direction; don't allow more than a 2 s burst. -/
def Bwlimit.setRate (l : Bwlimit) (Bps : ℚ) : Bwlimit :=
  { l with Bps, bucket := if 2 * Bps < l.bucket then 2 * Bps else l.bucket }

/-- Set the rates. -/
def networkBwlimit (L : Limits) (down up : ℚ) : Limits :=
  { L with limitRead := L.limitRead.setRate down, limitWrite := L.limitWrite.setRate up }

/-- Stop or start the timer of a direction, as its traffic requires. -/
def pokeTimer (l : Bwlimit) (faults : PokeFaults) : Int × Bwlimit :=
  if l.suspended = false then (0, { l with timerCookie := none })
  else
    match l.timerCookie with
    | some _ => (0, l)
    | none =>
      -- wait 10 ms or for 1460 bytes of quota
      let waketime := (1460 - l.bucket) / l.Bps
      let waketime := if waketime < 1 / 100 then 1 / 100 else waketime
      if faults.timer then (-1, l) else (0, { l with timerCookie := some waketime })

/-- Update the state for one direction. -/
def pokeone (l : Bwlimit) (t : ℚ) (faults : PokeFaults) : Int × Bwlimit × List Switch :=
  let bucket := l.bucket + l.Bps * t
  let l := { l with bucket := if 2 * l.Bps < bucket then 2 * l.Bps else bucket }
  if 1460 ≤ l.bucket ∧ l.suspended then
    if faults.resume then (-1, l, [.resume])
    else
      let (rc, l) := pokeTimer { l with suspended := false } faults
      (rc, l, [.resume])
  else if l.bucket < 1460 ∧ l.suspended = false then
    if faults.suspend then (-1, l, [.suspend])
    else
      let (rc, l) := pokeTimer { l with suspended := true } faults
      (rc, l, [.suspend])
  else
    let (rc, l) := pokeTimer l faults
    (rc, l, [])

/-- The duration since the last update. -/
def Limits.since (L : Limits) (tnow : ℚ) : ℚ :=
  match L.tlast with
  | some tlast => tnow - tlast
  | none => 0

/-- Update the internal state; the calls of the registration are those for reading, then those for
writing. -/
def poke (L : Limits) (answers : PokeAnswers) : Int × Limits × List Switch × List Switch :=
  match answers.tnow with
  | none => (-1, L, [], [])
  | some tnow =>
    match pokeone L.limitRead (L.since tnow) answers.read with
    | (0, limitRead, reads) =>
      match pokeone L.limitWrite (L.since tnow) answers.write with
      | (0, limitWrite, writes) => (0, ⟨limitRead, limitWrite, some tnow⟩, reads, writes)
      | (_, limitWrite, writes) => (-1, { L with limitRead, limitWrite }, reads, writes)
    | (_, limitRead, reads) => (-1, { L with limitRead }, reads, [])

/-- The amount of instantaneously allowed bandwidth, which is not less than one normal-sized TCP
segment, or zero. The conversion of a negative bucket, which C leaves undefined, gives zero here; no
bucket is negative as long as no more than the quota is eaten. -/
def Bwlimit.quota (l : Bwlimit) : Nat :=
  let len := l.bucket.floor.toNat
  if len < 1460 then 0 else len

/-- Get the amount of instantaneously allowed bandwidth. -/
def networkBwlimitGet (L : Limits) (op : NetworkOp) (answers : PokeAnswers) :
    Option Nat × Limits × List Switch × List Switch :=
  match poke L answers with
  | (0, L, switches) => (some (L.limit op).quota, L, switches)
  | (_, L, switches) => (none, L, switches)

/-- Consume bandwidth quota. -/
def networkBwlimitEat (L : Limits) (op : NetworkOp) (len : Nat) (answers : PokeAnswers) :
    Int × Limits × List Switch × List Switch :=
  poke (L.update op fun l => { l with bucket := l.bucket - len }) answers

/-- Timer wakeup. -/
def bwlimitCallbackTimer (L : Limits) (op : NetworkOp) (answers : PokeAnswers) :
    Int × Limits × List Switch × List Switch :=
  poke (L.update op fun l => { l with timerCookie := none }) answers

end Tarsnap.Network
