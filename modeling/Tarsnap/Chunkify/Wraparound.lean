import Tarsnap.Chunkify.FewBytes
import Tarsnap.Chunkify.Multiply
import Mathlib.Order.Interval.Finset.Nat

/-!
# A chunk long enough to wrap the age of an untouched slot

Untouched slots are marked with the negated table size, so once the byte count of a chunk
passes that value they look freshly filled. A string of few distinct bytes never ends a chunk
early. With a hash value that stays one below the modulus all insertions fall on one run of
slots, which are then all recent when the untouched slots start to look recent too: the lookup
finds neither a cycle nor an empty space and does not end.
-/

namespace Tarsnap.Chunkify

open Tarsnap.Lib

variable {P : Params}

section Arithmetic

/-- On reduced operands the product is an exact quotient, less than twice the modulus. -/
theorem mmul_exact (P : Params) {a b : Nat} (ha : a < P.p) (hb : b < P.p) :
    mmul a b P.p P.pp * 4294967296 ≡ a * b [MOD P.p] ∧ mmul a b P.p P.pp < 2 * P.p := by
  have limit := P.p_le
  have inverse : 4294967296 ∣ P.p * P.pp + 1 := Nat.dvd_of_mod_eq_zero P.pp_inverse
  have room := product_room (a := a) (b := b) (p := P.p) (by omega) (by omega) limit
  have below := mmul_le room inverse
  have product : a * b ≤ 1431655739 * P.p := Nat.mul_le_mul (by omega) hb.le
  refine ⟨mmul_modEq room inverse, ?_⟩
  omega

/-- The modulus is odd. -/
theorem coprime_word (P : Params) : Nat.gcd P.p 4294967296 = 1 :=
  coprime_of_inverse (Nat.dvd_of_mod_eq_zero P.pp_inverse)

/-- The first value rolled into a chunk is its coefficient: for the coefficient `p - 1` the
hash value becomes `p - 1`. -/
theorem first_value (P : Params) :
    reduceOnce (reduceOnce (word (0 + mmul (sub32 0 P.p % P.p) (P.p - 1) P.p P.pp)) P.p) P.p =
      P.p - 1 := by
  have limit := P.p_le
  have positive := P.p_pos
  obtain ⟨scaled, small⟩ := mmul_exact P
    (Nat.mod_lt (sub32 0 P.p) positive) (Nat.sub_lt positive Nat.one_pos)
  generalize mmul (sub32 0 P.p % P.p) (P.p - 1) P.p P.pp = value at scaled small ⊢
  have start : sub32 0 P.p % P.p ≡ 4294967296 [MOD P.p] := start_modEq positive (by omega)
  have congruent : value ≡ P.p - 1 [MOD P.p] := by
    apply Nat.ModEq.cancel_right_of_coprime (coprime_word P)
    calc value * 4294967296 ≡ sub32 0 P.p % P.p * (P.p - 1) [MOD P.p] := scaled
      _ ≡ 4294967296 * (P.p - 1) [MOD P.p] := start.mul_right _
      _ = (P.p - 1) * 4294967296 := Nat.mul_comm _ _
  have residue : value % P.p = P.p - 1 := by
    rw [congruent, Nat.mod_eq_of_lt (Nat.sub_lt positive Nat.one_pos)]
  have fits : word (0 + value) = value := by unfold word; omega
  have first : reduceOnce value P.p = if P.p ≤ value then value - P.p else value :=
    reduceOnce_eq limit (by omega)
  rw [fits, first]
  by_cases reduced : P.p ≤ value
  · have next : value = (P.p - 1) + P.p := by
      rw [Nat.mod_eq_sub_mod reduced, Nat.mod_eq_of_lt (by omega)] at residue
      omega
    rw [if_pos reduced, reduceOnce_eq limit (by omega), if_neg (by omega)]
    omega
  · rw [if_neg reduced, reduceOnce_eq limit (by omega), if_neg reduced]
    rw [Nat.mod_eq_of_lt (by omega)] at residue
    exact residue

end Arithmetic

/-- Whether a slot was filled in this chunk. -/
def Touched (ht : Vector (Nat × Nat) P.htlen) (slot : Fin P.htlen) : Prop :=
  (ht.get slot).1 ≠ P.untouched

instance (ht : Vector (Nat × Nat) P.htlen) : DecidablePred (Touched ht) :=
  fun _ => inferInstanceAs (Decidable (_ ≠ _))

/-- The slots filled in this chunk. -/
def touchedSlots (ht : Vector (Nat × Nat) P.htlen) : Finset (Fin P.htlen) :=
  Finset.univ.filter (Touched ht)

/-- Bytes of at most two values contain no valid cycle. -/
theorem validcycle_dull {bytes : List UInt8} (dull : ∀ byte ∈ bytes, byte = 0 ∨ byte = 1)
    (start : Nat) : validcycle bytes start = false := by
  have few : ∀ byte ∈ bytes, byte ∈ ({0, 1} : Finset UInt8) := by simpa using dull
  exact validcycle_few (by decide) few start

/-- A lookup among bytes of at most two values finds no cycle. -/
theorem lookup_dull {c : Chunkifier P} (dull : ∀ byte ∈ c.bytes, byte = 0 ∨ byte = 1) :
    lookup c ≠ .ok true := by
  have few : ∀ byte ∈ c.bytes, byte ∈ ({0, 1} : Finset UInt8) := by simpa using dull
  exact lookup_few (by decide) few

section Run

/-- The slots from the one where `p - 1` is searched on. -/
def Params.runSlot (P : Params) (index : Nat) : Fin P.htlen := P.next^[index] (P.slot (P.p - 1))

/-- Slots of the run count up modulo the table size. -/
theorem runSlot_val (P : Params) (index : Nat) :
    (P.runSlot index).val = ((P.p - 1) % P.htlen + index) % P.htlen := by
  rw [Params.runSlot, P.next_eq, cyclicNext_iterate]
  exact congrArg (fun start => (start + index) % P.htlen) (P.and_htlen _)

/-- Within one round the slots of the run differ. -/
theorem runSlot_inj (P : Params) {left right : Nat} (hl : left < P.htlen) (hr : right < P.htlen)
    (same : P.runSlot left = P.runSlot right) : left = right := by
  have values := congrArg Fin.val same
  rw [runSlot_val, runSlot_val] at values
  have congruent : left ≡ right [MOD P.htlen] := Nat.ModEq.add_left_cancel' _ values
  rwa [Nat.ModEq, Nat.mod_eq_of_lt hl, Nat.mod_eq_of_lt hr] at congruent

/-- One round of the run reaches every slot. -/
theorem runSlot_surj (P : Params) (slot : Fin P.htlen) :
    ∃ index < P.htlen, P.runSlot index = slot := by
  have covers := cyclicNext_covers P.htlen
  rw [← P.next_eq] at covers
  exact covers _ _

/-- A full round returns to the start. -/
theorem runSlot_htlen (P : Params) : P.runSlot P.htlen = P.runSlot 0 := by
  apply Fin.ext
  rw [runSlot_val, runSlot_val, Nat.add_mod_right, Nat.add_zero]

/-- The search for the modulus itself starts one slot later. -/
theorem slot_modulus (P : Params) : P.slot P.p = P.runSlot 1 := by
  apply Fin.ext
  rw [runSlot_val, Nat.mod_add_mod, Nat.sub_add_cancel P.p_pos]
  exact P.and_htlen _

/-- Probing from a slot of the run stays on the run. -/
theorem next_runSlot (P : Params) (steps index : Nat) :
    P.next^[steps] (P.runSlot index) = P.runSlot (index + steps) := by
  rw [Params.runSlot, ← Function.iterate_add_apply, Nat.add_comm]
  rfl

/-- An insertion passes live slots only and takes the first other one. -/
theorem insert_cases {c : Chunkifier P} {start : Nat} {htpos : Fin P.htlen}
    (probed : probe P.next (insertTest c) P.htlen (P.runSlot start) = some htpos) :
    ∃ visit < P.htlen, htpos = P.runSlot (start + visit) ∧ c.r ≤ c.age (c.ht.get htpos) ∧
      ∀ earlier < visit, c.age (c.ht.get (P.runSlot (start + earlier))) < c.r := by
  obtain ⟨visit, bound, taken, passed⟩ := (probe_eq_some_iff _ _ _ _ _).mp probed
  rw [next_runSlot] at taken
  unfold insertTest at taken
  split at taken
  case isFalse => cases taken
  case isTrue old =>
    cases taken
    refine ⟨visit, bound, rfl, old, fun earlier before => ?_⟩
    have live := passed earlier before
    rw [next_runSlot] at live
    unfold insertTest at live
    split at live
    case isTrue => cases live
    case isFalse young => exact Nat.lt_of_not_le young

end Run

/-- The queue position of a byte count. -/
def queuePosition (k : Nat) : Fin 32 := ⟨k % 32, Nat.mod_lt _ (by decide)⟩

/-- Masking with the queue size reduces modulo it. -/
theorem queueSlot_eq (c : Chunkifier P) : c.queueSlot = queuePosition c.k := by
  apply Fin.ext
  change c.k &&& (2 ^ 5 - 1) = c.k % 32
  exact Nat.and_two_pow_sub_one_eq_mod _ 5

/-- A chunk of few distinct bytes, `t` of which were rolled into the hash value `p - 1`. -/
structure Quiet (c : Chunkifier P) (t : Nat) : Prop where
  /-- The bytes before the first rolled one are as many as no cycle may contain. -/
  count : c.k = P.mu / 4 + t
  /-- The square root fields are balanced. -/
  root : SquareRoot c
  /-- The table was filled by bytes of this chunk. -/
  table : Table c.ht c.k
  /-- The bytes of the chunk have at most two values. -/
  dull : ∀ byte ∈ c.bytes, byte = 0 ∨ byte = 1
  /-- The queue holds the modulus until `p - 1` has replaced it everywhere. -/
  queue : ∀ ahead < 32, c.b.get (queuePosition (c.k + 1 + ahead)) =
    if t + ahead < 32 then P.p else P.p - 1
  /-- The filled slots are without gaps from the start of the run, which is one slot later
  while the queue still holds the modulus. -/
  chain : ∀ index, (if t ≤ 32 then 1 else 0) ≤ index → index + 1 < P.htlen →
    Touched c.ht (P.runSlot (index + 1)) → Touched c.ht (P.runSlot index)
  /-- At first every byte fills at most one more slot. -/
  few : t ≤ 33 → (touchedSlots c.ht).card ≤ t
  /-- Then a slot is added only when all filled ones are live. -/
  live : 33 ≤ t → (touchedSlots c.ht).card ≤ max 33 (c.r + 1)
  /-- The latest insertions are still in the table. -/
  recent : ∀ k, P.mu / 4 + 33 ≤ k → k ≤ c.k → c.k ≤ k + c.r → ∃ slot, (c.ht.get slot).1 = k

/-- Gaplessness reaches back to every slot of the run. -/
theorem touched_of_touched_later {ht : Vector (Nat × Nat) P.htlen}
    (chain : ∀ index, index + 1 < P.htlen → Touched ht (P.runSlot (index + 1)) →
      Touched ht (P.runSlot index)) (index later : Nat) (bound : index + later < P.htlen)
    (touched : Touched ht (P.runSlot (index + later))) : Touched ht (P.runSlot index) := by
  induction later with
  | zero => exact touched
  | succ later ih => exact ih (by omega) (chain (index + later) (by omega) touched)

/-- Filling a slot touches it and leaves the others. -/
theorem touched_set {ht : Vector (Nat × Nat) P.htlen} {k value : Nat} {htpos slot : Fin P.htlen}
    (below : k ≠ P.untouched) :
    Touched (ht.set htpos (k, value) htpos.isLt) slot ↔ htpos = slot ∨ Touched ht slot := by
  unfold Touched
  rw [get_set]
  by_cases here : htpos = slot
  · simp [here, below]
  · simp [here]

/-- A quiet chunk after another byte was stored and rolled, before the table is searched. -/
structure Rolled (before c : Chunkifier P) : Prop where
  /-- One more byte is counted. -/
  count : c.k = before.k + 1
  /-- Storing and rolling leave the table alone. -/
  ht : c.ht = before.ht
  /-- Storing and rolling leave the queue alone. -/
  b : c.b = before.b
  /-- The square root fields are balanced. -/
  root : SquareRoot c
  /-- The square root does not fall. -/
  rises : before.r ≤ c.r
  /-- The square root rises slowly. -/
  slow : 2 ≤ before.r → c.r ≤ before.r + 1
  /-- Cycles are already looked for. -/
  searched : 0 < c.r
  /-- The chunk fits its buffer. -/
  room : c.k ≤ P.blen
  /-- The byte count has not reached the mark of untouched slots. -/
  below : c.k < P.untouched
  /-- The hash value is one below the modulus. -/
  value : c.yka = P.p - 1
  /-- The bytes of the chunk have at most two values. -/
  dull : ∀ byte ∈ c.bytes, byte = 0 ∨ byte = 1

section Step

variable {before c : Chunkifier P} {t : Nat}

/-- The table before the search, seen from the rolled chunkifier. -/
theorem Rolled.table (rolled : Rolled before c) (quiet : Quiet before t) :
    Table c.ht (c.k - 1) := by
  rw [rolled.ht, rolled.count, Nat.add_sub_cancel]
  exact quiet.table

/-- The byte count is a table size below the word size. -/
theorem Rolled.low (rolled : Rolled before c) : c.k + P.htlen ≤ 4294967296 := by
  have below := rolled.below
  rw [P.untouched_eq] at below
  omega

/-- A live slot was filled in this chunk. -/
theorem Rolled.touched (rolled : Rolled before c) (quiet : Quiet before t) {slot : Fin P.htlen}
    (young : c.age (c.ht.get slot) < 2 * c.r) :
    Touched c.ht slot ∧ (c.ht.get slot).1 + c.age (c.ht.get slot) + 1 = c.k :=
  age_young rolled.root rolled.room (by have := rolled.count; omega) rolled.low
    ((rolled.table quiet).filled slot) young

/-- Filling the first slot that is not live, from the start of the run or one later, leaves no
gap. -/
theorem chain_step {ht : Vector (Nat × Nat) P.htlen} {k value start visit : Nat} (lead : Nat)
    (below : k ≠ P.untouched) (order : start ≤ lead) (one : lead ≤ 1) (bound : visit < P.htlen)
    (passed : ∀ earlier < visit, Touched ht (P.runSlot (start + earlier)))
    (chain : ∀ index, lead ≤ index → index + 1 < P.htlen →
      Touched ht (P.runSlot (index + 1)) → Touched ht (P.runSlot index)) :
    ∀ index, start ≤ index → index + 1 < P.htlen →
      Touched (ht.set (P.runSlot (start + visit)) (k, value)) (P.runSlot (index + 1)) →
      Touched (ht.set (P.runSlot (start + visit)) (k, value)) (P.runSlot index) := by
  intro index from_ inside touched
  rw [touched_set below] at touched ⊢
  rcases touched with filled | old
  · right
    by_cases wrapped : start + visit < P.htlen
    · have place := runSlot_inj P wrapped inside filled
      have predecessor := passed (index - start) (by omega)
      rwa [Nat.add_sub_cancel' from_] at predecessor
    · have round : start + visit = P.htlen := by omega
      rw [round, runSlot_htlen] at filled
      have absurdity := runSlot_inj P P.htlen_pos inside filled
      omega
  · by_cases earlier : lead ≤ index
    · exact .inr (chain index earlier inside old)
    · have first : index = 0 ∧ start = 0 := by omega
      obtain ⟨rfl, rfl⟩ := first
      cases visit with
      | zero => exact .inl rfl
      | succ visit => exact .inr (passed 0 (Nat.succ_pos _))

/-- Filling a slot touches at most one more. -/
theorem card_set_le {ht : Vector (Nat × Nat) P.htlen} {k : Nat} (htpos : Fin P.htlen)
    (value : Nat) (below : k ≠ P.untouched) :
    (touchedSlots (ht.set htpos (k, value) htpos.isLt)).card ≤ (touchedSlots ht).card + 1 := by
  refine (Finset.card_le_card ?_).trans (Finset.card_insert_le htpos _)
  intro slot member
  simp only [touchedSlots, Finset.mem_filter, Finset.mem_univ, true_and, Finset.mem_insert]
    at member ⊢
  exact ((touched_set below).mp member).imp_left Eq.symm

/-- Filling a touched slot again touches no other. -/
theorem card_set_touched {ht : Vector (Nat × Nat) P.htlen} {k : Nat} {htpos : Fin P.htlen}
    (value : Nat) (below : k ≠ P.untouched) (again : Touched ht htpos) :
    (touchedSlots (ht.set htpos (k, value) htpos.isLt)).card ≤ (touchedSlots ht).card := by
  apply Finset.card_le_card
  intro slot member
  simp only [touchedSlots, Finset.mem_filter, Finset.mem_univ, true_and] at member ⊢
  rcases (touched_set below).mp member with rfl | touched
  · exact again
  · exact touched

/-- When the filled slots have no gap from the start of the run and a search from there
passes all of them, they are all live and so at most as many as the square root. -/
theorem card_touched_le (rolled : Rolled before c) (quiet : Quiet before t) (late : 33 ≤ t)
    {visit : Nat} (passed : ∀ earlier < visit, c.age (c.ht.get (P.runSlot earlier)) < c.r)
    (fresh : ¬ Touched c.ht (P.runSlot visit)) : (touchedSlots c.ht).card ≤ c.r := by
  have chain : ∀ index, index + 1 < P.htlen → Touched c.ht (P.runSlot (index + 1)) →
      Touched c.ht (P.runSlot index) := by
    intro index inside
    rw [rolled.ht]
    exact quiet.chain index (by rw [if_neg (by omega)]; exact Nat.zero_le _) inside
  have alive : ∀ slot, Touched c.ht slot → c.age (c.ht.get slot) < c.r := by
    intro slot touched
    obtain ⟨index, inside, rfl⟩ := runSlot_surj P slot
    by_cases reached : visit ≤ index
    · obtain ⟨later, rfl⟩ := Nat.exists_eq_add_of_le reached
      exact absurd (touched_of_touched_later chain visit later inside touched) fresh
    · exact passed index (by omega)
  apply card_le_of_distinct_ages (Touched c.ht) (fun slot => c.age (c.ht.get slot)) alive
  intro left right leftTouched rightTouched same
  obtain ⟨_, leftAge⟩ := rolled.touched quiet
    (show c.age (c.ht.get left) < 2 * c.r by have := alive left leftTouched; omega)
  obtain ⟨_, rightAge⟩ := rolled.touched quiet
    (show c.age (c.ht.get right) < 2 * c.r by have := alive right rightTouched; omega)
  exact (rolled.table quiet).distinct left right leftTouched (by omega)

/-- After the search the queue holds the hash value in the position of the byte. -/
theorem queue_step (rolled : Rolled before c) (quiet : Quiet before t) (ahead : Nat)
    (bound : ahead < 32) :
    (c.b.set c.queueSlot (P.p - 1)).get (queuePosition (c.k + 1 + ahead)) =
      if t + 1 + ahead < 32 then P.p else P.p - 1 := by
  rw [get_set, queueSlot_eq]
  by_cases last : ahead = 31
  · subst last
    have around : queuePosition c.k = queuePosition (c.k + 1 + 31) :=
      Fin.ext (Nat.add_mod_right c.k 32).symm
    rw [if_pos around, if_neg (by omega)]
  · have apart : queuePosition c.k ≠ queuePosition (c.k + 1 + ahead) := by
      intro same
      have values : c.k % 32 = (c.k + 1 + ahead) % 32 := congrArg Fin.val same
      omega
    have old := quiet.queue (ahead + 1) (by omega)
    rw [if_neg apart, rolled.b]
    rw [rolled.count, show before.k + 1 + 1 + ahead = before.k + 1 + (ahead + 1) by ring, old]
    simp only [show t + 1 + ahead = t + (ahead + 1) by ring]

/-- The queued value that is inserted next, and where its search starts. -/
theorem queue_head (rolled : Rolled before c) (quiet : Quiet before t) :
    P.slot (c.b.get c.queueSlot) = P.runSlot (if t + 1 ≤ 32 then 1 else 0) := by
  have head := quiet.queue 0 (by decide)
  rw [queueSlot_eq, rolled.b, rolled.count]
  rw [Nat.add_zero] at head
  rw [head]
  by_cases early : t + 1 ≤ 32
  · rw [if_pos (by omega), if_pos early, slot_modulus]
  · rw [if_neg (by omega), if_neg early]
    rfl

/-- The insertion of a quiet chunk keeps the latest insertions. -/
theorem recent_step (rolled : Rolled before c) (quiet : Quiet before t)
    {htpos : Fin P.htlen} {value : Nat} (old : c.r ≤ c.age (c.ht.get htpos)) (k : Nat)
    (first : P.mu / 4 + 33 ≤ k) (bound : k ≤ c.k) (near : c.k ≤ k + c.r) :
    ∃ slot, ((c.ht.set htpos (c.k, value)).get slot).1 = k := by
  have count := rolled.count
  by_cases now : k = c.k
  · exact ⟨htpos, by rw [get_set, if_pos rfl]; exact now.symm⟩
  · have two : 2 ≤ before.r := by
      have balance := quiet.root.balance
      have positive := quiet.root.positive
      have place := quiet.count
      by_contra one
      have square : before.r ^ 2 ≤ 1 ^ 2 := Nat.pow_le_pow_left (by omega) 2
      omega
    have slow := rolled.slow two
    obtain ⟨slot, filled⟩ := quiet.recent k first (by omega) (by omega)
    rw [← rolled.ht] at filled
    refine ⟨slot, ?_⟩
    rw [get_set, if_neg, filled]
    rintro rfl
    have age : c.age (c.ht.get htpos) = c.k - k - 1 := by
      have size := P.htlen_pos
      have low := rolled.low
      rw [← filled]
      exact age_eq (by omega) (by rw [filled]; omega)
    omega

/-- Searching the table of a quiet chunk ends, finds no cycle and leaves the chunk quiet. -/
theorem searchAndQueue_quiet (rolled : Rolled before c) (quiet : Quiet before t) :
    ∃ out, searchAndQueue c = .ok (out, false) ∧ Quiet out (t + 1) ∧ out.yka = P.p - 1 := by
  have count := rolled.count
  have below : c.k ≠ P.untouched := Nat.ne_of_lt rolled.below
  obtain ⟨out, ended, search, kept⟩ := searchAndQueue_ok rolled.root rolled.room
    (by omega) rolled.low (rolled.table quiet)
  rcases searchAndQueue_cases search with ⟨found, _⟩ | ⟨_, rfl, htpos, probed, rfl⟩
  · exact absurd found (lookup_dull rolled.dull)
  rw [queue_head rolled quiet] at probed
  obtain ⟨visit, bound, rfl, old, passed⟩ := insert_cases probed
  generalize start : (if t + 1 ≤ 32 then 1 else 0) = first at passed probed old search kept ⊢
  generalize queued : c.b.get c.queueSlot = value at search kept ⊢
  have live : ∀ earlier < visit, Touched c.ht (P.runSlot (first + earlier)) := by
    intro earlier before
    have young := passed earlier before
    exact (rolled.touched quiet (by omega)).1
  refine ⟨_, search, ⟨?_, ?_, kept, rolled.dull, ?_, ?_, ?_, ?_, ?_⟩, rolled.value⟩
  · have place := quiet.count
    change c.k = P.mu / 4 + (t + 1)
    omega
  · exact ⟨rolled.root.balance, rolled.root.positive, rolled.root.above⟩
  · intro ahead inside
    have next := queue_step rolled quiet ahead inside
    rw [← rolled.value] at next
    rw [rolled.value] at next ⊢
    exact next
  · rw [start]
    refine chain_step (if t ≤ 32 then 1 else 0) below ?_ ?_ bound live ?_
    · rw [← start]
      split <;> split <;> omega
    · split <;> omega
    · rw [rolled.ht]
      exact quiet.chain
  · intro early
    have few := quiet.few (by omega)
    rw [← rolled.ht] at few
    exact (card_set_le _ value below).trans (by omega)
  · intro late
    change _ ≤ max 33 (c.r + 1)
    by_cases turning : t = 32
    · have few := quiet.few (by omega)
      rw [← rolled.ht] at few
      exact (card_set_le _ value below).trans (by omega)
    · have bound' := quiet.live (by omega)
      rw [← rolled.ht] at bound'
      by_cases again : Touched c.ht (P.runSlot (first + visit))
      · have rises := rolled.rises
        exact (card_set_touched value below again).trans (bound'.trans (by omega))
      · rw [if_neg (by omega)] at start
        subst start
        simp only [Nat.zero_add] at passed again ⊢
        have alive := card_touched_le rolled quiet (by omega) passed again
        exact (card_set_le _ value below).trans (by omega)
  · intro k later inside near
    exact recent_step rolled quiet old k later inside near

/-- Storing and rolling one of the two bytes into a quiet chunk. -/
theorem rolled_of_store {stored : Chunkifier P} {byte : UInt8} (quiet : Quiet before t)
    (store : storeByte before byte = .ok stored) (two : byte = 0 ∨ byte = 1)
    (below : before.k + 1 < P.untouched) (value : (roll stored byte).yka = P.p - 1) :
    Rolled before (roll stored byte) := by
  obtain ⟨root, rises, slow⟩ := storeByte_squareRoot quiet.root store
  obtain ⟨room, count, appended⟩ := storeByte_bytes store
  have searched : 0 < stored.r := by
    by_contra zero
    have balance := root.balance
    have positive := root.positive
    have place := quiet.count
    have none : stored.r = 0 := by omega
    rw [none] at balance
    omega
  obtain ⟨ht, b, _, _⟩ := storeByte_frame store
  refine ⟨count, ht, b, ⟨root.balance, root.positive, root.above⟩, rises, slow,
    searched, by change stored.k ≤ P.blen; omega, by change stored.k < _; omega, value, ?_⟩
  intro other member
  change other ∈ stored.bytes at member
  rw [appended, List.mem_append, List.mem_singleton] at member
  rcases member with member | rfl
  · exact quiet.dull other member
  · exact two

/-- A quiet chunk stays quiet as long as its byte count stays below the mark of untouched
slots. -/
theorem addByte_quiet {byte : UInt8} (quiet : Quiet before t) (room : before.k + 1 < P.blen)
    (two : byte = 0 ∨ byte = 1) (below : before.k + 1 < P.untouched)
    (value : ∀ stored, storeByte before byte = .ok stored → (roll stored byte).yka = P.p - 1) :
    ∃ out, addByte before byte = .ok (out, false) ∧ Quiet out (t + 1) ∧ out.yka = P.p - 1 := by
  obtain ⟨stored, store⟩ := storeByte_ok quiet.root (by omega) byte
  have count := (storeByte_bytes store).2.1
  have rolled := rolled_of_store quiet store two below (value stored store)
  obtain ⟨out, search, next⟩ := searchAndQueue_quiet rolled quiet
  have long : stored.r ≠ 0 := Nat.ne_of_gt rolled.searched
  exact ⟨out, by rw [addByte, store, ok_bind, if_neg (by omega), if_neg long, search], next⟩

/-- Rolling a byte with coefficient zero keeps a reduced hash value. -/
theorem roll_zero {c : Chunkifier P} {byte : UInt8} (coefficient : P.cm byte = 0)
    (value : c.yka = P.p - 1) : (roll c byte).yka = P.p - 1 := by
  have limit := P.p_le
  have positive := P.p_pos
  have reduced : reduceOnce (P.p - 1) P.p = P.p - 1 := by
    rw [reduceOnce_eq limit (by omega), if_neg (by omega)]
  have small : word (P.p - 1) = P.p - 1 := by unfold word; omega
  simp [roll, coefficient, value, small, reduced]

/-- A run of bytes with coefficient zero leaves a quiet chunk quiet. -/
theorem feed_quiet (coefficient : P.cm 0 = 0) (quiet : Quiet before t)
    (value : before.yka = P.p - 1) (count : Nat) (room : before.k + count < P.blen)
    (below : before.k + count < P.untouched) :
    ∃ out, feed before (List.replicate count 0) = .ok ([], out) ∧ Quiet out (t + count) ∧
      out.yka = P.p - 1 := by
  induction count generalizing before t with
  | zero => exact ⟨before, rfl, quiet, value⟩
  | succ count ih =>
    have keeps : ∀ stored, storeByte before 0 = .ok stored → (roll stored 0).yka = P.p - 1 := by
      intro stored store
      exact roll_zero coefficient ((storeByte_frame store).2.2.1.trans value)
    obtain ⟨next, add, quietNext, valueNext⟩ :=
      addByte_quiet quiet (by omega) (.inl rfl) (by omega) keeps
    have counted := (addByte_bytes add).2.1
    obtain ⟨out, fed, quietOut, valueOut⟩ := ih quietNext valueNext (by omega) (by omega)
    refine ⟨out, ?_, ?_, valueOut⟩
    · rw [List.replicate_succ, feed_cons, add]
      exact fed
    · rw [show t + (count + 1) = t + 1 + count by ring]
      exact quietOut

end Step

section LeadIn

/-- A chunk of zero bytes too short for any cycle. -/
structure LeadIn (c : Chunkifier P) : Prop where
  /-- The square root fields are balanced. -/
  root : SquareRoot c
  /-- The bytes of the chunk have at most two values. -/
  dull : ∀ byte ∈ c.bytes, byte = 0 ∨ byte = 1
  /-- The table is untouched. -/
  ht : c.ht = Vector.replicate P.htlen (sub32 0 P.htlen, sub32 0 P.htlen)
  /-- The queue holds the modulus. -/
  b : c.b = Vector.replicate 32 P.p
  /-- The hash value is zero. -/
  yka : c.yka = 0
  /-- The power is the first one. -/
  akr : c.akr = sub32 0 P.p % P.p

/-- A started chunk is one. -/
theorem chunkifyStart_leadIn (buf : Vector UInt8 P.blen) : LeadIn (chunkifyStart P buf) :=
  ⟨chunkifyStart_squareRoot buf, by simp, rfl, rfl, rfl, rfl⟩

/-- Zero bytes that are too few for any cycle are only stored. -/
theorem feed_leadIn {c : Chunkifier P} (lead : LeadIn c) (count : Nat)
    (short : 4 * (c.k + count) ≤ P.mu) :
    ∃ out, feed c (List.replicate count 0) = .ok ([], out) ∧ out.k = c.k + count ∧
      LeadIn out := by
  induction count generalizing c with
  | zero => exact ⟨c, rfl, rfl, lead⟩
  | succ count ih =>
    have limit := P.mu_lt_blen
    obtain ⟨stored, store⟩ := storeByte_ok lead.root (by omega) 0
    obtain ⟨_, counted, appended⟩ := storeByte_bytes store
    have root := (storeByte_squareRoot lead.root store).1
    have still : stored.r = 0 := by
      by_contra moved
      have above := root.above (Nat.pos_of_ne_zero moved)
      omega
    have kept : LeadIn stored := by
      obtain ⟨ht, b, yka, akr⟩ := storeByte_frame store
      refine ⟨root, ?_, ht.trans lead.ht, b.trans lead.b, yka.trans lead.yka,
        akr.trans lead.akr⟩
      intro byte member
      rw [appended, List.mem_append, List.mem_singleton] at member
      exact member.elim (lead.dull byte) Or.inl
    have add : addByte c 0 = .ok (stored, false) := by
      rw [addByte, store, ok_bind, if_neg (by omega), if_pos still]
      rfl
    obtain ⟨out, fed, place, leadOut⟩ := ih kept (by omega)
    refine ⟨out, ?_, by omega, leadOut⟩
    rw [List.replicate_succ, feed_cons, add]
    exact fed

/-- When the next byte is rolled, the chunk is quiet with nothing rolled yet. -/
theorem LeadIn.quiet {c : Chunkifier P} (lead : LeadIn c) (place : c.k = P.mu / 4) :
    Quiet c 0 := by
  have untouched : ∀ slot, ¬ Touched c.ht slot := by
    intro slot touched
    rw [lead.ht] at touched
    exact touched (congrArg Prod.fst (Vector.getElem_replicate slot.isLt))
  have empty : touchedSlots c.ht = ∅ := by
    rw [touchedSlots, Finset.filter_eq_empty_iff]
    exact fun slot _ => untouched slot
  refine ⟨place, lead.root, ?_, lead.dull, ?_, ?_, ?_, ?_, ?_⟩
  · rw [lead.ht]
    exact (chunkifyStart_table c.buf).mono (Nat.zero_le _)
  · intro ahead bound
    rw [lead.b, if_pos (by omega)]
    exact Vector.getElem_replicate _
  · exact fun index _ _ touched => absurd touched (untouched _)
  · intro _
    rw [empty]
    exact Nat.zero_le _
  · exact fun late => absurd late (by decide)
  · intro k later bound
    omega

/-- Rolling the byte whose coefficient is `p - 1` first makes the hash value `p - 1`. -/
theorem LeadIn.roll_one {c stored : Chunkifier P} (lead : LeadIn c)
    (coefficient : (P.cm 1).toNat = P.p - 1) (store : storeByte c 1 = .ok stored) :
    (roll stored 1).yka = P.p - 1 := by
  obtain ⟨_, _, yka, akr⟩ := storeByte_frame store
  simp only [roll, yka, akr, lead.yka, lead.akr, coefficient]
  exact first_value P

end LeadIn

section Hang

variable {c : Chunkifier P} {t : Nat}

/-- Far into a quiet chunk every filled slot is recent. -/
theorem quiet_recent (quiet : Quiet c t) (far : c.r + P.mu / 4 + 33 ≤ c.k) (wide : 32 ≤ c.r)
    (late : 33 ≤ t) (below : c.k < P.untouched) (slot : Fin P.htlen)
    (touched : Touched c.ht slot) : c.k ≤ (c.ht.get slot).1 + c.r := by
  have injective : Set.InjOn (fun slot => (c.ht.get slot).1) (touchedSlots c.ht) := by
    intro left member right _ same
    simp only [touchedSlots, Finset.coe_filter, Finset.mem_univ, true_and, Set.mem_ofPred_eq]
      at member
    exact quiet.table.distinct left right member same
  have covered : Finset.Icc (c.k - c.r) c.k ⊆
      (touchedSlots c.ht).image (fun slot => (c.ht.get slot).1) := by
    intro k member
    rw [Finset.mem_Icc] at member
    obtain ⟨slot, filled⟩ := quiet.recent k (by omega) member.2 (by omega)
    refine Finset.mem_image.mpr ⟨slot, ?_, filled⟩
    simp only [touchedSlots, Finset.mem_filter, Finset.mem_univ, true_and, Touched, filled]
    omega
  have counted : ((touchedSlots c.ht).image (fun slot => (c.ht.get slot).1)).card ≤
      (Finset.Icc (c.k - c.r) c.k).card := by
    rw [Finset.card_image_of_injOn injective, Nat.card_Icc]
    have bound := quiet.live late
    omega
  have exactly := Finset.eq_of_subset_of_card_le covered counted
  have member : (c.ht.get slot).1 ∈ Finset.Icc (c.k - c.r) c.k := by
    rw [exactly]
    refine Finset.mem_image_of_mem _ ?_
    simpa [touchedSlots] using touched
  rw [Finset.mem_Icc] at member
  omega

/-- A table in which no slot looks old and no cycle can be found is searched forever. -/
theorem lookup_diverges (dull : ∀ byte ∈ c.bytes, byte = 0 ∨ byte = 1)
    (young : ∀ slot, c.age (c.ht.get slot) < 2 * c.r) : lookup c = .error .diverges := by
  have silent : probe P.next (lookupTest c) P.htlen (P.slot c.yka) = none := by
    rw [probe_eq_none_iff]
    intro visit _
    have recent := young (P.next^[visit] (P.slot c.yka))
    simp [lookupTest, validcycle_dull dull, recent]
  rw [lookup, silent]

/-- The byte that brings the count to the mark of untouched slots is still added; afterwards
every slot looks untouched or recent. -/
theorem addByte_reach (quiet : Quiet c t) (late : 33 ≤ t) (wide : 32 ≤ c.r)
    (far : c.r + P.mu / 4 + 33 ≤ c.k) (reach : c.k + 1 = P.untouched)
    (room : P.untouched < P.blen) :
    ∃ out, addByte c 0 = .ok (out, false) ∧ SquareRoot out ∧ out.k = P.untouched ∧
      c.r ≤ out.r ∧ (∀ byte ∈ out.bytes, byte = 0 ∨ byte = 1) ∧
      ∀ slot, (out.ht.get slot).1 = P.untouched ∨
        (out.ht.get slot).1 ≤ c.k ∧ c.k ≤ (out.ht.get slot).1 + c.r := by
  obtain ⟨stored, store⟩ := storeByte_ok quiet.root (by omega) 0
  obtain ⟨_, count, appended⟩ := storeByte_bytes store
  obtain ⟨root, rises, _⟩ := storeByte_squareRoot quiet.root store
  have ht : (roll stored 0).ht = c.ht := (storeByte_frame store).1
  have place : (roll stored 0).k = c.k + 1 := count
  have mark := P.untouched_eq
  have size := P.htlen_le
  have table : Table (roll stored 0).ht ((roll stored 0).k - 1) := by
    rw [ht, place, Nat.add_sub_cancel]
    exact quiet.table
  have dull : ∀ byte ∈ (roll stored 0).bytes, byte = 0 ∨ byte = 1 := by
    intro byte member
    change byte ∈ stored.bytes at member
    rw [appended, List.mem_append, List.mem_singleton] at member
    exact member.elim (quiet.dull byte) Or.inl
  have rolledRoot : SquareRoot (roll stored 0) := ⟨root.balance, root.positive, root.above⟩
  obtain ⟨out, ended, search, _⟩ := searchAndQueue_ok rolledRoot (by omega) (by omega)
    (by omega) table
  rcases searchAndQueue_cases search with ⟨found, _⟩ | ⟨_, rfl, htpos, _, rfl⟩
  · exact absurd found (lookup_dull dull)
  have add : addByte c 0 = searchAndQueue (roll stored 0) := by
    rw [addByte, store, ok_bind, if_neg (by omega), if_neg (by omega)]
  refine ⟨_, add.trans search,
    ⟨root.balance, root.positive, root.above⟩, place.trans reach, rises, dull, ?_⟩
  · intro slot
    simp only [get_set]
    split
    · exact .inl (place.trans reach)
    · rw [ht]
      by_cases touched : Touched c.ht slot
      · have recent := quiet_recent quiet far wide late (by omega) slot touched
        exact .inr ⟨((quiet.table.filled slot).resolve_left touched).2, recent⟩
      · exact .inl (not_not.mp touched)

/-- Past the mark of untouched slots the next lookup does not end. -/
theorem addByte_diverges (root : SquareRoot c) (place : c.k = P.untouched)
    (room : P.untouched + 1 < P.blen) {k r : Nat} (before : k + 1 = P.untouched) (rises : r ≤ c.r)
    (wide : 32 ≤ r) (dull : ∀ byte ∈ c.bytes, byte = 0 ∨ byte = 1)
    (recent : ∀ slot, (c.ht.get slot).1 = P.untouched ∨
      (c.ht.get slot).1 ≤ k ∧ k ≤ (c.ht.get slot).1 + r) : addByte c 0 = .error .diverges := by
  obtain ⟨stored, store⟩ := storeByte_ok root (by omega) 0
  obtain ⟨_, count, appended⟩ := storeByte_bytes store
  obtain ⟨_, rises', _⟩ := storeByte_squareRoot root store
  have word := P.blen_lt
  have young : ∀ slot, (roll stored 0).age ((roll stored 0).ht.get slot) <
      2 * (roll stored 0).r := by
    intro slot
    have same : (roll stored 0).ht = c.ht := (storeByte_frame store).1
    rw [same]
    have bound : (c.ht.get slot).1 < (roll stored 0).k := by
      change _ < stored.k
      rcases recent slot with new | ⟨high, _⟩ <;> omega
    rw [age_eq (by change stored.k < _; omega) bound]
    change stored.k - _ - 1 < 2 * stored.r
    rcases recent slot with new | ⟨_, low⟩ <;> omega
  have still : ∀ byte ∈ (roll stored 0).bytes, byte = 0 ∨ byte = 1 := by
    intro byte member
    change byte ∈ stored.bytes at member
    rw [appended, List.mem_append, List.mem_singleton] at member
    exact member.elim (dull byte) Or.inl
  have search : searchAndQueue (roll stored 0) = .error .diverges := by
    rw [searchAndQueue, lookup_diverges still young]
    rfl
  rw [addByte, store, ok_bind, if_neg (by omega), if_neg (by omega), search]

/-- The root of a long chunk is large. -/
theorem SquareRoot.wide (root : SquareRoot c) (long : P.mu + 1024 ≤ 4 * c.k) : 32 ≤ c.r := by
  have balance := root.balance
  have positive := root.positive
  by_contra narrow
  have square : c.r ^ 2 ≤ 31 ^ 2 := Nat.pow_le_pow_left (by omega) 2
  omega

/-- The string that is chunkified forever: zeros too few for a cycle, a one, and zeros up to
one byte past the mark of untouched slots. -/
def endlessInput (P : Params) : List UInt8 :=
  List.replicate (P.mu / 4) 0 ++ 1 :: (List.replicate (P.untouched - P.mu / 4 - 2) 0 ++ [0, 0])

/-- If chunks may be long enough for the ages of untouched slots to wrap, the string is
chunkified forever for coefficients that keep the hash value one below the modulus. -/
theorem feed_endlessInput (long : 4294967298 ≤ P.blen + P.htlen) (zero : P.cm 0 = 0)
    (one : (P.cm 1).toNat = P.p - 1) (buf : Vector UInt8 P.blen) :
    feed (chunkifyStart P buf) (endlessInput P) = .error .diverges := by
  have mark := P.untouched_eq
  have size := P.htlen_le
  have mean := P.mu_le
  obtain ⟨start, fedStart, placeStart, lead⟩ :=
    feed_leadIn (chunkifyStart_leadIn buf) (P.mu / 4) (by simp only [chunkifyStart]; omega)
  have placed : start.k = P.mu / 4 := by rw [placeStart]; simp [chunkifyStart]
  obtain ⟨first, addFirst, quietFirst, valueFirst⟩ := addByte_quiet (lead.quiet placed)
    (by omega) (.inr rfl) (by omega) (fun stored store => lead.roll_one one store)
  have counted := (addByte_bytes addFirst).2.1
  obtain ⟨far, fedFar, quietFar, _⟩ := feed_quiet zero quietFirst valueFirst
    (P.untouched - P.mu / 4 - 2) (by omega) (by omega)
  have placeFar := quietFar.count
  have wide := quietFar.root.wide (by omega)
  have narrow := quietFar.root.small (by omega)
  obtain ⟨reached, addReached, rootReached, placeReached, rises, dull, recent⟩ :=
    addByte_reach quietFar (by omega) wide (by omega) (by omega) (by omega)
  have hang : addByte reached 0 = .error .diverges :=
    addByte_diverges rootReached placeReached (by omega) (show far.k + 1 = _ by omega) rises wide
      dull recent
  simp only [endlessInput, feed_append, fedStart, ok_bind, feed_cons, addFirst,
    Bool.false_eq_true, if_false, fedFar, addReached, hang, error_bind]

end Hang

end Tarsnap.Chunkify
