import Tarsnap.Datastruct.CriticalBit

/-!
# Patricia trees are finite maps

The entries of a tree are its keys and records in the order of a traversal. In a well-shaped tree
the keys below the left child of a node have the critical bit clear and those below the right
child have it set, so at most one way down can lead to a key. An insertion keeps this, whatever
allocations fail, and adds its entry or none.
-/

namespace Tarsnap.Datastruct

section Entries

variable {ρ : Type}

/-- Put bytes in front of the keys of some entries. -/
def prepend (s : List UInt8) (entries : List (List UInt8 × ρ)) : List (List UInt8 × ρ) :=
  entries.map fun entry => (s ++ entry.1, entry.2)

/-- The entry of a node itself. -/
def own (d : NodeData) (record : Option ρ) : List (List UInt8 × ρ) :=
  if d.mask = 0 then (record.map fun rec => ([], rec)).toList else []

/-- The entries of a tree, with keys from its top on. -/
def Pnode.entries : Pnode ρ → List (List UInt8 × ρ)
  | null => []
  | node d record left right => prepend d.s (own d record ++ left.entries ++ right.entries)

/-- A key leads to one side of a node. The key starts after the bytes of the node. -/
def Turns (d : NodeData) (side : Bool) : List UInt8 → Prop
  | [] => False
  | b :: _ =>
    if d.mask = 0 then side = true
    else (d.high ^^^ b) &&& topBits d.mask = 0 ∧ (b &&& d.mask ≠ 0 ↔ side = true)

/-- A key ends at a node or leads to one of its sides. -/
def Extends (d : NodeData) (key : List UInt8) : Prop :=
  d.mask = 0 ∧ key = [] ∨ ∃ side, Turns d side key

/-- The children of each node hold keys that lead to them. -/
def Pnode.Shaped : Pnode ρ → Prop
  | null => True
  | node d _ left right =>
    d.slen < 256 ∧ (d.mask = 0 ∨ d.mask ∈ criticalBits) ∧ left.Shaped ∧ right.Shaped ∧
      (∀ entry ∈ left.entries, Turns d false entry.1) ∧
      ∀ entry ∈ right.entries, Turns d true entry.1

/-- The number of bytes on the longest way down. -/
def Pnode.reach : Pnode ρ → Nat
  | null => 0
  | node d _ left right => d.slen + max left.reach right.reach

/-- A member of the entries below some bytes. -/
theorem mem_prepend {s key : List UInt8} {record : ρ} {entries : List (List UInt8 × ρ)} :
    (key, record) ∈ prepend s entries ↔ ∃ rest, key = s ++ rest ∧ (rest, record) ∈ entries := by
  rw [prepend, List.mem_map]
  constructor
  · rintro ⟨entry, member, same⟩
    obtain ⟨rfl, rfl⟩ := Prod.mk.inj same
    exact ⟨entry.1, rfl, member⟩
  · rintro ⟨rest, rfl, member⟩
    exact ⟨_, member, rfl⟩

/-- A key that starts with the bytes. -/
theorem append_mem_prepend {s rest : List UInt8} {record : ρ}
    {entries : List (List UInt8 × ρ)} :
    (s ++ rest, record) ∈ prepend s entries ↔ (rest, record) ∈ entries := by
  rw [mem_prepend]
  constructor
  · rintro ⟨other, same, member⟩
    rw [List.append_cancel_left same]
    exact member
  · intro member
    exact ⟨rest, rfl, member⟩

/-- Bytes in front of bytes. -/
theorem prepend_prepend (s rest : List UInt8) (entries : List (List UInt8 × ρ)) :
    prepend s (prepend rest entries) = prepend (s ++ rest) entries := by
  simp only [prepend, List.map_map, Function.comp_def, List.append_assoc]

/-- The entry of a node has the key that ends there. -/
theorem mem_own {d : NodeData} {record : Option ρ} {key : List UInt8} {rec : ρ} :
    (key, rec) ∈ own d record ↔ d.mask = 0 ∧ key = [] ∧ record = some rec := by
  unfold own
  by_cases last : d.mask = 0
  · rw [if_pos last]
    cases record with
    | none => simp
    | some found => simp [last, eq_comm]
  · rw [if_neg last]
    simp [last]

/-- If the key ends or goes on at a node, a key that goes on leads to the right. -/
theorem turns_last {d : NodeData} (last : d.mask = 0) {side : Bool} {b : UInt8}
    {rest : List UInt8} : Turns d side (b :: rest) ↔ side = true := by
  change (if d.mask = 0 then _ else _) ↔ _
  rw [if_pos last]

/-- At any other node the critical bit decides. -/
theorem turns_critical {d : NodeData} (inside : d.mask ≠ 0) {side : Bool} {b : UInt8}
    {rest : List UInt8} : Turns d side (b :: rest) ↔
      (d.high ^^^ b) &&& topBits d.mask = 0 ∧ (b &&& d.mask ≠ 0 ↔ side = true) := by
  change (if d.mask = 0 then _ else _) ↔ _
  rw [if_neg inside]

/-- No key leads to both sides. -/
theorem Turns.unique {d : NodeData} {side other : Bool} {key : List UInt8}
    (one : Turns d side key) (two : Turns d other key) : side = other := by
  cases key with
  | nil => exact one.elim
  | cons b rest =>
    by_cases last : d.mask = 0
    · rw [turns_last last] at one two
      rw [one, two]
    · rw [turns_critical last] at one two
      exact Bool.eq_iff_iff.mpr (one.2.symm.trans two.2)

/-- If the key ends or goes on at a node, nothing leads to the left. -/
theorem Turns.last {d : NodeData} (last : d.mask = 0) {side : Bool} {key : List UInt8}
    (turns : Turns d side key) : side = true := by
  cases key with
  | nil => exact turns.elim
  | cons b rest => exact (turns_last last).mp turns

/-- A key that leads to a side has a byte there. -/
theorem Turns.ne_nil {d : NodeData} {side : Bool} {key : List UInt8} (turns : Turns d side key) :
    key ≠ [] := by
  cases key with
  | nil => exact turns.elim
  | cons b rest => exact List.cons_ne_nil _ _

/-- The keys below a node extend it. -/
theorem Pnode.Shaped.extends {d : NodeData} {record : Option ρ} {left right : Pnode ρ}
    (shaped : (Pnode.node d record left right).Shaped) {entry : List UInt8 × ρ}
    (member : entry ∈ own d record ++ left.entries ++ right.entries) : Extends d entry.1 := by
  obtain ⟨_, _, _, _, onLeft, onRight⟩ := shaped
  rcases List.mem_append.mp member with member | member
  · rcases List.mem_append.mp member with member | member
    · have here := mem_own.mp member
      exact .inl ⟨here.1, here.2.1⟩
    · exact .inr ⟨false, onLeft entry member⟩
  · exact .inr ⟨true, onRight entry member⟩

end Entries

section Compare

/-- If there is no mismatch then the key extends the node. -/
theorem compareFrom_none {mask high : UInt8} {s key : List UInt8} {i : Nat}
    (agrees : compareFrom mask high s key i = none) :
    ∃ rest, key = s ++ rest ∧ Extends ⟨mask, high, s⟩ rest := by
  induction s generalizing key i with
  | nil =>
    refine ⟨key, rfl, ?_⟩
    unfold compareFrom at agrees
    by_cases last : mask = 0
    · cases key with
      | nil => exact .inl ⟨last, rfl⟩
      | cons b rest => exact .inr ⟨true, (turns_last last).mpr rfl⟩
    · rw [if_neg last] at agrees
      cases key with
      | nil => exact nomatch agrees
      | cons b rest =>
        simp only at agrees
        by_cases equal : (high ^^^ b) &&& topBits mask = 0
        · refine .inr ⟨decide (b &&& mask ≠ 0), ?_⟩
          exact (turns_critical last).mpr ⟨equal, decide_eq_true_iff.symm⟩
        · rw [if_neg equal] at agrees
          exact nomatch agrees
  | cons c s ih =>
    cases key with
    | nil => exact nomatch agrees
    | cons b key =>
      unfold compareFrom at agrees
      simp only at agrees
      by_cases equal : c ^^^ b = 0
      · rw [if_pos equal] at agrees
        obtain ⟨rest, same, extending⟩ := ih agrees
        refine ⟨rest, ?_, extending⟩
        rw [UInt8.xor_eq_zero_iff.mp equal, same]
        rfl
      · rw [if_neg equal] at agrees
        exact nomatch agrees

/-- There is no mismatch with a key that extends the node. -/
theorem compareFrom_append {mask high : UInt8} {s rest t : List UInt8}
    (extending : Extends ⟨mask, high, t⟩ rest) (i : Nat) :
    compareFrom mask high s (s ++ rest) i = none := by
  induction s generalizing i with
  | nil =>
    unfold compareFrom
    by_cases last : mask = 0
    · rw [if_pos last]
    · rw [if_neg last]
      rcases extending with ended | ⟨side, turns⟩
      · exact absurd ended.1 last
      · cases rest with
        | nil => exact turns.elim
        | cons b rest =>
          simp only [List.nil_append]
          rw [if_pos ((turns_critical last).mp turns).1]
  | cons c s ih =>
    rw [List.cons_append]
    unfold compareFrom
    simp only [UInt8.xor_self, if_pos, ih]

/-- Where a key leaves a node: `j` bytes match, and then either the key ends while the keys below
the node go on, or the next byte differs from theirs first in the critical bit `m`. -/
def Parts (mask high : UInt8) (s key : List UInt8) (j : Nat) (m : UInt8) : Prop :=
  m = 0 ∧ key.drop j = [] ∧ (∀ rest, Extends ⟨mask, high, s⟩ rest → s.drop j ++ rest ≠ []) ∨
    m ∈ criticalBits ∧ ∃ b tail, key.drop j = b :: tail ∧
      ∀ rest, Extends ⟨mask, high, s⟩ rest → ∃ c others, s.drop j ++ rest = c :: others ∧
        (b ^^^ c) &&& topBits m = 0 ∧ (b ^^^ c) &&& m ≠ 0

/-- The bytes of a node do not matter for what extends it. -/
theorem extends_bytes {mask high : UInt8} {s t rest : List UInt8} :
    Extends ⟨mask, high, s⟩ rest ↔ Extends ⟨mask, high, t⟩ rest := by
  cases rest with
  | nil => exact Iff.rfl
  | cons b rest => exact Iff.rfl

/-- Bytes that match are part of what matches. -/
theorem Parts.cons {mask high m : UInt8} {s key : List UInt8} {j : Nat} {c : UInt8}
    (parts : Parts mask high s key j m) : Parts mask high (c :: s) (c :: key) (j + 1) m := by
  rcases parts with ⟨zero, ended, below⟩ | ⟨critical, b, tail, here, below⟩
  · exact .inl ⟨zero, ended, fun rest extending => below rest (extends_bytes.mp extending)⟩
  · exact .inr ⟨critical, b, tail, here,
      fun rest extending => below rest (extends_bytes.mp extending)⟩

/-- A whole byte that differs. -/
theorem parts_byte {mask high c b : UInt8} {s key : List UInt8} (differs : c ^^^ b ≠ 0) :
    Parts mask high (c :: s) (b :: key) 0 (mismatchBit (c ^^^ b)) := by
  have every : (c ^^^ b) &&& 0xFF = c ^^^ b := UInt8.and_neg_one
  have found := mismatchBit_spec (List.mem_cons_self) (c ^^^ b) (by rw [every]; exact differs)
  rw [every] at found
  refine .inr ⟨found.1, b, key, rfl, ?_⟩
  intro rest _
  refine ⟨c, s ++ rest, rfl, ?_, ?_⟩
  · rw [UInt8.xor_comm]
    exact found.2.2
  · rw [UInt8.xor_comm]
    exact found.2.1

/-- High bits that differ. -/
theorem parts_high {mask high b : UInt8} {key : List UInt8} (critical : mask ∈ criticalBits)
    (differs : (high ^^^ b) &&& topBits mask ≠ 0) :
    Parts mask high [] (b :: key) 0 (mismatchBit ((high ^^^ b) &&& topBits mask)) := by
  have nonzero := criticalBit_ne_zero critical
  have top : topBits mask ∈ 0xFF :: criticalBits.map topBits :=
    List.mem_cons_of_mem _ (List.mem_map_of_mem critical)
  have found := mismatchBit_spec top (high ^^^ b) differs
  refine .inr ⟨found.1, b, key, rfl, ?_⟩
  intro rest extending
  rcases extending with ended | ⟨side, turns⟩
  · exact absurd ended.1 nonzero
  cases rest with
  | nil => exact turns.elim
  | cons c others =>
    -- The keys below the node have its high bits.
    have agree := xor_and_eq_zero.mp ((turns_critical nonzero).mp turns).1
    have same : (b ^^^ c) &&& topBits mask = (high ^^^ b) &&& topBits mask := by
      rw [xor_and, xor_and, ← agree, UInt8.xor_comm]
    have found := mismatchBit_spec top (b ^^^ c) (by rw [same]; exact differs)
    rw [same] at found
    exact ⟨c, others, rfl, found.2.2, found.2.1⟩

/-- A mismatch says where the key leaves the node. -/
theorem compareFrom_some {mask high m : UInt8} {s key : List UInt8} {i mlen : Nat}
    (bit : mask = 0 ∨ mask ∈ criticalBits)
    (differs : compareFrom mask high s key i = some (mlen, m)) :
    ∃ j, mlen = i + j ∧ j ≤ s.length ∧ key.take j = s.take j ∧ Parts mask high s key j m := by
  induction s generalizing key i with
  | nil =>
    unfold compareFrom at differs
    by_cases last : mask = 0
    · rw [if_pos last] at differs
      exact nomatch differs
    rw [if_neg last] at differs
    have critical := bit.resolve_left last
    cases key with
    | nil =>
      cases differs
      refine ⟨0, rfl, Nat.le_refl _, rfl, .inl ⟨rfl, rfl, ?_⟩⟩
      intro rest extending
      rcases extending with ended | ⟨side, turns⟩
      · exact absurd ended.1 last
      · exact turns.ne_nil
    | cons b key =>
      simp only at differs
      by_cases equal : (high ^^^ b) &&& topBits mask = 0
      · rw [if_pos equal] at differs
        exact nomatch differs
      · rw [if_neg equal] at differs
        cases differs
        exact ⟨0, rfl, Nat.le_refl _, rfl, parts_high critical equal⟩
  | cons c s ih =>
    cases key with
    | nil =>
      cases differs
      refine ⟨0, rfl, Nat.zero_le _, rfl, .inl ⟨rfl, rfl, ?_⟩⟩
      intro rest _
      exact List.cons_ne_nil _ _
    | cons b key =>
      unfold compareFrom at differs
      simp only at differs
      by_cases equal : c ^^^ b = 0
      · rw [if_pos equal] at differs
        obtain ⟨j, same, within, matching, parts⟩ := ih differs
        rw [← UInt8.xor_eq_zero_iff.mp equal]
        refine ⟨j + 1, by omega, Nat.succ_le_succ within, ?_, parts.cons⟩
        rw [List.take_succ_cons, List.take_succ_cons, matching]
      · rw [if_neg equal] at differs
        cases differs
        exact ⟨0, rfl, Nat.zero_le _, rfl, parts_byte equal⟩

variable {ρ : Type}

/-- A key with a mismatch is not below the node. -/
theorem compare_some_absent {d : NodeData} {record : Option ρ} {left right : Pnode ρ}
    {key : List UInt8} {mismatch : Nat × UInt8} (shaped : (Pnode.node d record left right).Shaped)
    (differs : compare d key = some mismatch) (found : ρ) :
    (key, found) ∉ (Pnode.node d record left right).entries := by
  intro member
  obtain ⟨rest, same, inside⟩ := mem_prepend.mp member
  have agrees := compareFrom_append (s := d.s) (shaped.extends inside) 0
  rw [← same] at agrees
  exact nomatch agrees.symm.trans differs

end Compare

section Outcome

variable {ρ : Type}

/-- What an insertion makes of the entries, with its code. -/
inductive Outcome (key : List UInt8) (rec : ρ) (malloc : Nat → Bool)
    (before : List (List UInt8 × ρ)) : Int → List (List UInt8 × ρ) → Prop where
  /-- The entry is stored. -/
  | stored {after : List (List UInt8 × ρ)} (new : ∀ found, (key, found) ∉ before)
      (joined : ∀ entry, entry ∈ after ↔ entry = (key, rec) ∨ entry ∈ before) :
      Outcome key rec malloc before 0 after
  /-- The key exists. -/
  | known {found : ρ} (present : (key, found) ∈ before) : Outcome key rec malloc before 1 before
  /-- An allocation failed. -/
  | failed {n : Nat} (new : ∀ found, (key, found) ∉ before) (fault : malloc n = false) :
      Outcome key rec malloc before (-1) before

namespace Outcome

variable {key : List UInt8} {rec : ρ} {malloc : Nat → Bool} {code : Int}
variable {before after : List (List UInt8 × ρ)}

/-- An insertion below some bytes. -/
theorem prepend (s : List UInt8) (outcome : Outcome key rec malloc before code after) :
    Outcome (s ++ key) rec malloc (prepend s before) code (Datastruct.prepend s after) := by
  cases outcome with
  | stored new joined =>
    refine .stored (fun found member => new found (append_mem_prepend.mp member)) ?_
    rintro ⟨other, found⟩
    rw [mem_prepend, mem_prepend]
    constructor
    · rintro ⟨rest, rfl, member⟩
      rcases (joined _).mp member with here | old
      · obtain ⟨rfl, rfl⟩ := Prod.mk.inj here
        exact .inl rfl
      · exact .inr ⟨rest, rfl, old⟩
    · rintro (here | ⟨rest, rfl, old⟩)
      · obtain ⟨rfl, rfl⟩ := Prod.mk.inj here
        exact ⟨key, rfl, (joined _).mpr (.inl rfl)⟩
      · exact ⟨rest, rfl, (joined _).mpr (.inr old)⟩
  | known present => exact .known (append_mem_prepend.mpr present)
  | failed new fault =>
    exact .failed (fun found member => new found (append_mem_prepend.mp member)) fault

/-- An insertion among others. -/
theorem among (outcome : Outcome key rec malloc before code after)
    (first last : List (List UInt8 × ρ))
    (notFirst : ∀ found, (key, found) ∉ first) (notLast : ∀ found, (key, found) ∉ last) :
    Outcome key rec malloc (first ++ before ++ last) code (first ++ after ++ last) := by
  cases outcome with
  | stored new joined =>
    refine .stored ?_ ?_
    · intro found member
      rcases List.mem_append.mp member with member | member
      · rcases List.mem_append.mp member with member | member
        · exact notFirst found member
        · exact new found member
      · exact notLast found member
    · intro entry
      simp only [List.mem_append, joined]
      tauto
  | known present =>
    exact .known (List.mem_append_left _ (List.mem_append_right _ present))
  | failed new fault =>
    refine .failed ?_ fault
    intro found member
    rcases List.mem_append.mp member with member | member
    · rcases List.mem_append.mp member with member | member
      · exact notFirst found member
      · exact new found member
    · exact notLast found member

end Outcome

end Outcome

section Insertions

variable {ρ : Type} {rec : ρ} {malloc : Nat → Bool}

/-- What an insertion makes of a tree, with its code. -/
structure Grown (key : List UInt8) (rec : ρ) (malloc : Nat → Bool) (t : Pnode ρ) (code : Int)
    (t' : Pnode ρ) : Prop where
  /-- The tree is well shaped. -/
  shaped : t'.Shaped
  /-- The entry is added or not. -/
  outcome : Outcome key rec malloc t.entries code t'.entries
  /-- The tree is not deeper than its keys are long. -/
  reach : t'.reach ≤ max t.reach key.length

/-- A result of an insertion. -/
def Grows (key : List UInt8) (rec : ρ) (malloc : Nat → Bool) (t : Pnode ρ)
    (result : Option (Int × Pnode ρ)) : Prop :=
  ∃ code t', result = some (code, t') ∧ Grown key rec malloc t code t'

/-- A key that goes on is not the key of the node. -/
theorem Turns.not_own {d : NodeData} {side : Bool} {key : List UInt8} (turns : Turns d side key)
    (record : Option ρ) (found : ρ) : (key, found) ∉ own d record :=
  fun member => turns.ne_nil (mem_own.mp member).2.1

/-- A key that leads to one side is not on the other side. -/
theorem Turns.not_other {d : NodeData} {side other : Bool} {key : List UInt8}
    (turns : Turns d side key) (different : side ≠ other) {entries : List (List UInt8 × ρ)}
    (turned : ∀ entry ∈ entries, Turns d other entry.1) (found : ρ) : (key, found) ∉ entries :=
  fun member => different (turns.unique (turned _ member))

/-- The entries after an insertion lead where those before it and the new one do. -/
theorem Outcome.turned {d : NodeData} {side : Bool} {key : List UInt8} {code : Int}
    {before after : List (List UInt8 × ρ)} (outcome : Outcome key rec malloc before code after)
    (turns : Turns d side key) (turned : ∀ entry ∈ before, Turns d side entry.1) :
    ∀ entry ∈ after, Turns d side entry.1 := by
  cases outcome with
  | stored new joined =>
    intro entry member
    rcases (joined entry).mp member with rfl | old
    · exact turns
    · exact turned entry old
  | known present => exact turned
  | failed new fault => exact turned

/-- An insertion to the right of a node. -/
theorem Grown.right {d : NodeData} {record : Option ρ} {left right right' : Pnode ρ}
    {rest : List UInt8} {code : Int} (shaped : (Pnode.node d record left right).Shaped)
    (turns : Turns d true rest) (grown : Grown rest rec malloc right code right') :
    Grown (d.s ++ rest) rec malloc (.node d record left right) code
      (.node d record left right') := by
  obtain ⟨fits, bit, shapedLeft, _, onLeft, onRight⟩ := shaped
  refine ⟨⟨fits, bit, shapedLeft, grown.shaped, onLeft, grown.outcome.turned turns onRight⟩, ?_, ?_⟩
  · have among := grown.outcome.among (own d record ++ left.entries) []
      (fun found member => (List.mem_append.mp member).elim (turns.not_own record found)
        (turns.not_other (by decide) onLeft found)) (fun _ => List.not_mem_nil)
    rw [List.append_nil, List.append_nil] at among
    exact among.prepend d.s
  · have reach := grown.reach
    simp only [Pnode.reach, List.length_append, NodeData.slen]
    omega

/-- An insertion to the left of a node. -/
theorem Grown.left {d : NodeData} {record : Option ρ} {left left' right : Pnode ρ}
    {rest : List UInt8} {code : Int} (shaped : (Pnode.node d record left right).Shaped)
    (turns : Turns d false rest) (grown : Grown rest rec malloc left code left') :
    Grown (d.s ++ rest) rec malloc (.node d record left right) code
      (.node d record left' right) := by
  obtain ⟨fits, bit, _, shapedRight, onLeft, onRight⟩ := shaped
  refine ⟨⟨fits, bit, grown.shaped, shapedRight, grown.outcome.turned turns onLeft, onRight⟩, ?_,
    ?_⟩
  · exact (grown.outcome.among _ _ (turns.not_own record)
      (turns.not_other (by decide) onRight)).prepend d.s
  · have reach := grown.reach
    simp only [Pnode.reach, List.length_append, NodeData.slen]
    omega

/-- The record of a node itself is stored. -/
theorem Grown.stored {d : NodeData} {left right : Pnode ρ} (last : d.mask = 0)
    (shaped : (Pnode.node d none left right).Shaped) :
    Grown (d.s ++ []) rec malloc (.node d none left right) 0 (.node d (some rec) left right) := by
  refine ⟨shaped, ?_, Nat.le_max_left _ _⟩
  obtain ⟨_, _, _, _, onLeft, onRight⟩ := shaped
  refine Outcome.prepend d.s (.stored ?_ ?_)
  · intro found member
    rcases List.mem_append.mp member with member | member
    · rcases List.mem_append.mp member with member | member
      · exact nomatch (mem_own.mp member).2.2
      · exact (onLeft _ member).ne_nil rfl
    · exact (onRight _ member).ne_nil rfl
  · intro entry
    have mine : own d (some rec) = [([], rec)] := by
      unfold own
      rw [if_pos last]
      rfl
    have nothing : own d (none : Option ρ) = [] := by
      unfold own
      rw [if_pos last]
      rfl
    rw [mine, nothing, List.append_assoc, List.append_assoc, List.singleton_append,
      List.mem_cons, List.nil_append]

/-- The record of a node itself is there. -/
theorem Grown.known {d : NodeData} {left right : Pnode ρ} (last : d.mask = 0) {found : ρ}
    (shaped : (Pnode.node d (some found) left right).Shaped) :
    Grown (d.s ++ []) rec malloc (.node d (some found) left right) 1
      (.node d (some found) left right) := by
  refine ⟨shaped, ?_, Nat.le_max_left _ _⟩
  have present : ([], found) ∈ own d (some found) := mem_own.mpr ⟨last, rfl, rfl⟩
  exact Outcome.prepend d.s (.known (List.mem_append_left _ (List.mem_append_left _ present)))

/-- A node that is a prefix of the key is passed, if the insertion in its child succeeds. -/
theorem descend_grows (next : Pnode ρ → List UInt8 → Option (Int × Pnode ρ)) {d : NodeData}
    {record : Option ρ} {left right : Pnode ρ} {rest : List UInt8}
    (shaped : (Pnode.node d record left right).Shaped) (extending : Extends d rest)
    (goesLeft : Turns d false rest → Grows rest rec malloc left (next left rest))
    (goesRight : Turns d true rest → Grows rest rec malloc right (next right rest)) :
    Grows (d.s ++ rest) rec malloc (.node d record left right)
      (descend rec next d record left right (d.s ++ rest)) := by
  unfold descend
  have stripped : (d.s ++ rest).drop d.slen = rest := List.drop_left
  simp only [stripped]
  by_cases last : d.mask = 0
  · rw [if_pos last]
    cases rest with
    | nil =>
      cases record with
      | none => exact ⟨0, _, rfl, .stored last shaped⟩
      | some found => exact ⟨1, _, rfl, .known last shaped⟩
    | cons b rest =>
      have turns : Turns d true (b :: rest) := (turns_last last).mpr rfl
      obtain ⟨code, right', result, grown⟩ := goesRight turns
      simp only [result]
      exact ⟨code, _, rfl, grown.right shaped turns⟩
  · rw [if_neg last]
    rcases extending with ended | ⟨side, turns⟩
    · exact absurd ended.1 last
    cases rest with
    | nil => exact turns.elim
    | cons b rest =>
      have bit := ((turns_critical last).mp turns).2
      simp only
      cases side with
      | true =>
        obtain ⟨code, right', result, grown⟩ := goesRight turns
        rw [if_pos (bit.mpr rfl), result]
        exact ⟨code, _, rfl, grown.right shaped turns⟩
      | false =>
        obtain ⟨code, left', result, grown⟩ := goesLeft turns
        rw [if_neg fun set => Bool.false_ne_true (bit.mp set), result]
        exact ⟨code, _, rfl, grown.left shaped turns⟩

/-- A new node holds the first bytes of the key. -/
theorem nodeAlloc_eq {slen : Nat} (fits : slen < 256) (s : List UInt8) :
    nodeAlloc slen s = ⟨0, 0, s.take slen⟩ := by
  unfold nodeAlloc
  rw [Nat.mod_eq_of_lt fits]

/-- The lower part of a split node holds the bytes that do not match. -/
theorem nodeDup_eq {d : NodeData} (fits : d.slen < 256) (j : Nat) :
    nodeDup d (d.slen - j) (d.s.drop j) = { d with s := d.s.drop j } := by
  have long : (d.s.drop j).length = d.slen - j := List.length_drop
  unfold nodeDup
  rw [Nat.mod_eq_of_lt (by omega), List.take_of_length_le (Nat.le_of_eq long)]

/-- A node without some of its first bytes. -/
def Pnode.lower (d : NodeData) (record : Option ρ) (left right : Pnode ρ) (j : Nat) : Pnode ρ :=
  .node { d with s := d.s.drop j } record left right

/-- It is well shaped. -/
theorem Pnode.lower_shaped {d : NodeData} {record : Option ρ} {left right : Pnode ρ}
    (shaped : (Pnode.node d record left right).Shaped) (j : Nat) :
    (Pnode.lower d record left right j).Shaped := by
  obtain ⟨fits, rest⟩ := shaped
  refine ⟨?_, rest⟩
  change (d.s.drop j).length < 256
  have long : (d.s.drop j).length = d.slen - j := List.length_drop
  omega

/-- With its first bytes in front, its entries are those of the node. -/
theorem Pnode.lower_entries (d : NodeData) (record : Option ρ) (left right : Pnode ρ) (j : Nat) :
    prepend (d.s.take j) (Pnode.lower d record left right j).entries =
      (Pnode.node d record left right).entries := by
  change prepend _ (prepend (d.s.drop j) _) = prepend d.s _
  rw [prepend_prepend, List.take_append_drop]
  rfl

/-- A key below the lower part is what is left of the bytes and a key that extends the node. -/
theorem Pnode.lower_extends {d : NodeData} {record : Option ρ} {left right : Pnode ρ} {j : Nat}
    (shaped : (Pnode.node d record left right).Shaped) {entry : List UInt8 × ρ}
    (member : entry ∈ (Pnode.lower d record left right j).entries) :
    ∃ rest, entry.1 = d.s.drop j ++ rest ∧ Extends d rest := by
  obtain ⟨rest, same, inside⟩ := mem_prepend.mp member
  exact ⟨rest, same, shaped.extends inside⟩

/-- The node above the parts of a split has the same length on the way down. -/
theorem Pnode.lower_reach {d : NodeData} (record : Option ρ) (left right : Pnode ρ) {j : Nat}
    (within : j ≤ d.slen) : j + (Pnode.lower d record left right j).reach =
      (Pnode.node d record left right).reach := by
  have long : (d.s.drop j).length = d.slen - j := List.length_drop
  change j + ((d.s.drop j).length + _) = d.slen + _
  omega

/-- What a split leaves: a new node above, on one side of it what was there, and on the other
side, where the key leads, nothing. -/
structure Split (d : NodeData) (record : Option ρ) (left right : Pnode ρ) (key : List UInt8)
    (upper : NodeData) (left' right' : Pnode ρ) (rest : List UInt8) : Prop where
  /-- The result is well shaped. -/
  shaped : (Pnode.node upper none left' right').Shaped
  /-- It has the same entries. -/
  entries : (Pnode.node upper none left' right').entries = (Pnode.node d record left right).entries
  /-- It is as deep as before. -/
  reach : (Pnode.node upper none left' right').reach = (Pnode.node d record left right).reach
  /-- The new node is a prefix of the key. -/
  key : key = upper.s ++ rest
  /-- The rest of the key extends it. -/
  extending : Extends upper rest
  /-- There is nothing to the left if the key leads there. -/
  notLeft : Turns upper false rest → left' = .null
  /-- There is nothing to the right if the key leads there. -/
  notRight : Turns upper true rest → right' = .null

/-- A split where the key ends. -/
theorem Split.ended {d : NodeData} {record : Option ρ} {left right : Pnode ρ} {key : List UInt8}
    {j : Nat} (shaped : (Pnode.node d record left right).Shaped) (within : j ≤ d.slen)
    (matching : key.take j = d.s.take j) (ended : key.drop j = [])
    (below : ∀ rest, Extends d rest → d.s.drop j ++ rest ≠ []) :
    Split d record left right key ⟨0, 0, key.take j⟩ .null (Pnode.lower d record left right j)
      [] := by
  have long : (key.take j).length = j := by
    rw [matching, List.length_take]
    exact Nat.min_eq_left within
  refine ⟨⟨?_, .inl rfl, trivial, Pnode.lower_shaped shaped j, fun _ member => (nomatch member),
    ?_⟩, ?_, ?_, ?_, .inl ⟨rfl, rfl⟩, fun _ => rfl, fun turns => turns.elim⟩
  · change (key.take j).length < 256
    have fits := shaped.1
    omega
  · intro entry member
    obtain ⟨rest, same, extending⟩ := Pnode.lower_extends shaped member
    rw [same]
    cases keys : d.s.drop j ++ rest with
    | nil => exact absurd keys (below rest extending)
    | cons b others => exact (turns_last rfl).mpr rfl
  · change prepend (key.take j) (Pnode.lower d record left right j).entries = _
    rw [matching]
    exact Pnode.lower_entries d record left right j
  · change (key.take j).length + max 0 _ = _
    rw [long, Nat.zero_max]
    exact Pnode.lower_reach record left right within
  · have parts := List.take_append_drop j key
    rw [ended] at parts
    exact parts.symm

/-- A split where the key goes on with another byte. -/
theorem Split.parted {d : NodeData} {record : Option ρ} {left right : Pnode ρ}
    {key tail : List UInt8} {j : Nat} {mask b : UInt8}
    (shaped : (Pnode.node d record left right).Shaped) (within : j ≤ d.slen)
    (matching : key.take j = d.s.take j) (critical : mask ∈ criticalBits)
    (parted : key.drop j = b :: tail)
    (below : ∀ rest, Extends d rest → ∃ c others, d.s.drop j ++ rest = c :: others ∧
      (b ^^^ c) &&& topBits mask = 0 ∧ (b ^^^ c) &&& mask ≠ 0) :
    Split d record left right key ⟨mask, b &&& topBits mask, key.take j⟩
      (if b &&& mask ≠ 0 then Pnode.lower d record left right j else .null)
      (if b &&& mask ≠ 0 then .null else Pnode.lower d record left right j) (b :: tail) := by
  have long : (key.take j).length = j := by
    rw [matching, List.length_take]
    exact Nat.min_eq_left within
  have short : (key.take j).length < 256 := by
    have fits := shaped.1
    omega
  have nonzero := criticalBit_ne_zero critical
  have parts := List.take_append_drop j key
  rw [parted] at parts
  have entries := Pnode.lower_entries d record left right j
  have reach := Pnode.lower_reach record left right within
  have turns (side : Bool) (bit : b &&& mask ≠ 0 ↔ side = true) :
      Turns ⟨mask, b &&& topBits mask, key.take j⟩ side (b :: tail) := by
    refine (turns_critical nonzero).mpr ⟨?_, bit⟩
    change ((b &&& topBits mask) ^^^ b) &&& topBits mask = 0
    rw [topBits_idem, UInt8.xor_self, UInt8.zero_and]
  have others (side : Bool) (bit : b &&& mask = 0 ↔ side = true) :
      ∀ entry ∈ (Pnode.lower d record left right j).entries,
        Turns ⟨mask, b &&& topBits mask, key.take j⟩ side entry.1 := by
    intro entry member
    obtain ⟨rest, same, extending⟩ := Pnode.lower_extends shaped member
    obtain ⟨c, others, keys, agree, differs⟩ := below rest extending
    rw [same, keys]
    refine (turns_critical nonzero).mpr ⟨?_, ?_⟩
    · change ((b &&& topBits mask) ^^^ c) &&& topBits mask = 0
      rw [topBits_idem]
      exact agree
    · rw [UInt8.xor_comm] at differs
      exact (criticalBit_differs critical differs).trans bit
  by_cases set : b &&& mask ≠ 0
  · have right := turns true (iff_of_true set rfl)
    rw [if_pos set, if_pos set]
    refine ⟨⟨short, .inr critical, Pnode.lower_shaped shaped j, trivial,
      others false (iff_of_false set Bool.false_ne_true), fun _ member => (nomatch member)⟩,
      ?_, ?_, parts.symm, .inr ⟨true, right⟩,
      fun left => absurd (left.unique right) Bool.false_ne_true, fun _ => rfl⟩
    · change prepend (key.take j) (own _ none ++ _ ++ []) = _
      have nothing : own (ρ := ρ) ⟨mask, b &&& topBits mask, key.take j⟩ none = [] := by
        unfold own
        exact if_neg nonzero
      rw [nothing, List.append_nil, List.nil_append, matching, entries]
    · change (key.take j).length + max _ 0 = _
      rw [long, Nat.max_zero, reach]
  · have clear : b &&& mask = 0 := Decidable.not_not.mp set
    have left := turns false (iff_of_false set Bool.false_ne_true)
    rw [if_neg set, if_neg set]
    refine ⟨⟨short, .inr critical, trivial, Pnode.lower_shaped shaped j,
      fun _ member => (nomatch member), others true (iff_of_true clear rfl)⟩,
      ?_, ?_, parts.symm, .inr ⟨false, left⟩,
      fun _ => rfl, fun right => absurd (left.unique right) Bool.false_ne_true⟩
    · change prepend (key.take j) (own _ none ++ [] ++ _) = _
      have nothing : own (ρ := ρ) ⟨mask, b &&& topBits mask, key.take j⟩ none = [] := by
        unfold own
        exact if_neg nonzero
      rw [nothing, List.nil_append, List.nil_append, matching, entries]
    · change (key.take j).length + max 0 _ = _
      rw [long, Nat.zero_max, reach]

/-- A split puts the node below a new one. -/
theorem splitNode_spec {d : NodeData} {record : Option ρ} {left right : Pnode ρ}
    {key : List UInt8} {mlen : Nat} {mask : UInt8}
    (shaped : (Pnode.node d record left right).Shaped)
    (differs : compare d key = some (mlen, mask)) :
    ∃ upper left' right' rest, splitNode d record left right key mlen mask =
        some (upper, left', right') ∧ Split d record left right key upper left' right' rest := by
  obtain ⟨j, place, within, matching, parts⟩ := compareFrom_some shaped.2.1 differs
  rw [Nat.zero_add] at place
  have fits := shaped.1
  have short : j < 256 := Nat.lt_of_le_of_lt within fits
  unfold splitNode
  rw [place, nodeDup_eq fits, nodeAlloc_eq short]
  rcases parts with ⟨zero, ended, below⟩ | ⟨critical, b, tail, parted, below⟩
  · rw [zero]
    exact ⟨_, _, _, _, rfl, .ended shaped within matching ended below⟩
  · have nonzero := criticalBit_ne_zero critical
    have byte : key[j]? = some b := by
      rw [← List.head?_drop, parted]
      rfl
    have split := Split.parted shaped within matching critical parted below
    simp only [if_neg nonzero, byte]
    by_cases set : b &&& mask ≠ 0
    · rw [if_pos set]
      rw [if_pos set, if_pos set] at split
      exact ⟨_, _, _, _, rfl, split⟩
    · rw [if_neg set]
      rw [if_neg set, if_neg set] at split
      exact ⟨_, _, _, _, rfl, split⟩

/-- An insertion at a node succeeds, if those below it do. -/
theorem insertNode_grows {next : Nat → Pnode ρ → List UInt8 → Option (Int × Pnode ρ)}
    {rounds : Nat} (grows : ∀ n t key, t.Shaped → t.depth + key.length < rounds →
      Grows key rec malloc t (next n t key)) {n : Nat} {d : NodeData} {record : Option ρ}
    {left right : Pnode ρ} {key : List UInt8} (shaped : (Pnode.node d record left right).Shaped)
    (enough : (Pnode.node d record left right).depth + key.length < rounds + 1) :
    Grows key rec malloc (.node d record left right)
      (insertNode rec malloc next n d record left right key) := by
  have deeper : (Pnode.node d record left right).depth = max left.depth right.depth + 1 := rfl
  unfold insertNode
  cases mismatch : compare d key with
  | none =>
    obtain ⟨rest, same, extending⟩ := compareFrom_none mismatch
    have long : key.length = d.s.length + rest.length := by rw [same, List.length_append]
    simp only
    rw [same]
    exact descend_grows _ shaped extending
      (fun _ => grows n left rest shaped.2.2.1 (by omega))
      (fun _ => grows n right rest shaped.2.2.2.1 (by omega))
  | some differs =>
    obtain ⟨mlen, mask⟩ := differs
    have absent := compare_some_absent shaped mismatch
    simp only
    by_cases first : malloc n = true
    · by_cases second : malloc (n + 1) = true
      · rw [if_pos first, if_pos second]
        obtain ⟨upper, left', right', rest, parts, split⟩ := splitNode_spec shaped mismatch
        have long : key.length = upper.s.length + rest.length := by
          rw [split.key, List.length_append]
        have grown : Grows key rec malloc (.node upper none left' right')
            (descend rec (next (n + 2)) upper none left' right' key) := by
          rw [split.key]
          refine descend_grows _ split.shaped split.extending ?_ ?_
          · intro turns
            rw [split.notLeft turns]
            exact grows _ .null rest trivial (by simp only [Pnode.depth]; omega)
          · intro turns
            rw [split.notRight turns]
            exact grows _ .null rest trivial (by simp only [Pnode.depth]; omega)
        simp only [parts]
        obtain ⟨code, t', result, grown⟩ := grown
        refine ⟨code, t', result, grown.shaped, ?_, ?_⟩
        · rw [← split.entries]
          exact grown.outcome
        · rw [← split.reach]
          exact grown.reach
      · rw [if_pos first, if_neg second]
        exact ⟨-1, _, rfl, shaped, .failed absent (Bool.eq_false_iff.mpr second),
          Nat.le_max_left _ _⟩
    · rw [if_neg first]
      exact ⟨-1, _, rfl, shaped, .failed absent (Bool.eq_false_iff.mpr first),
        Nat.le_max_left _ _⟩

/-- An insertion where there is no node makes one that is a prefix of the key, and passes it. -/
theorem insertNew_grows {size : NodeSize}
    {next : Nat → Pnode ρ → List UInt8 → Option (Int × Pnode ρ)} {rounds : Nat}
    (grows : ∀ n t key, t.Shaped → t.depth + key.length < rounds →
      Grows key rec malloc t (next n t key)) {n : Nat} {key : List UInt8}
    (enough : key.length < rounds + 1) :
    Grows key rec malloc .null (insertNode rec malloc next n
      (nodeAlloc (min key.length size.MAXSLEN) key) none .null .null key) := by
  have positive := size.positive
  have fits := size.fits
  obtain ⟨slen, chosen⟩ : ∃ slen, slen = min key.length size.MAXSLEN := ⟨_, rfl⟩
  rw [← chosen]
  have parts := List.take_append_drop slen key
  have long : (key.take slen).length = slen := by
    rw [List.length_take]
    omega
  have shaped : (Pnode.node ⟨0, 0, key.take slen⟩ (none : Option ρ) .null .null).Shaped := by
    refine ⟨?_, .inl rfl, trivial, trivial, fun _ member => (nomatch member),
      fun _ member => (nomatch member)⟩
    change (key.take slen).length < 256
    omega
  have extending : Extends ⟨0, 0, key.take slen⟩ (key.drop slen) := by
    cases key.drop slen with
    | nil => exact .inl ⟨rfl, rfl⟩
    | cons b rest => exact .inr ⟨true, (turns_last rfl).mpr rfl⟩
  have agrees : compare ⟨0, 0, key.take slen⟩ key = none := by
    have appended := compareFrom_append (s := key.take slen) extending 0
    rw [parts] at appended
    exact appended
  have grown : Grows key rec malloc (.node ⟨0, 0, key.take slen⟩ none .null .null)
      (descend rec (next n) ⟨0, 0, key.take slen⟩ none .null .null key) := by
    have passed : Grows (key.take slen ++ key.drop slen) rec malloc
        (.node ⟨0, 0, key.take slen⟩ none .null .null) _ :=
      descend_grows (next n) shaped extending
      (fun turns => absurd (turns.last rfl) Bool.false_ne_true)
      (fun turns => grows n .null (key.drop slen) trivial (by
        have rest : (key.drop slen).length ≠ 0 := fun zero =>
          turns.ne_nil (List.length_eq_zero_iff.mp zero)
        rw [List.length_drop] at rest ⊢
        simp only [Pnode.depth]
        omega))
    rw [parts] at passed
    exact passed
  rw [nodeAlloc_eq (by omega)]
  unfold insertNode
  rw [agrees]
  obtain ⟨code, t', result, grown⟩ := grown
  refine ⟨code, t', result, grown.shaped, grown.outcome, ?_⟩
  have reach := grown.reach
  simp only [Pnode.reach, NodeData.slen, long] at reach ⊢
  omega

/-- An insertion succeeds in enough rounds. -/
theorem insertLoop_grows (rec : ρ) (malloc : Nat → Bool) (size : NodeSize) (rounds : Nat) :
    ∀ (n : Nat) (t : Pnode ρ)
    (key : List UInt8), t.Shaped → t.depth + key.length < rounds →
      Grows key rec malloc t (insertLoop size rec malloc rounds n t key) := by
  induction rounds with
  | zero => exact fun _ _ _ _ impossible => absurd impossible (Nat.not_lt_zero _)
  | succ rounds ih =>
    intro n t key shaped enough
    cases t with
    | null =>
      unfold insertLoop
      by_cases allocated : malloc n = true
      · rw [if_pos allocated]
        exact insertNew_grows ih (by simp only [Pnode.depth] at enough; omega)
      · rw [if_neg allocated]
        exact ⟨-1, _, rfl, trivial, .failed (fun _ => List.not_mem_nil)
          (Bool.eq_false_iff.mpr allocated), Nat.le_max_left _ _⟩
    | node d record left right =>
      exact insertNode_grows ih shaped enough

end Insertions

end Tarsnap.Datastruct
