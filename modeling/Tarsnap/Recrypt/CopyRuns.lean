import Tarsnap.Recrypt.Copy
import Tarsnap.Storage.ReadTransparent

/-!
# Runs of copying blocks

Every block of the list is at each time in one place: not assigned, with a reader, or written. A
reader that is not reading has the data of its block. What is left to do gets less with every event,
so every run ends, and where it ends all the blocks are written or the program has given up.
-/

namespace Tarsnap.Recrypt

open Tarsnap.Lib

section Readers

variable {β : Type} [AddCommMonoid β]

/-- A sum over the readers, after one of them changed. -/
theorem sum_update (R : Fin NCONNS → Reader) (i : Fin NCONNS) (reader : Reader)
    (f : Fin NCONNS → Reader → β) :
    ∑ j, f j (Function.update R i reader j) + f i (R i) = ∑ j, f j (R j) + f i reader := by
  have after := Finset.add_sum_erase Finset.univ (fun j => f j (Function.update R i reader j))
    (Finset.mem_univ i)
  have before := Finset.add_sum_erase Finset.univ (fun j => f j (R j)) (Finset.mem_univ i)
  have others : ∑ j ∈ Finset.univ.erase i, f j (Function.update R i reader j) =
      ∑ j ∈ Finset.univ.erase i, f j (R j) := by
    apply Finset.sum_congr rfl
    intro j member
    rw [Function.update_of_ne (Finset.ne_of_mem_erase member)]
  simp only [Function.update_self] at after
  rw [← after, ← before, others]
  rw [add_assoc, add_comm (Finset.sum _ _) (f i (R i)), ← add_assoc, add_comm (f i reader),
    add_assoc, add_comm (f i reader), ← add_assoc]

end Readers

/-- The block of a reader, if it has one. -/
def Reader.held (reader : Reader) : Multiset Block := reader.b.elim 0 fun block => {block}

/-- The blocks of the readers. -/
def heldBlocks (R : Fin NCONNS → Reader) : Multiset Block := ∑ j, (R j).held

/-- How many turns it takes until a reader's turn comes, if it has a block. -/
def turns (i j : Fin NCONNS) (reader : Reader) : Nat := if reader.b.isSome then (j - i).val else 0

/-- The sum of these turns. -/
def totalTurns (i : Fin NCONNS) (R : Fin NCONNS → Reader) : Nat := ∑ j, turns i j (R j)

section Turns

variable {R : Fin NCONNS → Reader} {i : Fin NCONNS}

/-- There are eight readers, and each is waited for seven turns at most. -/
theorem totalTurns_le (i : Fin NCONNS) (R : Fin NCONNS → Reader) : totalTurns i R ≤ 56 := by
  have each : ∀ j ∈ (Finset.univ : Finset (Fin NCONNS)), turns i j (R j) ≤ 7 := by
    intro j _
    rw [turns]
    split
    · have small : (j - i).val < 8 := (j - i).isLt
      omega
    · exact Nat.zero_le 7
  have bound := Finset.sum_le_card_nsmul Finset.univ _ 7 each
  rw [Finset.card_univ, Fintype.card_fin] at bound
  exact bound

/-- A pass over a reader without a block brings the others nearer. -/
theorem totalTurns_next (none : (R i).b = none) :
    totalTurns (nextReader i) R + (heldBlocks R).card = totalTurns i R := by
  have nearer : ∀ i j : Fin NCONNS, j ≠ i → (j - nextReader i).val + 1 = (j - i).val := by decide
  have cards : (heldBlocks R).card = ∑ j, (R j).held.card := map_sum Multiset.cardHom _ _
  rw [cards, totalTurns, totalTurns, ← Finset.sum_add_distrib]
  apply Finset.sum_congr rfl
  intro j _
  rw [turns, turns, Reader.held]
  cases block : (R j).b with
  | none => rfl
  | some block' =>
    have apart : j ≠ i := by
      rintro rfl
      rw [none] at block
      cases block
    exact nearer i j apart

/-- The blocks of the readers after one of them took a block. -/
theorem heldBlocks_take (none : (R i).b = none) (block : Block) (reader : Reader)
    (takes : reader.b = some block) :
    heldBlocks (Function.update R i reader) = block ::ₘ heldBlocks R := by
  have sum := sum_update R i reader fun _ reader => reader.held
  have empty : (R i).held = 0 := by rw [Reader.held, none]; rfl
  have one : reader.held = {block} := by rw [Reader.held, takes]; rfl
  rw [empty, one, add_zero] at sum
  rw [heldBlocks, sum, add_comm, Multiset.singleton_add]
  rfl

/-- The blocks of the readers before one of them gave up its block. -/
theorem heldBlocks_give {block : Block} (held : (R i).b = some block) (reader : Reader)
    (gives : reader.b = none) :
    heldBlocks R = block ::ₘ heldBlocks (Function.update R i reader) := by
  have sum := sum_update R i reader fun _ reader => reader.held
  have empty : reader.held = 0 := by rw [Reader.held, gives]; rfl
  have one : (R i).held = {block} := by rw [Reader.held, held]; rfl
  rw [empty, one, add_zero] at sum
  rw [heldBlocks, ← sum, add_comm, Multiset.singleton_add]
  rfl

/-- The blocks of the readers after one of them changed but kept its block. -/
theorem heldBlocks_keep (reader : Reader) (keeps : reader.b = (R i).b) :
    heldBlocks (Function.update R i reader) = heldBlocks R := by
  apply Finset.sum_congr rfl
  intro j _
  by_cases same : j = i
  · rw [same, Function.update_self, Reader.held, Reader.held, keeps]
  · rw [Function.update_of_ne same]

/-- The turns do not change if a reader keeps its block. -/
theorem totalTurns_keep (k : Fin NCONNS) (reader : Reader) (keeps : reader.b = (R i).b) :
    totalTurns k (Function.update R i reader) = totalTurns k R := by
  apply Finset.sum_congr rfl
  intro j _
  by_cases same : j = i
  · rw [same, Function.update_self, turns, turns, keeps]
  · rw [Function.update_of_ne same]

/-- The reader whose turn it is takes no turns. -/
theorem totalTurns_self (reader : Reader) :
    totalTurns i (Function.update R i reader) = totalTurns i R := by
  apply Finset.sum_congr rfl
  intro j _
  by_cases same : j = i
  · rw [same, turns, turns]
    simp
  · rw [Function.update_of_ne same]

end Turns

section Invariant

variable (M : Machines) (blocks : List Block)

/-- What a reader is doing: if it is not reading, it has no outstanding read, and the data of its
block if it has one; otherwise one read of its block is outstanding. -/
structure Reads (s : Copying) (j : Fin NCONNS) : Prop where
  /-- A reader that is not reading. -/
  idle : (s.R j).status = true → s.reading.filter (·.1 = j) = [] ∧
    ∀ block, (s.R j).b = some block → M.contents block = some (s.R j).buf
  /-- A reader that is reading. -/
  busy : (s.R j).status = false → ∃ block, (s.R j).b = some block ∧
    s.reading.filter (·.1 = j) = [(j, block)]

/-- Every block is in one place, and each reader does what it should. -/
structure Copies (s : Copying) : Prop where
  /-- The readers. -/
  reads : s.phase ≠ .exited → ∀ j, Reads M s j
  /-- Every block is written, with a reader, or not assigned. -/
  places : (s.written.map (·.1) : Multiset Block) + heldBlocks s.R + s.blist = blocks
  /-- The blocks that are not written are left. -/
  left : s.wleft = (heldBlocks s.R).card + s.blist.length
  /-- What was written for a block. -/
  copied : ∀ block buf, (block, buf) ∈ s.written → copyOf M block = some buf
  /-- There are blocks left while the program waits or writes. -/
  more : s.phase = .wait ∨ s.phase = .write → 0 < s.wleft
  /-- A reader whose block is written is not reading. -/
  ready : s.phase = .write → (s.R s.i).status = true
  /-- A reader that is about to read has no block. -/
  free : s.phase = .read → (s.R s.i).status = true ∧ (s.R s.i).b = none
  /-- The program ends when no blocks are left. -/
  ended : s.phase = .done → s.wleft = 0
  /-- The program gives up only if a block fails. -/
  gave : s.phase = .exited → ∃ block ∈ blocks, Fails M block

/-- How much is left to do for the program. -/
def work (s : Copying) : Nat :=
  8 * (64 * (2 * s.blist.length + (heldBlocks s.R).card) + totalTurns s.i s.R) +
    match s.phase with
    | .check => if s.wleft = 0 then 1 else 3
    | .wait => 2
    | .write => 1
    | .read => if s.wleft = 0 then 2 else 0
    | .done => 0
    | .exited => 0

/-- How much is left to do. -/
def todo (s : Copying) : Nat :=
  if s.phase = .exited then 0 else 2 * work s + s.reading.length + 1

variable {M blocks} {s : Copying}

/-- Before the first block is read. -/
theorem copyStart_copies : Copies M blocks (copyStart blocks) where
  reads := fun _ j => ⟨fun _ => ⟨rfl, fun _ here => nomatch here⟩, fun busy => nomatch busy⟩
  places := by
    have none : heldBlocks (copyStart blocks).R = 0 := Finset.sum_eq_zero fun j _ => rfl
    rw [none, add_zero]
    exact zero_add _
  left := by
    have none : heldBlocks (copyStart blocks).R = 0 := Finset.sum_eq_zero fun j _ => rfl
    rw [none, Multiset.card_zero, Nat.zero_add]
    rfl
  copied := fun _ _ member => absurd member List.not_mem_nil
  more := fun waits => nomatch waits
  ready := fun writes => nomatch writes
  free := fun reads => nomatch reads
  ended := fun done => nomatch done
  gave := fun exited => nomatch exited

/-- A block with a reader is one of the blocks. -/
theorem Copies.held_mem (copies : Copies M blocks s) {j : Fin NCONNS} {block : Block}
    (held : (s.R j).b = some block) : block ∈ blocks := by
  have here : block ∈ heldBlocks s.R := by
    rw [heldBlocks_give held ⟨true, none, []⟩ rfl]
    exact Multiset.mem_cons_self _ _
  rw [← Multiset.mem_coe, ← copies.places]
  exact Multiset.mem_add.mpr (.inl (Multiset.mem_add.mpr (.inr here)))

/-- A list of which one element is taken out. -/
theorem eraseIdx_split {α : Type} {list : List α} {number : Nat} {value : α}
    (here : list[number]? = some value) :
    ∃ before after, list = before ++ value :: after ∧ list.eraseIdx number = before ++ after := by
  obtain ⟨inside, same⟩ := List.getElem?_eq_some_iff.mp here
  refine ⟨list.take number, list.drop (number + 1), ?_, List.eraseIdx_eq_take_drop_succ list number⟩
  rw [← same, List.getElem_cons_drop, List.take_append_drop]

/-- A read is completed. -/
theorem callbackRead_copies (copies : Copies M blocks s) (running : s.phase ≠ .exited)
    {number : Nat} {j : Fin NCONNS} {block : Block} (here : s.reading[number]? = some (j, block)) :
    let s' := callbackRead M { s with reading := s.reading.eraseIdx number } j block
    Copies M blocks s' ∧ todo s' < todo s := by
  obtain ⟨before, after, whole, erased⟩ := eraseIdx_split here
  obtain ⟨idle, busy⟩ := copies.reads running j
  have split : s.reading.filter (·.1 = j) =
      before.filter (·.1 = j) ++ (j, block) :: after.filter (·.1 = j) := by
    rw [whole, List.filter_append, List.filter_cons_of_pos (by simp)]
  have waiting : (s.R j).status = false := by
    by_contra status
    have empty := (idle (by simpa using status)).1
    rw [split] at empty
    exact absurd empty (List.append_ne_nil_of_right_ne_nil _ (List.cons_ne_nil _ _))
  obtain ⟨own, held, single⟩ := busy waiting
  rw [split] at single
  have count := congrArg List.length single
  rw [List.length_append, List.length_cons, List.length_singleton] at count
  have first : before.filter (·.1 = j) = [] := List.eq_nil_of_length_eq_zero (by omega)
  have last : after.filter (·.1 = j) = [] := List.eq_nil_of_length_eq_zero (by omega)
  rw [first, last] at single
  have same : block = own := congrArg Prod.snd (List.singleton_inj.mp single)
  rw [← same] at held
  have fewer : (s.reading.eraseIdx number).length + 1 = s.reading.length := by
    rw [erased, whole, List.length_append, List.length_append, List.length_cons]
    omega
  simp only [callbackRead]
  cases contents : M.contents block with
  | none =>
    have fails : Fails M block := by
      intro buf copy
      rw [copyOf, contents] at copy
      cases copy
    refine ⟨⟨fun running => absurd rfl running, copies.places, copies.left, copies.copied,
      ?_, (nomatch ·), (nomatch ·), (nomatch ·),
      fun _ => ⟨block, copies.held_mem held, fails⟩⟩, ?_⟩
    · intro waits
      rcases waits with waits | writes
      · cases waits
      · cases writes
    · rw [todo, todo, if_pos rfl, if_neg running]
      omega
  | some buf =>
    have keeps : ({ s.R j with buf, status := true } : Reader).b = (s.R j).b := rfl
    have blocksSame := heldBlocks_keep (R := s.R) _ keeps
    refine ⟨⟨?_, ?_, ?_, copies.copied, copies.more, ?_, ?_, copies.ended, copies.gave⟩, ?_⟩
    · intro _ k
      by_cases own : k = j
      · rw [own]
        refine ⟨fun _ => ⟨?_, ?_⟩, fun busy => ?_⟩
        · simp only [erased, List.filter_append, first, last, List.append_nil]
        · intro other has
          simp only [Function.update_self] at has ⊢
          have one : block = other := Option.some.inj (held.symm.trans has)
          rw [← one]
          exact contents
        · simp only [Function.update_self] at busy
          exact absurd busy (by decide)
      · have apart : ¬ j = k := fun equal => own equal.symm
        have others : (s.reading.eraseIdx number).filter (·.1 = k) =
            s.reading.filter (·.1 = k) := by
          rw [erased, whole, List.filter_append, List.filter_append,
            List.filter_cons_of_neg (by simpa using apart)]
        obtain ⟨idleOther, busyOther⟩ := copies.reads running k
        refine ⟨?_, ?_⟩
        · simp only [Function.update_of_ne own, others]
          exact idleOther
        · simp only [Function.update_of_ne own, others]
          exact busyOther
    · rw [blocksSame]
      exact copies.places
    · rw [blocksSame]
      exact copies.left
    · intro writes
      by_cases own : s.i = j
      · simp only [own, Function.update_self]
      · simp only [Function.update_of_ne own]
        exact copies.ready writes
    · intro reads
      by_cases own : s.i = j
      · have free := (copies.free reads).1
        rw [own, waiting] at free
        exact absurd free (by decide)
      · simp only [Function.update_of_ne own]
        exact copies.free reads
    · have same : work { s with
          reading := s.reading.eraseIdx number
          R := Function.update s.R j { s.R j with buf, status := true } } = work s := by
        simp only [work, blocksSame, totalTurns_keep s.i _ keeps]
      rw [todo, todo, if_neg running, if_neg running, same]
      simp only
      omega

/-- The block of the reader is written, or the program gives up. -/
theorem writeBlock_copies (copies : Copies M blocks s) (phase : s.phase = .write) :
    Copies M blocks (writeBlock M s) ∧ todo (writeBlock M s) < todo s := by
  have running : s.phase ≠ .exited := by rw [phase]; decide
  have more : 0 < s.wleft := copies.more (.inr phase)
  have ready : (s.R s.i).status = true := copies.ready phase
  have reads := copies.reads running
  have before : todo s = 2 * work s + s.reading.length + 1 := if_neg running
  cases held : (s.R s.i).b with
  | none =>
    rw [writeBlock, held]
    simp only
    refine ⟨⟨fun _ => fun j => ⟨(reads j).idle, (reads j).busy⟩, copies.places, copies.left,
      copies.copied, ?_, (nomatch ·), fun _ => ⟨ready, held⟩, (nomatch ·), (nomatch ·)⟩, ?_⟩
    · intro waits
      rcases waits with waits | writes
      · cases waits
      · cases writes
    · rw [before, todo, if_neg (nomatch ·), work, work, phase]
      simp only [if_neg (show ¬ s.wleft = 0 by omega)]
      omega
  | some block =>
    have contents : M.contents block = some (s.R s.i).buf := ((reads s.i).idle ready).2 block held
    have gives (fails : Fails M block) : Copies M blocks { s with phase := .exited } ∧
        todo { s with phase := .exited } < todo s := by
      refine ⟨⟨fun running => absurd rfl running, copies.places, copies.left, copies.copied, ?_,
        (nomatch ·), (nomatch ·), (nomatch ·), fun _ => ⟨block, copies.held_mem held, fails⟩⟩, ?_⟩
      · intro waits
        rcases waits with waits | writes
        · cases waits
        · cases writes
      · rw [before, todo, if_pos rfl]
        omega
    have copy : copyOf M block = recrypted M block (s.R s.i).buf := by
      rw [copyOf, contents, Option.bind_some]
    rw [writeBlock, held]
    simp only
    cases new : recrypted M block (s.R s.i).buf with
    | none =>
      apply gives
      intro buf copied
      rw [copy, new] at copied
      cases copied
    | some buf =>
      rw [new] at copy
      simp only
      by_cases refused : M.writes block buf = false
      · rw [if_pos refused]
        apply gives
        intro other copied
        rw [copy] at copied
        cases copied
        exact refused
      · rw [if_neg refused]
        have given := heldBlocks_give held ⟨(s.R s.i).status, none, buf⟩ rfl
        have cards := congrArg Multiset.card given
        rw [Multiset.card_cons] at cards
        refine ⟨⟨fun _ j => ?_, ?_, ?_, ?_, ?_, (nomatch ·), ?_, (nomatch ·), (nomatch ·)⟩, ?_⟩
        · by_cases own : j = s.i
          · rw [own]
            refine ⟨fun _ => ⟨((reads s.i).idle ready).1, ?_⟩, fun busy => ?_⟩
            · intro other has
              simp only [Function.update_self] at has
              cases has
            · simp only [Function.update_self, ready] at busy
              cases busy
          · refine ⟨?_, ?_⟩
            · simp only [Function.update_of_ne own]
              exact (reads j).idle
            · simp only [Function.update_of_ne own]
              exact (reads j).busy
        · have places := copies.places
          rw [given] at places
          rw [← places, List.map_append, ← Multiset.coe_add]
          simp only [List.map_cons, List.map_nil, Multiset.coe_singleton]
          rw [add_assoc (s.written.map (·.1) : Multiset Block), Multiset.singleton_add]
        · simp only
          rw [copies.left, cards]
          omega
        · intro other data member
          rcases List.mem_append.mp member with old | new
          · exact copies.copied other data old
          · cases List.mem_singleton.mp new
            exact copy
        · intro waits
          rcases waits with waits | writes
          · cases waits
          · cases writes
        · intro _
          simp only [Function.update_self]
          exact ⟨ready, trivial⟩
        · have turns : totalTurns s.i (Function.update s.R s.i ⟨(s.R s.i).status, none, buf⟩) =
              totalTurns s.i s.R := totalTurns_self _
          rw [before, todo, if_neg (nomatch ·), work, work, phase, cards, turns]
          simp only
          split <;> omega

/-- The next block is assigned to the reader, if there is one, and the turn passes on. -/
theorem readBlock_copies (copies : Copies M blocks s) (phase : s.phase = .read) :
    Copies M blocks (readBlock s) ∧ todo (readBlock s) < todo s := by
  have running : s.phase ≠ .exited := by rw [phase]; decide
  have reads := copies.reads running
  obtain ⟨ready, free⟩ := copies.free phase
  have before : todo s = 2 * work s + s.reading.length + 1 := if_neg running
  cases list : s.blist with
  | nil =>
    have places := copies.places
    have left := copies.left
    rw [list] at places left
    rw [List.length_nil, Nat.add_zero] at left
    rw [readBlock, list]
    simp only
    refine ⟨⟨fun _ j => ⟨(reads j).idle, (reads j).busy⟩, places, left, copies.copied,
      ?_, (nomatch ·), (nomatch ·), (nomatch ·), (nomatch ·)⟩, ?_⟩
    · intro waits
      rcases waits with waits | writes
      · cases waits
      · cases writes
    · have nearer := totalTurns_next free
      rw [before, todo, if_neg (nomatch ·), work, work, phase]
      simp only [list, List.length_nil]
      by_cases none : s.wleft = 0
      · rw [if_pos none, if_pos none]
        omega
      · rw [if_neg none, if_neg none]
        omega
  | cons block rest =>
    rw [readBlock, list]
    simp only
    have taken := heldBlocks_take free block ⟨false, some block, (s.R s.i).buf⟩ rfl
    have cards := congrArg Multiset.card taken
    rw [Multiset.card_cons] at cards
    refine ⟨⟨fun _ j => ?_, ?_, ?_, copies.copied, ?_, (nomatch ·), (nomatch ·), (nomatch ·),
      (nomatch ·)⟩, ?_⟩
    · by_cases own : j = s.i
      · rw [own]
        refine ⟨fun idle => ?_, fun _ => ⟨block, ?_, ?_⟩⟩
        · simp only [Function.update_self] at idle
          cases idle
        · simp only [Function.update_self]
        · simp only [List.filter_append, ((reads s.i).idle ready).1]
          simp
      · have apart : ¬ s.i = j := fun equal => own equal.symm
        have others : (s.reading ++ [(s.i, block)]).filter (·.1 = j) =
            s.reading.filter (·.1 = j) := by
          rw [List.filter_append, List.filter_cons_of_neg (by simpa using apart), List.filter_nil,
            List.append_nil]
        refine ⟨?_, ?_⟩
        · simp only [Function.update_of_ne own, others]
          exact (reads j).idle
        · simp only [Function.update_of_ne own, others]
          exact (reads j).busy
    · have places := copies.places
      rw [list] at places
      rw [taken, ← places, ← Multiset.cons_coe]
      simp only [Multiset.add_cons, Multiset.cons_add]
    · simp only
      rw [copies.left, cards, list, List.length_cons]
      omega
    · intro waits
      rcases waits with waits | writes
      · cases waits
      · cases writes
    · have bound := totalTurns_le (nextReader s.i)
        (Function.update s.R s.i ⟨false, some block, (s.R s.i).buf⟩)
      have left := copies.left
      rw [list, List.length_cons] at left
      rw [before, todo, if_neg (nomatch ·), work, work, phase, cards]
      simp only [list, List.length_cons, List.length_append, List.length_nil]
      rw [if_neg (by omega), if_neg (by omega)]
      omega

/-- The program stops if all blocks are written. -/
theorem check_copies (copies : Copies M blocks s) (phase : s.phase = .check) :
    let s' := { s with phase := if s.wleft = 0 then .done else .wait }
    Copies M blocks s' ∧ todo s' < todo s := by
  have running : s.phase ≠ .exited := by rw [phase]; decide
  have reads := copies.reads running
  have before : todo s = 2 * work s + s.reading.length + 1 := if_neg running
  by_cases none : s.wleft = 0
  · simp only [if_pos none]
    refine ⟨⟨fun _ j => ⟨(reads j).idle, (reads j).busy⟩, copies.places, copies.left,
      copies.copied, ?_, (nomatch ·), (nomatch ·), fun _ => none, (nomatch ·)⟩, ?_⟩
    · intro waits
      rcases waits with waits | writes
      · cases waits
      · cases writes
    · rw [before, todo, if_neg (nomatch ·), work, work, phase]
      simp only [if_pos none]
      omega
  · simp only [if_neg none]
    refine ⟨⟨fun _ j => ⟨(reads j).idle, (reads j).busy⟩, copies.places, copies.left,
      copies.copied, fun _ => Nat.pos_of_ne_zero none, (nomatch ·), (nomatch ·), (nomatch ·),
      (nomatch ·)⟩, ?_⟩
    rw [before, todo, if_neg (nomatch ·), work, work, phase]
    simp only [if_neg none]
    omega

/-- The reader whose turn it is has its block. -/
theorem wait_copies (copies : Copies M blocks s) (phase : s.phase = .wait)
    (ready : (s.R s.i).status = true) :
    let s' := { s with phase := .write }
    Copies M blocks s' ∧ todo s' < todo s := by
  have running : s.phase ≠ .exited := by rw [phase]; decide
  have reads := copies.reads running
  have before : todo s = 2 * work s + s.reading.length + 1 := if_neg running
  refine ⟨⟨fun _ j => ⟨(reads j).idle, (reads j).busy⟩, copies.places, copies.left,
    copies.copied, fun _ => copies.more (.inl phase), fun _ => ready, (nomatch ·), (nomatch ·),
    (nomatch ·)⟩, ?_⟩
  rw [before, todo, if_neg (nomatch ·), work, work, phase]
  simp only
  omega

/-- The program goes on. -/
theorem copyProgram_copies (copies : Copies M blocks s) {s' : Copying}
    (goes : copyProgram M s = some s') : Copies M blocks s' ∧ todo s' < todo s := by
  rw [copyProgram] at goes
  split at goes
  · rename_i phase
    cases goes
    exact check_copies copies phase
  · rename_i phase
    split at goes
    · rename_i ready
      cases goes
      exact wait_copies copies phase ready
    · cases goes
  · rename_i phase
    cases goes
    exact writeBlock_copies copies phase
  · rename_i phase
    cases goes
    exact readBlock_copies copies phase
  · cases goes
  · cases goes

/-- Every event keeps all of this, and leaves less to do. -/
theorem copyEvent_copies (copies : Copies M blocks s) {event : CopyEvent} {s' : Copying}
    (happens : copyEvent M s event = some s') : Copies M blocks s' ∧ todo s' < todo s := by
  cases event with
  | program => exact copyProgram_copies copies happens
  | completes number =>
    simp only [copyEvent] at happens
    split at happens
    · cases happens
    · rename_i running
      split at happens
      · cases happens
      · rename_i j block here
        cases happens
        exact callbackRead_copies copies running here

/-- Unless the program has ended, something can happen. -/
theorem Copies.goes (copies : Copies M blocks s) (stuck : ∀ event, copyEvent M s event = none) :
    s.phase = .done ∨ s.phase = .exited := by
  have program : copyProgram M s = none := stuck .program
  cases phase : s.phase with
  | check =>
    rw [copyProgram, phase] at program
    cases program
  | wait =>
    rw [copyProgram, phase] at program
    simp only at program
    have running : s.phase ≠ .exited := by rw [phase]; decide
    by_cases ready : (s.R s.i).status = true
    · rw [if_pos ready] at program
      cases program
    · obtain ⟨block, _, outstanding⟩ :=
        ((copies.reads running) s.i).busy (by simpa using ready)
      have member : (s.i, block) ∈ s.reading := by
        have filtered : (s.i, block) ∈ s.reading.filter (·.1 = s.i) := by
          rw [outstanding]
          exact List.mem_singleton_self _
        exact List.mem_of_mem_filter filtered
      obtain ⟨number, inside, here⟩ := List.getElem_of_mem member
      have completes := stuck (.completes number)
      rw [copyEvent, if_neg running, List.getElem?_eq_getElem inside, here] at completes
      cases completes
  | write =>
    rw [copyProgram, phase] at program
    cases program
  | read =>
    rw [copyProgram, phase] at program
    cases program
  | done => exact .inl rfl
  | exited => exact .inr rfl

/-- When the program is done, every block is written once and no read is outstanding. -/
theorem Copies.complete (copies : Copies M blocks s) (done : s.phase = .done) :
    s.reading = [] ∧ (s.written.map (·.1)).Perm blocks := by
  have left := copies.left
  rw [copies.ended done] at left
  have none : heldBlocks s.R = 0 := Multiset.card_eq_zero.mp (by omega)
  have empty : s.blist = [] := List.eq_nil_of_length_eq_zero (by omega)
  have running : s.phase ≠ .exited := by rw [done]; decide
  constructor
  · apply List.eq_nil_iff_forall_not_mem.mpr
    rintro ⟨j, block⟩ member
    have filtered : (j, block) ∈ s.reading.filter (·.1 = j) :=
      List.mem_filter.mpr ⟨member, by simp⟩
    cases status : (s.R j).status with
    | true =>
      rw [((copies.reads running) j).idle status |>.1] at filtered
      exact List.not_mem_nil filtered
    | false =>
      obtain ⟨own, held, _⟩ := ((copies.reads running) j).busy status
      rw [heldBlocks_give held ⟨true, Option.none, []⟩ rfl] at none
      exact Multiset.cons_ne_zero none
  · have places := copies.places
    rw [none, empty, add_zero, Multiset.coe_nil, add_zero] at places
    exact Multiset.coe_eq_coe.mp places

end Invariant

section Runs

variable {M : Machines}

/-- A run keeps the invariant, and every event of it took some of what was to do. -/
theorem copyEvents_copies {blocks : List Block} {events : List CopyEvent} {s s' : Copying}
    (copies : Copies M blocks s) (run : copyEvents M s events = some s') :
    Copies M blocks s' ∧ events.length + todo s' ≤ todo s := by
  induction events generalizing s with
  | nil =>
    cases run
    exact ⟨copies, Nat.le_of_eq (Nat.zero_add _)⟩
  | cons event events ih =>
    rw [copyEvents, List.foldlM_cons] at run
    obtain ⟨next, happens, rest⟩ := Option.bind_eq_some_iff.mp run
    obtain ⟨kept, less⟩ := copyEvent_copies copies happens
    obtain ⟨last, bound⟩ := ih kept rest
    rw [List.length_cons]
    exact ⟨last, by omega⟩

/-- What is read through the storage layer is a file of the server, if the server keeps its
files. -/
theorem storageContents_stored {K : Netpacket.Keys} {k : List UInt8}
    {decrypt : List UInt8 → Storage.Decrypted}
    {stored : Storage.ClassName → Option Storage.StoredFile} {reply : Block → Storage.Reply}
    (loaded : K.auth .get = some k)
    (lengths : ∀ file buf, decrypt file = .contents buf →
      buf.length + Storage.STORAGE_FILE_OVERHEAD = file.length)
    (kept : ∀ block, (reply block).statusOk = false ∨
      ∃ paid, reply block = Storage.serverReply K k paid stored ⟨block.cls, block.name, none⟩)
    {block : Block} {buf : List UInt8} (read : storageContents K decrypt reply block = some buf) :
    Storage.serverFiles decrypt stored (block.cls, block.name) = some buf := by
  apply Storage.uncached_sound loaded lengths (kept block)
  unfold storageContents at read
  split at read
  · rename_i data result
    rw [result]
    exact read
  · cases read

/-- Whatever the order in which reads are completed: a run has a bounded number of events, and it
can go on unless all blocks are written or the program has given up because of a block that cannot
be read, encrypted again or written. When it is done, each block of the list was written once, with
its own contents, encrypted again for metadata, and no read is outstanding. If blocks are read
through the storage layer from a server that keeps its files, the contents are those of its file. -/
theorem copyblocks_complete (blocks : List Block) (events : List CopyEvent) (s : Copying)
    (run : copyEvents M (copyStart blocks) events = some s) :
    events.length ≤ 2048 * blocks.length + 7 ∧
    ((∀ event, copyEvent M s event = none) → s.phase = .done ∨ s.phase = .exited) ∧
    (s.phase = .exited → ∃ block ∈ blocks, Fails M block) ∧
    (∀ block buf, (block, buf) ∈ s.written → copyOf M block = some buf) ∧
    (s.phase = .done → (s.written.map (·.1)).Perm blocks ∧ s.reading = []) ∧
    ∀ K k decrypt stored reply, K.auth .get = some k →
      (∀ file buf, decrypt file = .contents buf →
        buf.length + Storage.STORAGE_FILE_OVERHEAD = file.length) →
      (∀ block, (reply block).statusOk = false ∨
        ∃ paid, reply block = Storage.serverReply K k paid stored ⟨block.cls, block.name, none⟩) →
      M.contents = storageContents K decrypt reply → ∀ block buf, (block, buf) ∈ s.written →
        ∃ file, Storage.serverFiles decrypt stored (block.cls, block.name) = some file ∧
          recrypted M block file = some buf := by
  obtain ⟨copies, bound⟩ := copyEvents_copies copyStart_copies run
  have start : todo (copyStart blocks) ≤ 2048 * blocks.length + 7 := by
    have none : heldBlocks (copyStart blocks).R = 0 := Finset.sum_eq_zero fun j _ => rfl
    have still : totalTurns (copyStart blocks).i (copyStart blocks).R = 0 :=
      Finset.sum_eq_zero fun j _ => rfl
    have program : work (copyStart blocks) ≤ 8 * (64 * (2 * blocks.length)) + 3 := by
      rw [work, none, still]
      change 8 * (64 * (2 * blocks.length + 0) + 0) +
        (if (copyStart blocks).wleft = 0 then 1 else 3) ≤ 8 * (64 * (2 * blocks.length)) + 3
      by_cases empty : (copyStart blocks).wleft = 0
      · rw [if_pos empty]
        omega
      · rw [if_neg empty]
        omega
    rw [todo, if_neg (nomatch ·)]
    change 2 * work (copyStart blocks) + 0 + 1 ≤ 2048 * blocks.length + 7
    omega
  refine ⟨by omega, copies.goes, copies.gave, copies.copied, fun done => ?_, ?_⟩
  · obtain ⟨reading, written⟩ := copies.complete done
    exact ⟨written, reading⟩
  · intro K k decrypt stored reply loaded lengths kept storage block buf written
    obtain ⟨file, read, copied⟩ := Option.bind_eq_some_iff.mp (copies.copied block buf written)
    rw [storage] at read
    exact ⟨file, storageContents_stored loaded lengths kept read, copied⟩

/-- Machines on which every block has the bytes of its name, and nothing fails. -/
def plainMachines : Machines where
  contents block := some block.name.toList
  recrypt buf := some buf
  writes _ _ := true

/-- Two blocks are read; the read of the second one is completed first. -/
def twoReads : List CopyEvent :=
  List.replicate 8 .program ++ [.completes 1] ++ List.replicate 25 .program ++ [.completes 0] ++
    List.replicate 8 .program

/-- A chunk and a metadata file, with names of equal bytes. -/
def twoBlocks : List Block := [chunkBlock 1, ⟨109, Vector.replicate 32 2⟩]

/-- The run goes to its end. -/
theorem twoReads_done : (copyEvents plainMachines (copyStart twoBlocks) twoReads).map (·.phase) =
    some .done := by decide +kernel

/-- The two blocks are written although the second one is read first. -/
theorem copyblocks_complete_two : ∃ s,
    copyEvents plainMachines (copyStart twoBlocks) twoReads = some s ∧
      (s.written.map (·.1)).Perm twoBlocks ∧ s.reading = [] := by
  obtain ⟨s, run, done⟩ := Option.map_eq_some_iff.mp twoReads_done
  exact ⟨s, run, (copyblocks_complete twoBlocks twoReads s run).2.2.2.2.1 done⟩

end Runs

end Tarsnap.Recrypt
