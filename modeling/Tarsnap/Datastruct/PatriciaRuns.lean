import Tarsnap.Datastruct.PatriciaMap

/-!
# Sequences of insertions

After any insertions, a tree holds for each key the record that was inserted first, whatever
allocations failed on the way. A lookup finds it, and a traversal visits all of them in
lexicographical order and stays inside a buffer of the longest key length.
-/

namespace Tarsnap.Datastruct

section Lookup

variable {ρ : Type}

/-- A lookup reads no byte after the key, and finds the entry of the key. -/
theorem lookupNode_spec {t : Pnode ρ} (shaped : t.Shaped) (key : List UInt8) :
    ∃ found, lookupNode t key = some found ∧ ∀ rec, found = some rec ↔ (key, rec) ∈ t.entries := by
  induction t generalizing key with
  | null =>
    refine ⟨none, rfl, fun rec => ?_⟩
    exact iff_of_false (fun absurdity => nomatch absurdity) List.not_mem_nil
  | node d record left right ihLeft ihRight =>
    unfold lookupNode
    cases mismatch : compare d key with
    | some differs =>
      refine ⟨none, rfl, fun rec => ?_⟩
      exact iff_of_false (fun absurdity => nomatch absurdity)
        (compare_some_absent shaped mismatch rec)
    | none =>
      obtain ⟨rest, rfl, extending⟩ := compareFrom_none mismatch
      have stripped : (d.s ++ rest).drop d.slen = rest := List.drop_left
      have inside (rec : ρ) : (d.s ++ rest, rec) ∈ (Pnode.node d record left right).entries ↔
          (rest, rec) ∈ own d record ++ left.entries ++ right.entries := append_mem_prepend
      obtain ⟨_, _, shapedLeft, shapedRight, onLeft, onRight⟩ := shaped
      simp only [stripped, inside, List.mem_append]
      have goRight (turns : Turns d true rest) (rec : ρ) :
          ((rest, rec) ∈ own d record ∨ (rest, rec) ∈ left.entries) ∨
            (rest, rec) ∈ right.entries ↔ (rest, rec) ∈ right.entries := by
        have notOwn := turns.not_own record rec
        have notLeft := turns.not_other (by decide) onLeft rec
        tauto
      have goLeft (turns : Turns d false rest) (rec : ρ) :
          ((rest, rec) ∈ own d record ∨ (rest, rec) ∈ left.entries) ∨
            (rest, rec) ∈ right.entries ↔ (rest, rec) ∈ left.entries := by
        have notOwn := turns.not_own record rec
        have notRight := turns.not_other (by decide) onRight rec
        tauto
      by_cases last : d.mask = 0
      · rw [if_pos last]
        cases rest with
        | nil =>
          refine ⟨record, rfl, fun rec => ?_⟩
          have notLeft : ([], rec) ∉ left.entries := fun member => (onLeft _ member).ne_nil rfl
          have notRight : ([], rec) ∉ right.entries := fun member => (onRight _ member).ne_nil rfl
          rw [mem_own]
          tauto
        | cons b rest =>
          have turns : Turns d true (b :: rest) := (turns_last last).mpr rfl
          simp only [goRight turns]
          exact ihRight shapedRight (b :: rest)
      · rw [if_neg last]
        rcases extending with ended | ⟨side, turns⟩
        · exact absurd ended.1 last
        cases rest with
        | nil => exact turns.elim
        | cons b rest =>
          have bit := ((turns_critical last).mp turns).2
          simp only
          cases side with
          | true =>
            rw [if_pos (bit.mpr rfl)]
            simp only [goRight turns]
            exact ihRight shapedRight (b :: rest)
          | false =>
            rw [if_neg fun set => Bool.false_ne_true (bit.mp set)]
            simp only [goLeft turns]
            exact ihLeft shapedLeft (b :: rest)

end Lookup

section Order

variable {ρ : Type}

/-- Keys in lexicographical order, none of them twice. -/
def Ascending (entries : List (List UInt8 × ρ)) : Prop :=
  entries.Pairwise fun earlier later => earlier.1 < later.1

/-- Bytes in front do not change the order. -/
theorem Ascending.prepend {entries : List (List UInt8 × ρ)} (ascending : Ascending entries)
    (s : List UInt8) : Ascending (prepend s entries) :=
  List.pairwise_map.mpr (ascending.imp fun less => List.append_left_lt less)

/-- A key to the left of a node is before one to the right. -/
theorem Turns.lt {d : NodeData} (bit : d.mask = 0 ∨ d.mask ∈ criticalBits)
    {left right : List UInt8} (toLeft : Turns d false left) (toRight : Turns d true right) :
    left < right := by
  have inside : d.mask ≠ 0 := fun last => Bool.false_ne_true (toLeft.last last)
  have critical := bit.resolve_left inside
  cases left with
  | nil => exact toLeft.elim
  | cons a left =>
    cases right with
    | nil => exact toRight.elim
    | cons b right =>
      obtain ⟨agreeA, bitA⟩ := (turns_critical inside).mp toLeft
      obtain ⟨agreeB, bitB⟩ := (turns_critical inside).mp toRight
      have agree := (xor_and_eq_zero.mp agreeA).symm.trans (xor_and_eq_zero.mp agreeB)
      have clear : a &&& d.mask = 0 :=
        Decidable.not_not.mp fun set => Bool.false_ne_true (bitA.mp set)
      exact List.cons_lt_cons_iff.mpr
        (.inl (lt_of_criticalBit critical agree clear (bitB.mpr rfl)))

/-- The entries of a tree are in the order of their keys. -/
theorem entries_ascending {t : Pnode ρ} (shaped : t.Shaped) : Ascending t.entries := by
  induction t with
  | null => exact List.Pairwise.nil
  | node d record left right ihLeft ihRight =>
    obtain ⟨_, bit, shapedLeft, shapedRight, onLeft, onRight⟩ := shaped
    apply Ascending.prepend
    have single : Ascending (own d record) := by
      unfold own
      by_cases last : d.mask = 0
      · rw [if_pos last]
        cases record with
        | none => exact List.Pairwise.nil
        | some rec => exact List.pairwise_singleton _ _
      · rw [if_neg last]
        exact List.Pairwise.nil
    have first {side : Bool} {entry other : List UInt8 × ρ} (member : entry ∈ own d record)
        (turns : Turns d side other.1) : entry.1 < other.1 := by
      rw [(mem_own.mp member).2.1]
      cases keys : other.1 with
      | nil => exact absurd keys turns.ne_nil
      | cons b rest => exact List.nil_lt_cons b rest
    refine List.pairwise_append.mpr ⟨List.pairwise_append.mpr ⟨single, ihLeft shapedLeft, ?_⟩,
      ihRight shapedRight, ?_⟩
    · intro entry member other below
      exact first member (onLeft other below)
    · intro entry member other below
      rcases List.mem_append.mp member with mine | member
      · exact first mine (onRight other below)
      · exact (onLeft entry member).lt bit (onRight other below)

end Order

section Foreach

variable {ρ σ : Type} (func : σ → List UInt8 → ρ → Int × σ)

/-- Call a function on entries one after the other, until it returns another status than zero. -/
def visit : σ → List (List UInt8 × ρ) → Int × σ
  | cookie, [] => (0, cookie)
  | cookie, entry :: rest =>
    let called := func cookie entry.1 entry.2
    if called.1 ≠ 0 then called else visit called.2 rest

/-- Entries after entries are visited if no call returned a status. -/
theorem visit_append (cookie : σ) (first last : List (List UInt8 × ρ)) :
    visit func cookie (first ++ last) =
      if (visit func cookie first).1 ≠ 0 then visit func cookie first
      else visit func (visit func cookie first).2 last := by
  induction first generalizing cookie with
  | nil => rfl
  | cons entry first ih =>
    by_cases stops : (func cookie entry.1 entry.2).1 ≠ 0
    · simp only [List.cons_append, visit, if_pos stops]
    · simp only [List.cons_append, visit, if_neg stops, ih]

/-- What a traversal below a node does, with the key prefix in the buffer. -/
def Traverses (t : Pnode ρ) (cookie : σ) (keybuf : List UInt8) (keypos : Nat) : Prop :=
  ∃ keybuf', foreachInternal func t cookie keybuf keypos =
      some ((visit func cookie (prepend (keybuf.take keypos) t.entries)).1,
        (visit func cookie (prepend (keybuf.take keypos) t.entries)).2, keybuf') ∧
    keybuf'.length = keybuf.length ∧ keybuf'.take keypos = keybuf.take keypos

/-- Bytes that fit are copied behind the prefix. -/
theorem memcpy_fits (keybuf s : List UInt8) {keypos : Nat}
    (fits : keypos + s.length ≤ keybuf.length) :
    ∃ keybuf', memcpy keybuf keypos s = some keybuf' ∧ keybuf'.length = keybuf.length ∧
      keybuf'.take (keypos + s.length) = keybuf.take keypos ++ s ∧
      keybuf'.take keypos = keybuf.take keypos := by
  have long : (keybuf.take keypos).length = keypos := by
    rw [List.length_take]
    omega
  refine ⟨_, if_pos fits, ?_, ?_, ?_⟩
  · rw [List.length_append, List.length_append, long, List.length_drop]
    omega
  · exact List.take_left' (by rw [List.length_append, long])
  · rw [List.append_assoc]
    exact List.take_left' long

/-- Buffers that agree on more bytes agree on fewer. -/
theorem take_of_take {first second : List UInt8} {n more : Nat}
    (same : first.take (n + more) = second.take (n + more)) : first.take n = second.take n := by
  have shorter := congrArg (List.take n) same
  rwa [List.take_take, List.take_take, Nat.min_eq_left (Nat.le_add_right _ _)] at shorter

/-- A traversal visits the entries below a node in their order, and stays inside the buffer. -/
theorem foreachInternal_spec {t : Pnode ρ} (shaped : t.Shaped) (cookie : σ) (keybuf : List UInt8)
    (keypos : Nat) (fits : keypos + t.reach ≤ keybuf.length) :
    Traverses func t cookie keybuf keypos := by
  induction t generalizing cookie keybuf keypos with
  | null => exact ⟨keybuf, rfl, rfl, rfl⟩
  | node d record left right ihLeft ihRight =>
    obtain ⟨_, _, shapedLeft, shapedRight, onLeft, onRight⟩ := shaped
    have deep : (Pnode.node d record left right).reach = d.s.length + max left.reach right.reach :=
      rfl
    obtain ⟨keybuf₁, copied, long₁, front₁, before⟩ := memcpy_fits keybuf d.s
      (show keypos + d.s.length ≤ keybuf.length by omega)
    have entries : prepend (keybuf.take keypos) (Pnode.node d record left right).entries =
        prepend (keybuf₁.take (keypos + d.slen))
          (own d record ++ left.entries ++ right.entries) := by
      change prepend _ (prepend d.s _) = _
      rw [prepend_prepend, ← front₁]
      rfl
    have appended : prepend (keybuf₁.take (keypos + d.slen))
          (own d record ++ left.entries ++ right.entries) =
        prepend (keybuf₁.take (keypos + d.slen)) (own d record ++ left.entries) ++
          prepend (keybuf₁.take (keypos + d.slen)) right.entries := List.map_append
    -- The part of the traversal before the right child.
    have first : ∃ keybuf₂,
        (if d.mask = 0 then some (callRecord func record cookie keybuf₁ (keypos + d.slen))
        else foreachInternal func left cookie keybuf₁ (keypos + d.slen)) =
          some ((visit func cookie (prepend (keybuf₁.take (keypos + d.slen))
              (own d record ++ left.entries))).1,
            (visit func cookie (prepend (keybuf₁.take (keypos + d.slen))
              (own d record ++ left.entries))).2, keybuf₂) ∧
        keybuf₂.length = keybuf₁.length ∧
        keybuf₂.take (keypos + d.slen) = keybuf₁.take (keypos + d.slen) := by
      by_cases last : d.mask = 0
      · have nothing : left.entries = [] := List.eq_nil_iff_forall_not_mem.mpr
          fun entry member => Bool.false_ne_true ((onLeft entry member).last last)
        rw [if_pos last, nothing, List.append_nil]
        unfold own
        rw [if_pos last]
        cases record with
        | none => exact ⟨keybuf₁, rfl, rfl, rfl⟩
        | some rec =>
          refine ⟨keybuf₁, ?_, rfl, rfl⟩
          have single : prepend (keybuf₁.take (keypos + d.slen))
              ((some rec).map fun rec => (([] : List UInt8), rec)).toList =
              [(keybuf₁.take (keypos + d.slen), rec)] := by
            simp [prepend]
          rw [single]
          unfold callRecord visit
          by_cases stops : (func cookie (keybuf₁.take (keypos + d.slen)) rec).1 ≠ 0
          · simp only [if_pos stops]
          · simp only [if_neg stops, visit]
            rw [Decidable.not_not.mp stops]
      · have nothing : own d record = [] := if_neg last
        rw [if_neg last, nothing, List.nil_append]
        exact ihLeft shapedLeft _ _ _ (by rw [long₁]; simp only [NodeData.slen]; omega)
    obtain ⟨keybuf₂, result, long₂, front₂⟩ := first
    unfold Traverses
    rw [entries, appended, visit_append]
    unfold foreachInternal
    simp only [copied, result, Option.bind_eq_bind, Option.bind_some]
    have kept := (take_of_take front₂).trans before
    by_cases stops : (visit func cookie (prepend (keybuf₁.take (keypos + d.slen))
        (own d record ++ left.entries))).1 ≠ 0
    · simp only [if_pos stops]
      exact ⟨keybuf₂, rfl, long₂.trans long₁, kept⟩
    · simp only [if_neg stops]
      obtain ⟨keybuf₃, rest, long₃, front₃⟩ := ihRight shapedRight
        (visit func cookie (prepend (keybuf₁.take (keypos + d.slen))
          (own d record ++ left.entries))).2 keybuf₂ (keypos + d.slen)
        (by rw [long₂, long₁]; simp only [NodeData.slen]; omega)
      rw [rest, front₂]
      refine ⟨keybuf₃, rfl, long₃.trans (long₂.trans long₁), ?_⟩
      exact (take_of_take front₃).trans kept

end Foreach

section Runs

variable {ρ : Type}

/-- The calls that were made on a tree, with their codes. -/
abbrev Done (ρ : Type) := List (Insertion ρ × Int)

/-- Insert records one after the other. -/
def inserts (size : NodeSize) (P : Patricia ρ) (done : Done ρ) :
    List (Insertion ρ) → Option (Patricia ρ × Done ρ)
  | [] => some (P, done)
  | call :: calls =>
    (patriciaInsert size P call).bind fun result =>
      inserts size result.2 (done ++ [(call, result.1)]) calls

/-- The record that was first successfully inserted for a key. -/
def stored (done : Done ρ) (key : List UInt8) : Option ρ :=
  (done.find? fun call => call.2 = 0 ∧ call.1.key = key).map fun call => call.1.record

/-- The tree after some calls. -/
structure Holds (P : Patricia ρ) (done : Done ρ) : Prop where
  /-- It is well shaped. -/
  shaped : P.root.Shaped
  /-- It is not deeper than the longest key. -/
  reach : P.root.reach ≤ P.maxkey
  /-- Its entries are the records that were inserted first. -/
  entries : ∀ key rec, (key, rec) ∈ P.root.entries ↔ stored done key = some rec

/-- An empty tree holds nothing. -/
theorem patriciaInit_holds : Holds (patriciaInit : Patricia ρ) [] :=
  ⟨trivial, Nat.le_refl _, fun _ _ =>
    iff_of_false List.not_mem_nil fun absurdity => nomatch absurdity⟩

/-- A call that stored nothing does not change what is stored. -/
theorem stored_append_ne {done : Done ρ} {call : Insertion ρ} {code : Int} (failed : code ≠ 0)
    (key : List UInt8) : stored (done ++ [(call, code)]) key = stored done key := by
  unfold stored
  rw [List.find?_append]
  have last : List.find? (fun c => decide (c.2 = 0 ∧ c.1.key = key)) [(call, code)] = none := by
    rw [List.find?_eq_none]
    intro other member
    rw [List.mem_singleton.mp member]
    simp [failed]
  rw [last, Option.or_none]

/-- A call that stored a record for a new key. -/
theorem stored_append {done : Done ρ} {call : Insertion ρ} (new : stored done call.key = none)
    (key : List UInt8) : stored (done ++ [(call, 0)]) key =
      if key = call.key then some call.record else stored done key := by
  unfold stored at new ⊢
  rw [List.find?_append]
  by_cases same : key = call.key
  · rw [if_pos same, same, Option.map_eq_none_iff.mp new]
    simp
  · have last : List.find? (fun c => decide (c.2 = 0 ∧ c.1.key = key))
        [(call, (0 : Int))] = none := by
      rw [List.find?_eq_none]
      intro other member
      rw [List.mem_singleton.mp member]
      simp [Ne.symm same]
    rw [if_neg same, last, Option.or_none]

/-- What one call does with a tree. -/
structure Inserts (P P' : Patricia ρ) (done : Done ρ) (call : Insertion ρ) (code : Int) : Prop where
  /-- The result holds the records that were inserted first. -/
  holds : Holds P' (done ++ [(call, code)])
  /-- The code is 1 if the key is there. -/
  known : code = 1 ↔ (stored done call.key).isSome
  /-- It is -1 only if an allocation fails. -/
  codes : code = 0 ∨ code = 1 ∨ code = -1 ∧ ∃ n, call.malloc n = false

/-- A call returns, and the tree keeps holding what it should. -/
theorem patriciaInsert_spec (size : NodeSize) {P : Patricia ρ} {done : Done ρ}
    (holds : Holds P done) (call : Insertion ρ) :
    ∃ code P', patriciaInsert size P call = some (code, P') ∧ Inserts P P' done call code := by
  obtain ⟨code, t', result, grown⟩ := insertLoop_grows call.record
    call.malloc size (P.root.depth + call.key.length + 1) 0 P.root call.key
    holds.shaped (Nat.lt_succ_self _)
  refine ⟨code, ⟨t', max P.maxkey call.key.length⟩, ?_, ?_⟩
  · unfold patriciaInsert
    rw [result]
    rfl
  have deep : t'.reach ≤ max P.maxkey call.key.length := by
    have reach := grown.reach
    have before := holds.reach
    omega
  have absent (new : ∀ found, (call.key, found) ∉ P.root.entries) :
      stored done call.key = none := by
    apply Option.eq_none_iff_forall_ne_some.mpr
    intro found here
    exact new found ((holds.entries _ _).mpr here)
  have outcome := grown.outcome
  generalize after : t'.entries = entries at outcome
  cases outcome with
  | stored new joined =>
    refine ⟨⟨grown.shaped, deep, ?_⟩, ?_, .inl rfl⟩
    · intro key rec
      rw [stored_append (absent new)]
      change (key, rec) ∈ t'.entries ↔ _
      rw [after, joined, holds.entries]
      by_cases same : key = call.key
      · rw [if_pos same, same, absent new, Prod.mk.injEq]
        simp [eq_comm]
      · rw [if_neg same, Prod.mk.injEq]
        simp [same]
    · rw [absent new]
      simp
  | @known found present =>
    refine ⟨⟨grown.shaped, deep, ?_⟩, ?_, .inr (.inl rfl)⟩
    · intro key rec
      rw [stored_append_ne (by decide), ← holds.entries, ← after]
    · rw [(holds.entries _ _).mp present]
      simp
  | @failed n new fault =>
    refine ⟨⟨grown.shaped, deep, ?_⟩, ?_, .inr (.inr ⟨rfl, n, fault⟩)⟩
    · intro key rec
      rw [stored_append_ne (by decide), ← holds.entries, ← after]
    · rw [absent new]
      simp

/-- Calls one after the other all return. -/
theorem inserts_spec (size : NodeSize) (calls : List (Insertion ρ)) {P : Patricia ρ}
    {done : Done ρ} (holds : Holds P done) :
    ∃ P' done', inserts size P done calls = some (P', done') ∧ Holds P' done' ∧
      done'.map Prod.fst = done.map Prod.fst ++ calls := by
  induction calls generalizing P done with
  | nil => exact ⟨P, done, rfl, holds, (List.append_nil _).symm⟩
  | cons call calls ih =>
    obtain ⟨code, next, result, step⟩ := patriciaInsert_spec size holds call
    obtain ⟨P', done', rest, holds', all⟩ := ih step.holds
    refine ⟨P', done', ?_, holds', ?_⟩
    · unfold inserts
      rw [result]
      exact rest
    · rw [all, List.map_append, List.append_assoc]
      rfl

/-- A lookup finds the record that was inserted first. -/
theorem patriciaLookup_spec {P : Patricia ρ} {done : Done ρ} (holds : Holds P done)
    (key : List UInt8) : patriciaLookup P key = some (stored done key) := by
  obtain ⟨found, result, entry⟩ := lookupNode_spec holds.shaped key
  unfold patriciaLookup
  rw [result]
  apply congrArg some
  apply Option.ext
  intro rec
  exact (entry rec).trans (holds.entries key rec)

/-- A traversal visits the entries in their order, unless there is no memory for the buffer. -/
theorem patriciaForeach_spec {P : Patricia ρ} {done : Done ρ} (holds : Holds P done) {σ : Type}
    (func : σ → List UInt8 → ρ → Int × σ) (cookie : σ) (malloc : Option (Nat → UInt8)) :
    patriciaForeach P func cookie malloc =
      if malloc = none ∧ 0 < P.maxkey then some (-1, cookie)
      else some (visit func cookie P.root.entries) := by
  have whole : prepend [] P.root.entries = P.root.entries := List.map_id _
  have reach := holds.reach
  have traverses (keybuf : List UInt8) (long : keybuf.length = P.maxkey) :
      (foreachInternal func P.root cookie keybuf 0).map (fun found => (found.1, found.2.1)) =
        some (visit func cookie P.root.entries) := by
    obtain ⟨keybuf', result, _⟩ := foreachInternal_spec func holds.shaped cookie
      keybuf 0 (by omega)
    rw [result, List.take_zero, whole]
    rfl
  unfold patriciaForeach
  cases malloc with
  | none =>
    simp only [true_and]
    by_cases bytes : 0 < P.maxkey
    · rw [if_pos bytes, if_pos bytes]
    · rw [if_neg bytes, if_neg bytes]
      exact traverses [] (by rw [List.length_nil]; omega)
  | some contents =>
    have given : ¬ (some contents = none ∧ 0 < P.maxkey) := fun both => nomatch both.1
    rw [if_neg given]
    exact traverses _ (by rw [List.length_map, List.length_range])

/-- A tree after some calls is the finite map of the records that were inserted first. -/
structure FiniteMap (size : NodeSize) (P : Patricia ρ) (done : Done ρ) : Prop where
  /-- A lookup finds the record of the key, or nothing. -/
  lookup : ∀ key, patriciaLookup P key = some (stored done key)
  /-- One more insertion says whether the key is there, and if it stores nothing, the map stays as
  it is. -/
  insert : ∀ call, ∃ code P', patriciaInsert size P call = some (code, P') ∧
    (code = 1 ↔ (stored done call.key).isSome) ∧
    (code = 0 ∨ code = 1 ∨ code = -1 ∧ ∃ n, call.malloc n = false) ∧
    (code ≠ 0 → ∀ key, patriciaLookup P' key = patriciaLookup P key) ∧
    (code = 0 → ∀ key, patriciaLookup P' key =
      if key = call.key then some (some call.record) else patriciaLookup P key)
  /-- A traversal visits the pairs once each in lexicographical order. -/
  foreach : ∃ entries, Ascending entries ∧
    (∀ key rec, (key, rec) ∈ entries ↔ stored done key = some rec) ∧
    ∀ {σ : Type} (func : σ → List UInt8 → ρ → Int × σ) (cookie : σ)
      (malloc : Option (Nat → UInt8)), patriciaForeach P func cookie malloc =
        if malloc = none ∧ 0 < P.maxkey then some (-1, cookie)
        else some (visit func cookie entries)

/-- For all insertions, whatever allocations fail, the tree implements a finite map. -/
theorem patricia_finite_map (size : NodeSize) (calls : List (Insertion ρ)) :
    ∃ P done, inserts size patriciaInit [] calls = some (P, done) ∧ done.map Prod.fst = calls ∧
      FiniteMap size P done := by
  obtain ⟨P, done, result, holds, all⟩ := inserts_spec size calls patriciaInit_holds
  refine ⟨P, done, result, all, patriciaLookup_spec holds, ?_, P.root.entries,
    entries_ascending holds.shaped, holds.entries, patriciaForeach_spec holds⟩
  intro call
  obtain ⟨code, P', inserted, step⟩ := patriciaInsert_spec size holds call
  refine ⟨code, P', inserted, step.known, step.codes, ?_, ?_⟩
  · intro failed key
    rw [patriciaLookup_spec step.holds, patriciaLookup_spec holds, stored_append_ne failed]
  · intro success key
    have new : stored done call.key = none := by
      cases found : stored done call.key with
      | none => rfl
      | some rec =>
        have known := step.known.mpr (by rw [found]; rfl)
        omega
    rw [patriciaLookup_spec step.holds, patriciaLookup_spec holds, success, stored_append new]
    by_cases same : key = call.key
    · rw [if_pos same, if_pos same]
    · rw [if_neg same, if_neg same]

end Runs

end Tarsnap.Datastruct
