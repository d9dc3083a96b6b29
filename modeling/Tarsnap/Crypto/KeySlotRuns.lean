import Tarsnap.Crypto.KeyImport
import Tarsnap.Crypto.KeySlots

/-!
# No key is used or freed twice

Every slot that is not empty owns the objects of a complete key. An import and the generation of an
RSA key free what the slot owned and leave it empty or with a new key, whatever fails. Generating an
HMAC key does so too, except when the second allocation or the entropy source fails: then the
structure of the key is freed and the slot still points to it.
-/

namespace Tarsnap.Crypto.KeySlots

open Tarsnap.Lib

variable {L : BignumLimit}

section Parts

/-- The addresses of the objects of a key. -/
def parts (h : Heap (Object L)) (id : Nat) : List Nat :=
  match h.objects id with
  | some (.hmac _ (some buf)) => [id, buf]
  | _ => [id]

/-- The objects of a key in a slot are touched. -/
def Old (h : Heap (Object L)) (key : Option Nat) (id : Nat) : Prop :=
  ∃ k, key = some k ∧ id ∈ parts h k

/-- A complete key of an encoding that was not freed. -/
def Complete (h : Heap (Object L)) (id : Nat) : Encoding → Prop
  | .rsa count => ∃ ints, h.objects id = some (.rsa ints) ∧ ints.length = count
  | .hmac => ∃ buf content, h.objects id = some (.hmac (some 32) (some buf)) ∧
      h.objects buf = some (.buffer (some content))

variable {h h' : Heap (Object L)} {id : Nat}

/-- An RSA key is one object. -/
theorem parts_rsa {ints : List (Bignum L)} (live : h.objects id = some (.rsa ints)) :
    parts h id = [id] := by
  rw [parts, live]

/-- An HMAC key has two objects. -/
theorem parts_hmac {len : Option Nat} {buf : Nat}
    (live : h.objects id = some (.hmac len (some buf))) : parts h id = [id, buf] := by
  rw [parts, live]

/-- The objects of a complete key are there. -/
theorem Complete.live {e : Encoding} (complete : Complete h id e) :
    ∀ part ∈ parts h id, part < h.next := by
  intro part member
  cases e with
  | rsa count =>
    obtain ⟨ints, live, _⟩ := complete
    rw [parts_rsa live, List.mem_singleton] at member
    exact member ▸ Heap.lt_next live
  | hmac =>
    obtain ⟨buf, content, live, inner⟩ := complete
    rw [parts_hmac live, List.mem_cons, List.mem_singleton] at member
    rcases member with rfl | rfl
    · exact Heap.lt_next live
    · exact Heap.lt_next inner

/-- A key whose objects are not touched stays complete. -/
theorem Complete.frame {e : Encoding} {touched : Nat → Prop} (complete : Complete h id e)
    (frame : Heap.Frame touched h h') (apart : ∀ part ∈ parts h id, ¬touched part) :
    Complete h' id e ∧ parts h' id = parts h id := by
  cases e with
  | rsa count =>
    obtain ⟨ints, live, length⟩ := complete
    rw [parts_rsa live] at apart ⊢
    have kept := frame.keeps live (apart id List.mem_cons_self)
    exact ⟨⟨ints, kept, length⟩, parts_rsa kept⟩
  | hmac =>
    obtain ⟨buf, content, live, inner⟩ := complete
    rw [parts_hmac live] at apart ⊢
    have kept := frame.keeps live (apart id List.mem_cons_self)
    have keptInner := frame.keeps inner (apart buf (List.mem_cons_of_mem _ List.mem_cons_self))
    exact ⟨⟨buf, content, kept, keptInner⟩, parts_hmac kept⟩

/-- Freeing the key of an RSA slot. -/
theorem rsaFree_spec {key : Option Nat} {count : Nat}
    (complete : ∀ id, key = some id → Complete h id (.rsa count)) :
    ∃ h', rsaFree h key = .ok h' ∧ Heap.Frame (Old h key) h h' := by
  cases key with
  | none => exact ⟨h, rfl, .refl h⟩
  | some id =>
    obtain ⟨ints, live, _⟩ := complete id rfl
    obtain ⟨h', free, objects, next, _⟩ := Heap.free_ok live
    refine ⟨h', ?_, .update next objects ⟨id, rfl, ?_⟩⟩
    · rw [rsaFree, Heap.read_ok live, ok_bind]
      exact free
    · rw [parts_rsa live]
      exact List.mem_cons_self

/-- Freeing the key of an HMAC slot. -/
theorem hmacFree_spec {key : Option Nat}
    (complete : ∀ id, key = some id → Complete h id .hmac) :
    ∃ h', hmacFree h key = .ok h' ∧ Heap.Frame (Old h key) h h' ∧ h'.fates = h.fates := by
  cases key with
  | none => exact ⟨h, rfl, .refl h, rfl⟩
  | some id =>
    obtain ⟨buf, content, live, inner⟩ := complete id rfl
    have apart : id ≠ buf := by
      rintro rfl
      rw [live] at inner
      exact nomatch inner
    obtain ⟨h₁, free, objects, next, fates⟩ := Heap.free_ok inner
    have still : h₁.objects id = some (.hmac (some 32) (some buf)) := by
      rw [objects, Function.update_of_ne apart]
      exact live
    obtain ⟨h₂, free', objects', next', fates'⟩ := Heap.free_ok still
    have first : Heap.Frame (Old h (some id)) h h₁ := by
      refine .update next objects ⟨id, rfl, ?_⟩
      rw [parts_hmac live]
      exact List.mem_cons_of_mem _ List.mem_cons_self
    have second : Heap.Frame (· = id) h₁ h₂ := .update next' objects' rfl
    refine ⟨h₂, ?_, first.trans second ?_, fates'.trans fates⟩
    · rw [hmacFree, Heap.read_ok live, ok_bind]
      simp only [free, ok_bind]
      exact free'
    · rintro _ _ rfl
      refine ⟨_, rfl, ?_⟩
      rw [parts_hmac live]
      exact List.mem_cons_self

end Parts

section Integers

variable {h h' : Heap (Object L)}

/-- These are different integers in memory. -/
structure Ints (h : Heap (Object L)) (ids : List Nat) : Prop where
  /-- No integer occurs twice. -/
  nodup : ids.Nodup
  /-- Each one is there. -/
  live : ∀ id ∈ ids, ∃ bn, h.objects id = some (.bignum bn)

/-- There may be none. -/
theorem Ints.nil (h : Heap (Object L)) : Ints h [] := ⟨List.nodup_nil, List.forall_mem_nil _⟩

/-- Integers that are not touched stay. -/
theorem Ints.frame {ids : List Nat} {touched : Nat → Prop} (ints : Ints h ids)
    (frame : Heap.Frame touched h h') (apart : ∀ id ∈ ids, ¬touched id) : Ints h' ids where
  nodup := ints.nodup
  live id member := by
    obtain ⟨bn, live⟩ := ints.live id member
    exact ⟨bn, frame.keeps live (apart id member)⟩

/-- The integers behind the first one, when that one was changed. -/
theorem Ints.tail {id : Nat} {ids : List Nat} {touched : Nat → Prop} (ints : Ints h (id :: ids))
    (frame : Heap.Frame touched h h') (only : ∀ other, touched other → other = id) :
    Ints h' ids := by
  have fresh := List.nodup_cons.mp ints.nodup
  have rest : Ints h ids := ⟨fresh.2, fun other member =>
    ints.live other (List.mem_cons_of_mem _ member)⟩
  refine rest.frame frame ?_
  intro other member touch
  exact fresh.1 (only other touch ▸ member)

/-- Freeing integers. -/
theorem freeInts_spec {ids : List Nat} (ints : Ints h ids) :
    ∃ h', freeInts h ids = .ok h' ∧ Heap.Frame (· ∈ ids) h h' := by
  induction ids generalizing h with
  | nil => exact ⟨h, rfl, .refl h⟩
  | cons id ids ih =>
    obtain ⟨bn, live⟩ := ints.live id List.mem_cons_self
    obtain ⟨h₁, free, objects, next, _⟩ := Heap.free_ok live
    have first : Heap.Frame (· = id) h h₁ := .update next objects rfl
    obtain ⟨h₂, frees, second⟩ := ih (ints.tail first fun _ same => same)
    refine ⟨h₂, ?_, ?_⟩
    · rw [freeInts, List.foldlM_cons, free, ok_bind]
      exact frees
    · have wide : Heap.Frame (· ∈ id :: ids) h h₁ :=
        .update next objects List.mem_cons_self
      exact wide.trans second fun other _ member => List.mem_cons_of_mem _ member

/-- Importing an integer puts it into memory, or fails and leaves nothing. -/
theorem importInt_spec (h : Heap (Object L)) {mem : List UInt8} {pos : Nat} {data : List UInt8}
    (here : At mem pos data) :
    ∃ imported h', importInt h mem pos data.length = .ok (imported, h') ∧
      Heap.Frame (fun _ => False) h h' ∧
      ∀ id pos' left, imported = some (id, pos', left) → h.next ≤ id ∧
        (∃ bn, h'.objects id = some (.bignum bn)) ∧
        ∃ rest, At mem pos' rest ∧ left = rest.length := by
  rw [importInt]
  rcases importBN_cases (L := L) here with failed | ⟨bn, bytes, rest, fits, rfl⟩
  · rw [failed]
    exact ⟨none, h, rfl, .refl h, fun _ _ _ absurdity => nomatch absurdity⟩
  rw [importBN_ok fits here]
  simp only
  obtain ⟨buf, h₁, alloc, first, outcome⟩ := Heap.alloc_spec h (.buffer none)
  rw [alloc]
  rcases outcome with rfl | ⟨rfl, buffered⟩
  · exact ⟨none, h₁, rfl, first, fun _ _ _ absurdity => nomatch absurdity⟩
  obtain ⟨id, h₂, alloc', second, outcome'⟩ := Heap.alloc_spec h₁ (.bignum bn)
  have still := second.keeps buffered fun absurdity => absurdity
  have used := Heap.lt_next buffered
  obtain ⟨h₃, free, objects, next, _⟩ := Heap.free_ok still
  have third : Heap.Frame (· = h.next) h₂ h₃ := .update next objects rfl
  have frame : Heap.Frame (fun _ => False) h h₃ := by
    have both := first.trans second fun _ _ absurdity => absurdity
    exact both.trans third fun other old same => by omega
  simp only [alloc', free, ok_bind, pure_eq_ok]
  refine ⟨_, h₃, rfl, frame, ?_⟩
  intro found pos' left same
  rcases outcome' with rfl | ⟨rfl, placed⟩
  · exact nomatch same
  · cases same
    refine ⟨by omega, ⟨bn, ?_⟩, rest, here.right, rfl⟩
    rw [objects, Function.update_of_ne (by omega)]
    exact placed

/-- Importing integers puts different ones into memory. -/
theorem importIntegers_spec {mem : List UInt8} (count : Nat) :
    ∀ (h : Heap (Object L)) {pos : Nat} {data : List UInt8}, At mem pos data →
      ∃ ids left h', importIntegers mem count h pos data.length = .ok (ids, left, h') ∧
        Heap.Frame (fun _ => False) h h' ∧ Ints h' ids ∧ (∀ id ∈ ids, h.next ≤ id) ∧
        (left ≠ none → ids.length = count) := by
  induction count with
  | zero =>
    intro h pos data here
    exact ⟨[], some data.length, h, rfl, .refl h, .nil h, List.forall_mem_nil _, fun _ => rfl⟩
  | succ count ih =>
    intro h pos data here
    obtain ⟨imported, h₁, first, frame, some⟩ := importInt_spec h here
    rw [importIntegers, first, ok_bind]
    cases imported with
    | none =>
      exact ⟨[], none, h₁, rfl, frame, .nil h₁, List.forall_mem_nil _,
        fun absurdity => absurd rfl absurdity⟩
    | some found =>
      obtain ⟨id, pos', left'⟩ := found
      obtain ⟨new, ⟨bn, live⟩, rest, here', rfl⟩ := some id pos' left' rfl
      obtain ⟨ids, left, h₂, more, frame', ints, above, whole⟩ := ih h₁ here'
      have later : ∀ other ∈ ids, id < other := fun other member =>
        Nat.lt_of_lt_of_le (Heap.lt_next live) (above other member)
      simp only [more, ok_bind, pure_eq_ok]
      refine ⟨id :: ids, left, h₂, rfl, frame.trans frame' fun _ _ absurdity => absurdity,
        ⟨?_, ?_⟩, ?_, ?_⟩
      · refine List.nodup_cons.mpr ⟨fun member => ?_, ints.nodup⟩
        exact Nat.lt_irrefl _ (later id member)
      · intro other member
        rcases List.mem_cons.mp member with rfl | member
        · exact ⟨bn, frame'.keeps live fun absurdity => absurdity⟩
        · exact ints.live other member
      · intro other member
        rcases List.mem_cons.mp member with rfl | member
        · exact new
        · exact Nat.le_trans new (Nat.le_of_lt (later other member))
      · intro present
        rw [List.length_cons, whole present]

end Integers

section RSA

variable {h : Heap (Object L)} {key : Nat} {ints : List (Bignum L)}

/-- Integers that are taken into an RSA key are no longer in memory. -/
theorem takeInts_spec {ids : List Nat} (live : h.objects key = some (.rsa ints))
    (given : Ints h ids) :
    ∃ h' taken, takeInts h key ids = .ok h' ∧
      Heap.Frame (fun other => other = key ∨ other ∈ ids) h h' ∧
      h'.objects key = some (.rsa (ints ++ taken)) ∧ taken.length = ids.length := by
  induction ids generalizing h ints with
  | nil => exact ⟨h, [], rfl, .refl h, by rw [List.append_nil]; exact live, rfl⟩
  | cons id ids ih =>
    obtain ⟨bn, number⟩ := given.live id List.mem_cons_self
    have apart : key ≠ id := by
      rintro rfl
      rw [live] at number
      exact nomatch number
    obtain ⟨h₁, free, objects, next, _⟩ := Heap.free_ok number
    have first : Heap.Frame (· = id) h h₁ := .update next objects rfl
    have still : h₁.objects key = some (.rsa ints) := first.keeps live apart
    obtain ⟨h₂, write, objects', next', _⟩ := Heap.write_ok still (.rsa (ints ++ [bn]))
    have second : Heap.Frame (· = key) h₁ h₂ := .update next' objects' rfl
    have longer : h₂.objects key = some (.rsa (ints ++ [bn])) := by
      rw [objects', Function.update_self]
    have rest := given.tail first fun _ same => same
    have rest' : Ints h₂ ids := by
      refine rest.frame second ?_
      rintro other member rfl
      obtain ⟨_, absurdity⟩ := rest.live other member
      rw [still] at absurdity
      exact nomatch absurdity
    obtain ⟨h₃, taken, takes, third, final, length⟩ := ih longer rest'
    refine ⟨h₃, bn :: taken, ?_, ?_, ?_, ?_⟩
    · rw [takeInts, Heap.read_ok number, ok_bind, Heap.read_ok live, ok_bind]
      simp only [free, ok_bind, write]
      exact takes
    · have wide : Heap.Frame (fun other => other = key ∨ other ∈ id :: ids) h h₁ :=
        .update next objects (.inr List.mem_cons_self)
      refine (wide.trans second fun other _ same => .inl same).trans third ?_
      intro other _ touch
      exact touch.imp_right (List.mem_cons_of_mem _)
    · rw [final, List.append_assoc, List.singleton_append]
    · rw [List.length_cons, length, List.length_cons]

/-- Groups of integers are all put into an RSA key, or those that are not are freed. -/
theorem cryptoCompatRSAImport_spec {groups : List (List Nat)}
    (live : h.objects key = some (.rsa ints)) (given : Ints h groups.flatten) :
    ∃ rc h' final, cryptoCompatRSAImport h key groups = .ok (rc, h') ∧
      Heap.Frame (fun other => other = key ∨ other ∈ groups.flatten) h h' ∧
      h'.objects key = some (.rsa final) ∧
      (rc = 0 → final.length = ints.length + groups.flatten.length) := by
  induction groups generalizing h ints with
  | nil => exact ⟨0, h, ints, rfl, .refl h, live, fun _ => rfl⟩
  | cons ids later ih =>
    rw [List.flatten_cons] at given ⊢
    have attempted : Heap.Frame (fun _ => False) h h.attempt.2 := Heap.attempt_frame h
    have live' := attempted.keeps live fun absurdity => absurdity
    have given' := given.frame attempted fun _ _ absurdity => absurdity
    have unused : ∀ other ∈ ids ++ later.flatten, key ≠ other := by
      rintro other member rfl
      obtain ⟨_, absurdity⟩ := given.live key member
      rw [live] at absurdity
      exact nomatch absurdity
    rw [cryptoCompatRSAImport]
    simp only
    by_cases fails : h.attempt.1 = true
    · obtain ⟨h₁, frees, frame⟩ := freeInts_spec given'
      rw [if_pos fails, frees, ok_bind]
      refine ⟨-1, h₁, ints, rfl, ?_, ?_, fun absurdity => absurd absurdity (by decide)⟩
      · refine (Heap.attempt_frame h).trans frame ?_
        exact fun other _ member => .inr member
      · exact frame.keeps live' fun member => unused key member rfl
    · have parts := List.nodup_append.mp given'.nodup
      have front : Ints h.attempt.2 ids := ⟨parts.1, fun other member =>
        given'.live other (List.mem_append_left _ member)⟩
      have back : Ints h.attempt.2 later.flatten := ⟨parts.2.1, fun other member =>
        given'.live other (List.mem_append_right _ member)⟩
      obtain ⟨h₁, taken, takes, frame, longer, length⟩ := takeInts_spec live' front
      have back' : Ints h₁ later.flatten := by
        refine back.frame frame ?_
        rintro other member (rfl | inFront)
        · exact unused other (List.mem_append_right _ member) rfl
        · exact parts.2.2 other inFront other member rfl
      obtain ⟨rc, h₂, final, imports, frame', complete, lengths⟩ := ih longer back'
      rw [if_neg fails, takes, ok_bind]
      refine ⟨rc, h₂, final, imports, ?_, complete, ?_⟩
      · have first : Heap.Frame (fun other => other = key ∨ other ∈ ids ++ later.flatten) h h₁ := by
          refine (Heap.attempt_frame h).trans frame ?_
          exact fun other _ touch => touch.imp_right (List.mem_append_left _)
        refine first.trans frame' ?_
        exact fun other _ touch => touch.imp_right (List.mem_append_right _)
      · intro success
        rw [lengths success, List.length_append, List.length_append, length, Nat.add_assoc]

end RSA

section Rebuild

/-- An operation on a slot freed the old key, and left the slot empty or with a new complete key. -/
structure Rebuilt (e : Encoding) (h h' : Heap (Object L)) (key key' : Option Nat) : Prop where
  /-- Of the old objects only those of the old key are touched. -/
  frame : Heap.Frame (Old h key) h h'
  /-- The new key is complete. -/
  complete : ∀ id, key' = some id → Complete h' id e
  /-- The objects of the new key are new. -/
  new : ∀ id, key' = some id → ∀ part ∈ parts h' id, h.next ≤ part

variable {h h' : Heap (Object L)} {key : Option Nat} {e : Encoding}

/-- The slot is left empty. -/
theorem Rebuilt.emptied (frame : Heap.Frame (Old h key) h h') : Rebuilt e h h' key none :=
  ⟨frame, (fun _ absurdity => nomatch absurdity), (fun _ absurdity => nomatch absurdity)⟩

/-- The slot is left with a new RSA key. -/
theorem Rebuilt.rsa {id count : Nat} {ints : List (Bignum L)}
    (frame : Heap.Frame (Old h key) h h') (new : h.next ≤ id)
    (live : h'.objects id = some (.rsa ints)) (length : ints.length = count) :
    Rebuilt (.rsa count) h h' key (some id) := by
  refine ⟨frame, ?_, ?_⟩
  · rintro _ ⟨⟩
    exact ⟨ints, live, length⟩
  · rintro _ ⟨⟩ part member
    rw [parts_rsa live, List.mem_singleton] at member
    exact member ▸ new

/-- Importing an RSA key rebuilds its slot. -/
theorem importRSASlot_spec {count : Nat} {groups : List Nat → List (List Nat)}
    (all : ∀ ids, (groups ids).flatten = ids)
    (complete : ∀ id, key = some id → Complete h id (.rsa count)) (data : List UInt8) :
    ∃ rc key' h', importRSASlot count groups h key data = .ok (rc, key', h') ∧
      Rebuilt (.rsa count) h h' key key' := by
  obtain ⟨h₁, free, first⟩ := rsaFree_spec complete
  rw [importRSASlot, free, ok_bind]
  simp only
  obtain ⟨pointer, h₂, alloc, second, outcome⟩ := Heap.alloc_spec h₁ (.rsa [])
  have opened := first.trans second fun _ _ absurdity => absurdity.elim
  rw [alloc]
  rcases outcome with rfl | ⟨rfl, live⟩
  · exact ⟨-1, none, h₂, rfl, .emptied opened⟩
  simp only
  have new := first.next
  have used := Heap.lt_next live
  obtain ⟨ids, left, h₃, imports, third, ints, above, whole⟩ :=
    importIntegers_spec (L := L) count h₂ (At.whole data)
  have live₃ := third.keeps live fun absurdity => absurdity
  have filled := opened.trans third fun _ _ absurdity => absurdity.elim
  rw [imports, ok_bind]
  simp only
  have gone : ∀ {h₄ : Heap (Object L)}, Heap.Frame (Old h key) h h₄ →
      (∃ final, h₄.objects h₁.next = some (.rsa final)) →
      ∃ h₅, rsaFree h₄ (some h₁.next) = .ok h₅ ∧ Heap.Frame (Old h key) h h₅ := by
    rintro h₄ frame ⟨final, there⟩
    obtain ⟨h₅, frees, touch⟩ := @rsaFree_spec _ h₄ (some h₁.next) final.length
      (by rintro _ ⟨⟩; exact ⟨final, there, rfl⟩)
    refine ⟨h₅, frees, frame.trans touch ?_⟩
    rintro other old ⟨_, ⟨⟩, member⟩
    rw [parts_rsa there, List.mem_singleton] at member
    omega
  by_cases parsed : left ≠ some 0
  · obtain ⟨h₄, frees, fourth⟩ := freeInts_spec ints
    have emptied : Heap.Frame (Old h key) h h₄ := by
      refine filled.trans fourth ?_
      intro other old member
      have beyond := above other member
      omega
    have kept : h₄.objects h₁.next = some (.rsa []) := by
      refine fourth.keeps live₃ fun member => ?_
      have beyond := above _ member
      omega
    obtain ⟨h₅, frees', frame⟩ := gone emptied ⟨[], kept⟩
    rw [if_pos parsed, frees, ok_bind, frees', ok_bind]
    exact ⟨-1, none, h₅, rfl, .emptied frame⟩
  · rw [if_neg parsed]
    have present : left ≠ none := by
      rintro rfl
      exact parsed (by simp)
    obtain ⟨rc, h₄, final, loads, fourth, loaded, length⟩ :=
      @cryptoCompatRSAImport_spec _ h₃ h₁.next [] (groups ids) live₃ (by rw [all]; exact ints)
    have frame : Heap.Frame (Old h key) h h₄ := by
      refine filled.trans fourth ?_
      rintro other old (rfl | member)
      · omega
      · rw [all] at member
        have beyond := above other member
        omega
    rw [loads, ok_bind]
    simp only
    by_cases success : rc = 0
    · rw [if_neg (not_not_intro success)]
      refine ⟨0, some h₁.next, h₄, rfl, .rsa frame new loaded ?_⟩
      rw [length success, all, whole present]
      exact Nat.zero_add count
    · rw [if_pos success]
      obtain ⟨h₅, frees, frame'⟩ := gone frame ⟨final, loaded⟩
      rw [frees, ok_bind]
      exact ⟨-1, none, h₅, rfl, .emptied frame'⟩

/-- The slot is left with a new HMAC key. -/
theorem Rebuilt.hmac {id buf : Nat} {content : List.Vector UInt8 32}
    (frame : Heap.Frame (Old h key) h h') (new : h.next ≤ id) (newBuf : h.next ≤ buf)
    (live : h'.objects id = some (.hmac (some 32) (some buf)))
    (inner : h'.objects buf = some (.buffer (some content))) :
    Rebuilt .hmac h h' key (some id) := by
  refine ⟨frame, ?_, ?_⟩
  · rintro _ ⟨⟩
    exact ⟨buf, content, live, inner⟩
  · rintro _ ⟨⟩ part member
    rw [parts_hmac live, List.mem_cons, List.mem_singleton] at member
    rcases member with rfl | rfl
    · exact new
    · exact newBuf

/-- Building an HMAC key starts with a structure and a buffer that it points to. -/
structure Started (h h₁ : Heap (Object L)) (key : Option Nat) (id : Nat) (bytes : Option Nat)
    (h₃ : Heap (Object L)) : Prop where
  /-- No old object but those of the old key is touched. -/
  frame : Heap.Frame (Old h key) h h₃
  /-- The structure is new. -/
  new : h.next ≤ id
  /-- The structure points to the buffer. -/
  live : h₃.objects id = some (.hmac none bytes)
  /-- The buffer is there, unless its allocation failed. -/
  buffer : ∀ buf, bytes = some buf → id < buf ∧ h₃.objects buf = some (.buffer none)
  /-- Whether the allocation failed was decided. -/
  fails : bytes = none ↔ h₁.fates.headD false = true
  /-- What is decided about the next step. -/
  fates : h₃.fates = h₁.fates.tail

/-- The start of building an HMAC key. -/
theorem started_spec {h₁ h₂ : Heap (Object L)} (frame : Heap.Frame (Old h key) h h₁)
    (second : Heap.Frame (fun _ => False) h₁ h₂)
    (live : h₂.objects h₁.next = some (.hmac none none)) :
    ∃ bytes h₃ h₄, h₂.alloc (.buffer none) = (bytes, h₃) ∧
      h₃.write h₁.next (.hmac none bytes) = .ok h₄ ∧ Started h h₂ key h₁.next bytes h₄ := by
  obtain ⟨bytes, h₃, alloc, third, outcome⟩ := Heap.alloc_spec h₂ (.buffer none)
  obtain ⟨fates, fails⟩ := Heap.alloc_fates alloc
  have live₃ := third.keeps live fun absurdity => absurdity
  obtain ⟨h₄, write, objects, next, fates'⟩ := Heap.write_ok live₃ (.hmac none bytes)
  have used := Heap.lt_next live
  have fourth : Heap.Frame (· = h₁.next) h₃ h₄ := .update next objects rfl
  refine ⟨bytes, h₃, h₄, alloc, write, ?_, frame.next, ?_, ?_, fails, fates'.trans fates⟩
  · have both := (frame.trans second fun _ _ absurdity => absurdity.elim).trans third
      fun _ _ absurdity => absurdity.elim
    refine both.trans fourth ?_
    rintro _ old rfl
    exact absurd frame.next (Nat.not_le_of_lt old)
  · rw [objects, Function.update_self]
  · rintro buf rfl
    rcases outcome with absurdity | ⟨same, placed⟩
    · exact nomatch absurdity
    · cases same
      refine ⟨used, ?_⟩
      rw [objects, Function.update_of_ne (Nat.ne_of_gt used)]
      exact placed

/-- The structure is freed again. -/
theorem Started.undo {h₁ h₃ : Heap (Object L)} {id : Nat} {bytes : Option Nat}
    (started : Started h h₁ key id bytes h₃) :
    ∃ h₄, h₃.free (some id) = .ok h₄ ∧ Heap.Frame (Old h key) h h₄ ∧ h₄.objects id = none := by
  obtain ⟨h₄, free, objects, next, _⟩ := Heap.free_ok started.live
  have touch : Heap.Frame (· = id) h₃ h₄ := .update next objects rfl
  refine ⟨h₄, free, started.frame.trans touch ?_, by rw [objects, Function.update_self]⟩
  rintro _ old rfl
  exact absurd started.new (Nat.not_le_of_lt old)

/-- The length is stored in the structure. -/
theorem Started.length {h₁ h₃ : Heap (Object L)} {id buf : Nat}
    (started : Started h h₁ key id (some buf) h₃) :
    ∃ h₄, h₃.write id (.hmac (some 32) (some buf)) = .ok h₄ ∧ Heap.Frame (Old h key) h h₄ ∧
      h₄.objects id = some (.hmac (some 32) (some buf)) ∧
      h₄.objects buf = some (.buffer none) ∧ h₄.fates = h₃.fates := by
  obtain ⟨above, buffered⟩ := started.buffer buf rfl
  obtain ⟨h₄, write, objects, next, fates⟩ :=
    Heap.write_ok started.live (.hmac (some 32) (some buf))
  have touch : Heap.Frame (· = id) h₃ h₄ := .update next objects rfl
  refine ⟨h₄, write, started.frame.trans touch ?_, by rw [objects, Function.update_self], ?_, fates⟩
  · rintro _ old rfl
    exact absurd started.new (Nat.not_le_of_lt old)
  · rw [objects, Function.update_of_ne (Nat.ne_of_gt above)]
    exact buffered

/-- The bytes of the key are stored. -/
theorem Rebuilt.fill {h₄ : Heap (Object L)} {id buf : Nat}
    (frame : Heap.Frame (Old h key) h h₄) (new : h.next ≤ id) (above : id < buf)
    (live : h₄.objects id = some (.hmac (some 32) (some buf)))
    (buffered : h₄.objects buf = some (.buffer none)) (content : List.Vector UInt8 32) :
    ∃ h₅, h₄.write buf (.buffer (some content)) = .ok h₅ ∧ Rebuilt .hmac h h₅ key (some id) := by
  obtain ⟨h₅, write, objects, next, _⟩ := Heap.write_ok buffered (.buffer (some content))
  have touch : Heap.Frame (· = buf) h₄ h₅ := .update next objects rfl
  have inner : h₅.objects buf = some (.buffer (some content)) := by
    rw [objects, Function.update_self]
  refine ⟨h₅, write, .hmac (frame.trans touch ?_) new (by omega) ?_ inner⟩
  · rintro _ old rfl
    omega
  · rw [objects, Function.update_of_ne (Nat.ne_of_lt above)]
    exact live

/-- Importing an HMAC key rebuilds its slot. -/
theorem importHMAC_spec (complete : ∀ id, key = some id → Complete h id .hmac)
    (data : List UInt8) :
    ∃ rc key' h', cryptoKeysSubrImportHMAC h key data = .ok (rc, key', h') ∧
      Rebuilt .hmac h h' key key' := by
  obtain ⟨h₁, free, first, _⟩ := hmacFree_spec complete
  rw [cryptoKeysSubrImportHMAC, free, ok_bind]
  by_cases size : data.length = 32
  · rw [dif_pos size]
    obtain ⟨pointer, h₂, alloc, second, outcome⟩ := Heap.alloc_spec h₁ (.hmac none none)
    rw [alloc]
    rcases outcome with rfl | ⟨rfl, live⟩
    · exact ⟨-1, none, h₂, rfl, .emptied (first.trans second fun _ _ absurdity => absurdity.elim)⟩
    obtain ⟨bytes, h₃, h₄, alloc', write, started⟩ := started_spec first second live
    simp only [alloc', write, ok_bind]
    cases bytes with
    | none =>
      obtain ⟨h₅, frees, frame, _⟩ := started.undo
      rw [frees, ok_bind]
      exact ⟨-1, none, h₅, rfl, .emptied frame⟩
    | some buf =>
      obtain ⟨h₅, stores, frame, live₅, buffered, _⟩ := started.length
      obtain ⟨h₆, fills, rebuilt⟩ := Rebuilt.fill frame started.new (started.buffer buf rfl).1
        live₅ buffered ⟨data, size⟩
      simp only [stores, ok_bind, fills]
      exact ⟨0, _, h₆, rfl, rebuilt⟩
  · rw [dif_neg size]
    exact ⟨-1, none, h₁, rfl, .emptied first⟩

/-- Generating an HMAC key gets past the second allocation and the entropy source, or does not get
to them. -/
def Gets (fates : List Bool) : Prop :=
  fates.headD false = true ∨ fates.tail.headD false = false ∧ fates.tail.tail.headD false = false

/-- Generating an HMAC key rebuilds its slot, or frees the new structure and leaves the slot with a
pointer to it. -/
theorem generateHMAC_spec (R : Randomness L)
    (complete : ∀ id, key = some id → Complete h id .hmac) :
    ∃ rc key' h', cryptoKeysSubrGenerateHMAC R h key = .ok (rc, key', h') ∧
      (Gets h.fates ∧ Rebuilt .hmac h h' key key' ∨
        ¬Gets h.fates ∧ rc ≠ 0 ∧ ∃ id, key' = some id ∧ h'.objects id = none) := by
  obtain ⟨h₁, free, first, same⟩ := hmacFree_spec complete
  rw [cryptoKeysSubrGenerateHMAC, free, ok_bind]
  obtain ⟨pointer, h₂, alloc, second, outcome⟩ := Heap.alloc_spec h₁ (.hmac none none)
  obtain ⟨fates, fails⟩ := Heap.alloc_fates alloc
  rw [same] at fates fails
  rw [alloc]
  rcases outcome with rfl | ⟨rfl, live⟩
  · have gets : Gets h.fates := .inl (fails.mp rfl)
    refine ⟨-1, none, h₂, rfl, .inl ⟨gets, .emptied ?_⟩⟩
    exact first.trans second fun _ _ absurdity => absurdity.elim
  have got : h.fates.headD false ≠ true := fun absurdity => nomatch fails.mpr absurdity
  obtain ⟨bytes, h₃, h₄, alloc', write, started⟩ := started_spec first second live
  have fails' := started.fails
  have fates' := started.fates
  rw [fates] at fails' fates'
  simp only [alloc', write, ok_bind]
  cases bytes with
  | none =>
    obtain ⟨h₅, frees, _, gone⟩ := started.undo
    rw [frees, ok_bind]
    refine ⟨-1, some h₁.next, h₅, rfl, .inr ⟨?_, by decide, _, rfl, gone⟩⟩
    rintro (absurdity | ⟨absurdity, _⟩)
    · exact got absurdity
    · rw [fails'.mp rfl] at absurdity
      exact nomatch absurdity
  | some buf =>
    have got' : h.fates.tail.headD false = false := by
      cases decided : h.fates.tail.headD false with
      | false => rfl
      | true => exact nomatch fails'.mpr decided
    obtain ⟨h₅, stores, frame, live₅, buffered, fates₅⟩ := started.length
    simp only [stores, ok_bind]
    have decided : h₅.attempt.1 = h.fates.tail.tail.headD false := by
      rw [Heap.attempt, fates₅, fates']
    have attempted : Heap.Frame (fun _ => False) h₅ h₅.attempt.2 := Heap.attempt_frame h₅
    have frame₆ := frame.trans attempted fun _ _ absurdity => absurdity.elim
    have live₆ := attempted.keeps live₅ fun absurdity => absurdity
    have buffered₆ := attempted.keeps buffered fun absurdity => absurdity
    have above := (started.buffer buf rfl).1
    by_cases entropy : h₅.attempt.1 = true
    · obtain ⟨h₇, frees, objects, _, _⟩ := Heap.free_ok buffered₆
      have live₇ : h₇.objects h₁.next = some (.hmac (some 32) (some buf)) := by
        rw [objects, Function.update_of_ne (Nat.ne_of_lt above)]
        exact live₆
      obtain ⟨h₈, frees', objects', _, _⟩ := Heap.free_ok live₇
      simp only [if_pos entropy, frees, ok_bind, frees']
      refine ⟨-1, some h₁.next, h₈, rfl, .inr ⟨?_, by decide, _, rfl, ?_⟩⟩
      · rintro (absurdity | ⟨_, absurdity⟩)
        · exact got absurdity
        · rw [← decided, entropy] at absurdity
          exact nomatch absurdity
      · rw [objects', Function.update_self]
    · obtain ⟨h₇, fills, rebuilt⟩ := Rebuilt.fill frame₆ started.new above live₆ buffered₆
        (R.entropy buf)
      simp only [if_neg entropy, fills, ok_bind]
      refine ⟨0, _, h₇, rfl, .inl ⟨.inr ⟨got', ?_⟩, rebuilt⟩⟩
      rw [← decided]
      exact Bool.eq_false_iff.mpr entropy

end Rebuild

section Pairs

variable {h : Heap (Object L)} {touched : Nat → Prop}

/-- Generating a private key gives a new key, or leaves nothing. -/
theorem cryptoCompatRSAGenerateKey_spec (R : Randomness L) (h : Heap (Object L)) (e : Bignum L) :
    ∃ key h', cryptoCompatRSAGenerateKey R h e = .ok (key, h') ∧
      Heap.Frame (fun _ => False) h h' ∧
      ∀ id, key = some id → h.next ≤ id ∧ h'.objects id = some (.rsa (R.rsa id).toList) := by
  obtain ⟨exponent, h₁, alloc, first, outcome⟩ := Heap.alloc_spec h (.bignum e)
  rw [cryptoCompatRSAGenerateKey, alloc]
  rcases outcome with rfl | ⟨rfl, number⟩
  · exact ⟨none, h₁, rfl, first, fun _ absurdity => nomatch absurdity⟩
  obtain ⟨key, h₂, alloc', second, outcome'⟩ := Heap.alloc_spec h₁ (.rsa [])
  simp only [alloc']
  have number₂ := second.keeps number fun absurdity => absurdity
  have both := first.trans second fun _ _ absurdity => absurdity
  have used := Heap.lt_next number
  have newer : ∀ {h₃ : Heap (Object L)}, Heap.Frame (fun _ => False) h h₃ →
      h₃.objects h.next = some (.bignum e) → ∃ h₄, h₃.free (some h.next) = .ok h₄ ∧
        Heap.Frame (fun _ => False) h h₄ ∧
        h₄.objects = Function.update h₃.objects h.next none := by
    intro h₃ frame there
    obtain ⟨h₄, free, objects, next, _⟩ := Heap.free_ok there
    have touch : Heap.Frame (· = h.next) h₃ h₄ := .update next objects rfl
    refine ⟨h₄, free, frame.trans touch ?_, objects⟩
    rintro _ old rfl
    exact Nat.lt_irrefl _ old
  rcases outcome' with rfl | ⟨rfl, live⟩
  · obtain ⟨h₃, free, frame, _⟩ := newer both number₂
    simp only [free, ok_bind]
    exact ⟨none, h₃, rfl, frame, fun _ absurdity => nomatch absurdity⟩
  have attempted : Heap.Frame (fun _ => False) h₂ h₂.attempt.2 := Heap.attempt_frame h₂
  have live₃ := attempted.keeps live fun absurdity => absurdity
  have number₃ := attempted.keeps number₂ fun absurdity => absurdity
  have frame₃ := both.trans attempted fun _ _ absurdity => absurdity
  have apart : h₁.next ≠ h.next := Nat.ne_of_gt used
  have onlyKey : ∀ {h₄ : Heap (Object L)}, Heap.Frame (· = h₁.next) h₂.attempt.2 h₄ →
      Heap.Frame (fun _ => False) h h₄ ∧ h₄.objects h.next = some (.bignum e) := by
    intro h₄ touch
    refine ⟨frame₃.trans touch ?_, touch.keeps number₃ (Ne.symm apart)⟩
    rintro _ old rfl
    omega
  by_cases fails : h₂.attempt.1 = true
  · obtain ⟨h₄, free, objects, next, _⟩ := Heap.free_ok live₃
    have freed : rsaFree h₂.attempt.2 (some h₁.next) = .ok h₄ := by
      rw [rsaFree, Heap.read_ok live₃, ok_bind]
      exact free
    obtain ⟨frame₄, number₄⟩ := onlyKey (.update next objects rfl)
    obtain ⟨h₅, free', frame, _⟩ := newer frame₄ number₄
    simp only [if_pos fails, freed, ok_bind, free']
    exact ⟨none, h₅, rfl, frame, fun _ absurdity => nomatch absurdity⟩
  · obtain ⟨h₄, write, objects, next, _⟩ := Heap.write_ok live₃ (.rsa (R.rsa h₁.next).toList)
    obtain ⟨frame₄, number₄⟩ := onlyKey (.update next objects rfl)
    obtain ⟨h₅, free', frame, objects'⟩ := newer frame₄ number₄
    simp only [if_neg fails, write, ok_bind, free']
    refine ⟨some h₁.next, h₅, rfl, frame, ?_⟩
    rintro _ ⟨⟩
    refine ⟨Nat.le_of_lt used, ?_⟩
    rw [objects', Function.update_of_ne apart, objects, Function.update_self]

/-- Generating an RSA key frees both old keys and leaves both slots empty or with new keys. -/
theorem generateRSA_spec (R : Randomness L) (e : Bignum L) {priv pub : Option Nat}
    (completePriv : ∀ id, priv = some id → Complete h id (.rsa 8))
    (completePub : ∀ id, pub = some id → Complete h id (.rsa 2))
    (apart : ∀ id id', priv = some id → pub = some id' → id ≠ id') :
    ∃ rc priv' pub' h', cryptoKeysSubrGenerateRSA R e h priv pub = .ok (rc, priv', pub', h') ∧
      Heap.Frame (fun id => Old h priv id ∨ Old h pub id) h h' ∧
      (∀ id, priv' = some id → h.next ≤ id ∧ Complete h' id (.rsa 8)) ∧
      (∀ id, pub' = some id → h.next ≤ id ∧ Complete h' id (.rsa 2)) ∧
      (∀ id id', priv' = some id → pub' = some id' → id ≠ id') := by
  obtain ⟨h₁, free, first⟩ := rsaFree_spec completePriv
  have completePub₁ : ∀ id, pub = some id → Complete h₁ id (.rsa 2) ∧ parts h₁ id = parts h id := by
    intro id same
    refine (completePub id same).frame first ?_
    rintro part member ⟨old, oldSame, oldMember⟩
    obtain ⟨ints, live, _⟩ := completePub id same
    obtain ⟨ints', live', _⟩ := completePriv old oldSame
    rw [parts_rsa live, List.mem_singleton] at member
    rw [parts_rsa live', List.mem_singleton] at oldMember
    exact apart old id oldSame same (oldMember ▸ member)
  obtain ⟨h₂, free', second⟩ := rsaFree_spec fun id same => (completePub₁ id same).1
  have both : Heap.Frame (fun id => Old h priv id ∨ Old h pub id) h h₂ := by
    have wide : Heap.Frame (fun id => Old h priv id ∨ Old h pub id) h h₁ :=
      ⟨first.next, fun id old other => first.same id old fun touch => other (.inl touch)⟩
    refine wide.trans second ?_
    rintro id _ ⟨k, same, member⟩
    rw [(completePub₁ k same).2] at member
    exact .inr ⟨k, same, member⟩
  obtain ⟨key, h₃, generates, third, found⟩ := cryptoCompatRSAGenerateKey_spec R h₂ e
  have frame₃ := both.trans third fun _ _ absurdity => absurdity.elim
  rw [cryptoKeysSubrGenerateRSA, free, ok_bind, free', ok_bind, generates, ok_bind]
  cases key with
  | none =>
    exact ⟨-1, none, none, h₃, rfl, frame₃, (fun _ absurdity => nomatch absurdity),
      (fun _ absurdity => nomatch absurdity), fun _ _ absurdity => nomatch absurdity⟩
  | some id =>
    obtain ⟨new, live⟩ := found id rfl
    obtain ⟨dup, h₄, alloc, fourth, outcome⟩ :=
      Heap.alloc_spec h₃ (.rsa ((R.rsa id).toList.take 2))
    have live₄ := fourth.keeps live fun absurdity => absurdity
    have frame₄ := frame₃.trans fourth fun _ _ absurdity => absurdity.elim
    have old := both.next
    simp only [alloc]
    rcases outcome with rfl | ⟨rfl, duplicate⟩
    · obtain ⟨h₅, frees, fifth⟩ := @rsaFree_spec _ h₄ (some id) _
        (by rintro _ ⟨⟩; exact ⟨_, live₄, rfl⟩)
      simp only [frees, ok_bind]
      refine ⟨-1, none, none, h₅, rfl, frame₄.trans fifth ?_,
        (fun _ absurdity => nomatch absurdity), (fun _ absurdity => nomatch absurdity),
        fun _ _ absurdity => nomatch absurdity⟩
      rintro other less ⟨_, ⟨⟩, member⟩
      rw [parts_rsa live₄, List.mem_singleton] at member
      omega
    · have used := Heap.lt_next live
      refine ⟨0, some id, some h₃.next, h₄, rfl, frame₄, ?_, ?_, ?_⟩
      · rintro _ ⟨⟩
        exact ⟨by omega, _, live₄, (R.rsa id).toList_length⟩
      · rintro _ ⟨⟩
        refine ⟨by omega, _, duplicate, ?_⟩
        rw [List.length_take, (R.rsa id).toList_length]
        rfl
      · rintro _ _ ⟨⟩ ⟨⟩
        exact Nat.ne_of_lt used

end Pairs

section Owners

/-- Each of these slots is empty or owns the objects of a complete key. -/
def Owned (left : Slot → Prop) (keys : Keys L) : Prop :=
  ∃ owner : Nat → Option Slot, ∀ s, left s → ∀ id, keys.slots s = some id →
    Complete keys.heap id s.encoding ∧ ∀ part ∈ parts keys.heap id, owner part = some s

/-- Each slot is empty or points to a complete key that was not freed. -/
def Valid (keys : Keys L) : Prop :=
  ∀ s id, keys.slots s = some id → Complete keys.heap id s.encoding

/-- Slots that own their keys are valid. -/
theorem Owned.valid {keys : Keys L} (owned : Owned (fun _ => True) keys) : Valid keys := by
  obtain ⟨owner, owns⟩ := owned
  exact fun s id same => (owns s trivial id same).1

/-- Slots whose objects are not touched own their keys. -/
theorem Owned.frame {left : Slot → Prop} {keys : Keys L} {owner : Nat → Option Slot}
    (owns : ∀ s, left s → ∀ id, keys.slots s = some id →
      Complete keys.heap id s.encoding ∧ ∀ part ∈ parts keys.heap id, owner part = some s)
    {h' : Heap (Object L)} {touched : Nat → Prop}
    (frame : Heap.Frame touched keys.heap h') {s : Slot} (inside : left s) {id : Nat}
    (same : keys.slots s = some id)
    (apart : ∀ part, owner part = some s → ¬touched part) :
    Complete h' id s.encoding ∧
      ∀ part ∈ parts h' id, part < keys.heap.next ∧ owner part = some s := by
  obtain ⟨complete, owned⟩ := owns s inside id same
  obtain ⟨complete', parts'⟩ := complete.frame frame fun part member =>
    apart part (owned part member)
  rw [parts']
  exact ⟨complete', fun part member => ⟨complete.live part member, owned part member⟩⟩

/-- A rebuilt slot owns its key, and the other slots still own theirs. -/
theorem Owned.rebuild {keys : Keys L} (owned : Owned (fun _ => True) keys) {s : Slot}
    {h' : Heap (Object L)} {key' : Option Nat}
    (rebuilt : Rebuilt s.encoding keys.heap h' (keys.slots s) key') :
    Owned (fun _ => True) ⟨h', Function.update keys.slots s key'⟩ := by
  obtain ⟨owner, owns⟩ := owned
  refine ⟨fun part => if part < keys.heap.next then owner part else some s, ?_⟩
  intro t _ id same
  by_cases here : t = s
  · subst here
    simp only [Function.update_self] at same
    refine ⟨rebuilt.complete id same, fun part member => ?_⟩
    have new := rebuilt.new id same part member
    exact if_neg (Nat.not_lt.mpr new)
  · simp only [Function.update_of_ne here] at same
    have apart : ∀ part, owner part = some t → ¬Old keys.heap (keys.slots s) part := by
      rintro part ours ⟨old, theirs, member⟩
      have other := (owns s trivial old theirs).2 part member
      rw [ours] at other
      exact here (Option.some.inj other)
    obtain ⟨complete, owned⟩ := Owned.frame owns rebuilt.frame trivial same apart
    refine ⟨complete, fun part member => ?_⟩
    obtain ⟨old, ours⟩ := owned part member
    simp only [if_pos old]
    exact ours

/-- A slot whose key is freed no longer owns it, and the other slots still own theirs. -/
theorem Owned.release {left : Slot → Prop} {keys : Keys L} (owned : Owned left keys) {s : Slot}
    (inside : left s) {h' : Heap (Object L)}
    (frame : Heap.Frame (Old keys.heap (keys.slots s)) keys.heap h') {slots : Slot → Option Nat}
    (same : ∀ t, t ≠ s → slots t = keys.slots t) :
    Owned (fun t => left t ∧ t ≠ s) ⟨h', slots⟩ := by
  obtain ⟨owner, owns⟩ := owned
  refine ⟨owner, ?_⟩
  rintro t ⟨inside', other⟩ id pointer
  simp only [same t other] at pointer
  have apart : ∀ part, owner part = some t → ¬Old keys.heap (keys.slots s) part := by
    rintro part ours ⟨old, theirs, member⟩
    have mine := (owns s inside old theirs).2 part member
    rw [ours] at mine
    exact other (Option.some.inj mine)
  obtain ⟨complete, owned⟩ := Owned.frame owns frame inside' pointer apart
  exact ⟨complete, fun part member => (owned part member).2⟩

/-- The key of a slot that owns it can be read. -/
theorem Owned.read {keys : Keys L} (owned : Owned (fun _ => True) keys) (s : Slot) :
    ∃ found, readSlot keys s = .ok found := by
  rw [readSlot]
  cases pointer : keys.slots s with
  | none => exact ⟨none, rfl⟩
  | some id =>
    have complete := owned.valid s id pointer
    generalize s.encoding = e at complete
    cases e with
    | rsa count =>
      obtain ⟨ints, live, _⟩ := complete
      simp only [Heap.read_ok live, ok_bind]
      exact ⟨_, rfl⟩
    | hmac =>
      obtain ⟨buf, content, live, inner⟩ := complete
      simp only [Heap.read_ok live, ok_bind, Heap.read_ok inner]
      exact ⟨_, rfl⟩

end Owners

section Exit

/-- The slots for RSA keys are freed one after the other. -/
theorem freeRsaSlots_spec {slots : List Slot} (nodup : slots.Nodup)
    (rsa : ∀ s ∈ slots, ∃ count, s.encoding = .rsa count) :
    ∀ {left : Slot → Prop} {keys : Keys L}, Owned left keys → (∀ s ∈ slots, left s) →
      ∃ h', slots.foldlM (fun h s => rsaFree h (keys.slots s)) keys.heap = .ok h' ∧
        Owned (fun t => left t ∧ t ∉ slots) ⟨h', keys.slots⟩ := by
  induction slots with
  | nil =>
    intro left keys owned _
    obtain ⟨owner, owns⟩ := owned
    exact ⟨keys.heap, rfl, owner, fun s inside => owns s inside.1⟩
  | cons s slots ih =>
    intro left keys owned inside
    have fresh := List.nodup_cons.mp nodup
    obtain ⟨count, encoding⟩ := rsa s List.mem_cons_self
    have complete : ∀ id, keys.slots s = some id → Complete keys.heap id (.rsa count) := by
      intro id same
      obtain ⟨owner, owns⟩ := owned
      rw [← encoding]
      exact (owns s (inside s List.mem_cons_self) id same).1
    obtain ⟨h₁, free, frame⟩ := rsaFree_spec complete
    have released := owned.release (inside s List.mem_cons_self) frame fun _ _ => rfl
    obtain ⟨h', frees, rest⟩ := ih fresh.2 (fun t member => rsa t (List.mem_cons_of_mem _ member))
      released fun t member => ⟨inside t (List.mem_cons_of_mem _ member), by
        rintro rfl
        exact fresh.1 member⟩
    refine ⟨h', ?_, ?_⟩
    · rw [List.foldlM_cons, free, ok_bind]
      exact frees
    · obtain ⟨owner, owns⟩ := rest
      refine ⟨owner, fun t inside' => owns t ?_⟩
      obtain ⟨outside, later⟩ := not_or.mp (fun member => inside'.2 (List.mem_cons.mpr member))
      exact ⟨⟨inside'.1, outside⟩, later⟩

/-- The slots for HMAC keys are freed one after the other. -/
theorem freeHmacSlots_spec {slots : List Slot} (nodup : slots.Nodup)
    (hmac : ∀ s ∈ slots, s.encoding = .hmac) :
    ∀ {left : Slot → Prop} {keys : Keys L}, Owned left keys → (∀ s ∈ slots, left s) →
      ∃ keys', slots.foldlM (fun (keys : Keys L) s => do
        let h ← hmacFree keys.heap (keys.slots s)
        return (⟨h, Function.update keys.slots s none⟩ : Keys L)) keys = .ok keys' := by
  induction slots with
  | nil => exact fun {_ keys} _ _ => ⟨keys, rfl⟩
  | cons s slots ih =>
    intro left keys owned inside
    have fresh := List.nodup_cons.mp nodup
    have complete : ∀ id, keys.slots s = some id → Complete keys.heap id .hmac := by
      intro id same
      obtain ⟨owner, owns⟩ := owned
      rw [← hmac s List.mem_cons_self]
      exact (owns s (inside s List.mem_cons_self) id same).1
    obtain ⟨h₁, free, frame, _⟩ := hmacFree_spec complete
    have released := owned.release (inside s List.mem_cons_self) frame fun t other =>
      Function.update_of_ne other none keys.slots
    obtain ⟨keys', frees⟩ := ih fresh.2 (fun t member => hmac t (List.mem_cons_of_mem _ member))
      released fun t member => ⟨inside t (List.mem_cons_of_mem _ member), by
        rintro rfl
        exact fresh.1 member⟩
    refine ⟨keys', ?_⟩
    rw [List.foldlM_cons, free, ok_bind, pure_eq_ok, ok_bind]
    exact frees

/-- At exit no key is freed twice. -/
theorem cryptoKeysAtexit_spec {keys : Keys L} (owned : Owned (fun _ => True) keys) :
    ∃ last, cryptoKeysAtexit keys = .ok last := by
  have rsa : ∀ s ∈ rsaSlots, ∃ count, s.encoding = .rsa count := by
    have other : ∀ s ∈ rsaSlots, s.encoding ≠ .hmac := by decide
    intro s member
    cases encoding : s.encoding with
    | rsa count => exact ⟨count, rfl⟩
    | hmac => exact absurd encoding (other s member)
  obtain ⟨h₁, frees, rest⟩ := freeRsaSlots_spec (by decide) rsa owned fun _ _ => trivial
  obtain ⟨last, frees'⟩ := @freeHmacSlots_spec _ hmacSlots (by decide) (by decide) _ _ rest
    fun s member => ⟨trivial, by revert s; decide⟩
  refine ⟨last, ?_⟩
  rw [cryptoKeysAtexit, frees, ok_bind]
  exact frees'

end Exit

section Runs

variable (R : Randomness L) (e : Bignum L)

/-- An operation meets no failure behind which a slot keeps a pointer. -/
def Op.Spares (op : Op) (fates : List Bool) : Prop :=
  match op with
  | .importKey _ _ => True
  | .generateRSA _ => True
  | .generateHMAC _ _ => Gets fates

/-- No operation of a run meets such a failure. -/
def Spared (keys : Keys L) : List Op → Prop
  | [] => True
  | op :: ops => op.Spares keys.heap.fates ∧
    ∀ rc keys', step R e keys op = .ok (rc, keys') → Spared keys' ops

/-- Each slot is empty or points to a complete key that was not freed, every key can be read, and
the program can exit. -/
structure Sound (keys : Keys L) : Prop where
  /-- Each slot is empty or valid. -/
  valid : Valid keys
  /-- Every key can be read. -/
  read : ∀ s, ∃ found, readSlot keys s = .ok found
  /-- The program can exit. -/
  atexit : ∃ last, cryptoKeysAtexit keys = .ok last

/-- Throughout a run the key cache is sound, and no operation uses or frees a key that was freed. -/
def SoundRun (keys : Keys L) : List Op → Prop
  | [] => Sound keys
  | op :: ops => Sound keys ∧
    ∃ rc keys', step R e keys op = .ok (rc, keys') ∧ SoundRun keys' ops

variable {R e} {keys : Keys L}

/-- Slots that own their keys are sound. -/
theorem Owned.sound (owned : Owned (fun _ => True) keys) : Sound keys :=
  ⟨owned.valid, owned.read, cryptoKeysAtexit_spec owned⟩

/-- Importing a key rebuilds its slot. -/
theorem importSlot_spec {h : Heap (Object L)} {key : Option Nat} (s : Slot)
    (complete : ∀ id, key = some id → Complete h id s.encoding) (data : List UInt8) :
    ∃ rc key' h', importSlot s h key data = .ok (rc, key', h') ∧
      Rebuilt s.encoding h h' key key' := by
  have priv : ∀ ids : List Nat, [ids.take 3, (ids.drop 3).take 2, ids.drop 5].flatten = ids := by
    intro ids
    have later : (ids.drop 3).take 2 ++ ids.drop 5 = ids.drop 3 := by
      have split := List.take_append_drop 2 (ids.drop 3)
      rwa [List.drop_drop] at split
    rw [List.flatten_cons, List.flatten_cons, List.flatten_singleton, later,
      List.take_append_drop]
  have pub : ∀ ids : List Nat, [ids].flatten = ids := fun ids => List.flatten_singleton
  cases s with
  | signPriv | encrPriv => exact importRSASlot_spec priv complete data
  | signPub | encrPub | rootPub => exact importRSASlot_spec pub complete data
  | hmacFile | hmacFileWrite | hmacChunk | hmacName | hmacCparams | authPut | authGet
    | authDelete => exact importHMAC_spec complete data

/-- The objects of a complete RSA key. -/
theorem Complete.parts_rsa {h : Heap (Object L)} {id count : Nat}
    (complete : Complete h id (.rsa count)) : parts h id = [id] := by
  obtain ⟨ints, live, _⟩ := complete
  exact KeySlots.parts_rsa live

/-- The two slots of a key pair own different keys. -/
theorem Owned.apart {pair : KeyPair} (owned : Owned (fun _ => True) keys) (id id' : Nat)
    (priv : keys.slots pair.priv = some id) (pub : keys.slots pair.pub = some id') : id ≠ id' := by
  rintro rfl
  obtain ⟨owner, owns⟩ := owned
  obtain ⟨complete, first⟩ := owns _ trivial id priv
  obtain ⟨_, second⟩ := owns _ trivial id pub
  have here : id ∈ parts keys.heap id := by
    rw [parts]
    split
    · exact List.mem_cons_self
    · exact List.mem_cons_self
  have same := (first id here).symm.trans (second id here)
  cases pair with
  | sign => exact nomatch same
  | encr => exact nomatch same

/-- Two slots that were rebuilt with a key pair own their keys, and the other slots still own
theirs. -/
theorem Owned.pair {pair : KeyPair} (owned : Owned (fun _ => True) keys)
    {h' : Heap (Object L)} {priv pub : Option Nat}
    (frame : Heap.Frame (fun id => Old keys.heap (keys.slots pair.priv) id ∨
      Old keys.heap (keys.slots pair.pub) id) keys.heap h')
    (newPriv : ∀ id, priv = some id → keys.heap.next ≤ id ∧ Complete h' id (.rsa 8))
    (newPub : ∀ id, pub = some id → keys.heap.next ≤ id ∧ Complete h' id (.rsa 2))
    (apart : ∀ id id', priv = some id → pub = some id' → id ≠ id') :
    Owned (fun _ => True)
      ⟨h', Function.update (Function.update keys.slots pair.priv priv) pair.pub pub⟩ := by
  have encodingPriv : pair.priv.encoding = .rsa 8 := by cases pair <;> rfl
  have encodingPub : pair.pub.encoding = .rsa 2 := by cases pair <;> rfl
  obtain ⟨owner, owns⟩ := owned
  refine ⟨fun part => if part < keys.heap.next then owner part
    else if priv = some part then some pair.priv else some pair.pub, ?_⟩
  intro t _ id same
  by_cases isPub : t = pair.pub
  · subst isPub
    simp only [Function.update_self] at same
    obtain ⟨new, complete⟩ := newPub id same
    rw [encodingPub]
    refine ⟨complete, fun part member => ?_⟩
    rw [complete.parts_rsa, List.mem_singleton] at member
    have other : priv ≠ some part := fun first => apart part id first same member
    simp only [if_neg (show ¬part < keys.heap.next by omega), if_neg other]
  · simp only [Function.update_of_ne isPub] at same
    by_cases isPriv : t = pair.priv
    · subst isPriv
      simp only [Function.update_self] at same
      obtain ⟨new, complete⟩ := newPriv id same
      rw [encodingPriv]
      refine ⟨complete, fun part member => ?_⟩
      rw [complete.parts_rsa, List.mem_singleton] at member
      subst member
      simp only [if_neg (show ¬part < keys.heap.next by omega), if_pos same]
    · simp only [Function.update_of_ne isPriv] at same
      have untouched : ∀ part, owner part = some t →
          ¬(Old keys.heap (keys.slots pair.priv) part ∨
            Old keys.heap (keys.slots pair.pub) part) := by
        rintro part ours (⟨old, theirs, member⟩ | ⟨old, theirs, member⟩)
        · have other := (owns _ trivial old theirs).2 part member
          rw [ours] at other
          exact isPriv (Option.some.inj other)
        · have other := (owns _ trivial old theirs).2 part member
          rw [ours] at other
          exact isPub (Option.some.inj other)
      obtain ⟨complete, owned⟩ := Owned.frame owns frame trivial same untouched
      refine ⟨complete, fun part member => ?_⟩
      obtain ⟨old, ours⟩ := owned part member
      simp only [if_pos old]
      exact ours

/-- An operation that is spared leaves every slot with what it owns. -/
theorem step_owned (owned : Owned (fun _ => True) keys) {op : Op}
    (spares : op.Spares keys.heap.fates) :
    ∃ rc keys', step R e keys op = .ok (rc, keys') ∧ Owned (fun _ => True) keys' := by
  cases op with
  | importKey s data =>
    obtain ⟨rc, key', h', made, rebuilt⟩ := importSlot_spec s (owned.valid s) data
    exact ⟨rc, _, by rw [step, made]; rfl, owned.rebuild rebuilt⟩
  | generateHMAC s hmac =>
    obtain ⟨rc, key', h', made, ⟨_, rebuilt⟩ | ⟨fails, _⟩⟩ :=
      generateHMAC_spec R (fun id same => hmac ▸ owned.valid s id same)
    · exact ⟨rc, _, by rw [step, made]; rfl, owned.rebuild (hmac ▸ rebuilt)⟩
    · exact absurd spares fails
  | generateRSA pair =>
    have encodingPriv : pair.priv.encoding = .rsa 8 := by cases pair <;> rfl
    have encodingPub : pair.pub.encoding = .rsa 2 := by cases pair <;> rfl
    obtain ⟨rc, priv, pub, h', made, frame, newPriv, newPub, apart⟩ := generateRSA_spec R e
      (fun id same => encodingPriv ▸ owned.valid _ id same)
      (fun id same => encodingPub ▸ owned.valid _ id same) owned.apart
    exact ⟨rc, _, by rw [step, made]; rfl, owned.pair frame newPriv newPub apart⟩

/-- An operation that is not spared leaves a slot with a pointer to what was freed. -/
theorem step_dangling (owned : Owned (fun _ => True) keys) {op : Op}
    (fails : ¬op.Spares keys.heap.fates) :
    ∃ rc keys', step R e keys op = .ok (rc, keys') ∧ ¬Valid keys' := by
  cases op with
  | importKey s data => exact absurd trivial fails
  | generateRSA pair => exact absurd trivial fails
  | generateHMAC s hmac =>
    obtain ⟨rc, key', h', made, ⟨gets, _⟩ | ⟨_, _, id, same, gone⟩⟩ :=
      generateHMAC_spec R (fun id same => hmac ▸ owned.valid s id same)
    · exact absurd gets fails
    · refine ⟨rc, _, by rw [step, made]; rfl, fun valid => ?_⟩
      have pointer : (Function.update keys.slots s key') s = some id := by
        rw [Function.update_self]
        exact same
      have complete := valid s id pointer
      rw [hmac] at complete
      obtain ⟨buf, content, live, _⟩ := complete
      simp only [gone] at live
      exact nomatch live

/-- The key cache is sound throughout a run of imports and generations, whatever fails in it,
exactly when no generation of an HMAC key fails behind the allocation of its structure. -/
theorem keycache_sound_iff (R : Randomness L) (e : Bignum L) (fates : List Bool) (ops : List Op) :
    SoundRun R e (cryptoKeysInitKeycache fates) ops ↔
      Spared R e (cryptoKeysInitKeycache fates) ops := by
  have general : ∀ keys : Keys L, Owned (fun _ => True) keys →
      (SoundRun R e keys ops ↔ Spared R e keys ops) := by
    induction ops with
    | nil => exact fun keys owned => ⟨fun _ => trivial, fun _ => owned.sound⟩
    | cons op ops ih =>
      intro keys owned
      constructor
      · rintro ⟨_, rc, keys', made, later⟩
        have spares : op.Spares keys.heap.fates := by
          by_contra fails
          obtain ⟨rc', other, made', dangling⟩ := @step_dangling _ R e _ owned _ fails
          rw [made] at made'
          cases made'
          have sound : Sound keys' := by
            cases ops with
            | nil => exact later
            | cons _ _ => exact later.1
          exact dangling sound.valid
        refine ⟨spares, fun rc' other made' => ?_⟩
        rw [made] at made'
        cases made'
        obtain ⟨rc', other, made', owned'⟩ := @step_owned _ R e _ owned _ spares
        rw [made] at made'
        cases made'
        exact (ih keys' owned').mp later
      · rintro ⟨spares, later⟩
        obtain ⟨rc, keys', made, owned'⟩ := @step_owned _ R e _ owned _ spares
        exact ⟨owned.sound, rc, keys', made, (ih keys' owned').mpr (later rc keys' made)⟩
  have start : Owned (fun _ => True) (cryptoKeysInitKeycache (L := L) fates) :=
    ⟨fun _ => none, fun _ _ _ absurdity => nomatch absurdity⟩
  exact general _ start

/-- No integer but zero. -/
def zeroLimit : BignumLimit := ⟨0, by decide⟩

/-- No byte is none that is zero. -/
theorem zeroInt_normal : ([] : List UInt8).getLast? ≠ some 0 := by decide

/-- The integer zero. -/
def zeroInt : Bignum zeroLimit := ⟨[], zeroInt_normal, by decide⟩

/-- Keys of zeros. -/
def zeroRandomness : Randomness zeroLimit where
  rsa _ := List.Vector.replicate 8 zeroInt
  entropy _ := List.Vector.replicate 32 0

/-- The file HMAC key is generated, and the entropy source fails. -/
theorem keycache_dangling : ¬∀ (L : BignumLimit) (R : Randomness L) (e : Bignum L)
    (fates : List Bool) (ops : List Op), SoundRun R e (cryptoKeysInitKeycache fates) ops := by
  intro sound
  obtain ⟨_, rc, keys', made, later⟩ :=
    sound zeroLimit zeroRandomness zeroInt [false, false, true] [.generateHMAC .hmacFile rfl]
  have start : Owned (fun _ => True)
      (cryptoKeysInitKeycache (L := zeroLimit) [false, false, true]) :=
    ⟨fun _ => none, fun _ _ _ absurdity => nomatch absurdity⟩
  have fails : ¬(Op.generateHMAC .hmacFile rfl).Spares [false, false, true] := by
    rintro (absurdity | ⟨_, absurdity⟩)
    · exact nomatch absurdity
    · exact nomatch absurdity
  obtain ⟨rc', other, made', dangling⟩ := @step_dangling _ zeroRandomness zeroInt _ start _ fails
  rw [made] at made'
  cases made'
  exact dangling later.valid

/-- At exit the freed structure is read. -/
example : ∃ keys', step zeroRandomness zeroInt (cryptoKeysInitKeycache [false, false, true])
    (.generateHMAC .hmacFile rfl) = .ok (-1, keys') ∧
      (cryptoKeysAtexit keys').toOption.isNone = true := ⟨_, rfl, rfl⟩

end Runs

end Tarsnap.Crypto.KeySlots
