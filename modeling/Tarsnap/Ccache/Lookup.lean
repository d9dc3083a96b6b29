import Tarsnap.Ccache.Entry
import Tarsnap.Multitape.Run

/-!
# The promise of a full entry

A lookup promises that the cache can provide an archive entry. The promise is kept unless the
length of a trailer was counted that does not decompress, or the chunks before a missing one are
already as long as the file, or the tape refuses the trailer because it is truncated.
-/

namespace Tarsnap.Ccache

open Tarsnap.Lib Tarsnap.Chunks Tarsnap.Chunkify Tarsnap.Multitape

variable {P : Params} {κ : Type}

section Available

/-- The total length of some chunks. -/
def chunkBytes (chp : List ChunkHeader) : Nat := (chp.map (·.len.toNat)).sum

/-- The chunks at the start that are present. -/
def leading (d : TapeW P κ) (chp : List ChunkHeader) : List ChunkHeader :=
  chp.takeWhile fun ch => writetapeIschunkpresent d ch ≠ 0

/-- All chunks are present. -/
def AllPresent (d : TapeW P κ) (chp : List ChunkHeader) : Prop :=
  ∀ ch ∈ chp, writetapeIschunkpresent d ch ≠ 0

instance (d : TapeW P κ) (chp : List ChunkHeader) : Decidable (AllPresent d chp) :=
  inferInstanceAs (Decidable (∀ ch ∈ chp, writetapeIschunkpresent d ch ≠ 0))

/-- The record has the given data of a file. -/
def CcacheRecord.SameFile (ccr : CcacheRecord) (sb : Stat) : Prop :=
  sb.ino = ccr.ino ∧ sb.size = ccr.size ∧ sb.mtime = ccr.mtime

instance (ccr : CcacheRecord) (sb : Stat) : Decidable (ccr.SameFile sb) :=
  inferInstanceAs (Decidable (_ ∧ _ ∧ _))

variable {d : TapeW P κ}

/-- A chunk that is present has the length in its header. -/
theorem writetapeIschunkpresent_len {ch : ChunkHeader} (here : writetapeIschunkpresent d ch ≠ 0) :
    writetapeIschunkpresent d ch = ch.len.toNat := by
  unfold writetapeIschunkpresent at here ⊢
  split at here
  · rename_i found
    rw [if_pos found]
  · exact absurd rfl here

/-- The lookup counts the present chunks at the start and their lengths. -/
theorem availableChunks_eq (d : TapeW P κ) (chp : List ChunkHeader) (cnum skiplen : Nat) :
    availableChunks d chp cnum skiplen =
      (cnum + (leading d chp).length, skiplen + chunkBytes (leading d chp)) := by
  induction chp generalizing cnum skiplen with
  | nil => rfl
  | cons ch rest ih =>
    rw [availableChunks]
    by_cases missing : writetapeIschunkpresent d ch = 0
    · simp [missing, leading, chunkBytes]
    · have here : leading d (ch :: rest) = ch :: leading d rest := by
        rw [leading, List.takeWhile_cons, if_pos (decide_eq_true missing)]
        rfl
      have total : chunkBytes (ch :: leading d rest) =
          writetapeIschunkpresent d ch + chunkBytes (leading d rest) := by
        rw [writetapeIschunkpresent_len missing]
        rfl
      simp only [missing, if_false, here, ih, List.length_cons, total]
      rw [Nat.add_assoc, Nat.add_assoc, Nat.add_comm 1]

/-- All chunks are present if and only if the lookup counts all of them. -/
theorem leading_length_iff (d : TapeW P κ) (chp : List ChunkHeader) :
    (leading d chp).length = chp.length ↔ AllPresent d chp := by
  induction chp with
  | nil => simp [leading, AllPresent]
  | cons ch rest ih =>
    by_cases missing : writetapeIschunkpresent d ch = 0
    · simp [leading, AllPresent, missing]
    · have here : leading d (ch :: rest) = ch :: leading d rest := by
        rw [leading, List.takeWhile_cons, if_pos (decide_eq_true missing)]
        rfl
      rw [here, List.length_cons, List.length_cons, Nat.succ_inj, ih]
      simp [AllPresent, missing]

/-- When all chunks are present, they are the present ones at the start. -/
theorem AllPresent.leading {chp : List ChunkHeader} (all : AllPresent d chp) :
    leading d chp = chp := by
  have prefix_ : Ccache.leading d chp <+: chp := List.takeWhile_prefix _
  exact prefix_.eq_of_length ((leading_length_iff d chp).mpr all)

end Available

section Lookup

variable {K : Crypto} {cache : Cache} {path : Path} {sb : Stat} {d : TapeW P κ}
  {ccr : CcacheRecord}

/-- The record can provide the archive entry. -/
def CanProvide (K : Crypto) (d : TapeW P κ) (ccr : CcacheRecord) (sb : Stat) : Prop :=
  ccr.SameFile sb ∧ AllPresent d ccr.chp ∧
    sb.size ≤ ((chunkBytes ccr.chp + ((decompressTrailer K ccr).elim 0 List.length) : Nat) : Int)

/-- The trailer of the record is needed for the archive entry, and long enough. -/
def TrailerUsed (d : TapeW P κ) (ccr : CcacheRecord) (sb : Stat) : Prop :=
  ccr.SameFile sb ∧ AllPresent d ccr.chp ∧ 0 < ccr.tlen ∧
    sb.size ≤ ((chunkBytes ccr.chp + ccr.tlen : Nat) : Int)

instance (d : TapeW P κ) (ccr : CcacheRecord) (sb : Stat) : Decidable (TrailerUsed d ccr sb) :=
  inferInstanceAs (Decidable (_ ∧ _ ∧ _ ∧ _))

/-- An entry that has been looked up, with its decompressed trailer. -/
def lookedUp (cache : Cache) (path : Path) (sb : Stat) (ccr : CcacheRecord)
    (trailer : Option (List UInt8)) : CcacheEntry where
  cci := cache
  ccr := ccr
  ccrp := some path
  hittrailer := false
  trailer
  inoNew := sb.ino
  sizeNew := sb.size
  mtimeNew := sb.mtime

/-- The result of a lookup that finds a record. -/
theorem ccacheEntryLookup_found (found : cache.tree.lookup path = some ccr) :
    ccacheEntryLookup K cache path sb d =
      if TrailerUsed d ccr sb then
        ((lookedUp cache path sb ccr (decompressTrailer K ccr)).dropTrailer, true,
          (decompressTrailer K ccr).isNone)
      else ((lookedUp cache path sb ccr none).dropTrailer,
        decide ((((if ccr.SameFile sb then chunkBytes (leading d ccr.chp) else 0 : Nat) : Int)) ≥
          sb.size), false) := by
  have counts : (if (lookedUp cache path sb ccr none).Fresh then availableChunks d ccr.chp 0 0
      else (0, 0)) = (if ccr.SameFile sb then (leading d ccr.chp).length else 0,
        if ccr.SameFile sb then chunkBytes (leading d ccr.chp) else 0) := by
    have fresh : (lookedUp cache path sb ccr none).Fresh ↔ ccr.SameFile sb := Iff.rfl
    by_cases same : ccr.SameFile sb
    · rw [if_pos (fresh.mpr same), if_pos same, if_pos same, availableChunks_eq, Nat.zero_add,
        Nat.zero_add]
    · rw [if_neg (fun other => same (fresh.mp other)), if_neg same, if_neg same]
  have used : ((lookedUp cache path sb ccr none).Fresh ∧
      (if ccr.SameFile sb then (leading d ccr.chp).length else 0) = ccr.nch ∧ 0 < ccr.tlen ∧
      (((if ccr.SameFile sb then chunkBytes (leading d ccr.chp) else 0) + ccr.tlen : Nat) : Int) ≥
        sb.size) ↔ TrailerUsed d ccr sb := by
    constructor
    · intro condition
      obtain ⟨same, count, positive, long⟩ := condition
      have same : ccr.SameFile sb := same
      rw [if_pos same] at count long
      have all := (leading_length_iff d ccr.chp).mp count
      rw [all.leading] at long
      exact ⟨same, all, positive, long⟩
    · intro condition
      obtain ⟨same, all, positive, long⟩ := condition
      rw [if_pos same, if_pos same, all.leading]
      exact ⟨same, rfl, positive, long⟩
  have unfolded : ccacheEntryLookup K cache path sb d =
      (let available := (if (lookedUp cache path sb ccr none).Fresh then
        availableChunks d ccr.chp 0 0 else (0, 0))
      if (lookedUp cache path sb ccr none).Fresh ∧ available.1 = ccr.nch ∧ 0 < ccr.tlen ∧
          ((available.2 + ccr.tlen : Nat) : Int) ≥ sb.size then
        (CcacheEntry.dropTrailer
          (lookedUp cache path sb ccr (decompressTrailer K ccr)),
          decide (((available.2 + ccr.tlen : Nat) : Int) ≥ sb.size),
          (decompressTrailer K ccr).isNone)
      else ((lookedUp cache path sb ccr none).dropTrailer,
        decide ((available.2 : Int) ≥ sb.size), false)) := by
    unfold ccacheEntryLookup
    rw [found]
    rfl
  rw [unfolded, counts]
  simp only []
  by_cases condition : TrailerUsed d ccr sb
  · have long := (used.mpr condition).2.2.2
    rw [if_pos (used.mpr condition), if_pos condition, decide_eq_true long]
  · rw [if_neg (fun other => condition (used.mp other)), if_neg condition]

/-- A trailer that did not decompress is dropped, and nothing else. -/
theorem dropTrailer_fields (cce : CcacheEntry) :
    cce.dropTrailer.ccr.chp = cce.ccr.chp ∧ cce.dropTrailer.trailer = cce.trailer ∧
      (cce.dropTrailer.Fresh ↔ cce.Fresh) ∧
      (cce.trailer ≠ none → cce.dropTrailer = cce) := by
  unfold CcacheEntry.dropTrailer
  split
  · rename_i dropped
    exact ⟨rfl, rfl, Iff.rfl, fun kept => absurd dropped.1 kept⟩
  · exact ⟨rfl, rfl, Iff.rfl, fun _ => rfl⟩

/-- A decompressed trailer has the recorded length. -/
theorem decompressTrailer_length {trailer : List UInt8}
    (decompressed : decompressTrailer K ccr = some trailer) : trailer.length = ccr.tlen := by
  obtain ⟨out, _, checked⟩ := Option.bind_eq_some_iff.mp decompressed
  split at checked
  · rename_i length
    cases checked
    exact length
  · exact nomatch checked

end Lookup

section Write

variable {K : Crypto} {zlib : Zlib} {d d' : TapeW P κ}

/-- The tape is in data mode and holds nothing back. -/
def Ready (d : TapeW P κ) : Prop := d.mode = .data ∧ d.cFileIn = d.cFileOut

/-- Chunks that are present stay present while no chunk is lost. -/
theorem present_later {ch : ChunkHeader} (has : ∀ hash, HasChunk d.C hash → HasChunk d'.C hash)
    (here : writetapeIschunkpresent d ch ≠ 0) : writetapeIschunkpresent d' ch ≠ 0 := by
  have both := (writetapeIschunkpresent_eq d ch).mp here
  exact (writetapeIschunkpresent_eq d' ch).mpr ⟨has _ both.1, both.2⟩

/-- The present chunks at the start stay present while no chunk is lost. -/
theorem leading_later (chp : List ChunkHeader)
    (has : ∀ hash, HasChunk d.C hash → HasChunk d'.C hash) :
    leading d chp <+: leading d' chp := by
  induction chp with
  | nil => exact List.prefix_refl _
  | cons ch rest ih =>
    by_cases missing : writetapeIschunkpresent d ch = 0
    · have none : leading d (ch :: rest) = [] := by simp [leading, missing]
      rw [none]
      exact List.nil_prefix
    · have more := present_later has missing
      have here : leading d (ch :: rest) = ch :: leading d rest := by simp [leading, missing]
      have there : leading d' (ch :: rest) = ch :: leading d' rest := by simp [leading, more]
      rw [here, there]
      exact (List.prefix_cons_inj ch).mpr ih

/-- Some chunks were written by their headers. -/
structure ChunksWritten (K : Crypto) (zlib : Zlib) (headers : List ChunkHeader)
    (d d' : TapeW P κ) : Prop extends Grows d d' where
  /-- The tape is truncated or not, as before. -/
  eof : d'.eof = d.eof
  /-- The chunks are emitted. -/
  emits : ∀ (rsa : RsaSigner K) (contents : Hash → List UInt8),
    Emits K zlib rsa contents (indexed contents headers) d d'

/-- No chunk was written. -/
theorem ChunksWritten.refl (d : TapeW P κ) : ChunksWritten K zlib [] d d :=
  ⟨Grows.refl d, rfl, fun _ _ => Emits.refl d⟩

/-- A chunk that is written counts if it has a length. -/
theorem writetapeWritechunk_written {ch : ChunkHeader} {lenwrit : Nat}
    (written : writetapeWritechunk K zlib d ch = some (lenwrit, d')) :
    ChunksWritten K zlib (if lenwrit = 0 then [] else [ch]) d d' := by
  have kept : Grows d d' ∧ d'.eof = d.eof := by
    rcases writetapeWritechunk_cases written with ⟨_, _, _, _, one⟩ | ⟨_, _, same⟩
    · refine ⟨one.toGrows, ?_⟩
      rw [one.rest]
    · rw [same]
      exact ⟨Grows.refl d, rfl⟩
  refine ⟨kept.1, kept.2, fun rsa contents => ?_⟩
  have emits := @emits_chunk P κ K zlib rsa contents d d' ch lenwrit written
  by_cases zero : lenwrit = 0
  · rw [if_pos zero] at emits ⊢
    exact emits
  · rw [if_neg zero] at emits ⊢
    rw [indexed, List.flatMap_singleton]
    exact emits

/-- Chunks are written by reference up to the first one that is missing. -/
theorem writeChunks_spec (chp : List ChunkHeader) (skiplen : Nat) (d : TapeW P κ)
    (ready : Ready d) :
    ∃ headers, headers <+: chp ∧
      ChunksWritten K zlib headers d (writeChunks K zlib chp skiplen d).2 ∧
      (((writeChunks K zlib chp skiplen d).1 = .ok (skiplen + chunkBytes chp) ∧ headers = chp) ∨
        (writeChunks K zlib chp skiplen d).1 = .error .tape ∨
        ((writeChunks K zlib chp skiplen d).1 = .error .missing ∧ ¬ AllPresent d chp ∧
          leading d chp <+: headers)) := by
  induction chp generalizing skiplen d with
  | nil => exact ⟨[], List.prefix_refl _, .refl d, .inl ⟨rfl, rfl⟩⟩
  | cons ch rest ih =>
    rw [writeChunks]
    cases written : writetapeWritechunk K zlib d ch with
    | none => exact ⟨[], List.nil_prefix, .refl d, .inr (.inl rfl)⟩
    | some result =>
      obtain ⟨lenwrit, d1⟩ := result
      have one := writetapeWritechunk_written written
      have cases_ := writetapeWritechunk_cases written
      simp only []
      by_cases zero : lenwrit = 0
      · rw [if_pos zero] at one ⊢
        have absent : writetapeIschunkpresent d ch = 0 := by
          by_contra here
          obtain ⟨has, long⟩ := (writetapeIschunkpresent_eq d ch).mp here
          rcases cases_ with ⟨_, _, _, length, _⟩ | ⟨refused, _, _⟩
          · exact long (length.symm.trans zero)
          · exact refused ⟨ready.1, ready.2, has⟩
        have none_ : leading d (ch :: rest) = [] := by simp [leading, absent]
        refine ⟨[], List.nil_prefix, one, .inr (.inr ⟨rfl, ?_, ?_⟩)⟩
        · exact fun all => all ch List.mem_cons_self absent
        · rw [none_]
      · rw [if_neg zero] at one ⊢
        rcases cases_ with ⟨_, _, has, length, referenced⟩ | ⟨_, nothing, _⟩
        · have ready1 : Ready d1 := by
            rw [referenced.rest]
            exact ready
          have here : writetapeIschunkpresent d ch ≠ 0 :=
            (writetapeIschunkpresent_eq d ch).mpr ⟨has, fun none_ => zero (length.trans none_)⟩
          obtain ⟨headers, start, all, outcome⟩ := ih (skiplen + lenwrit) d1 ready1
          refine ⟨ch :: headers, (List.prefix_cons_inj ch).mpr start, ?_, ?_⟩
          · refine ⟨one.toGrows.trans all.toGrows, all.eof.trans one.eof, fun rsa contents => ?_⟩
            have first := one.emits rsa contents
            rw [indexed, List.flatMap_singleton] at first
            exact first.trans (all.emits rsa contents)
          · rcases outcome with ⟨ok, whole⟩ | failed | ⟨missing, notAll, before⟩
            · left
              refine ⟨?_, by rw [whole]⟩
              rw [ok, length, chunkBytes, chunkBytes, List.map_cons, List.sum_cons, Nat.add_assoc]
            · exact .inr (.inl failed)
            · right
              right
              refine ⟨missing, ?_, ?_⟩
              · intro present
                apply notAll
                intro other member
                exact present_later one.has (present other (List.mem_cons_of_mem ch member))
              · have first : leading d (ch :: rest) = ch :: leading d rest := by
                  simp [leading, here]
                rw [first]
                exact (List.prefix_cons_inj ch).mpr ((leading_later rest one.has).trans before)
        · exact absurd nothing zero

/-- Data that is written in data mode is refused when the tape is truncated. -/
theorem writetapeWrite_length {nomem : Bool} {buffer : List UInt8} {lenwrit : Nat}
    (written : writetapeWrite K zlib nomem d buffer = some (lenwrit, d')) :
    lenwrit = if d.eof then 0 else buffer.length := by
  unfold writetapeWrite at written
  by_cases truncated : d.eof = true
  · rw [if_pos truncated] at written
    cases written
    rw [if_pos truncated]
  · rw [if_neg truncated] at written ⊢
    generalize (if nomem then d.hbuf else d.hbuf ++ buffer) = hbuf at written
    cases mode : d.mode with
    | data =>
      rw [mode] at written
      obtain ⟨d1, _, rest⟩ := Option.bind_eq_some_iff.mp written
      cases rest
      rfl
    | finished | trailer | header =>
      rw [mode] at written
      cases written
      rfl

/-- The trailer of an entry, as far as a tape takes it. -/
def CcacheEntry.trailerTaken (cce : CcacheEntry) (d : TapeW P κ) : List UInt8 :=
  match cce.trailer with
  | none => []
  | some trailer => if d.eof then [] else trailer.take cce.ccr.tlen

/-- Without a decompressed trailer, none is written. -/
theorem trailerTaken_dropped {cce : CcacheEntry} (unused : cce.trailer = none) :
    cce.dropTrailer.trailerTaken d = [] := by
  unfold CcacheEntry.trailerTaken
  rw [(dropTrailer_fields cce).2.1, unused]

/-- A fresh entry whose chunks are present is written, its trailer only if the tape goes on. -/
theorem ccacheEntryWrite_present {cce : CcacheEntry} (fresh : cce.Fresh) (ready : Ready d)
    (all : AllPresent d cce.ccr.chp)
    (works : (ccacheEntryWrite K zlib cce d).1 ≠ .error .tape) :
    (ccacheEntryWrite K zlib cce d).1 = 
      .ok (chunkBytes cce.ccr.chp + (cce.trailerTaken d).length) := by
  obtain ⟨headers, _, references, outcome⟩ :=
    @writeChunks_spec P κ K zlib cce.ccr.chp 0 d ready
  unfold ccacheEntryWrite at works ⊢
  rw [if_neg (not_not.mpr fresh)] at works ⊢
  generalize writeChunks K zlib cce.ccr.chp 0 d = result at works outcome references ⊢
  obtain ⟨code, d1⟩ := result
  rcases outcome with ⟨ok, _⟩ | failed | ⟨_, notAll, _⟩
  · cases ok
    have truncated : d1.eof = d.eof := references.eof
    unfold CcacheEntry.trailerTaken
    cases trailer : cce.trailer with
    | none =>
      simp only [Nat.zero_add, List.length_nil, Nat.add_zero]
    | some bytes =>
      simp only [trailer] at works ⊢
      cases written : writetapeWrite K zlib false d1 (bytes.take cce.ccr.tlen) with
      | none =>
        rw [written] at works
        exact absurd rfl works
      | some pair =>
        obtain ⟨lenwrit, d2⟩ := pair
        simp only [Nat.zero_add]
        rw [writetapeWrite_length written, truncated, apply_ite List.length, List.length_nil]
  · cases failed
    exact absurd rfl works
  · exact absurd all notAll

end Write

section Promise

variable (K : Crypto) (zlib : Zlib)

/-- An entry is full if and only if a record can provide it, and is then written in full length. -/
def PromiseKept (cache : Cache) (path : Path) (sb : Stat) (d d' : TapeW P κ) : Prop :=
  let found := ccacheEntryLookup K cache path sb d
  (found.2.1 = true ↔
    ∃ ccr, cache.tree.lookup path = some ccr ∧ CanProvide K d ccr sb) ∧
  (found.2.1 = true →
    ∃ lenwrit, (ccacheEntryWrite K zlib found.1 d').1 = .ok lenwrit ∧ sb.size ≤ (lenwrit : Int))

/-- If the trailer of the record is needed, it decompresses and the tape is not truncated; if a
chunk is missing, the chunks before it are shorter than the file. -/
structure Providable (d d' : TapeW P κ) (ccr : CcacheRecord) (sb : Stat) : Prop where
  /-- The trailer, if needed. -/
  trailer : AllPresent d ccr.chp → (chunkBytes ccr.chp : Int) < sb.size →
    sb.size ≤ ((chunkBytes ccr.chp + ccr.tlen : Nat) : Int) →
    decompressTrailer K ccr ≠ none ∧ d'.eof = false
  /-- The chunks, if one is missing. -/
  chunks : ¬ AllPresent d ccr.chp → (chunkBytes (leading d ccr.chp) : Int) < sb.size

variable {K zlib} {cache : Cache} {path : Path} {sb : Stat} {d d' : TapeW P κ}
  {ccr : CcacheRecord}

/-- Chunks that were present at the lookup are present when the entry is written. -/
theorem AllPresent.later (all : AllPresent d ccr.chp)
    (has : ∀ hash, HasChunk d.C hash → HasChunk d'.C hash) : AllPresent d' ccr.chp :=
  fun ch member => present_later has (all ch member)

/-- The promise for a record whose trailer is used. -/
theorem promise_used (found : cache.tree.lookup path = some ccr) (ready : Ready d')
    (has : ∀ hash, HasChunk d.C hash → HasChunk d'.C hash)
    (works : (ccacheEntryWrite K zlib (ccacheEntryLookup K cache path sb d).1 d').1 ≠
      .error .tape) (used : TrailerUsed d ccr sb) :
    PromiseKept K zlib cache path sb d d' ↔ Providable K d d' ccr sb := by
  have same := used.1
  have all := used.2.1
  have looked : ccacheEntryLookup K cache path sb d =
      ((lookedUp cache path sb ccr (decompressTrailer K ccr)).dropTrailer, true,
        (decompressTrailer K ccr).isNone) := by
    rw [ccacheEntryLookup_found found, if_pos used]
  have fields := dropTrailer_fields (lookedUp cache path sb ccr (decompressTrailer K ccr))
  rw [looked] at works
  have fresh := fields.2.2.1.mpr same
  have there : AllPresent d'
      (lookedUp cache path sb ccr (decompressTrailer K ccr)).dropTrailer.ccr.chp := by
    rw [fields.1]
    exact all.later has
  have written := ccacheEntryWrite_present fresh ready there works
  rw [fields.1] at written
  unfold PromiseKept
  rw [looked]
  simp only [found, Option.some.injEq, exists_eq_left', true_iff, forall_const]
  rw [written]
  cases decompressed : decompressTrailer K ccr with
  | none =>
    have provide : CanProvide K d ccr sb ↔ sb.size ≤ (chunkBytes ccr.chp : Int) := by
      simp [CanProvide, same, all, decompressed]
    rw [trailerTaken_dropped rfl, List.length_nil, Nat.add_zero]
    simp only [provide]
    constructor
    · intro kept
      refine ⟨fun _ short => ?_, fun missing => absurd all missing⟩
      exact absurd kept.1 (by omega)
    · intro condition
      have enough : sb.size ≤ (chunkBytes ccr.chp : Int) := by
        by_contra short
        exact (condition.trailer all (by omega) used.2.2.2).1 decompressed
      exact ⟨enough, _, rfl, enough⟩
  | some trailer =>
    have length := decompressTrailer_length decompressed
    have kept : (lookedUp cache path sb ccr (some trailer)).dropTrailer =
        lookedUp cache path sb ccr (some trailer) :=
      (dropTrailer_fields _).2.2.2 (Option.some_ne_none trailer)
    have provide : CanProvide K d ccr sb := by
      refine ⟨same, all, ?_⟩
      rw [decompressed, Option.elim_some, length]
      exact used.2.2.2
    have taken : ((lookedUp cache path sb ccr (some trailer)).trailerTaken d').length =
        if d'.eof then 0 else ccr.tlen := by
      change (if d'.eof then [] else trailer.take ccr.tlen).length = _
      rw [apply_ite List.length, List.length_nil, List.length_take, length, Nat.min_self]
    have chunks : (lookedUp cache path sb ccr (some trailer)).ccr.chp = ccr.chp := rfl
    rw [kept, taken, chunks]
    simp only [provide, true_and]
    have long := used.2.2.2
    constructor
    · intro promise
      obtain ⟨lenwrit, same, enough⟩ := promise
      cases same
      refine ⟨fun _ short _ => ⟨?_, ?_⟩, fun missing => absurd all missing⟩
      · rw [decompressed]
        exact Option.some_ne_none trailer
      · by_contra truncated
        rw [Bool.not_eq_false] at truncated
        rw [if_pos truncated] at enough
        omega
    · intro condition
      refine ⟨_, rfl, ?_⟩
      by_cases truncated : d'.eof = true
      · rw [if_pos truncated]
        by_contra short
        have open_ := (condition.trailer all (by omega) long).2
        rw [truncated] at open_
        cases open_
      · rw [if_neg truncated]
        exact long

/-- The promise for a record whose trailer is not used. -/
theorem promise_unused (positive : 0 < sb.size) (found : cache.tree.lookup path = some ccr)
    (ready : Ready d') (has : ∀ hash, HasChunk d.C hash → HasChunk d'.C hash)
    (works : (ccacheEntryWrite K zlib (ccacheEntryLookup K cache path sb d).1 d').1 ≠
      .error .tape) (unused : ¬ TrailerUsed d ccr sb) :
    PromiseKept K zlib cache path sb d d' ↔ (ccr.SameFile sb → Providable K d d' ccr sb) := by
  have looked : ccacheEntryLookup K cache path sb d =
      ((lookedUp cache path sb ccr none).dropTrailer,
        decide ((((if ccr.SameFile sb then chunkBytes (leading d ccr.chp) else 0 : Nat) : Int)) ≥
          sb.size), false) := by
    rw [ccacheEntryLookup_found found, if_neg unused]
  have fields := dropTrailer_fields (lookedUp cache path sb ccr none)
  rw [looked] at works
  unfold PromiseKept
  rw [looked]
  simp only [found, Option.some.injEq, exists_eq_left', decide_eq_true_eq]
  by_cases same : ccr.SameFile sb
  · simp only [same, if_true, forall_const]
    by_cases all : AllPresent d ccr.chp
    · rw [all.leading]
      have short : 0 < ccr.tlen → ((chunkBytes ccr.chp + ccr.tlen : Nat) : Int) < sb.size := by
        intro trailer
        by_contra long
        exact unused ⟨same, all, trailer, by omega⟩
      have supplied : ((decompressTrailer K ccr).elim 0 List.length) ≤ ccr.tlen := by
        cases decompressed : decompressTrailer K ccr with
        | none => exact Nat.zero_le _
        | some trailer => exact Nat.le_of_eq (decompressTrailer_length decompressed)
      have there : AllPresent d' (lookedUp cache path sb ccr none).dropTrailer.ccr.chp := by
        rw [fields.1]
        exact all.later has
      have written := ccacheEntryWrite_present (fields.2.2.1.mpr same) ready there works
      rw [fields.1, trailerTaken_dropped rfl, List.length_nil, Nat.add_zero] at written
      rw [written]
      constructor
      · intro _
        exact ⟨fun _ _ long => absurd short (by omega), fun missing => absurd all missing⟩
      · intro _
        refine ⟨⟨fun enough => ⟨same, all, by omega⟩, fun provide => ?_⟩, fun enough => ?_⟩
        · have long := provide.2.2
          by_contra few
          omega
        · exact ⟨_, rfl, enough⟩
    · have unable : ¬ CanProvide K d ccr sb := fun provide => all provide.2.1
      simp only [unable, iff_false]
      constructor
      · intro promise
        exact ⟨fun present => absurd present all, fun _ => by omega⟩
      · intro condition
        have few := condition.chunks all
        exact ⟨by omega, fun enough => absurd enough (by omega)⟩
  · have unable : ¬ CanProvide K d ccr sb := fun provide => same provide.1
    simp only [same, if_false, unable, iff_false, false_implies, iff_true]
    exact ⟨by omega, fun enough => absurd enough (by omega)⟩

/-- The promise is kept if and only if every record of the same file is providable. -/
theorem promise_kept_iff (positive : 0 < sb.size) (ready : Ready d')
    (has : ∀ hash, HasChunk d.C hash → HasChunk d'.C hash)
    (works : (ccacheEntryWrite K zlib (ccacheEntryLookup K cache path sb d).1 d').1 ≠
      .error .tape) :
    PromiseKept K zlib cache path sb d d' ↔
      ∀ ccr, cache.tree.lookup path = some ccr → ccr.SameFile sb → Providable K d d' ccr sb := by
  cases found : cache.tree.lookup path with
  | none =>
    have looked : (ccacheEntryLookup K cache path sb d).2.1 = false := by
      unfold ccacheEntryLookup
      rw [found]
      exact decide_eq_false (by omega)
    unfold PromiseKept
    simp [looked, found]
  | some ccr =>
    simp only [Option.some.injEq, forall_eq']
    by_cases used : TrailerUsed d ccr sb
    · have kept := promise_used found ready has works used
      simp only [used.1, forall_const]
      exact kept
    · exact promise_unused positive found ready has works used

end Promise

section Small

/-- Chunkifiers with the smallest buffer. -/
def smallParams : Params where
  mu := 1
  p := 3
  pp := 1431655765
  ar := 1
  cm _ := 0
  blen := 2
  mu_le := by decide
  mu_lt_blen := by decide
  blen_lt := by decide
  p_pos := by decide
  p_le := by decide
  pp_inverse := by decide
  pp_lt := by decide

/-- A compressor that knows one byte string. -/
def oneByteZlib : Zlib where
  compress2 room buf :=
    if buf = [1] ∧ 9 ≤ room then some [0x78, 0xda, 0x63, 0x04, 0x00, 0x00, 0x02, 0x00, 0x02]
    else none
  fits := by
    intro room buf zbuf compressed
    split at compressed
    · cases compressed
      exact (by assumption : _ ∧ 9 ≤ room).2
    · cases compressed
  nonempty := by
    intro room buf zbuf compressed
    split at compressed
    · cases compressed
      simp
    · cases compressed

/-- A hash of zero bytes. -/
def zeroHash : Hash := ⟨Vector.replicate 32 0⟩

/-- Primitives without compression. -/
def storedCrypto : Crypto where
  hmacChunk _ := zeroHash
  hmacName _ := zeroHash
  sha256 _ := zeroHash
  rsaVerify _ _ := true
  uncompress len zbuf := if zbuf.length ≤ len then some zbuf else none

/-- A chunk layer with nothing in it. -/
def noChunks : ChunksW := ⟨65536, [], none, 0, 0, 0, 0, 0, 0, 0⟩

/-- A new tape in data mode. -/
def smallTape : TapeW smallParams Unit :=
  { writetapeStart [] 0 [] noChunks (fun _ => Vector.replicate 2 0) (Vector.replicate 2 0) () with
    mode := .data }

/-- The record of a file of one byte, with a deflated trailer. -/
def smallRecord (ztrailer : List UInt8) : CcacheRecord := ⟨1, 1, 0, [], 1, ztrailer, 0, false⟩

/-- A cache with this record. -/
def smallCache (ztrailer : List UInt8) : Cache :=
  ⟨⟨[(⟨[47]⟩, smallRecord ztrailer)], List.pairwise_singleton _ _⟩, 0, ztrailer.length⟩

/-- A file of one byte is provided from its trailer. -/
theorem promise_kept_oneByte :
    PromiseKept storedCrypto oneByteZlib (smallCache [7]) ⟨[47]⟩ ⟨1, 1, 0⟩ smallTape smallTape := by
  apply (promise_kept_iff (by decide) ⟨rfl, rfl⟩ (fun _ here => here) (by decide)).mpr
  intro ccr found same
  cases found
  exact ⟨fun _ _ _ => ⟨by decide, rfl⟩, fun missing => absurd (by decide) missing⟩

/-- A file of one byte whose trailer is corrupt is promised, and nothing is written. -/
theorem promise_broken_corrupt :
    (ccacheEntryLookup storedCrypto (smallCache [7, 7]) ⟨[47]⟩ ⟨1, 1, 0⟩ smallTape).2.1 = true ∧
    ¬ CanProvide storedCrypto smallTape (smallRecord [7, 7]) ⟨1, 1, 0⟩ ∧
    (ccacheEntryWrite storedCrypto oneByteZlib
      (ccacheEntryLookup storedCrypto (smallCache [7, 7]) ⟨[47]⟩ ⟨1, 1, 0⟩ smallTape).1
        smallTape).1 = .ok 0 ∧
    ¬ PromiseKept storedCrypto oneByteZlib (smallCache [7, 7]) ⟨[47]⟩ ⟨1, 1, 0⟩ smallTape
      smallTape := by
  have written : (ccacheEntryWrite storedCrypto oneByteZlib
      (ccacheEntryLookup storedCrypto (smallCache [7, 7]) ⟨[47]⟩ ⟨1, 1, 0⟩ smallTape).1
        smallTape).1 = .ok 0 := by decide
  have promised :
      (ccacheEntryLookup storedCrypto (smallCache [7, 7]) ⟨[47]⟩ ⟨1, 1, 0⟩ smallTape).2.1 =
        true := by decide
  refine ⟨promised, ?_, written, ?_⟩
  · intro provide
    exact absurd provide.2.2 (by decide)
  · intro kept
    obtain ⟨lenwrit, same, enough⟩ := kept.2 promised
    rw [written] at same
    cases same
    exact absurd enough (by decide)

end Small

end Tarsnap.Ccache
