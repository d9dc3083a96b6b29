import Mathlib.Data.List.Nodup
import Tarsnap.Storage.Authenticated
import Tarsnap.Storage.DirectoryRead

/-!
# A directory that is read is sorted and complete

However the server splits the listing, and however often the connection is lost, the client goes on
at the successor of the last file, so that no file is missing. The successor of the greatest name
is zero. If the server lists anything after that name, be it in the same packet or in answer to
another request, it is accepted, and the list is not in order.
-/

namespace Tarsnap.Storage

open Tarsnap.Lib Tarsnap.Netpacket

section Names

/-- The number of names. -/
def nameCount : Nat := 256 ^ 32

/-- The names of a list as numbers. -/
def nameNumbers (flist : List (List UInt8)) : List Nat := flist.map beDec

/-- Incrementing a string of bytes is adding one, with a wrap at the end. -/
theorem leDec_incrementLow (bytes : List UInt8) :
    leDec (incrementLow bytes) = (leDec bytes + 1) % 256 ^ bytes.length := by
  induction bytes with
  | nil => rfl
  | cons low rest ih =>
    have small := leDec_lt rest
    have bound : low.toNat < 256 := low.toNat_lt
    have step : (low + 1).toNat = (low.toNat + 1) % 256 := UInt8.toNat_add low 1
    unfold incrementLow
    rw [List.length_cons, pow_succ', leDec]
    by_cases carry : low + 1 = 0
    · have top : (low.toNat + 1) % 256 = 0 := by rw [← step, carry]; rfl
      have sum : low.toNat + 256 * leDec rest + 1 = 256 * (leDec rest + 1) := by omega
      rw [if_neg (not_not_intro carry), leDec, ih, step, top, sum, Nat.mul_mod_mul_left,
        Nat.zero_add]
    · have inside : low.toNat + 1 < 256 := by
        by_contra outside
        have zero : (low + 1).toNat = 0 := by omega
        exact carry (UInt8.toNat_inj.mp zero)
      have fits : low.toNat + 256 * leDec rest + 1 < 256 * 256 ^ rest.length := by omega
      rw [if_pos carry, leDec, step, Nat.mod_eq_of_lt inside, Nat.mod_eq_of_lt fits]
      omega

/-- Incrementing keeps the length. -/
theorem incrementLow_length (bytes : List UInt8) :
    (incrementLow bytes).length = bytes.length := by
  induction bytes with
  | nil => rfl
  | cons low rest ih =>
    unfold incrementLow
    split
    · rfl
    · rw [List.length_cons, List.length_cons, ih]

/-- The next possible file name has as many bytes. -/
theorem nextName_length (name : List UInt8) : (nextName name).length = name.length := by
  unfold nextName
  rw [List.length_reverse, incrementLow_length, List.length_reverse]

/-- The next possible file name is the successor; that of the greatest name is zero. -/
theorem beDec_nextName {name : List UInt8} (length : name.length = 32) :
    beDec (nextName name) = (beDec name + 1) % nameCount := by
  unfold nextName beDec
  rw [List.reverse_reverse, leDec_incrementLow, List.length_reverse, length]
  rfl

/-- Names that are not ordered the other way. -/
theorem memcmp_ne_gt {left right : List UInt8} (lengths : left.length = right.length) :
    memcmp left right ≠ .gt ↔ beDec left ≤ beDec right := by
  rw [memcmp_eq_compare lengths, Nat.compare_ne_gt]

/-- A name is a number below the number of names. -/
theorem name_lt {name : List UInt8} (length : name.length = 32) : beDec name < nameCount := by
  have small := beDec_lt name
  rwa [length] at small

/-- The greatest name. -/
theorem beDec_lastName : beDec lastName = nameCount - 1 := by
  decide +kernel

/-- A list is in order if the numbers are increasing. -/
theorem strictlyIncreasing_iff {flist : List (List UInt8)}
    (names : ∀ name ∈ flist, name.length = 32) :
    StrictlyIncreasing flist ↔ (nameNumbers flist).Pairwise (· < ·) := by
  unfold StrictlyIncreasing nameNumbers
  rw [List.pairwise_map]
  apply List.Pairwise.iff_of_mem
  intro before after first second
  rw [memcmp_eq_compare ((names before first).trans (names after second).symm),
    Nat.compare_eq_lt]

/-- Nothing is after the greatest name if nothing is after the greatest number. -/
theorem lastName_mem_iff {flist : List (List UInt8)} (names : ∀ name ∈ flist, name.length = 32) :
    lastName ∈ flist.dropLast ↔ nameCount - 1 ∈ (nameNumbers flist).dropLast := by
  unfold nameNumbers
  rw [← List.map_dropLast, List.mem_map, ← beDec_lastName]
  constructor
  · exact fun member => ⟨lastName, member, rfl⟩
  · rintro ⟨name, member, same⟩
    have length : name.length = lastName.length := names name (List.dropLast_subset _ member)
    rwa [← (beDec_inj length).mp same]

end Names

section Packets

/-- The fields with names are in a packet of the right length. -/
theorem packetFiles_length {packetbuf : List UInt8}
    (length : packetbuf.length = 70 + beDec (field packetbuf 34 4) * 32) :
    ∀ name ∈ packetFiles packetbuf, name.length = 32 := by
  intro name member
  unfold packetFiles at member
  obtain ⟨file, inside, rfl⟩ := List.mem_map.mp member
  have before := List.mem_range.mp inside
  unfold field
  rw [List.length_take, List.length_drop]
  omega

/-- Files that are in order go on where the listing was. -/
theorem orderedFiles_ok {files : List (List UInt8)} {start start' : List UInt8}
    (length : start.length = 32) (names : ∀ name ∈ files, name.length = 32)
    (accepted : orderedFiles start files = .ok start') {listed : List Nat}
    (paged : Paged nameCount listed) (here : cursor nameCount listed = beDec start) :
    start'.length = 32 ∧ Paged nameCount (listed ++ nameNumbers files) ∧
      cursor nameCount (listed ++ nameNumbers files) = beDec start' := by
  induction files generalizing start listed with
  | nil =>
    cases accepted
    unfold nameNumbers
    rw [List.map_nil, List.append_nil]
    exact ⟨length, paged, here⟩
  | cons file files ih =>
    unfold orderedFiles at accepted
    split at accepted
    · cases accepted
    · rename_i ordered
      have size := names file List.mem_cons_self
      have later := (memcmp_ne_gt (length.trans size.symm)).mp ordered
      have longer := ih ((nextName_length file).trans size)
        (fun name member => names name (List.mem_cons_of_mem _ member)) accepted
        (paged.concat (here.trans_le later))
        ((cursor_concat listed (beDec file)).trans (beDec_nextName size).symm)
      unfold nameNumbers at longer ⊢
      rwa [List.append_assoc] at longer

/-- What is known of a packet that is accepted. -/
structure AcceptedPacket (C : DirectoryRead) (packettype : UInt8) (packetbuf : List UInt8)
    (status : UInt8) (flist : List (List UInt8)) (start : List UInt8) : Prop where
  /-- The packet has the right type. -/
  type : packettype = NETPACKET_DIRECTORY_RESPONSE
  /-- The length is that of the number of files. -/
  length : packetbuf.length = 70 + beDec (field packetbuf 34 4) * 32
  /-- The packet is about the start of the request. -/
  begins : field packetbuf 2 32 = C.request.start.toList
  /-- The status is that of the packet. -/
  status : status = byte packetbuf 0
  /-- The files are those of the packet. -/
  files : flist = packetFiles packetbuf
  /-- The files are in order. -/
  ordered : orderedFiles C.request.start.toList flist = .ok start

/-- A handler that returns files has accepted a packet. -/
theorem callbackDirectoryResponse_ok {K : Keys} {C : DirectoryRead} {packettype : UInt8}
    {packetbuf : List UInt8} {status : UInt8} {flist : List (List UInt8)} {start : List UInt8}
    (accepted : callbackDirectoryResponse K true packettype packetbuf C.request =
      .ok (.directory status flist start)) :
    AcceptedPacket C packettype packetbuf status flist start := by
  obtain ⟨_, verified, contents⟩ := bind_eq_ok.mp accepted
  have type := (verifyResponse_ok verified).1
  unfold directoryContents at contents
  simp only at contents
  split at contents
  · cases contents
  rename_i sane
  simp only [not_or, Decidable.not_not] at sane
  split at contents
  · cases contents
  rename_i length
  obtain ⟨start', ordered, result⟩ := bind_eq_ok.mp contents
  split at result
  · cases result
  · cases result
    exact ⟨type, Decidable.not_not.mp length, sane.2.2.1, rfl, rfl, ordered⟩

/-- Copying the bytes of a name. -/
theorem copy32_toList {bytes : List UInt8} (length : bytes.length = 32) :
    (copy32 bytes).toList = bytes := by
  unfold copy32 byte
  rw [Vector.toList_ofFn]
  apply List.ext_getElem
  · rw [List.length_ofFn, length]
  · intro i first second
    rw [List.getElem_ofFn, List.getD_eq_getElem _ _ second]

end Packets

section Runs

variable {K : Keys} {C : DirectoryRead} {events done : List DirectoryEvent}

/-- What an event does is that nothing is listed, or that the files of a packet are added. -/
theorem directoryEvent_cases {event : DirectoryEvent} {C' : DirectoryRead}
    (step : directoryEvent K C event = some C') :
    (directoryPackets [event] = [] ∧ C'.flist = C.flist ∧
        C'.request.start = C.request.start ∧ C'.phase ≠ .done) ∨
      ∃ packettype packetbuf status flist start, directoryPackets [event] = [packetbuf] ∧
        AcceptedPacket C packettype packetbuf status flist start ∧
        C'.flist = C.flist ++ flist ∧ C'.request.start = copy32 start ∧
        (C'.phase = .done ↔ status = 0) := by
  cases event with
  | connected =>
    simp only [directoryEvent] at step
    split at step
    · cases step
      exact .inl ⟨rfl, rfl, rfl, fun absurdity => nomatch absurdity⟩
    · cases step
  | lost =>
    simp only [directoryEvent] at step
    split at step
    · cases step
    · cases step
      exact .inl ⟨rfl, rfl, rfl, fun absurdity => nomatch absurdity⟩
  | failed => cases step
  | received packettype packetbuf cnonce =>
    simp only [directoryEvent] at step
    split at step
    · cases step
    split at step
    · unfold callbackGetnonceResponse at step
      split at step
      · cases step
      · rename_i type
        cases step
        refine .inl ⟨?_, rfl, rfl, by simp⟩
        unfold directoryPackets
        rw [Decidable.not_not.mp type]
        rfl
    split at step
    · unfold addFiles at step
      split at step
      · rename_i status flist start accepted
        have packet := callbackDirectoryResponse_ok accepted
        cases step
        refine .inr ⟨packettype, packetbuf, status, flist, start, ?_, packet, rfl, rfl, ?_⟩
        · unfold directoryPackets
          rw [packet.type]
          rfl
        · simp only
          split
          · rename_i none
            exact iff_of_true rfl none
          · rename_i more
            refine iff_of_false ?_ more
            split <;> decide
      · cases step
    · cases step

/-- The packets of two sequences of events. -/
theorem directoryPackets_append (before after : List DirectoryEvent) :
    directoryPackets (before ++ after) = directoryPackets before ++ directoryPackets after :=
  List.filterMap_append

/-- The list is what the server listed, and the client goes on behind it. -/
structure Listed (done : List DirectoryEvent) (C : DirectoryRead) : Prop where
  /-- The list has the files of the packets. -/
  flist : C.flist = listedFiles done
  /-- Each name has 32 bytes. -/
  names : ∀ name ∈ C.flist, name.length = 32
  /-- Each name is at least the successor of the one before it. -/
  paged : Paged nameCount (nameNumbers C.flist)
  /-- The client goes on at the successor of the last file. -/
  start : cursor nameCount (nameNumbers C.flist) = beDec C.request.start.toList

/-- An event keeps the list what the server listed. -/
theorem Listed.step (listed : Listed done C) {event : DirectoryEvent} {C' : DirectoryRead}
    (step : directoryEvent K C event = some C') : Listed (done ++ [event]) C' := by
  have append : listedFiles (done ++ [event]) =
      listedFiles done ++ (directoryPackets [event]).flatMap packetFiles := by
    unfold listedFiles
    rw [directoryPackets_append, List.flatMap_append]
  obtain ⟨none, flist, start, _⟩ |
    ⟨packettype, packetbuf, status, files, start, one, packet, flist, next, _⟩ :=
      directoryEvent_cases step
  · rw [none, List.flatMap_nil, List.append_nil] at append
    refine ⟨?_, ?_, ?_, ?_⟩
    · rw [flist, append, listed.flist]
    · rw [flist]
      exact listed.names
    · rw [flist]
      exact listed.paged
    · rw [flist, start]
      exact listed.start
  · rw [one, List.flatMap_singleton] at append
    have names := packetFiles_length packet.length
    rw [← packet.files] at append names
    obtain ⟨length, paged, here⟩ := orderedFiles_ok (Vector.length_toList ..) names packet.ordered
      listed.paged listed.start
    have numbers : nameNumbers C'.flist = nameNumbers C.flist ++ nameNumbers files := by
      unfold nameNumbers
      rw [flist, List.map_append]
    refine ⟨?_, ?_, ?_, ?_⟩
    · rw [flist, append, listed.flist]
    · rw [flist]
      intro name member
      rcases List.mem_append.mp member with before | new
      · exact listed.names name before
      · exact names name new
    · rw [numbers]
      exact paged
    · rw [numbers, next, copy32_toList length]
      exact here

/-- The list is empty at first. -/
theorem listed_start (cls : UInt8) (key : Nat) : Listed [] (directoryStart cls key) where
  flist := rfl
  names _ member := nomatch member
  paged := List.isChain_nil
  start := by
    have zero : beDec (List.replicate 32 0) = 0 := by decide +kernel
    exact zero.symm

end Runs

section Complete

variable {K : Keys} {C : DirectoryRead} {done events : List DirectoryEvent}
  {files : List (List UInt8)}

/-- The first elements of an ordered list are all those up to the last of them. -/
theorem mem_take_of_le {sorted : List Nat} (ordered : sorted.Pairwise (· < ·)) (count : Nat)
    {last x : Nat} (first : last ∈ sorted.take count) (member : x ∈ sorted) (before : x ≤ last) :
    x ∈ sorted.take count := by
  rw [← List.take_append_drop count sorted] at ordered member
  rcases List.mem_append.mp member with here | there
  · exact here
  · have less := (List.pairwise_append.mp ordered).2.2 last first x there
    omega

/-- The files from a name on are those that are not smaller. -/
theorem mem_filesFrom (server : ServerFiles files) {start name : List UInt8}
    (length : start.length = 32) :
    name ∈ filesFrom files start ↔ name ∈ files ∧ beDec start ≤ beDec name := by
  unfold filesFrom
  rw [List.mem_filter]
  apply and_congr_right
  intro member
  rw [decide_eq_true_eq, memcmp_ne_gt (length.trans (server.names name member).symm)]

/-- The files from a name on are in order. -/
theorem filesFrom_ordered (server : ServerFiles files) (start : List UInt8) :
    (nameNumbers (filesFrom files start)).Pairwise (· < ·) := by
  have names : ∀ name ∈ filesFrom files start, name.length = 32 :=
    fun name member => server.names name (List.mem_of_mem_filter member)
  rw [← strictlyIncreasing_iff names]
  exact server.ordered.filter _

/-- The list has the files up to the start, and all of them at the end. -/
structure Complete (files : List (List UInt8)) (C : DirectoryRead) : Prop where
  /-- Each name in the list is that of a file. -/
  sound : ∀ name ∈ C.flist, name ∈ files
  /-- The files before the start are in the list. -/
  before : ∀ name ∈ files, beDec name < beDec C.request.start.toList → name ∈ C.flist
  /-- The last packet lists all the files that were missing. -/
  last : C.phase = .done → ∃ earlier start, start.length = 32 ∧
    C.flist = earlier ++ filesFrom files start ∧
      ∀ name ∈ files, beDec name < beDec start → name ∈ earlier

/-- A packet with the first files from the start on leaves none of them out. -/
theorem Complete.packet (server : ServerFiles files) {before : List (List UInt8)}
    {start start' : List UInt8} {count : Nat} {listed : List Nat} (length : start.length = 32)
    (complete : ∀ name ∈ files, beDec name < beDec start → name ∈ before)
    (here : cursor nameCount listed = beDec start)
    (next : cursor nameCount (listed ++ nameNumbers ((filesFrom files start).take count)) =
      beDec start') :
    ∀ name ∈ files, beDec name < beDec start' →
      name ∈ before ++ (filesFrom files start).take count := by
  intro name member early
  apply List.mem_append.mpr
  by_cases old : beDec name < beDec start
  · exact .inl (complete name member old)
  · right
    have from_ : name ∈ filesFrom files start :=
      (mem_filesFrom server length).mpr ⟨member, Nat.not_lt.mp old⟩
    rcases List.eq_nil_or_concat' ((filesFrom files start).take count) with none |
      ⟨front, last, all⟩
    · unfold nameNumbers at next
      rw [none, List.map_nil, List.append_nil, here] at next
      omega
    · have numbers : nameNumbers ((filesFrom files start).take count) =
          nameNumbers front ++ [beDec last] := by
        unfold nameNumbers
        rw [all, List.map_append]
        rfl
      rw [numbers, ← List.append_assoc, cursor_concat] at next
      have successor := Nat.mod_le (beDec last + 1) nameCount
      have reached : beDec last ∈ (nameNumbers (filesFrom files start)).take count := by
        unfold nameNumbers at numbers ⊢
        rw [← List.map_take, numbers]
        exact List.mem_append_right _ List.mem_cons_self
      have number : beDec name ∈ nameNumbers (filesFrom files start) :=
        List.mem_map_of_mem from_
      have listed := mem_take_of_le (filesFrom_ordered server start) count reached number (by omega)
      unfold nameNumbers at listed
      rw [← List.map_take] at listed
      obtain ⟨other, taken, same⟩ := List.mem_map.mp listed
      have file := List.mem_of_mem_filter (List.mem_of_mem_take taken)
      have lengths := (server.names other file).trans (server.names name member).symm
      rwa [← (beDec_inj lengths).mp same]

/-- An event leaves no file out, if the server answers as it should. -/
theorem Complete.step (server : ServerFiles files) (listed : Listed done C)
    (complete : Complete files C) {event : DirectoryEvent} {C' : DirectoryRead}
    (specified : ∀ packetbuf ∈ directoryPackets [event], AsSpecified files packetbuf)
    (step : directoryEvent K C event = some C') : Complete files C' := by
  have listed' := listed.step step
  obtain ⟨none, flist, start, more⟩ |
    ⟨packettype, packetbuf, status, added, start, one, packet, flist, next, final⟩ :=
      directoryEvent_cases step
  · refine ⟨?_, ?_, fun absurdity => absurd absurdity more⟩
    · rw [flist]
      exact complete.sound
    · rw [flist, start]
      exact complete.before
  · have answer := specified packetbuf (by rw [one]; exact List.mem_cons_self)
    have first := answer.first
    rw [← packet.files, packet.begins] at first
    have length : C.request.start.toList.length = 32 := Vector.length_toList ..
    refine ⟨?_, ?_, ?_⟩
    · rw [flist]
      intro name member
      rcases List.mem_append.mp member with before | new
      · exact complete.sound name before
      · rw [first] at new
        exact List.mem_of_mem_filter (List.mem_of_mem_take new)
    · have next' := listed'.start
      have numbers : nameNumbers C'.flist = nameNumbers C.flist ++ nameNumbers added := by
        unfold nameNumbers
        rw [flist, List.map_append]
      rw [numbers, first] at next'
      rw [flist, first]
      exact Complete.packet server length complete.before listed.start next'
    · intro ended
      have all := answer.last (packet.status.symm.trans (final.mp ended))
      rw [← packet.files, packet.begins] at all
      exact ⟨C.flist, C.request.start.toList, length, by rw [flist, all], complete.before⟩

/-- The list of all the files is once each file if nothing follows the greatest name. -/
theorem once_iff (server : ServerFiles files) {flist earlier : List (List UInt8)}
    {start : List UInt8} (length : start.length = 32)
    (sound : ∀ name ∈ flist, name ∈ files) (split : flist = earlier ++ filesFrom files start)
    (before : ∀ name ∈ files, beDec name < beDec start → name ∈ earlier)
    (sorted : StrictlyIncreasing flist ↔ lastName ∉ flist.dropLast) :
    (∀ name ∈ files, flist.count name = 1) ↔ lastName ∉ flist.dropLast := by
  constructor
  · intro once followed
    have member := sound lastName (List.dropLast_subset _ followed)
    have low : beDec start ≤ beDec lastName := by
      have small := name_lt length
      rw [beDec_lastName]
      omega
    have here := (mem_filesFrom server length).mpr ⟨member, low⟩
    rw [split, List.dropLast_append_of_ne_nil (List.ne_nil_of_mem here)] at followed
    rcases List.mem_append.mp followed with twice | inside
    · have count := once lastName member
      rw [split, List.count_append] at count
      have one := List.count_pos_iff.mpr twice
      have two := List.count_pos_iff.mpr here
      omega
    · have ordered : StrictlyIncreasing (filesFrom files start) := server.ordered.filter _
      obtain ⟨front, last, all⟩ := (List.eq_nil_or_concat' (filesFrom files start)).resolve_left
        (List.ne_nil_of_mem here)
      rw [all] at ordered inside
      rw [List.dropLast_concat] at inside
      have less := (List.pairwise_append.mp ordered).2.2 lastName inside last List.mem_cons_self
      have final : last ∈ filesFrom files start := by
        rw [all]
        exact List.mem_append_right _ List.mem_cons_self
      have size := server.names last (List.mem_of_mem_filter final)
      rw [memcmp_eq_compare (size.symm ▸ rfl), Nat.compare_eq_lt, beDec_lastName] at less
      have small := name_lt size
      omega
  · intro last name member
    have ordered := sorted.mpr last
    have nodup : flist.Nodup := by
      apply ordered.imp
      rintro first second less rfl
      rw [memcmp_eq_compare rfl, Nat.compare_eq_lt] at less
      exact Nat.lt_irrefl _ less
    apply List.count_eq_one_of_mem nodup
    rw [split, List.mem_append]
    by_cases early : beDec name < beDec start
    · exact .inl (before name member early)
    · exact .inr ((mem_filesFrom server length).mpr ⟨member, Nat.not_lt.mp early⟩)

/-- Nothing is left out at first. -/
theorem complete_start (files : List (List UInt8)) (cls : UInt8) (key : Nat) :
    Complete files (directoryStart cls key) where
  sound _ member := nomatch member
  before name _ early := by
    have zero : beDec (List.replicate 32 0) = 0 := by decide +kernel
    have none : beDec name < beDec (List.replicate 32 0) := early
    omega
  last absurdity := nomatch absurdity

end Complete

section Reading

/-- Whatever the server sends and whenever the connection is lost, a list that is returned is
strictly increasing exactly if the server listed nothing after the greatest name. If the server
answers as it should, the list has the files of the class and no others, and it has each of them
once exactly if nothing was listed after the greatest name. -/
theorem storageDirectoryRead_sorted (K : Keys) (cls : UInt8) (key : Nat)
    (events : List DirectoryEvent) (flist : List (List UInt8))
    (success : storageDirectoryRead K cls key events = some flist) :
    (StrictlyIncreasing flist ↔ NothingAfterLast events) ∧
      ∀ files, ServerFiles files →
        (∀ packetbuf ∈ directoryPackets events, AsSpecified files packetbuf) →
          (∀ name, name ∈ flist ↔ name ∈ files) ∧
            ((∀ name ∈ files, flist.count name = 1) ↔ NothingAfterLast events) := by
  obtain ⟨C, run, result⟩ := Option.bind_eq_some_iff.mp success
  split at result
  · rename_i ended
    cases result
    have listed : Listed events C := foldlM_run Listed
      (fun _ _ _ _ _ _ before step => before.step step) (listed_start cls key) run
    have sorted : StrictlyIncreasing C.flist ↔ lastName ∉ C.flist.dropLast := by
      rw [strictlyIncreasing_iff listed.names, lastName_mem_iff listed.names]
      apply listed.paged.increasing_iff
      intro number member
      obtain ⟨name, inside, rfl⟩ := List.mem_map.mp member
      exact name_lt (listed.names name inside)
    have nothing : NothingAfterLast events ↔ lastName ∉ C.flist.dropLast := by
      rw [NothingAfterLast, listed.flist]
    refine ⟨sorted.trans nothing.symm, ?_⟩
    intro files server specified
    have both : Listed events C ∧ Complete files C := by
      refine foldlM_run (fun done C => Listed done C ∧ Complete files C) ?_
        ⟨listed_start cls key, complete_start files cls key⟩ run
      intro done event later C C' split before step
      refine ⟨before.1.step step, before.2.step server before.1 ?_ step⟩
      intro packetbuf here
      apply specified
      rw [split, ← List.singleton_append, directoryPackets_append, directoryPackets_append]
      exact List.mem_append_right _ (List.mem_append_left _ here)
    obtain ⟨earlier, start, length, split, before⟩ := both.2.last ended
    refine ⟨?_, (once_iff server length both.2.sound split before sorted).trans nothing.symm⟩
    intro name
    refine ⟨both.2.sound name, fun member => ?_⟩
    rw [split, List.mem_append]
    by_cases early : beDec name < beDec start
    · exact .inl (before name member early)
    · exact .inr ((mem_filesFrom server length).mpr ⟨member, Nat.not_lt.mp early⟩)
  · cases result

/-- A packet that lists one file from the first name on, with a hash that is always zero. -/
def onePacket (status : UInt8) (name : List UInt8) : List UInt8 :=
  status :: 109 :: (List.replicate 32 0 ++ [0, 0, 0, 1] ++ name ++ List.replicate 32 0)

/-- Keys with which each hash is zero. -/
def zeroKeys : Keys := ⟨fun _ => some [], fun _ _ => Vector.replicate 32 0,
  fun _ => Vector.replicate 32 0⟩

/-- A nonce is received. -/
def nonceEvent : DirectoryEvent := .received 0x90 (List.replicate 32 0) (Vector.replicate 32 0)

/-- A packet with one file is received. -/
def oneEvent (status : UInt8) (name : List UInt8) : DirectoryEvent :=
  .received 0xd0 (onePacket status name) (Vector.replicate 32 0)

/-- The greatest name is listed by a server that has no other file. -/
theorem storageDirectoryRead_sorted_last :
    StrictlyIncreasing [lastName] ↔
      NothingAfterLast [.connected, nonceEvent, oneEvent 0 lastName] :=
  (storageDirectoryRead_sorted zeroKeys 109 0 _ [lastName] (by decide +kernel)).1

/-- If the server says after the greatest name that there might be more files, then it is asked
again from the first name on, and the file is in the list twice, although the server answers as it
should. -/
theorem storageDirectoryRead_twice :
    storageDirectoryRead zeroKeys 109 0
        [.connected, nonceEvent, oneEvent 2 lastName, nonceEvent, oneEvent 0 lastName] =
      some [lastName, lastName] ∧
    AsSpecified [lastName] (onePacket 2 lastName) ∧ AsSpecified [lastName] (onePacket 0 lastName) ∧
    ServerFiles [lastName] ∧ ¬ StrictlyIncreasing [lastName, lastName] := by
  refine ⟨by decide +kernel, ⟨by decide +kernel, by decide +kernel⟩,
    ⟨by decide +kernel, by decide +kernel⟩, ⟨?_, List.pairwise_singleton _ _⟩, ?_⟩
  · intro name member
    rw [List.mem_singleton.mp member]
    rfl
  · intro ordered
    have less := (List.pairwise_cons.mp ordered).1 lastName List.mem_cons_self
    exact absurd less (by decide +kernel)

end Reading

end Tarsnap.Storage
