import Tarsnap.Storage.Authenticated
import Tarsnap.Storage.ReadCacheRuns

/-!
# Reading files with and without the cache

Whatever the server sends and whatever fails, the calls that use the cache end, do to it what it is
for and leave it sound. A server that keeps its files answers the requests to read them as the
packet format says. Then a read gives the status and the contents that it gives without a cache.
-/

namespace Tarsnap.Storage

open Tarsnap.Lib Tarsnap.Netpacket

/-- A file of the server: it is not larger than files may be. -/
abbrev StoredFile : Type := { file : List UInt8 // file.length ≤ 262144 }

section Server

variable (K : Keys) (k : List UInt8)

/-- A packet with the result of a read. -/
def readFilePacket (status cls : UInt8) (name : Bytes32) (filelen : Nat) (data : List UInt8) :
    List UInt8 :=
  let body := status :: cls :: (name.toList ++ (beEnc 4 filelen ++ data))
  body ++ (K.hmac k (NETPACKET_READ_FILE_RESPONSE :: body)).toList

/-- The answer to a request to read a file. Files are read only as long as the account balance is
positive. -/
def serverReadFile (paid : Bool) (stored : ClassName → Option StoredFile) (C : ReadRequest) :
    List UInt8 :=
  if paid = false then readFilePacket K k 3 C.cls C.name 0 []
  else
    match stored (C.cls, C.name) with
    | none => readFilePacket K k 1 C.cls C.name 0 []
    | some file =>
      if C.buflen.all fun buflen => file.val.length = buflen + STORAGE_FILE_OVERHEAD then
        readFilePacket K k 0 C.cls C.name file.val.length file.val
      else readFilePacket K k 2 C.cls C.name file.val.length []

variable {K k} {status cls : UInt8} {name : Bytes32} {filelen : Nat} {data : List UInt8}

/-- The length of a packet. -/
theorem readFilePacket_length :
    (readFilePacket K k status cls name filelen data).length = data.length + 70 := by
  simp only [readFilePacket, List.length_append, List.length_cons, Vector.length_toList,
    beEnc_length]
  omega

/-- The fields of a packet. -/
theorem readFilePacket_fields :
    byte (readFilePacket K k status cls name filelen data) 0 = status ∧
    byte (readFilePacket K k status cls name filelen data) 1 = cls ∧
    field (readFilePacket K k status cls name filelen data) 2 32 = name.toList ∧
    field (readFilePacket K k status cls name filelen data) 34 4 = beEnc 4 filelen ∧
    field (readFilePacket K k status cls name filelen data) 38 data.length = data := by
  have nameLength : name.toList.length = 32 := Vector.length_toList
  have lenLength : (beEnc 4 filelen).length = 4 := beEnc_length _ _
  refine ⟨rfl, rfl, ?_, ?_, ?_⟩
  · rw [field, readFilePacket]
    simp only [List.cons_append, List.drop_succ_cons, List.drop_zero, List.append_assoc]
    exact List.take_left' nameLength
  · rw [field, readFilePacket]
    simp only [List.cons_append, List.drop_succ_cons, List.append_assoc]
    rw [List.drop_left' nameLength, List.take_left' lenLength]
  · rw [field, readFilePacket]
    simp only [List.cons_append, List.drop_succ_cons, List.append_assoc]
    rw [← List.drop_drop (i := 4) (j := 32), List.drop_left' nameLength,
      List.drop_left' lenLength, List.take_left]

/-- A packet is verified. -/
theorem readFilePacket_verified (loaded : K.auth .get = some k) :
    verifyResponse K NETPACKET_READ_FILE_RESPONSE none (some .get)
      ((readFilePacket K k status cls name filelen data).length - 32) true
      NETPACKET_READ_FILE_RESPONSE (readFilePacket K k status cls name filelen data) = .ok () := by
  have body : (status :: cls :: (name.toList ++ (beEnc 4 filelen ++ data))).length =
      data.length + 38 := by
    simp only [List.length_append, List.length_cons, Vector.length_toList, beEnc_length]
    omega
  have position : data.length + 70 - 32 = data.length + 38 := by omega
  rw [readFilePacket_length, position, verifyResponse, if_neg (by decide),
    if_neg (not_not.mpr rfl)]
  have good : netpacketHmacVerify K NETPACKET_READ_FILE_RESPONSE none
      (readFilePacket K k status cls name filelen data) (data.length + 38) .get = .good := by
    rw [netpacketHmacVerify, loaded]
    simp only
    rw [if_pos]
    rw [hashedData, readFilePacket, field, List.drop_left' body, List.take_left' body]
    exact List.take_of_length_le (Nat.le_of_eq Vector.length_toList)
  simp only [good]

/-- What a handler takes from the packet with a result other than a file. -/
theorem readFilePacket_empty (loaded : K.auth .get = some k) {decrypt : List UInt8 → Decrypted}
    (C : ReadRequest) (failed : status = 1 ∧ filelen = 0 ∨ status = 3 ∧ filelen = 0 ∨ status = 2) :
    callbackReadFileResponse K true NETPACKET_READ_FILE_RESPONSE
      (readFilePacket K k status C.cls C.name filelen []) decrypt C =
        .ok (.file (if status = 2 then 2 else if status = 1 then 1 else -1) none) := by
  obtain ⟨first, second, third, fourth, _⟩ :=
    @readFilePacket_fields K k status C.cls C.name filelen []
  have length := @readFilePacket_length K k status C.cls C.name filelen []
  rw [callbackReadFileResponse, readFilePacket_verified loaded, ok_bind, readFileContents,
    checkFile,
    second, third, if_neg (not_or.mpr ⟨not_not.mpr rfl, not_not.mpr rfl⟩), ok_bind, first, fourth,
    length, beDec_beEnc]
  rcases failed with ⟨rfl, rfl⟩ | ⟨rfl, rfl⟩ | rfl
  · rfl
  · rfl
  · rfl

/-- What a handler takes from a packet with a file. -/
theorem readFilePacket_file (loaded : K.auth .get = some k) {decrypt : List UInt8 → Decrypted}
    (C : ReadRequest) (small : data.length ≤ 262144) :
    callbackReadFileResponse K true NETPACKET_READ_FILE_RESPONSE
        (readFilePacket K k 0 C.cls C.name data.length data) decrypt C =
      if filelenAccepted C.buflen data.length = false then .error .protocol
      else
        match decrypt data with
        | .contents buf => .ok (.file 0 (some buf))
        | .corrupt => .ok (.file 2 none)
        | .error => .error .internal := by
  obtain ⟨first, second, third, fourth, fifth⟩ :=
    @readFilePacket_fields K k 0 C.cls C.name data.length data
  have length := @readFilePacket_length K k 0 C.cls C.name data.length data
  have decoded : beDec (beEnc 4 data.length) = data.length := by
    rw [beDec_beEnc]
    exact Nat.mod_eq_of_lt (Nat.lt_of_le_of_lt small (by decide))
  have whole : ¬data.length + 70 ≠ (data.length + 70) % 4294967296 := by omega
  rw [callbackReadFileResponse, readFilePacket_verified loaded, ok_bind, readFileContents,
    checkFile,
    second, third, if_neg (not_or.mpr ⟨not_not.mpr rfl, not_not.mpr rfl⟩), ok_bind, first, fourth,
    length, decoded]
  simp only [if_true, or_iff_right whole, fifth]
  split
  · rfl
  · cases decrypt data with
    | contents buf => rfl
    | corrupt => rfl
    | error => rfl

end Server

section Consistency

variable (K : Keys) (k : List UInt8)

/-- The reply of the server to a request. -/
def serverReply (paid : Bool) (stored : ClassName → Option StoredFile) (C : ReadRequest) : Reply :=
  ⟨true, NETPACKET_READ_FILE_RESPONSE, serverReadFile K k paid stored C⟩

/-- The contents of the files that can be read. -/
def serverFiles (decrypt : List UInt8 → Decrypted) (stored : ClassName → Option StoredFile)
    (classname : ClassName) : Option (List UInt8) :=
  (stored classname).bind fun file =>
    if file.val.length < STORAGE_FILE_OVERHEAD then none
    else
      match decrypt file.val with
      | .contents buf => some buf
      | _ => none

variable {K k} {decrypt : List UInt8 → Decrypted} {stored : ClassName → Option StoredFile}

/-- An account that owes money gets no file. -/
theorem serverReadFile_unpaid (loaded : K.auth .get = some k) (C : ReadRequest) :
    callbackReadFileResponse K true NETPACKET_READ_FILE_RESPONSE
      (serverReadFile K k false stored C) decrypt C = .ok (.file (-1) none) :=
  readFilePacket_empty loaded C (.inr (.inl ⟨rfl, rfl⟩))

/-- Data that is sent is that of the file. -/
theorem serverReadFile_sound (loaded : K.auth .get = some k)
    (lengths : ∀ file buf, decrypt file = .contents buf →
      buf.length + STORAGE_FILE_OVERHEAD = file.length) {paid : Bool} {C : ReadRequest} {sc : Int}
    {buf : List UInt8}
    (read : callbackReadFileResponse K true NETPACKET_READ_FILE_RESPONSE
      (serverReadFile K k paid stored C) decrypt C = .ok (.file sc (some buf))) :
    serverFiles decrypt stored (C.cls, C.name) = some buf := by
  by_cases owing : paid = false
  · rw [owing, serverReadFile_unpaid loaded] at read
    cases read
  rw [serverReadFile, if_neg owing] at read
  rw [serverFiles]
  cases known : stored (C.cls, C.name) with
  | none =>
    rw [known] at read
    have none := @readFilePacket_empty K k 1 0 loaded decrypt C (.inl ⟨rfl, rfl⟩)
    rw [none] at read
    cases read
  | some file =>
    rw [known] at read
    simp only at read
    split at read
    · rw [readFilePacket_file loaded C file.property] at read
      split at read
      · cases read
      cases decrypted : decrypt file.val with
      | contents data =>
        rw [decrypted] at read
        cases read
        have total := lengths _ _ decrypted
        rw [Option.bind_some, if_neg (by omega), decrypted]
      | corrupt =>
        rw [decrypted] at read
        cases read
      | error =>
        rw [decrypted] at read
        cases read
    · rw [readFilePacket_empty loaded C (.inr (.inr rfl))] at read
      cases read

/-- A file that has contents. -/
theorem serverFiles_stored {classname : ClassName} {buf : List UInt8}
    (known : serverFiles decrypt stored classname = some buf) : ∃ file, stored classname =
      some file ∧ STORAGE_FILE_OVERHEAD ≤ file.val.length ∧ decrypt file.val = .contents buf := by
  obtain ⟨file, here, known⟩ := Option.bind_eq_some_iff.mp known
  split at known
  · cases known
  rename_i long
  refine ⟨file, here, Nat.not_lt.mp long, ?_⟩
  cases decrypted : decrypt file.val with
  | contents data =>
    rw [decrypted] at known
    exact congrArg Decrypted.contents (Option.some.inj known)
  | corrupt =>
    rw [decrypted] at known
    cases known
  | error =>
    rw [decrypted] at known
    cases known

/-- A file that has contents is sent if its length is right, however it is decrypted. -/
theorem serverReadFile_complete (loaded : K.auth .get = some k)
    {file : StoredFile} {cls : UInt8} {name : Bytes32} (here : stored (cls, name) = some file)
    (long : STORAGE_FILE_OVERHEAD ≤ file.val.length) (decrypt : List UInt8 → Decrypted)
    (buflen : Option Nat) :
    callbackReadFileResponse K true NETPACKET_READ_FILE_RESPONSE
        (serverReadFile K k true stored ⟨cls, name, buflen⟩) decrypt ⟨cls, name, buflen⟩ =
      if buflen.all fun buflen => file.val.length = buflen + STORAGE_FILE_OVERHEAD then
        match decrypt file.val with
        | .contents buf => .ok (.file 0 (some buf))
        | .corrupt => .ok (.file 2 none)
        | .error => .error .internal
      else .ok (.file 2 none) := by
  rw [serverReadFile, if_neg (by decide), here]
  simp only
  split
  · rename_i right
    have accepted : filelenAccepted buflen file.val.length = true := by
      cases buflen with
      | none => exact decide_eq_true ⟨long, file.property⟩
      | some buflen => exact right
    refine (readFilePacket_file loaded ⟨cls, name, buflen⟩ file.property).trans ?_
    simp only [accepted, Bool.true_eq_false, if_false]
  · exact readFilePacket_empty loaded ⟨cls, name, buflen⟩ (.inr (.inr rfl))

end Consistency

section Calls

variable {K : Keys} {decrypt : List UInt8 → Decrypted} {files : ClassName → List UInt8 → Prop}
  {cache : StorageReadCache} {order : List ClassName}

/-- The request that a call makes if it must, the memory for its buffer and the reply to it. -/
def ReadCall.request : ReadCall → Option (ReadRequest × Bool × Reply)
  | .addName _ _ => none
  | .setLimit _ => none
  | .read classname buflen _ reply => some (⟨classname.1, classname.2, some buflen⟩, true, reply)
  | .readAlloc classname malloc _ reply => some (⟨classname.1, classname.2, none⟩, malloc, reply)
  | .readCallback C malloc _ reply => some (C, malloc, reply)

variable (K decrypt) in
/-- The reply to a call has the contents of a file. -/
def ReadCall.Delivers (call : ReadCall) (classname : ClassName) (buf : List UInt8) : Prop :=
  ∃ C malloc reply, call.request = some (C, malloc, reply) ∧ classname = (C.cls, C.name) ∧
    (uncached K decrypt C malloc reply).2 = some buf

/-- What a request gives does not depend on the cache, and what is sent is added to it. -/
theorem storageReadFileCallback_eq (C : ReadRequest) (malloc granted : Bool) (reply : Reply) :
    storageReadFileCallback K decrypt cache C malloc granted reply =
      (uncached K decrypt C malloc reply, (uncached K decrypt C malloc reply).2.elim cache
        fun buf => storageReadCacheAddData cache (C.cls, C.name) buf granted) := by
  rw [uncached, storageReadFileCallback, storageReadFileCallback]
  by_cases large : C.buflen.any (262144 - STORAGE_FILE_OVERHEAD < ·) = true
  · rw [if_pos large, if_pos large]
    rfl
  · rw [if_neg large, if_neg large]
    cases readFileResponse K decrypt C malloc reply with
    | error reject => rfl
    | ok response =>
      cases response with
      | file sc buf =>
        cases buf with
        | none => rfl
        | some buf => rfl
      | _ => rfl

/-- A request does to the cache what it is for. -/
theorem storageReadFileCallback_spec (sound : Sound files cache order) {C : ReadRequest}
    {malloc : Bool} {reply : Reply}
    (delivered : ∀ buf, (uncached K decrypt C malloc reply).2 = some buf →
      files (C.cls, C.name) buf) (granted : Bool) :
    ∃ cache', storageReadFileCallback K decrypt cache C malloc granted reply =
        (((cache.view order).fetch K decrypt C malloc granted reply).1, cache') ∧
      Sound files cache' order ∧
      cache'.view order = ((cache.view order).fetch K decrypt C malloc granted reply).2 := by
  refine ⟨_, storageReadFileCallback_eq C malloc granted reply, ?_⟩
  rw [Lru.fetch]
  cases sent : (uncached K decrypt C malloc reply).2 with
  | none => exact ⟨sound, rfl⟩
  | some buf => exact storageReadCacheAddData_spec sound (delivered buf sent) granted

/-- A read into a buffer does to the cache what it is for. -/
theorem storageReadFile_spec (sound : Sound files cache order) {classname : ClassName}
    {buflen : Nat} {reply : Reply} (delivered : ∀ buf, (uncached K decrypt
      ⟨classname.1, classname.2, some buflen⟩ true reply).2 = some buf → files classname buf)
    (granted : Bool) :
    ∃ cache', storageReadFile K decrypt cache classname buflen granted reply =
        (((cache.view order).step K decrypt (.read classname buflen granted reply)).1, cache') ∧
      Sound files cache' order ∧ cache'.view order =
        ((cache.view order).step K decrypt (.read classname buflen granted reply)).2 := by
  rw [storageReadFile, Lru.step]
  rcases @storageReadCacheFind_spec _ _ classname _ sound with
    ⟨missed, unfound⟩ | ⟨buf, cached, found, known⟩
  · have data : (cache.view order).data classname = none := missed
    rw [data]
    generalize storageReadCacheFind cache classname = result at unfound
    obtain ⟨buf, len⟩ := result
    simp only at unfound
    subst unfound
    exact storageReadFileCallback_spec sound delivered granted
  · have data : (cache.view order).data classname = some buf := cached
    rw [data, found]
    refine ⟨cache, ?_, sound, rfl⟩
    simp only
    by_cases right : buflen = buf.length
    · rw [if_neg (not_not.mpr right), if_pos right, right, List.take_length]
    · rw [if_pos right, if_neg right]

/-- A read with a buffer that is allocated does to the cache what it is for. -/
theorem storageReadFileAlloc_spec (sound : Sound files cache order) {classname : ClassName}
    {malloc : Bool} {reply : Reply} (delivered : ∀ buf, (uncached K decrypt
      ⟨classname.1, classname.2, none⟩ malloc reply).2 = some buf → files classname buf)
    (granted : Bool) :
    ∃ cache', storageReadFileAlloc K decrypt cache classname malloc granted reply =
        (((cache.view order).step K decrypt (.readAlloc classname malloc granted reply)).1,
          cache') ∧ Sound files cache' order ∧ cache'.view order =
        ((cache.view order).step K decrypt (.readAlloc classname malloc granted reply)).2 := by
  rw [storageReadFileAlloc, Lru.step]
  rcases @storageReadCacheFind_spec _ _ classname _ sound with
    ⟨missed, unfound⟩ | ⟨buf, cached, found, known⟩
  · have data : (cache.view order).data classname = none := missed
    rw [data]
    generalize storageReadCacheFind cache classname = result at unfound
    obtain ⟨buf, len⟩ := result
    simp only at unfound
    subst unfound
    exact storageReadFileCallback_spec sound delivered granted
  · have data : (cache.view order).data classname = some buf := cached
    rw [data, found]
    refine ⟨cache, ?_, sound, rfl⟩
    cases malloc with
    | false => rfl
    | true => simp only [Bool.true_eq_false, if_false, if_true, List.take_length]

/-- A call ends without a failing assertion and does to the cache what it is for. -/
theorem ReadCall.run_spec {call : ReadCall}
    (delivered : ∀ classname buf, call.Delivers K decrypt classname buf → files classname buf)
    {fuel : Nat} (sound : Sound files cache order) (few : order.length ≤ fuel) :
    ∃ cache' order', call.run K decrypt fuel cache =
        some (((cache.view order).step K decrypt call).1, cache') ∧ Sound files cache' order' ∧
      cache'.view order' = ((cache.view order).step K decrypt call).2 ∧
      order'.length ≤ order.length + 1 := by
  cases call with
  | addName classname granted =>
    obtain ⟨cache', order', named, sound', view', length'⟩ :=
      @storageReadCacheAddName_spec _ _ classname _ _ sound few granted
    refine ⟨cache', order', ?_, sound', view', length'⟩
    rw [ReadCall.run, named]
    rfl
  | setLimit size =>
    refine ⟨storageReadCacheSetLimit cache size, order, rfl, ?_, rfl, Nat.le_succ _⟩
    exact ⟨sound.lists, sound.queued, sound.buflen, sound.evicted, sound.data, sound.sz,
      sound.held, sound.small⟩
  | read classname buflen granted reply =>
    obtain ⟨cache', read, sound', view'⟩ := storageReadFile_spec sound
      (fun buf sent => delivered _ buf ⟨_, _, reply, rfl, rfl, sent⟩) granted
    exact ⟨cache', order, congrArg some read, sound', view', Nat.le_succ _⟩
  | readAlloc classname malloc granted reply =>
    obtain ⟨cache', read, sound', view'⟩ := storageReadFileAlloc_spec sound
      (fun buf sent => delivered _ buf ⟨_, _, reply, rfl, rfl, sent⟩) granted
    exact ⟨cache', order, congrArg some read, sound', view', Nat.le_succ _⟩
  | readCallback C malloc granted reply =>
    obtain ⟨cache', asked, sound', view'⟩ := storageReadFileCallback_spec sound
      (fun buf sent => delivered _ buf ⟨C, malloc, reply, rfl, rfl, sent⟩) granted
    exact ⟨cache', order, congrArg some asked, sound', view', Nat.le_succ _⟩

/-- Calls end without a failing assertion and do to the cache what they are for. -/
theorem ReadCall.runs_spec {fuel : Nat} (calls : List ReadCall) :
    ∀ {cache : StorageReadCache} {order : List ClassName}, (∀ call ∈ calls, ∀ classname buf,
      call.Delivers K decrypt classname buf → files classname buf) →
    Sound files cache order → order.length + calls.length ≤ fuel → ∃ cache' order',
      ReadCall.runs K decrypt fuel cache calls =
        some (((cache.view order).runs K decrypt calls).1, cache') ∧
      Sound files cache' order' ∧
      cache'.view order' = ((cache.view order).runs K decrypt calls).2 ∧ order'.length ≤ fuel := by
  induction calls with
  | nil =>
    intro cache order _ sound few
    exact ⟨cache, order, rfl, sound, rfl, few⟩
  | cons call calls ih =>
    intro cache order delivered sound few
    rw [List.length_cons] at few
    obtain ⟨cache1, order1, ran, sound1, view1, length1⟩ := ReadCall.run_spec
      (delivered call List.mem_cons_self) sound (show order.length ≤ fuel by omega)
    obtain ⟨cache', order', rest, sound', view', length'⟩ :=
      ih (fun other member => delivered other (List.mem_cons_of_mem call member)) sound1 (by omega)
    rw [view1] at rest view'
    refine ⟨cache', order', ?_, sound', view', length'⟩
    rw [ReadCall.runs, ran]
    simp only [Option.bind_eq_bind, Option.bind_some, rest]
    rfl

end Calls

section Transparency

variable {K : Keys} {k : List UInt8} {decrypt : List UInt8 → Decrypted}
  {stored : ClassName → Option StoredFile}

/-- Buffers are not larger than the contents of files may be. -/
def ReadCall.Within : ReadCall → Prop
  | .read _ buflen _ _ => buflen ≤ 262144 - STORAGE_FILE_OVERHEAD
  | _ => True

variable (K k stored) in
/-- The server keeps its files: a reply is its answer, or no packet is received. -/
def ReadCall.Kept (call : ReadCall) : Prop :=
  ∀ C malloc reply, call.request = some (C, malloc, reply) →
    reply.statusOk = false ∨ ∃ paid, reply = serverReply K k paid stored C

variable (K k decrypt stored) in
/-- A read gives what it gives without a cache from the server that is paid, or it fails and its
reply is another one. -/
def Transparent (call : ReadCall) (result : ReadStatus) : Prop :=
  ∀ C malloc reply, call.request = some (C, malloc, reply) →
    result = uncached K decrypt C malloc (serverReply K k true stored C) ∨
      reply ≠ serverReply K k true stored C ∧ result = (-1, none)

/-- A reply that is not the answer of the server that is paid makes a request fail. -/
theorem uncached_fails (loaded : K.auth .get = some k) {C : ReadRequest} {malloc : Bool}
    {reply : Reply}
    (kept : reply.statusOk = false ∨ ∃ paid, reply = serverReply K k paid stored C)
    (other : reply ≠ serverReply K k true stored C) :
    uncached K decrypt C malloc reply = (-1, none) := by
  rw [uncached, storageReadFileCallback]
  split
  · rfl
  rcases kept with failed | ⟨paid, rfl⟩
  · have rejected : readFileResponse K decrypt C malloc reply = .error .network := by
      rw [readFileResponse, callbackReadFileResponse, verifyResponse, if_pos failed]
      rfl
    rw [rejected]
  · cases paid with
    | true => exact absurd rfl other
    | false =>
      have unpaid : readFileResponse K decrypt C malloc (serverReply K k false stored C) =
          .ok (.file (-1) none) := @serverReadFile_unpaid K k _ stored loaded C
      rw [unpaid]

/-- What a request gets are contents of the file. -/
theorem uncached_sound (loaded : K.auth .get = some k)
    (lengths : ∀ file buf, decrypt file = .contents buf →
      buf.length + STORAGE_FILE_OVERHEAD = file.length) {C : ReadRequest} {malloc : Bool}
    {reply : Reply}
    (kept : reply.statusOk = false ∨ ∃ paid, reply = serverReply K k paid stored C)
    {buf : List UInt8} (sent : (uncached K decrypt C malloc reply).2 = some buf) :
    serverFiles decrypt stored (C.cls, C.name) = some buf := by
  rw [uncached, storageReadFileCallback] at sent
  split at sent
  · cases sent
  split at sent
  · rename_i sc data read
    obtain rfl := Option.some.inj sent
    rcases kept with failed | ⟨paid, rfl⟩
    · rw [readFileResponse, callbackReadFileResponse, verifyResponse, if_pos failed] at read
      cases read
    · by_cases starved : C.buflen = none ∧ malloc = false
      · rw [readFileResponse, if_pos starved] at read
        obtain ⟨_, _, _, absurdity⟩ := serverFiles_stored (serverReadFile_sound loaded
          (fun _ _ absurdity => by cases absurdity) read)
        cases absurdity
      · rw [readFileResponse, if_neg starved] at read
        exact serverReadFile_sound loaded lengths read
  · cases sent
  · cases sent

/-- A request for contents that are known gets them, if its length is right. -/
theorem uncached_known (loaded : K.auth .get = some k)
    (lengths : ∀ file buf, decrypt file = .contents buf →
      buf.length + STORAGE_FILE_OVERHEAD = file.length) {classname : ClassName} {buf : List UInt8}
    (known : serverFiles decrypt stored classname = some buf) {buflen : Option Nat}
    (small : ∀ len, buflen = some len → len ≤ 262144 - STORAGE_FILE_OVERHEAD) (malloc : Bool) :
    uncached K decrypt ⟨classname.1, classname.2, buflen⟩ malloc
        (serverReply K k true stored ⟨classname.1, classname.2, buflen⟩) =
      if buflen = none ∧ malloc = false then (-1, none)
      else if buflen = none ∨ buflen = some buf.length then (0, some buf) else (2, none) := by
  obtain ⟨file, here, long, decrypted⟩ := serverFiles_stored known
  have total := lengths _ _ decrypted
  have answer := serverReadFile_complete loaded here long
    (if buflen = none ∧ malloc = false then fun _ => .error else decrypt) buflen
  have fits : ¬buflen.any (262144 - STORAGE_FILE_OVERHEAD < ·) = true := by
    cases buflen with
    | none => exact fun absurdity => nomatch absurdity
    | some len =>
      exact fun large => absurd (of_decide_eq_true large) (Nat.not_lt.mpr (small len rfl))
  rw [uncached, storageReadFileCallback, if_neg fits, readFileResponse]
  simp only [serverReply]
  rw [answer]
  cases buflen with
  | none =>
    cases malloc with
    | false => simp
    | true => simp [decrypted]
  | some len =>
    by_cases right : len = buf.length
    · simp [right, total, decrypted]
    · have other : ¬file.val.length = len + STORAGE_FILE_OVERHEAD := by omega
      simp [right, other]

/-- Naming a file keeps nothing that was not kept before. -/
theorem addName_data {files : ClassName → List UInt8 → Prop} {L : Lru}
    (data : ∀ classname buf, L.data classname = some buf → files classname buf)
    (classname : ClassName) (granted : Bool) :
    ∀ other buf, (L.addName classname granted).1.data other = some buf → files other buf := by
  have pruned : ∀ other buf, L.prune.data other = some buf → files other buf := by
    intro other buf here
    rw [Lru.prune] at here
    simp only at here
    split at here
    · exact data other buf here
    · cases here
  intro other buf
  rw [Lru.addName]
  split
  · exact pruned other buf
  · exact pruned other buf

/-- Adding contents of a file keeps contents of files. -/
theorem addData_data {files : ClassName → List UInt8 → Prop} {L : Lru}
    (data : ∀ classname buf, L.data classname = some buf → files classname buf)
    {classname : ClassName} {buf : List UInt8} (here : files classname buf) (granted : Bool) :
    ∀ other buf', (L.addData classname buf granted).data other = some buf' →
      files other buf' := by
  intro other buf' added
  rw [Lru.addData] at added
  split at added
  · simp only [Function.update_apply] at added
    split at added
    · rename_i same
      rw [same, ← Option.some.inj added]
      exact here
    · exact data other buf' added
  · exact data other buf' added

/-- A request to the server is transparent, and what is kept of it are contents of the file. -/
theorem fetch_transparent (loaded : K.auth .get = some k)
    (lengths : ∀ file buf, decrypt file = .contents buf →
      buf.length + STORAGE_FILE_OVERHEAD = file.length) {L : Lru}
    (data : ∀ classname buf, L.data classname = some buf →
      serverFiles decrypt stored classname = some buf)
    (C : ReadRequest) (malloc granted : Bool) {reply : Reply}
    (kept : reply.statusOk = false ∨ ∃ paid, reply = serverReply K k paid stored C) :
    ((L.fetch K decrypt C malloc granted reply).1 =
        uncached K decrypt C malloc (serverReply K k true stored C) ∨
      reply ≠ serverReply K k true stored C ∧
        (L.fetch K decrypt C malloc granted reply).1 = (-1, none)) ∧
    ∀ classname buf, (L.fetch K decrypt C malloc granted reply).2.data classname = some buf →
      serverFiles decrypt stored classname = some buf := by
  constructor
  · by_cases same : reply = serverReply K k true stored C
    · exact .inl (by rw [Lru.fetch, same])
    · exact .inr ⟨same, uncached_fails loaded kept same⟩
  · rw [Lru.fetch]
    cases sent : (uncached K decrypt C malloc reply).2 with
    | none => exact data
    | some buf => exact addData_data data (uncached_sound loaded lengths kept sent) granted

/-- A call on what stands for the cache is transparent, and only contents of files are kept. -/
theorem step_transparent (loaded : K.auth .get = some k)
    (lengths : ∀ file buf, decrypt file = .contents buf →
      buf.length + STORAGE_FILE_OVERHEAD = file.length) {L : Lru} {call : ReadCall}
    (kept : call.Kept K k stored) (within : call.Within)
    (data : ∀ classname buf, L.data classname = some buf →
      serverFiles decrypt stored classname = some buf) :
    Transparent K k decrypt stored call (L.step K decrypt call).1 ∧
      ∀ classname buf, (L.step K decrypt call).2.data classname = some buf →
        serverFiles decrypt stored classname = some buf := by
  cases call with
  | addName classname granted =>
    exact ⟨fun _ _ _ absurdity => (by cases absurdity), addName_data data classname granted⟩
  | setLimit size => exact ⟨fun _ _ _ absurdity => (by cases absurdity), data⟩
  | read classname buflen granted reply =>
    have request := kept _ _ _ rfl
    rw [Lru.step]
    cases cached : L.data classname with
    | none =>
      obtain ⟨result, data'⟩ := fetch_transparent loaded lengths data _ true granted request
      refine ⟨fun C malloc reply' same => ?_, data'⟩
      cases same
      exact result
    | some buf =>
      refine ⟨fun C malloc reply' same => .inl ?_, data⟩
      cases same
      rw [uncached_known loaded lengths (data classname buf cached)
        (fun len same => Option.some.inj same ▸ within)]
      by_cases right : buflen = buf.length
      · simp [right]
      · simp [right]
  | readAlloc classname malloc granted reply =>
    have request := kept _ _ _ rfl
    rw [Lru.step]
    cases cached : L.data classname with
    | none =>
      obtain ⟨result, data'⟩ := fetch_transparent loaded lengths data _ malloc granted request
      refine ⟨fun C malloc' reply' same => ?_, data'⟩
      cases same
      exact result
    | some buf =>
      refine ⟨fun C malloc' reply' same => .inl ?_, data⟩
      cases same
      rw [uncached_known loaded lengths (data classname buf cached)
        (fun len absurdity => by cases absurdity)]
      cases malloc with
      | false => rfl
      | true => rfl
  | readCallback C malloc granted reply =>
    obtain ⟨result, data'⟩ :=
      fetch_transparent loaded lengths data C malloc granted (kept _ _ _ rfl)
    refine ⟨fun C' malloc' reply' same => ?_, data'⟩
    cases same
    exact result

/-- Calls on what stands for the cache are transparent. -/
theorem runs_transparent (loaded : K.auth .get = some k)
    (lengths : ∀ file buf, decrypt file = .contents buf →
      buf.length + STORAGE_FILE_OVERHEAD = file.length) (calls : List ReadCall) :
    ∀ {L : Lru}, (∀ call ∈ calls, call.Kept K k stored ∧ call.Within) →
    (∀ classname buf, L.data classname = some buf →
      serverFiles decrypt stored classname = some buf) →
    List.Forall₂ (Transparent K k decrypt stored) calls (L.runs K decrypt calls).1 := by
  induction calls with
  | nil => exact fun _ _ => .nil
  | cons call calls ih =>
    intro L kept data
    obtain ⟨here, within⟩ := kept call List.mem_cons_self
    obtain ⟨transparent, data'⟩ := step_transparent loaded lengths here within data
    exact .cons transparent
      (ih (fun other member => kept other (List.mem_cons_of_mem call member)) data')

end Transparency

/-- Pruning a cache: of its queue the longest front part is left whose data is within the limit. -/
structure Pruned (cache pruned : StorageReadCache) (order order' : List ClassName) : Prop where
  /-- The limit stays. -/
  maxsz : pruned.maxsz = cache.maxsz
  /-- The cache is not over it. -/
  sz : pruned.sz ≤ cache.maxsz
  /-- The most recently named files are left. -/
  recent : order' <+: order
  /-- No file is taken out that could be left. -/
  longest : ∀ front, front <+: order → (front.map cache.bytes).sum ≤ cache.maxsz →
    front <+: order'
  /-- The data of what is left stays. -/
  data : ∀ classname ∈ order', pruned.cached classname = cache.cached classname

/-- Whatever the server sends and whatever fails, calls end without a failing assertion. They do
what they are for, from the results to the queue and the limit, and the queue, the byte counter and
the data of the cache are right. Pruning evicts the least recently named files, and only as many as
it must. If the server keeps its files, each read gives the status and the contents that it gives
without a cache. -/
theorem storageRead_transparent (K : Keys) (decrypt : List UInt8 → Decrypted)
    (calls : List ReadCall) {fuel : Nat} (enough : calls.length ≤ fuel) :
    ∃ results cache order,
      ReadCall.runs K decrypt fuel storageReadCacheInit calls = some (results, cache) ∧
      Lru.empty.runs K decrypt calls = (results, cache.view order) ∧
      Sound (fun classname buf => ∃ call ∈ calls, call.Delivers K decrypt classname buf)
        cache order ∧
      (∃ pruned order', cachePrune fuel cache = some pruned ∧ Pruned cache pruned order order') ∧
      ∀ k stored, K.auth .get = some k →
        (∀ file buf, decrypt file = .contents buf →
          buf.length + STORAGE_FILE_OVERHEAD = file.length) →
        (∀ call ∈ calls, call.Kept K k stored ∧ call.Within) →
        List.Forall₂ (Transparent K k decrypt stored) calls results := by
  obtain ⟨cache, order, ran, sound, view, few⟩ := @ReadCall.runs_spec K decrypt
    (fun classname buf => ∃ call ∈ calls, call.Delivers K decrypt classname buf) fuel calls
    storageReadCacheInit [] (fun call member classname buf sent => ⟨call, member, sent⟩)
    storageReadCacheInit_sound (by rw [List.length_nil]; omega)
  have start : storageReadCacheInit.view [] = Lru.empty := rfl
  rw [start] at ran view
  obtain ⟨pruned, order', done, sound', kept, within⟩ := cachePrune_spec fuel sound few
  have queue : order' = keep cache.bytes cache.maxsz order := by
    rw [← sound.length]
    exact congrArg Lru.queue kept
  have maxsz : pruned.maxsz = cache.maxsz := congrArg Lru.limit kept
  refine ⟨_, cache, order, ran, by rw [view], sound, ⟨pruned, order', done, maxsz,
    maxsz ▸ within, ?_, ?_, ?_⟩, ?_⟩
  · rw [queue]
    exact keep_front
  · intro front short fits
    rw [queue]
    exact keep_longest short fits
  · intro classname left
    have data := congrFun (congrArg Lru.data kept) classname
    rw [show order' = (cache.view order).prune.queue from congrArg Lru.queue kept] at left
    exact data.trans (if_pos left)
  · intro k stored loaded lengths kept
    exact runs_transparent loaded lengths calls kept fun _ _ absurdity => by cases absurdity

/-- Files whose contents are behind their header. -/
def dropHeader (file : List UInt8) : Decrypted :=
  if STORAGE_FILE_OVERHEAD ≤ file.length then .contents (file.drop STORAGE_FILE_OVERHEAD)
  else .corrupt

/-- A server with a file of one byte under each name. -/
def oneByteFiles (_ : ClassName) : Option StoredFile :=
  some ⟨List.replicate 297 7, by rw [List.length_replicate]; decide⟩

/-- A file is named, read from the server and from the cache, and read again with a limit of zero,
when the server does not answer. -/
def oneByteCalls : List ReadCall :=
  let classname : ClassName := (99, Vector.replicate 32 0)
  let sent := fun buflen =>
    serverReply lengthKeys [] true oneByteFiles ⟨classname.1, classname.2, buflen⟩
  [.addName classname true, .read classname 1 true (sent (some 1)),
    .readAlloc classname true true (sent none), .setLimit 0, .addName classname true,
    .read classname 1 true ⟨false, 0, []⟩]

/-- The calls end, and what the reads of the file give is what they give without a cache. -/
theorem storageRead_transparent_oneByte : ∃ results cache order,
    ReadCall.runs lengthKeys dropHeader 6 storageReadCacheInit oneByteCalls =
      some (results, cache) ∧
    Lru.empty.runs lengthKeys dropHeader oneByteCalls = (results, cache.view order) ∧
    List.Forall₂ (Transparent lengthKeys [] dropHeader oneByteFiles) oneByteCalls results := by
  obtain ⟨results, cache, order, ran, view, _, _, transparent⟩ :=
    storageRead_transparent lengthKeys dropHeader oneByteCalls (Nat.le_refl 6)
  refine ⟨results, cache, order, ran, view, transparent [] oneByteFiles rfl ?_ ?_⟩
  · intro file buf decrypted
    rw [dropHeader] at decrypted
    split at decrypted
    · cases decrypted
      rw [List.length_drop]
      omega
    · cases decrypted
  · have small : 1 ≤ 262144 - STORAGE_FILE_OVERHEAD := by decide
    rw [oneByteCalls]
    simp only [List.forall_mem_cons]
    refine ⟨⟨?_, trivial⟩, ⟨?_, small⟩, ⟨?_, trivial⟩, ⟨?_, trivial⟩, ⟨?_, trivial⟩, ⟨?_, small⟩,
      List.forall_mem_nil _⟩
    · exact fun _ _ _ absurdity => by cases absurdity
    · intro C malloc reply same
      cases same
      exact .inr ⟨true, rfl⟩
    · intro C malloc reply same
      cases same
      exact .inr ⟨true, rfl⟩
    · exact fun _ _ _ absurdity => by cases absurdity
    · exact fun _ _ _ absurdity => by cases absurdity
    · intro C malloc reply same
      cases same
      exact .inl rfl

end Tarsnap.Storage
