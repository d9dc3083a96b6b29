import Tarsnap.Storage.Responses

/-!
# Accepted responses are authenticated

The protocol prescribes for each response type with an HMAC the key and the nonce, and that the
HMAC covers the packet up to its last 32 bytes. Every handler but one verifies the HMAC at the
end of the packet and uses only bytes before it. The answer to whether a transaction has a
checkpoint is verified at the wrong place, so that its transaction nonce is not authenticated.
-/

namespace Tarsnap.Storage

open Tarsnap.Lib Tarsnap.Netpacket

/-- The response type that the protocol prescribes for a request. -/
def Request.responseType : Request → UInt8
  | .cancel _ => NETPACKET_TRANSACTION_CANCEL_RESPONSE
  | .start _ => NETPACKET_TRANSACTION_START_RESPONSE
  | .checkpoint _ => NETPACKET_TRANSACTION_CHECKPOINT_RESPONSE
  | .commit _ => NETPACKET_TRANSACTION_TRYCOMMIT_RESPONSE
  | .ischeckpointed _ => NETPACKET_TRANSACTION_ISCHECKPOINTED_RESPONSE
  | .fexist _ => NETPACKET_WRITE_FEXIST_RESPONSE
  | .writeFile _ => NETPACKET_WRITE_FILE_RESPONSE
  | .deleteFile _ => NETPACKET_DELETE_FILE_RESPONSE
  | .readFile _ => NETPACKET_READ_FILE_RESPONSE
  | .directory _ => NETPACKET_DIRECTORY_RESPONSE

/-- The key that the protocol prescribes. -/
def Request.key : Request → Option AuthKey
  | .cancel C => keyLookup C.whichkey
  | .start C => keyLookup C.whichkey
  | .checkpoint C => keyLookup C.whichkey
  | .commit C => keyLookup C.whichkey
  | .ischeckpointed C => keyLookup C.whichkey
  | .fexist _ => some .put
  | .writeFile _ => some .put
  | .deleteFile _ => some .delete
  | .readFile _ => some .get
  | .directory C => some (directoryKey C.key)

/-- The nonce that the protocol prescribes. -/
def Request.nonce (K : Keys) : Request → Option Bytes32
  | .cancel C => some (C.seqnum K)
  | .start C => some (C.seqnum K)
  | .checkpoint C => some C.seqnum
  | .commit C => some C.seqnum
  | .ischeckpointed C => some C.nonce
  | .fexist C => some C.nonce
  | .writeFile C => some C.nonce
  | .deleteFile C => some C.nonce
  | .readFile _ => none
  | .directory C => some C.nonce

/-- Two packets agree on everything that an HMAC at their end covers. -/
structure SameCovered (left right : List UInt8) : Prop where
  /-- The packets have the same length. -/
  length : right.length = left.length
  /-- They agree up to the last 32 bytes. -/
  covered : right.take (left.length - 32) = left.take (left.length - 32)

/-- A packet of an admitted length that is accepted is authentic, and what is taken from it
depends only on what its HMAC covers. -/
def Authenticated (K : Keys) (decrypt : List UInt8 → Decrypted) (request : Request) : Prop :=
  ∀ statusOk packettype packetbuf response,
    lengthAdmitted packettype packetbuf.length = true →
    handle K decrypt statusOk packettype packetbuf request = .ok response →
    packettype = request.responseType ∧
    (∃ key, request.key = some key ∧
      Authentic K key (request.nonce K) packettype packetbuf) ∧
    ∀ other response', SameCovered packetbuf other →
      handle K decrypt statusOk packettype other request = .ok response' → response' = response

section Covered

/-- A field before the HMAC. -/
theorem SameCovered.field {left right : List UInt8} (same : SameCovered left right)
    {pos len : Nat} (before : pos + len + 32 ≤ left.length) :
    field right pos len = field left pos len := by
  have bytes (packetbuf : List UInt8) :
      Netpacket.field packetbuf pos len = ((packetbuf.take (pos + len)).drop pos) := by
    rw [Netpacket.field, List.drop_take, Nat.add_sub_cancel_left]
  have front : right.take (pos + len) = left.take (pos + len) := by
    have less : min (pos + len) (left.length - 32) = pos + len := by omega
    rw [← less, ← List.take_take, ← List.take_take, same.covered]
  rw [bytes, bytes, front]

/-- A byte before the HMAC. -/
theorem SameCovered.byte {left right : List UInt8} (same : SameCovered left right) {pos : Nat}
    (before : pos + 32 < left.length) : byte right pos = byte left pos := by
  have one := same.field (show pos + 1 + 32 ≤ left.length by omega)
  have bytes (packetbuf : List UInt8) (inside : pos < packetbuf.length) :
      Netpacket.field packetbuf pos 1 = [Storage.byte packetbuf pos] := by
    rw [Netpacket.field, List.drop_eq_getElem_cons inside, List.take_succ_cons, List.take_zero,
      Storage.byte, List.getD_eq_getElem _ _ inside]
  rw [bytes right (by rw [same.length]; omega), bytes left (by omega)] at one
  exact (List.cons.inj one).1

/-- The file that a packet is about. -/
theorem SameCovered.checkFile {left right : List UInt8} (same : SameCovered left right)
    (long : 66 ≤ left.length) (cls : UInt8) (name : Bytes32) :
    checkFile right cls name = checkFile left cls name := by
  rw [Storage.checkFile, Storage.checkFile, same.byte (by omega), same.field (by omega)]

end Covered

section Handlers

variable {K : Keys} {statusOk : Bool} {packettype : UInt8} {packetbuf : List UInt8}

/-- What a verified response is. -/
theorem verifyResponse_ok {expected : UInt8} {nonce : Option Bytes32} {key : Option AuthKey}
    {pos : Nat} {done : Unit}
    (verified : verifyResponse K expected nonce key pos statusOk packettype packetbuf = .ok done) :
    packettype = expected ∧ ∃ loaded, key = some loaded ∧
      netpacketHmacVerify K packettype nonce packetbuf pos loaded = .good := by
  unfold verifyResponse at verified
  split at verified
  · exact nomatch verified
  split at verified
  · exact nomatch verified
  rename_i type
  split at verified
  · exact nomatch verified
  rename_i loaded
  split at verified
  · rename_i good
    exact ⟨Decidable.not_not.mp type, loaded, rfl, good⟩
  · exact nomatch verified
  · exact nomatch verified

/-- A handler that verifies the HMAC at the end and then uses only what it covers. -/
theorem authenticated_of_last {decrypt : List UInt8 → Decrypted} {request : Request}
    (pos : Nat → Nat) (body : List UInt8 → Except Reject Response)
    (handler : ∀ statusOk packettype packetbuf,
      handle K decrypt statusOk packettype packetbuf request = (do
        verifyResponse K request.responseType (request.nonce K) request.key
          (pos packetbuf.length) statusOk packettype packetbuf
        body packetbuf))
    (last : ∀ len, lengthAdmitted request.responseType len = true → pos len + 32 = len)
    (covered : ∀ left right response, lengthAdmitted request.responseType left.length = true →
      SameCovered left right → body left = .ok response → body right = .ok response) :
    Authenticated K decrypt request := by
  intro statusOk packettype packetbuf response admitted accepted
  rw [handler] at accepted
  obtain ⟨_, verified, accepted⟩ := bind_eq_ok.mp accepted
  obtain ⟨type, key, loaded, good⟩ := verifyResponse_ok verified
  rw [type] at admitted
  refine ⟨type, ⟨key, loaded, netpacketHmacVerify_good (last _ admitted) good⟩, ?_⟩
  intro other response' same accepted'
  rw [handler] at accepted'
  obtain ⟨_, _, accepted'⟩ := bind_eq_ok.mp accepted'
  have equal := covered packetbuf other response admitted same accepted
  exact Except.ok.inj (accepted'.symm.trans equal)

/-- A handler for packets of one length that verifies the HMAC at the end and then uses only what
it covers. -/
theorem authenticated_of_length {decrypt : List UInt8 → Decrypted} {request : Request}
    (total : Nat) (body : List UInt8 → Except Reject Response)
    (admits : ∀ len, lengthAdmitted request.responseType len = decide (len = total))
    (long : 32 ≤ total)
    (handler : ∀ statusOk packettype packetbuf,
      handle K decrypt statusOk packettype packetbuf request = (do
        verifyResponse K request.responseType (request.nonce K) request.key (total - 32) statusOk
          packettype packetbuf
        body packetbuf))
    (covered : ∀ left right, left.length = total → SameCovered left right →
      body right = body left) :
    Authenticated K decrypt request := by
  refine authenticated_of_last (fun _ => total - 32) body handler ?_ ?_
  · intro len admitted
    have length : len = total := of_decide_eq_true ((admits len).symm.trans admitted)
    omega
  · intro left right response admitted same accepted
    rw [covered left right (of_decide_eq_true ((admits _).symm.trans admitted)) same]
    exact accepted

variable (K) (decrypt : List UInt8 → Decrypted)

/-- Responses to cancel requests are authenticated. -/
theorem cancel_authenticated (C : TransactionRequest) :
    Authenticated K decrypt (.cancel C) := by
  refine authenticated_of_length 33
    (fun packetbuf => .ok (.cancel (byte packetbuf 0) (C.seqnum K)))
    (fun _ => rfl) (by decide) (fun _ _ _ => rfl) ?_
  intro left right length same
  rw [same.byte (by omega)]

/-- Responses to start requests are authenticated. -/
theorem start_authenticated (C : TransactionRequest) :
    Authenticated K decrypt (.start C) := by
  refine authenticated_of_length 33
    (fun packetbuf => .ok (.start (byte packetbuf 0) (C.seqnum K)))
    (fun _ => rfl) (by decide) (fun _ _ _ => rfl) ?_
  intro left right length same
  rw [same.byte (by omega)]

/-- Responses to checkpoint requests are authenticated. -/
theorem checkpoint_authenticated (C : CheckpointRequest) :
    Authenticated K decrypt (.checkpoint C) := by
  refine authenticated_of_length 65
    (fun packetbuf => if field packetbuf 1 32 ≠ C.ckptnonce.toList then .error .protocol
      else .ok (.checkpoint (byte packetbuf 0)))
    (fun _ => rfl) (by decide) (fun _ _ _ => rfl) ?_
  intro left right length same
  rw [same.byte (by omega), same.field (by omega)]

/-- Responses to commit requests are authenticated. -/
theorem commit_authenticated (C : CommitRequest) : Authenticated K decrypt (.commit C) := by
  refine authenticated_of_length 33 (fun packetbuf => .ok (.commit (byte packetbuf 0)))
    (fun _ => rfl) (by decide) (fun _ _ _ => rfl) ?_
  intro left right length same
  rw [same.byte (by omega)]

/-- Responses to the question whether a file exists are authenticated. -/
theorem fexist_authenticated (C : FileRequest) : Authenticated K decrypt (.fexist C) := by
  refine authenticated_of_length 66
    (fun packetbuf => do
      checkFile packetbuf C.cls C.name
      return .fexist (byte packetbuf 0))
    (fun _ => rfl) (by decide) (fun _ _ _ => rfl) ?_
  intro left right length same
  rw [same.checkFile (by omega), same.byte (by omega)]

/-- Responses to writing a file are authenticated. -/
theorem writeFile_authenticated (C : FileRequest) : Authenticated K decrypt (.writeFile C) := by
  refine authenticated_of_length 66
    (fun packetbuf => do
      checkFile packetbuf C.cls C.name
      if byte packetbuf 0 = 0 then return .written C.flen
      else if byte packetbuf 0 = 1 then return .refused "Cannot store file: File already exists"
      else if byte packetbuf 0 = 2 then return .refused "Transaction interrupted"
      else .error .protocol)
    (fun _ => rfl) (by decide) (fun _ _ _ => rfl) ?_
  intro left right length same
  rw [same.checkFile (by omega), same.byte (by omega)]

/-- Responses to deleting a file are authenticated. -/
theorem deleteFile_authenticated (C : FileRequest) : Authenticated K decrypt (.deleteFile C) := by
  refine authenticated_of_length 66
    (fun packetbuf => do
      checkFile packetbuf C.cls C.name
      if byte packetbuf 0 = 0 then return .deleted
      else if byte packetbuf 0 = 1 then return .refused "Cannot delete file: File does not exist"
      else if byte packetbuf 0 = 2 then return .refused "Delete transaction interrupted"
      else .error .protocol)
    (fun _ => rfl) (by decide) (fun _ _ _ => rfl) ?_
  intro left right length same
  rw [same.checkFile (by omega), same.byte (by omega)]

/-- Files that are read are authenticated. -/
theorem readFile_authenticated (C : ReadRequest) : Authenticated K decrypt (.readFile C) := by
  have admits (len : Nat) (admitted : lengthAdmitted NETPACKET_READ_FILE_RESPONSE len = true) :
      70 ≤ len := by
    have bounds : 70 ≤ len ∧ len ≤ 70 + 262144 := of_decide_eq_true admitted
    exact bounds.1
  refine authenticated_of_last (fun len => len - 32)
    (fun packetbuf => readFileContents packetbuf decrypt C) (fun _ _ _ => rfl) ?_ ?_
  · intro len admitted
    have long := admits len admitted
    omega
  · intro left right response admitted same accepted
    have long := admits _ admitted
    have sc := same.byte (show 0 + 32 < left.length by omega)
    have filelen := same.field (show 34 + 4 + 32 ≤ left.length by omega)
    simp only [readFileContents, same.checkFile (by omega), sc, filelen, same.length]
      at accepted ⊢
    obtain ⟨done, checked, accepted⟩ := bind_eq_ok.mp accepted
    refine bind_eq_ok.mpr ⟨done, checked, ?_⟩
    -- Only a successful read uses more than the fixed fields, and its contents end at the HMAC.
    by_cases success : byte left 0 = 0
    · rw [if_pos success] at accepted ⊢
      split at accepted
      · exact nomatch accepted
      rename_i sized
      have length : left.length = (beDec (field left 34 4) + 70) % 4294967296 := by
        by_contra other
        exact sized (.inl other)
      have bound : beDec (field left 34 4) < 4294967296 := by
        have width : (field left 34 4).length = 4 := by
          rw [field, List.length_take, List.length_drop]
          omega
        have bound := beDec_lt (field left 34 4)
        rw [width] at bound
        exact bound
      rw [if_neg sized, same.field (by omega)]
      exact accepted
    · rw [if_neg success] at accepted ⊢
      exact accepted

/-- Lists of files are authenticated. -/
theorem directory_authenticated (C : DirectoryRequest) :
    Authenticated K decrypt (.directory C) := by
  have admits (len : Nat) (admitted : lengthAdmitted NETPACKET_DIRECTORY_RESPONSE len = true) :
      70 ≤ len := by
    have bounds : 70 ≤ len ∧ len ≤ 70 + 8000 * 32 ∧ len % 32 = 70 % 32 :=
      of_decide_eq_true admitted
    exact bounds.1
  refine authenticated_of_last (fun len => len - 32)
    (fun packetbuf => directoryContents packetbuf C) (fun _ _ _ => rfl) ?_ ?_
  · intro len admitted
    have long := admits len admitted
    omega
  · intro left right response admitted same accepted
    have long := admits _ admitted
    have status := same.byte (show 0 + 32 < left.length by omega)
    have cls := same.byte (show 1 + 32 < left.length by omega)
    have start := same.field (show 2 + 32 + 32 ≤ left.length by omega)
    have nfiles := same.field (show 34 + 4 + 32 ≤ left.length by omega)
    simp only [directoryContents, status, cls, start, nfiles, same.length] at accepted ⊢
    split at accepted
    · exact nomatch accepted
    rename_i checked
    split at accepted
    · exact nomatch accepted
    rename_i sized
    rw [if_neg checked, if_neg sized]
    have files : ((List.range (beDec (field left 34 4))).map fun file =>
        field right (38 + file * 32) 32) = (List.range (beDec (field left 34 4))).map fun file =>
        field left (38 + file * 32) 32 := by
      refine List.map_congr_left fun file listed => ?_
      have below := List.mem_range.mp listed
      exact same.field (by omega)
    rw [files]
    exact accepted

end Handlers

/-- The answer whether there is a checkpoint can be accepted: its key exists and is loaded. -/
def Request.Unprotected (K : Keys) : Request → Prop
  | .ischeckpointed C => ∃ key, keyLookup C.whichkey = some key ∧ (K.auth key).isSome
  | _ => False

/-- The hash of the status alone is accepted, with anything behind it. -/
theorem ischeckpointed_unauthenticated {K : Keys} (decrypt : List UInt8 → Decrypted)
    {C : IscheckpointedRequest} {key : AuthKey} {k : List UInt8}
    (known : keyLookup C.whichkey = some key) (loaded : K.auth key = some k) :
    ¬ Authenticated K decrypt (.ischeckpointed C) := by
  intro authenticated
  let type := NETPACKET_TRANSACTION_ISCHECKPOINTED_RESPONSE
  let mac := (K.hmac k (type :: (C.nonce.toList ++ [1]))).toList
  have accepted (rest : List UInt8) :
      handle K decrypt true type (1 :: (mac ++ rest)) (.ischeckpointed C) =
        .ok (.ischeckpointed 1 mac) := by
    have place : field (1 :: (mac ++ rest)) 1 32 = mac := by
      rw [field, List.drop_succ_cons, List.drop_zero, List.take_left' (by simp [mac])]
    have good : netpacketHmacVerify K type (some C.nonce) (1 :: (mac ++ rest)) 1 key = .good := by
      rw [netpacketHmacVerify, loaded]
      exact if_pos place
    have verified : verifyResponse K type (some C.nonce) (keyLookup C.whichkey) 1 true type
        (1 :: (mac ++ rest)) = .ok () := by
      simp [verifyResponse, known, good]
    rw [handle, callbackIscheckpointedResponse, verified, ok_bind, place]
    rfl
  -- Whatever the last 32 bytes are, they would have to be the one hash of what is before them.
  have last (rest : List UInt8) (length : rest.length = 32) :
      rest = (K.hmac k (type :: (C.nonce.toList ++ 1 :: mac))).toList := by
    have total : (1 :: (mac ++ rest)).length = 65 := by simp [mac, length]
    have admitted : lengthAdmitted type (1 :: (mac ++ rest)).length = true := by
      rw [total]
      rfl
    obtain ⟨_, ⟨key', known', k', loaded', _, same⟩, _⟩ :=
      authenticated true type _ _ admitted (accepted rest)
    cases known.symm.trans known'
    cases loaded.symm.trans loaded'
    rw [total] at same
    have rest_eq : ((1 :: mac) ++ rest).drop (65 - 32) = rest := List.drop_left' (by simp [mac])
    have front : ((1 :: mac) ++ rest).take (65 - 32) = 1 :: mac := List.take_left' (by simp [mac])
    rw [← List.cons_append] at same
    rw [rest_eq, hashedData, front] at same
    exact same
  have zeros := last (List.replicate 32 0) (by decide)
  have ones := last (List.replicate 32 1) (by decide)
  exact absurd (zeros.trans ones.symm) (by decide)

/-- The packets that a handler accepts are authenticated if and only if the handler is not the
one for the answer whether there is a checkpoint, or has no key. -/
theorem authenticated_iff (K : Keys) (decrypt : List UInt8 → Decrypted) (request : Request) :
    Authenticated K decrypt request ↔ ¬ request.Unprotected K := by
  cases request with
  | cancel C => exact iff_of_true (cancel_authenticated K decrypt C) not_false
  | start C => exact iff_of_true (start_authenticated K decrypt C) not_false
  | checkpoint C => exact iff_of_true (checkpoint_authenticated K decrypt C) not_false
  | commit C => exact iff_of_true (commit_authenticated K decrypt C) not_false
  | fexist C => exact iff_of_true (fexist_authenticated K decrypt C) not_false
  | writeFile C => exact iff_of_true (writeFile_authenticated K decrypt C) not_false
  | deleteFile C => exact iff_of_true (deleteFile_authenticated K decrypt C) not_false
  | readFile C => exact iff_of_true (readFile_authenticated K decrypt C) not_false
  | directory C => exact iff_of_true (directory_authenticated K decrypt C) not_false
  | ischeckpointed C =>
    constructor
    · rintro authenticated ⟨key, known, loaded⟩
      obtain ⟨k, loaded⟩ := Option.isSome_iff_exists.mp loaded
      exact ischeckpointed_unauthenticated decrypt known loaded authenticated
    · intro protected_ statusOk packettype packetbuf response _ accepted
      obtain ⟨_, verified, _⟩ := bind_eq_ok.mp accepted
      obtain ⟨_, key, known, good⟩ := verifyResponse_ok verified
      refine absurd ⟨key, known, ?_⟩ protected_
      rw [netpacketHmacVerify] at good
      split at good
      · cases good
      · rename_i loaded
        rw [loaded]
        rfl

/-- Keys under which a hash tells the length of what is hashed. -/
def lengthKeys : Keys where
  auth _ := some []
  hmac _ data := Vector.replicate 32 (UInt8.ofNat data.length)
  sha256 data := Vector.replicate 32 (UInt8.ofNat data.length)

/-- A packet that says there is a checkpoint: the hash of the status, then zero bytes. -/
def forgedPacket : List UInt8 := 1 :: (List.replicate 32 34 ++ List.replicate 32 0)

/-- The forged packet is accepted, and the hash is taken for the transaction nonce, while its last
32 bytes are not the hash of what is before them. -/
theorem forgedPacket_accepted :
    (∃ response, lengthAdmitted NETPACKET_TRANSACTION_ISCHECKPOINTED_RESPONSE
        forgedPacket.length = true ∧
      handle lengthKeys (fun _ => .error) true NETPACKET_TRANSACTION_ISCHECKPOINTED_RESPONSE
        forgedPacket (.ischeckpointed ⟨0, Vector.replicate 32 0⟩) = .ok response ∧
      response = .ischeckpointed 1 (List.replicate 32 34)) ∧
    ¬ Authentic lengthKeys .put (some (Vector.replicate 32 0))
      NETPACKET_TRANSACTION_ISCHECKPOINTED_RESPONSE forgedPacket := by
  constructor
  · exact ⟨_, by decide, by decide +kernel, rfl⟩
  · rintro ⟨k, loaded, _, same⟩
    cases loaded
    exact absurd same (by decide +kernel)

end Tarsnap.Storage
