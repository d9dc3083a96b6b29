import Tarsnap.Crypto.Oaep
import Tarsnap.Datastruct.RwhashtabRuns
import Tarsnap.Lib.Keystream

/-!
# Encrypted files

A file is encrypted with a session key, under a nonce of its own. The header of the encrypted file
has the session key, encrypted with RSA, and the nonce; the trailer is an HMAC of all that is before
it. A file is decrypted after its trailer was checked, and keys that were decrypted are kept in a
table under their encrypted form.
-/

namespace Tarsnap.Crypto

open Tarsnap.Lib Tarsnap.Netpacket Tarsnap.Datastruct

/-- Length of the header: the encrypted key and the nonce. -/
def CRYPTO_FILE_HLEN : Nat := 256 + 8
/-- Length of the trailer: the HMAC. -/
def CRYPTO_FILE_TLEN : Nat := 32

/-- The cryptographic functions that files use. -/
structure FilePrimitives where
  /-- SHA256. -/
  sha256 : List UInt8 → Bytes32
  /-- HMAC-SHA256 under a key. -/
  hmac : List UInt8 → List UInt8 → Bytes32
  /-- A block encrypted with AES under a key. -/
  aes : List UInt8 → List UInt8 → Vector UInt8 16

/-- The keys that are loaded, and the sizes of the RSA keys, valid or not. -/
structure FileKeys where
  /-- Key that encrypts session keys, `CRYPTO_KEY_ENCR_PUB`. -/
  encrPub : Option (Bool × RsaPair)
  /-- Key that decrypts session keys, `CRYPTO_KEY_ENCR_PRIV`. -/
  encrPriv : Option (Bool × RsaPair)
  /-- Key that authenticates what is read, `CRYPTO_KEY_HMAC_FILE`. -/
  hmacFile : Option (List UInt8)
  /-- Key that authenticates what is written, `CRYPTO_KEY_HMAC_FILE_WRITE`. -/
  hmacFileWrite : Option (List UInt8)

/-- A session key. -/
structure FileAesKey where
  /-- The AES key. -/
  key : List UInt8
  /-- The next nonce, used only for encryption. -/
  nonce : UInt64
  /-- The AES key encrypted with RSA. -/
  keyEncrypted : List UInt8
deriving DecidableEq

/-- The outcomes of what an encryption asks for. -/
structure EncOutcomes where
  /-- There is memory for the session key. -/
  malloc : Bool
  /-- Random bytes for the session key. -/
  aeskey : Option Bytes32
  /-- There is memory for the expanded key. -/
  expand : Bool
  /-- Random bytes for the padding of the session key. -/
  seed : Option Bytes32
  /-- There is memory for the cipherstream. -/
  stream : Bool

/-- The outcomes of what a decryption asks for. -/
structure DecOutcomes where
  /-- There is memory for the session key. -/
  malloc : Bool
  /-- RSA does not run out of memory. -/
  rsa : Bool
  /-- There is memory for the expanded key. -/
  expand : Bool
  /-- There is memory for a larger table. -/
  enlarge : Bool
  /-- There is memory for the cipherstream. -/
  stream : Bool

variable (F : FilePrimitives) (keys : FileKeys)

/-- The cipherstream of AES in counter mode under a key and a nonce. -/
def cipherstream (key : List UInt8) (nonce bytectr : UInt64) : UInt8 :=
  (F.aes key (beEnc 8 nonce.toNat ++ beEnc 8 (bytectr / 16).toNat)).toList.getD
    (bytectr % 16).toNat 0

/-- Generate a session key. -/
def keygen (outcomes : EncOutcomes) : Option FileAesKey :=
  if outcomes.malloc = false then none
  else
    match outcomes.aeskey with
    | none => none
    | some aeskey =>
      if outcomes.expand = false then none
      else
        match cryptoRsaEncrypt F.sha256 keys.encrPub outcomes.seed aeskey.toList 256 with
        | .success keyEncrypted => some ⟨aeskey.toList, 0, keyEncrypted⟩
        | _ => none

/-- The session key of an encryption: the one there is, or a new one. -/
def sessionKey (outcomes : EncOutcomes) : Option FileAesKey → Option FileAesKey
  | some encrAes => some encrAes
  | none => keygen F keys outcomes

/-- What is authenticated in an encrypted file: the header and the encrypted data. -/
def fileContents (encrAes : FileAesKey) (buf : List UInt8) : List UInt8 :=
  encrAes.keyEncrypted ++ beEnc 8 encrAes.nonce.toNat ++
    xorStream (cipherstream F encrAes.key encrAes.nonce) 0 buf

/-- What an encryption does. -/
structure Encryption where
  /-- The encrypted file, if no error occurs. -/
  filebuf : Option (List UInt8)
  /-- The key and the nonce that it uses, if it has a key. -/
  pair : Option (List UInt8 × UInt64)
  /-- The session key that is left. -/
  encrAes : Option FileAesKey

/-- Encrypt a buffer. The nonce moves on also if an error occurs later. -/
def cryptoFileEnc (outcomes : EncOutcomes) (encrAes : Option FileAesKey) (buf : List UInt8) :
    Encryption :=
  match sessionKey F keys outcomes encrAes with
  | none => ⟨none, none, none⟩
  | some encrAes =>
    let pair := (encrAes.key, encrAes.nonce)
    let next := { encrAes with nonce := encrAes.nonce + 1 }
    if outcomes.stream = false then ⟨none, some pair, some next⟩
    else
      match keys.hmacFileWrite with
      | none => ⟨none, some pair, some next⟩
      | some key =>
        let contents := fileContents F encrAes buf
        ⟨some (contents ++ (F.hmac key contents).toList), some pair, some next⟩

/-- The table of session keys finds them by their encrypted form, hashed in some way. -/
def aesHashing (hash : List UInt8 → Nat) : Hashing (List UInt8) FileAesKey :=
  ⟨(·.keyEncrypted), hash⟩

/-- Construct a session key from its encrypted form. -/
def decryptKey (outcomes : DecOutcomes) (keyEncrypted : List UInt8) : Outcome FileAesKey :=
  if outcomes.malloc = false then .error
  else if outcomes.rsa = false then .error
  else
    match cryptoRsaDecrypt F.sha256 keys.encrPriv keyEncrypted 256 with
    | .error => .error
    | .bad => .bad
    | .success aeskey =>
      if aeskey.length ≠ 32 then .bad
      else if outcomes.expand = false then .error
      else .success ⟨aeskey, 0, keyEncrypted⟩

variable (hash : List UInt8 → Nat)

/-- The session key for its encrypted form, from the table or the hard way. The search in the table
may not end. -/
def fileKey (outcomes : DecOutcomes) (decrAesCache : Rwhashtab FileAesKey)
    (keyEncrypted : List UInt8) : Option (Outcome FileAesKey × Rwhashtab FileAesKey) :=
  (rwhashtabRead (aesHashing hash) decrAesCache keyEncrypted).bind fun found =>
    match found with
    | some key => some (.success key, decrAesCache)
    | none =>
      match decryptKey F keys outcomes keyEncrypted with
      | .error => some (.error, decrAesCache)
      | .bad => some (.bad, decrAesCache)
      | .success key =>
        (rwhashtabInsert (aesHashing hash) decrAesCache key outcomes.enlarge).map fun inserted =>
          (if inserted.1 ≠ 0 then .error else .success key, inserted.2)

/-- What is authenticated in a file with data of the given length. -/
def filePart (filebuf : List UInt8) (len : Nat) : List UInt8 :=
  filebuf.take (CRYPTO_FILE_HLEN + len)

/-- The trailer of a file with data of the given length. -/
def fileTrailer (filebuf : List UInt8) (len : Nat) : List UInt8 :=
  (filebuf.drop (CRYPTO_FILE_HLEN + len)).take CRYPTO_FILE_TLEN

/-- Decrypt a file with data of the given length. -/
def cryptoFileDec (outcomes : DecOutcomes) (decrAesCache : Rwhashtab FileAesKey)
    (filebuf : List UInt8) (len : Nat) :
    Option (Outcome (List UInt8) × Rwhashtab FileAesKey) :=
  match keys.hmacFile with
  | none => some (.error, decrAesCache)
  | some key =>
    let hash32 := (F.hmac key (filePart filebuf len)).toList
    if cryptoVerifyBytes hash32 (fileTrailer filebuf len) ≠ 0 then some (.bad, decrAesCache)
    else
      (fileKey F keys hash outcomes decrAesCache (filebuf.take 256)).map fun found =>
        match found.1 with
        | .error => (.error, found.2)
        | .bad => (.bad, found.2)
        | .success key =>
          if outcomes.stream = false then (.error, found.2)
          else
            let nonce := UInt64.ofNat (beDec ((filebuf.drop 256).take 8))
            let data := (filebuf.drop CRYPTO_FILE_HLEN).take len
            (.success (xorStream (cipherstream F key.key nonce) 0 data), found.2)

section Calls

variable {F keys hash} {outcomes : DecOutcomes} {decrAesCache : Rwhashtab FileAesKey}
  {keyEncrypted : List UInt8} {key : FileAesKey}

/-- Nothing that a decryption asks for fails. -/
def DecOutcomes.works : DecOutcomes := ⟨true, true, true, true, true⟩

/-- Nothing that a decryption asks for fails, and the table does not have the greatest size. -/
def Provided (outcomes : DecOutcomes) (decrAesCache : Rwhashtab FileAesKey) : Prop :=
  outcomes = .works ∧ ¬(decrAesCache.full ∧ Stuck decrAesCache true)

variable (F keys) in
/-- A session key is the one that its encrypted form has. -/
def Unwraps (key : FileAesKey) : Prop :=
  decryptKey F keys .works key.keyEncrypted = .success { key with nonce := 0 }

variable (F keys hash) in
/-- The table is valid, and its keys are those that their encrypted forms have. -/
structure CacheSound (decrAesCache : Rwhashtab FileAesKey) : Prop where
  /-- The table is valid. -/
  valid : Valid (aesHashing hash) decrAesCache
  /-- The keys are decrypted forms. -/
  unwraps : ∀ key ∈ records decrAesCache.ht,
    decryptKey F keys .works key.keyEncrypted = .success key

/-- The empty table is sound. -/
theorem rwhashtabInit_sound : CacheSound F keys hash rwhashtabInit where
  valid := rwhashtabInit_valid
  unwraps key member := by
    have none : records (rwhashtabInit : Rwhashtab FileAesKey).ht = [] := records_empty
    rw [none] at member
    exact absurd member List.not_mem_nil

/-- A key that is constructed has the encrypted form it was constructed from. -/
theorem decryptKey_keyEncrypted
    (decrypted : decryptKey F keys outcomes keyEncrypted = .success key) :
    key.keyEncrypted = keyEncrypted := by
  unfold decryptKey at decrypted
  split at decrypted
  · cases decrypted
  split at decrypted
  · cases decrypted
  split at decrypted
  · cases decrypted
  · cases decrypted
  · split at decrypted
    · cases decrypted
    split at decrypted
    · cases decrypted
    · cases decrypted
      rfl

/-- If something fails when a key is constructed, it is an error or makes no difference. -/
theorem decryptKey_works : decryptKey F keys outcomes keyEncrypted = .error ∨
    decryptKey F keys outcomes keyEncrypted = decryptKey F keys .works keyEncrypted := by
  by_cases memory : outcomes.malloc = false
  · left
    rw [decryptKey, if_pos memory]
  by_cases runs : outcomes.rsa = false
  · left
    rw [decryptKey, if_neg memory, if_pos runs]
  by_cases expands : outcomes.expand = false
  · unfold decryptKey
    rw [if_neg memory, if_neg runs, if_neg (show DecOutcomes.works.malloc ≠ false by decide),
      if_neg (show DecOutcomes.works.rsa ≠ false by decide)]
    cases cryptoRsaDecrypt F.sha256 keys.encrPriv keyEncrypted 256 with
    | error => exact .inl rfl
    | bad => exact .inr rfl
    | success aeskey =>
      by_cases short : aeskey.length ≠ 32
      · right
        simp only [if_pos short]
      · left
        simp only [if_neg short, if_pos expands]
  · right
    unfold decryptKey
    rw [if_neg memory, if_neg runs, if_neg (show DecOutcomes.works.malloc ≠ false by decide),
      if_neg (show DecOutcomes.works.rsa ≠ false by decide)]
    simp only [if_neg expands, DecOutcomes.works, Bool.true_eq_false, if_false]

/-- The key for an encrypted form is the one it has, whether it is in the table or not, or there is
an error. -/
theorem fileKey_spec (sound : CacheSound F keys hash decrAesCache) (outcomes : DecOutcomes)
    (keyEncrypted : List UInt8) : ∃ found cache,
      fileKey F keys hash outcomes decrAesCache keyEncrypted = some (found, cache) ∧
        CacheSound F keys hash cache ∧
        (found = .error ∨ found = decryptKey F keys .works keyEncrypted) ∧
        (Provided outcomes decrAesCache → found = decryptKey F keys .works keyEncrypted) := by
  obtain ⟨stored, read, exact_⟩ := rwhashtabRead_spec sound.valid keyEncrypted
  unfold fileKey
  rw [read, Option.bind_some]
  cases stored with
  | some key =>
    obtain ⟨member, same⟩ := (exact_ key).mp rfl
    have form : key.keyEncrypted = keyEncrypted := same
    have unwraps := sound.unwraps key member
    rw [form] at unwraps
    exact ⟨.success key, decrAesCache, rfl, sound, .inr unwraps.symm, fun _ => unwraps.symm⟩
  | none =>
    have absent : ∀ found ∈ records decrAesCache.ht, found.keyEncrypted ≠ keyEncrypted := by
      intro found member same
      cases (exact_ found).mpr ⟨member, same⟩
    have provided : Provided outcomes decrAesCache →
        decryptKey F keys outcomes keyEncrypted = decryptKey F keys .works keyEncrypted :=
      fun given => by rw [given.1]
    cases built : decryptKey F keys outcomes keyEncrypted with
    | error =>
      refine ⟨.error, decrAesCache, rfl, sound, .inl rfl, ?_⟩
      intro given
      rw [← provided given, built]
    | bad =>
      refine ⟨.bad, decrAesCache, rfl, sound, ?_, ?_⟩
      · rcases @decryptKey_works F keys outcomes keyEncrypted with failed | same
        · rw [built] at failed
          cases failed
        · right
          rw [← same, built]
      · intro given
        rw [← provided given, built]
    | success key =>
      have works : decryptKey F keys .works keyEncrypted = .success key := by
        rcases @decryptKey_works F keys outcomes keyEncrypted with failed | same
        · rw [built] at failed
          cases failed
        · rw [← same, built]
      have form := decryptKey_keyEncrypted built
      obtain ⟨code, cache, inserted, valid, ⟨full, stuck, rfl, rfl⟩ | ⟨able, rest⟩⟩ :=
        rwhashtabInsert_spec sound.valid key outcomes.enlarge
      · simp only
        rw [inserted]
        refine ⟨.error, cache, rfl, sound, .inl rfl, ?_⟩
        intro given
        have enlarge : outcomes.enlarge = true := by rw [given.1]; rfl
        rw [enlarge] at stuck
        exact absurd ⟨full, stuck⟩ given.2
      · rcases rest with ⟨⟨other, member, same⟩, _⟩ | ⟨_, rfl, more⟩
        · exact absurd (Eq.trans same form) (absent other member)
        · simp only
          rw [inserted]
          refine ⟨.success key, cache, rfl, ⟨valid, ?_⟩, .inr works.symm, fun _ => works.symm⟩
          intro other member
          rcases List.mem_cons.mp (more.mem_iff.mp member) with newest | older
          · rw [newest, form]
            exact works
          · exact sound.unwraps other older

end Calls

end Tarsnap.Crypto
