import Tarsnap.Crypto.File

/-!
# Histories of encrypted files

A process encrypts and decrypts files one after another, and any of the calls may fail. The table
of session keys makes no difference to what a decryption returns, and no session key is generated
once there is one, so that its nonces go up until they wrap around.
-/

namespace Tarsnap.Crypto

open Tarsnap.Lib Tarsnap.Netpacket Tarsnap.Datastruct

/-- A call, with the outcomes of what it asks for. -/
inductive FileCall where
  /-- Encrypt a buffer. -/
  | enc (outcomes : EncOutcomes) (buf : List UInt8)
  /-- Decrypt a file with data of a length. -/
  | dec (outcomes : DecOutcomes) (filebuf : List UInt8) (len : Nat)

/-- What a call yields. -/
inductive FileResult where
  /-- An encrypted file, if there was no error, and the key and the nonce that were used. -/
  | encrypted (filebuf : Option (List UInt8)) (pair : Option (List UInt8 × UInt64))
  /-- What a decryption returned. -/
  | decrypted (outcome : Outcome (List UInt8))

/-- The session key and the table of session keys. -/
structure FileState where
  /-- The session key, if there is one. -/
  encrAes : Option FileAesKey
  /-- Session keys by their encrypted form. -/
  decrAesCache : Rwhashtab FileAesKey

/-- At first there is no session key, and the table is empty. -/
def cryptoFileInitKeys : FileState := ⟨none, rwhashtabInit⟩

section Histories

variable (F : FilePrimitives) (keys : FileKeys) (hash : List UInt8 → Nat)

/-- Make a call. -/
def FileCall.run (call : FileCall) (state : FileState) : Option (FileResult × FileState) :=
  match call with
  | .enc outcomes buf =>
    let done := cryptoFileEnc F keys outcomes state.encrAes buf
    some (.encrypted done.filebuf done.pair, { state with encrAes := done.encrAes })
  | .dec outcomes filebuf len =>
    (cryptoFileDec F keys hash outcomes state.decrAesCache filebuf len).map fun done =>
      (.decrypted done.1, { state with decrAesCache := done.2 })

/-- Calls that a process made in turn, and the state after them. -/
inductive FileHistory : List (FileCall × FileResult) → FileState → Prop where
  /-- No call. -/
  | start : FileHistory [] cryptoFileInitKeys
  /-- One call more. -/
  | call {done : List (FileCall × FileResult)} {call : FileCall} {result : FileResult}
    {state state' : FileState} (before : FileHistory done state)
    (made : call.run F keys hash state = some (result, state')) :
    FileHistory (done ++ [(call, result)]) state'

/-- A process encrypted a buffer to a file. -/
def Encrypted (buf filebuf : List UInt8) : Prop :=
  ∃ done state outcomes pair, FileHistory F keys hash done state ∧
    (.enc outcomes buf, .encrypted (some filebuf) pair) ∈ done

/-- A process has a table of session keys. -/
def Cached (decrAesCache : Rwhashtab FileAesKey) : Prop :=
  ∃ done state, FileHistory F keys hash done state ∧ state.decrAesCache = decrAesCache

end Histories

/-- The key and the nonce that a call used. -/
def FileResult.pair : FileResult → Option (List UInt8 × UInt64)
  | .encrypted _ pair => pair
  | .decrypted _ => none

/-- The keys and the nonces that calls used. -/
def pairs (done : List (FileCall × FileResult)) : List (List UInt8 × UInt64) :=
  done.filterMap (·.2.pair)

variable {F : FilePrimitives} {keys : FileKeys} {hash : List UInt8 → Nat}
  {decrAesCache : Rwhashtab FileAesKey} {filebuf : List UInt8} {len : Nat}

section Decryption

variable (F) in
/-- The data of a file under the key for it, if there is memory for the cipherstream. -/
def opened (filebuf : List UInt8) (len : Nat) (stream : Bool) :
    Outcome FileAesKey → Outcome (List UInt8)
  | .error => .error
  | .bad => .bad
  | .success key =>
    if stream = false then .error
    else
      let nonce := UInt64.ofNat (beDec ((filebuf.drop 256).take 8))
      .success (xorStream (cipherstream F key.key nonce) 0
        ((filebuf.drop CRYPTO_FILE_HLEN).take len))

/-- Without memory there is an error, or it makes no difference. -/
theorem opened_stream (stream : Bool) (found : Outcome FileAesKey) :
    opened F filebuf len stream found = .error ∨
      opened F filebuf len stream found = opened F filebuf len true found := by
  cases stream with
  | true => exact .inr rfl
  | false =>
    cases found with
    | error => exact .inl rfl
    | bad => exact .inr rfl
    | success key => exact .inl rfl

/-- A file with the wrong trailer is not authentic. -/
theorem cryptoFileDec_bad {key : List UInt8} (loaded : keys.hmacFile = some key)
    (whole : filebuf.length = CRYPTO_FILE_HLEN + len + CRYPTO_FILE_TLEN)
    (wrong : fileTrailer filebuf len ≠ (F.hmac key (filePart filebuf len)).toList)
    (outcomes : DecOutcomes) :
    cryptoFileDec F keys hash outcomes decrAesCache filebuf len = some (.bad, decrAesCache) := by
  have lengths : (F.hmac key (filePart filebuf len)).toList.length =
      (fileTrailer filebuf len).length := by
    rw [Vector.length_toList, fileTrailer, List.length_take, List.length_drop, whole]
    unfold CRYPTO_FILE_TLEN
    omega
  unfold cryptoFileDec
  rw [loaded]
  simp only
  rw [if_pos]
  intro zero
  exact wrong ((cryptoVerifyBytes_eq_zero lengths).mp zero).symm

/-- A file with a trailer that passes is decrypted with the key for it. -/
theorem cryptoFileDec_found {key : List UInt8} (loaded : keys.hmacFile = some key)
    (passes : cryptoVerifyBytes (F.hmac key (filePart filebuf len)).toList
      (fileTrailer filebuf len) = 0) {outcomes : DecOutcomes} {found : Outcome FileAesKey}
    {cache : Rwhashtab FileAesKey}
    (looked : fileKey F keys hash outcomes decrAesCache (filebuf.take 256) = some (found, cache)) :
    cryptoFileDec F keys hash outcomes decrAesCache filebuf len =
      some (opened F filebuf len outcomes.stream found, cache) := by
  unfold cryptoFileDec
  rw [loaded]
  simp only
  rw [if_neg (not_not_intro passes), looked]
  cases found with
  | error => rfl
  | bad => rfl
  | success key =>
    simp only [Option.map_some, opened]
    split
    · rfl
    · rfl

/-- The empty table does not have the greatest size. -/
theorem provided_init : Provided .works (rwhashtabInit : Rwhashtab FileAesKey) := by
  refine ⟨rfl, fun full => ?_⟩
  have few : ¬(4 - 4 >>> 2 ≤ 0) := by decide
  exact few full.1

/-- What a decryption returns does not depend on the keys in the table, unless there is an error. -/
theorem cryptoFileDec_spec (sound : CacheSound F keys hash decrAesCache) (outcomes : DecOutcomes)
    (filebuf : List UInt8) (len : Nat) : ∃ ideal empty result cache,
      cryptoFileDec F keys hash .works rwhashtabInit filebuf len = some (ideal, empty) ∧
      cryptoFileDec F keys hash outcomes decrAesCache filebuf len = some (result, cache) ∧
      CacheSound F keys hash cache ∧ (result = .error ∨ result = ideal) ∧
      (Provided outcomes decrAesCache → result = ideal) := by
  cases loaded : keys.hmacFile with
  | none =>
    refine ⟨.error, rwhashtabInit, .error, decrAesCache, ?_, ?_, sound, .inl rfl, fun _ => rfl⟩
    · rw [cryptoFileDec, loaded]
    · rw [cryptoFileDec, loaded]
  | some key =>
    by_cases passes : cryptoVerifyBytes (F.hmac key (filePart filebuf len)).toList
        (fileTrailer filebuf len) = 0
    · obtain ⟨idealKey, empty, lookedEmpty, _, _, idealFound⟩ :=
        fileKey_spec (@rwhashtabInit_sound F keys hash) .works (filebuf.take 256)
      obtain ⟨found, cache, looked, kept, either, provided⟩ :=
        fileKey_spec sound outcomes (filebuf.take 256)
      have same := idealFound provided_init
      refine ⟨_, _, _, _, cryptoFileDec_found loaded passes lookedEmpty,
        cryptoFileDec_found loaded passes looked, kept, ?_, ?_⟩
      · rw [same]
        rcases either with failed | right
        · left
          rw [failed]
          rfl
        · rw [right]
          exact opened_stream _ _
      · intro given
        have runs : outcomes.stream = true := by rw [given.1]; rfl
        rw [same, provided given, runs]
        rfl
    · refine ⟨.bad, rwhashtabInit, .bad, decrAesCache, ?_, ?_, sound, .inr rfl, fun _ => rfl⟩
      · rw [cryptoFileDec, loaded]
        exact if_pos passes
      · rw [cryptoFileDec, loaded]
        exact if_pos passes

end Decryption

section Session

variable {rsa : RsaPair} {key : FileAesKey} {buf : List UInt8}

variable (F keys) in
/-- A session key is encrypted as a block. -/
structure SessionSound (key : FileAesKey) : Prop where
  /-- The encrypted form is a block. -/
  length : key.keyEncrypted.length = 256
  /-- It is decrypted to the key. -/
  unwraps : Unwraps F keys key

/-- A generated session key is sound, with the two keys of a pair. -/
theorem keygen_sound (pub : keys.encrPub = some (true, rsa))
    (priv : keys.encrPriv = some (true, rsa)) {outcomes : EncOutcomes}
    (generated : keygen F keys outcomes = some key) : SessionSound F keys key := by
  unfold keygen at generated
  split at generated
  · cases generated
  split at generated
  · cases generated
  rename_i aeskey random
  split at generated
  · cases generated
  split at generated
  · rename_i keyEncrypted encrypted
    cases generated
    have short : aeskey.toList.length ≤ 190 := by
      rw [Vector.length_toList]
      omega
    cases seeded : outcomes.seed with
    | none =>
      rw [pub, seeded, cryptoRsaEncrypt] at encrypted
      split at encrypted
      · cases encrypted
      split at encrypted
      · cases encrypted
      split at encrypted
      · cases encrypted
      · cases encrypted
    | some seed =>
      obtain ⟨c, same, decrypted⟩ :=
        (@cryptoRsaDecrypt_exact F.sha256 rsa 256 (Nat.le_refl _)).2 aeskey.toList seed short
      rw [pub, seeded, same] at encrypted
      cases encrypted
      refine ⟨?_, ?_⟩
      · by_contra long
        rw [cryptoRsaDecrypt] at decrypted
        rw [if_neg (by decide), if_pos long] at decrypted
        cases decrypted
      · unfold Unwraps decryptKey
        have size : aeskey.toList.length = 32 := Vector.length_toList
        rw [if_neg (show DecOutcomes.works.malloc ≠ false by decide),
          if_neg (show DecOutcomes.works.rsa ≠ false by decide), priv, decrypted]
        simp only
        rw [if_neg (not_not_intro size), if_neg (show DecOutcomes.works.expand ≠ false by decide)]
  · cases generated

variable (F keys) in
/-- A file is an encryption of a buffer under a sound session key and an HMAC key. -/
def FileOf (hkey buf filebuf : List UInt8) : Prop :=
  ∃ key, SessionSound F keys key ∧
    filebuf = fileContents F key buf ++ (F.hmac hkey (fileContents F key buf)).toList

/-- The length of the contents of a file. -/
theorem fileContents_length (sound : SessionSound F keys key) (buf : List UInt8) :
    (fileContents F key buf).length = CRYPTO_FILE_HLEN + buf.length := by
  rw [fileContents, List.length_append, List.length_append, xorStream_length, beEnc_length,
    sound.length]
  rfl

/-- The contents and the trailer of a file. -/
theorem file_parts (sound : SessionSound F keys key) (buf : List UInt8) (tag : Bytes32) :
    filePart (fileContents F key buf ++ tag.toList) buf.length = fileContents F key buf ∧
      fileTrailer (fileContents F key buf ++ tag.toList) buf.length = tag.toList := by
  have length := fileContents_length sound buf
  refine ⟨List.take_left' length, ?_⟩
  rw [fileTrailer, List.drop_left' length]
  exact List.take_of_length_le (by rw [Vector.length_toList]; decide)

/-- What the header of a file says, and what comes after it. -/
theorem file_header (sound : SessionSound F keys key) (buf tag : List UInt8) :
    (fileContents F key buf ++ tag).take 256 = key.keyEncrypted ∧
      UInt64.ofNat (beDec (((fileContents F key buf ++ tag).drop 256).take 8)) = key.nonce ∧
      ((fileContents F key buf ++ tag).drop CRYPTO_FILE_HLEN).take buf.length =
        xorStream (cipherstream F key.key key.nonce) 0 buf := by
  unfold fileContents
  have nonceLength : (beEnc 8 key.nonce.toNat).length = 8 := beEnc_length _ _
  have headerLength : (key.keyEncrypted ++ beEnc 8 key.nonce.toNat).length = CRYPTO_FILE_HLEN := by
    rw [List.length_append, sound.length, nonceLength]
    rfl
  refine ⟨?_, ?_, ?_⟩
  · rw [List.append_assoc, List.append_assoc]
    exact List.take_left' sound.length
  · rw [List.append_assoc, List.append_assoc, List.drop_left' sound.length, ← List.append_assoc,
      List.append_assoc, List.take_left' nonceLength, beDec_beEnc, Nat.mod_eq_of_lt]
    · exact UInt64.ofNat_toNat
    · exact key.nonce.toNat_lt
  · rw [List.append_assoc (key.keyEncrypted ++ beEnc 8 key.nonce.toNat),
      List.drop_left' headerLength]
    exact List.take_left' (xorStream_length _ _)

variable (hash) in
/-- A file is decrypted with the empty table. -/
theorem FileOf.opens {hkey : List UInt8} (loaded : keys.hmacFile = some hkey)
    (file : FileOf F keys hkey buf filebuf) :
    ∃ cache, cryptoFileDec F keys hash .works rwhashtabInit filebuf buf.length =
      some (.success buf, cache) := by
  obtain ⟨key, sound, rfl⟩ := file
  obtain ⟨contents, trailer⟩ := file_parts sound buf (F.hmac hkey (fileContents F key buf))
  obtain ⟨form, nonce, data⟩ :=
    file_header sound buf (F.hmac hkey (fileContents F key buf)).toList
  obtain ⟨found, cache, looked, _, _, provided⟩ :=
    fileKey_spec (@rwhashtabInit_sound F keys hash) .works key.keyEncrypted
  rw [provided provided_init, sound.unwraps] at looked
  refine ⟨cache, ?_⟩
  rw [cryptoFileDec_found loaded (by rw [contents, trailer]; exact
    (cryptoVerifyBytes_eq_zero rfl).mpr rfl) (by rw [form]; exact looked)]
  simp only [opened]
  rw [if_neg (show DecOutcomes.works.stream ≠ false by decide), nonce, data, xorStream_xorStream]

/-- A session key that is there and a new one are sound. -/
theorem sessionKey_sound (pub : keys.encrPub = some (true, rsa))
    (priv : keys.encrPriv = some (true, rsa)) {outcomes : EncOutcomes}
    {encrAes : Option FileAesKey} (sound : ∀ key, encrAes = some key → SessionSound F keys key)
    (has : sessionKey F keys outcomes encrAes = some key) : SessionSound F keys key := by
  cases encrAes with
  | some other => exact sound key has
  | none => exact keygen_sound pub priv has

/-- An encryption has no session key, or it uses the next nonce of its session key and leaves the
key with the one after it. What it returns is a file. -/
theorem cryptoFileEnc_cases (outcomes : EncOutcomes) (encrAes : Option FileAesKey)
    (buf : List UInt8) :
    sessionKey F keys outcomes encrAes = none ∧
        cryptoFileEnc F keys outcomes encrAes buf = ⟨none, none, none⟩ ∨
      ∃ key, sessionKey F keys outcomes encrAes = some key ∧
        (cryptoFileEnc F keys outcomes encrAes buf).pair = some (key.key, key.nonce) ∧
        (cryptoFileEnc F keys outcomes encrAes buf).encrAes =
          some { key with nonce := key.nonce + 1 } ∧
        ∀ filebuf, (cryptoFileEnc F keys outcomes encrAes buf).filebuf = some filebuf →
          ∃ hkey, keys.hmacFileWrite = some hkey ∧
            filebuf = fileContents F key buf ++ (F.hmac hkey (fileContents F key buf)).toList := by
  unfold cryptoFileEnc
  cases has : sessionKey F keys outcomes encrAes with
  | none => exact .inl ⟨rfl, rfl⟩
  | some key =>
    right
    refine ⟨key, rfl, ?_⟩
    simp only
    by_cases stops : outcomes.stream = false
    · rw [if_pos stops]
      exact ⟨rfl, rfl, fun _ absurdity => nomatch absurdity⟩
    · rw [if_neg stops]
      cases loaded : keys.hmacFileWrite with
      | none => exact ⟨rfl, rfl, fun _ absurdity => nomatch absurdity⟩
      | some hkey =>
        refine ⟨rfl, rfl, ?_⟩
        intro filebuf made
        exact ⟨hkey, rfl, (Option.some.inj made).symm⟩

end Session

section Runs

variable {rsa : RsaPair} {done : List (FileCall × FileResult)} {call : FileCall}
  {result : FileResult} {state state' : FileState}

/-- Every call returns, and keeps the table sound. -/
theorem FileCall.run_spec (call : FileCall) (sound : CacheSound F keys hash state.decrAesCache) :
    ∃ result state', call.run F keys hash state = some (result, state') ∧
      CacheSound F keys hash state'.decrAesCache := by
  cases call with
  | enc outcomes buf => exact ⟨_, _, rfl, sound⟩
  | dec outcomes filebuf len =>
    obtain ⟨_, _, result, cache, _, ran, kept, _⟩ := cryptoFileDec_spec sound outcomes filebuf len
    refine ⟨.decrypted result, { state with decrAesCache := cache }, ?_, kept⟩
    rw [FileCall.run, ran]
    rfl

/-- A decryption does not touch the session key and uses no nonce. -/
theorem FileCall.run_dec {outcomes : DecOutcomes}
    (made : (FileCall.dec outcomes filebuf len).run F keys hash state = some (result, state')) :
    state'.encrAes = state.encrAes ∧ ∃ outcome, result = .decrypted outcome := by
  obtain ⟨⟨outcome, cache⟩, ran, same⟩ := Option.map_eq_some_iff.mp made
  cases same
  exact ⟨rfl, outcome, rfl⟩

/-- The table is sound after any calls. -/
theorem FileHistory.cacheSound (history : FileHistory F keys hash done state) :
    CacheSound F keys hash state.decrAesCache := by
  induction history with
  | start => exact rwhashtabInit_sound
  | @call done call result state state' before made ih =>
    obtain ⟨_, _, ran, kept⟩ := call.run_spec ih
    rw [made] at ran
    cases ran
    exact kept

/-- The session key is sound after any calls. -/
theorem FileHistory.session (pub : keys.encrPub = some (true, rsa))
    (priv : keys.encrPriv = some (true, rsa)) (history : FileHistory F keys hash done state) :
    ∀ key, state.encrAes = some key → SessionSound F keys key := by
  induction history with
  | start => exact fun key absurdity => nomatch absurdity
  | @call done call result state state' before made ih =>
    cases call with
    | dec outcomes filebuf len =>
      rw [(FileCall.run_dec made).1]
      exact ih
    | enc outcomes buf =>
      cases made
      intro key left
      rcases cryptoFileEnc_cases outcomes state.encrAes buf with ⟨_, all⟩ | ⟨used, has, _, next, _⟩
      · rw [all] at left
        cases left
      · have sound := sessionKey_sound pub priv ih has
        rw [next] at left
        cases left
        exact ⟨sound.length, sound.unwraps⟩

/-- What was encrypted is a file. -/
theorem FileHistory.file {hkey : List UInt8} (pub : keys.encrPub = some (true, rsa))
    (priv : keys.encrPriv = some (true, rsa)) (loaded : keys.hmacFileWrite = some hkey)
    (history : FileHistory F keys hash done state) {outcomes : EncOutcomes} {buf : List UInt8}
    {pair : Option (List UInt8 × UInt64)}
    (member : (.enc outcomes buf, .encrypted (some filebuf) pair) ∈ done) :
    FileOf F keys hkey buf filebuf := by
  induction history with
  | start => exact absurd member List.not_mem_nil
  | @call done call result state state' before made ih =>
    rcases List.mem_append.mp member with older | newest
    · exact ih older
    · cases List.mem_singleton.mp newest
      simp only [FileCall.run, Option.some.injEq, Prod.mk.injEq, FileResult.encrypted.injEq] at made
      obtain ⟨⟨output, _⟩, _⟩ := made
      rcases cryptoFileEnc_cases outcomes state.encrAes buf with
        ⟨_, all⟩ | ⟨key, has, _, _, files⟩
      · rw [all] at output
        cases output
      · obtain ⟨other, write, same⟩ := files filebuf output
        rw [loaded] at write
        cases write
        exact ⟨key, sessionKey_sound pub priv (before.session pub priv) has, same⟩

/-- A call adds what it used. -/
theorem pairs_append (done : List (FileCall × FileResult)) (call : FileCall) (result : FileResult) :
    pairs (done ++ [(call, result)]) = pairs done ++ result.pair.toList := by
  unfold pairs
  rw [List.filterMap_append, List.filterMap_cons]
  cases result.pair with
  | none => rfl
  | some pair => rfl

/-- A new session key starts with the nonce zero. -/
theorem keygen_nonce {outcomes : EncOutcomes} {key : FileAesKey}
    (generated : keygen F keys outcomes = some key) : key.nonce = 0 := by
  unfold keygen at generated
  split at generated
  · cases generated
  split at generated
  · cases generated
  split at generated
  · cases generated
  split at generated
  · cases generated
    rfl
  · cases generated

/-- The nonces of the encryptions go up from zero, under one key. -/
theorem FileHistory.pairs_range (history : FileHistory F keys hash done state) :
    pairs done = [] ∧ state.encrAes = none ∨
      ∃ key, state.encrAes = some key ∧ key.nonce = UInt64.ofNat (pairs done).length ∧
        pairs done = (List.range (pairs done).length).map fun i => (key.key, UInt64.ofNat i) := by
  induction history with
  | start => exact .inl ⟨rfl, rfl⟩
  | @call done call result state state' before made ih =>
    rw [pairs_append]
    cases call with
    | dec outcomes filebuf len =>
      obtain ⟨same, outcome, rfl⟩ := FileCall.run_dec made
      rw [same]
      simp only [FileResult.pair, Option.toList_none, List.append_nil]
      exact ih
    | enc outcomes buf =>
      cases made
      simp only [FileResult.pair]
      rcases cryptoFileEnc_cases outcomes state.encrAes buf with
        ⟨has, all⟩ | ⟨key, has, used, next, _⟩
      · rcases ih with ⟨empty, _⟩ | ⟨key, some_, _, _⟩
        · left
          rw [all, empty]
          exact ⟨rfl, rfl⟩
        · rw [some_] at has
          cases has
      · right
        have so : key.nonce = UInt64.ofNat (pairs done).length ∧
            pairs done = (List.range (pairs done).length).map fun i =>
              (key.key, UInt64.ofNat i) := by
          rcases ih with ⟨empty, noKey⟩ | ⟨other, some_, nonce, range⟩
          · rw [noKey] at has
            rw [empty]
            exact ⟨keygen_nonce has, rfl⟩
          · rw [some_] at has
            cases has
            exact ⟨nonce, range⟩
        rw [used, next, Option.toList_some, List.length_append, List.length_singleton]
        refine ⟨_, rfl, ?_, ?_⟩
        · show key.nonce + 1 = _
          rw [so.1, UInt64.ofNat_add]
          rfl
        · rw [List.range_succ, List.map_append, ← so.2, List.map_singleton, ← so.1]

/-- The first `2 ^ 64` encryptions use different pairs of a key and a nonce. -/
theorem FileHistory.pairs_nodup (history : FileHistory F keys hash done state) :
    ((pairs done).take (2 ^ 64)).Nodup := by
  rcases history.pairs_range with ⟨empty, _⟩ | ⟨key, _, _, range⟩
  · rw [empty, List.take_nil]
    exact List.nodup_nil
  · rw [range, ← List.map_take, List.take_range]
    refine List.Nodup.map_on ?_ List.nodup_range
    intro i first j second same
    have small := List.mem_range.mp first
    have small' := List.mem_range.mp second
    have nonces := congrArg UInt64.toNat (congrArg Prod.snd same)
    simp only [UInt64.toNat_ofNat'] at nonces
    omega

/-- A file that differs from an encrypted one in its contents or in its trailer only does not have
the trailer for its contents, if there is no collision with the contents of the encrypted one. -/
theorem fileTrailer_differs {hkey buf encrypted : List UInt8}
    (file : FileOf F keys hkey buf encrypted)
    (whole : filebuf.length = CRYPTO_FILE_HLEN + len + CRYPTO_FILE_TLEN)
    (noCollision :
      F.hmac hkey (filePart filebuf len) = F.hmac hkey (filePart encrypted buf.length) →
        filePart filebuf len = filePart encrypted buf.length)
    (differs : filebuf ≠ encrypted)
    (right : fileTrailer filebuf len = (F.hmac hkey (filePart filebuf len)).toList) :
    filePart filebuf len ≠ filePart encrypted buf.length ∧
      fileTrailer filebuf len ≠ fileTrailer encrypted buf.length := by
  obtain ⟨key, sound, rfl⟩ := file
  obtain ⟨contents, trailer⟩ := file_parts sound buf (F.hmac hkey (fileContents F key buf))
  rw [contents] at noCollision ⊢
  rw [trailer]
  have joined : filebuf = filePart filebuf len ++ fileTrailer filebuf len := by
    have rest : (filebuf.drop (CRYPTO_FILE_HLEN + len)).length ≤ CRYPTO_FILE_TLEN := by
      rw [List.length_drop]
      omega
    rw [filePart, fileTrailer, List.take_of_length_le rest, List.take_append_drop]
  have contentsDiffer : filePart filebuf len ≠ fileContents F key buf := by
    intro same
    rw [joined, right, same] at differs
    exact differs rfl
  refine ⟨contentsDiffer, ?_⟩
  intro same
  rw [right] at same
  exact contentsDiffer (noCollision (Vector.toList_inj.mp same))

/-- With the two RSA keys of a pair and one HMAC key: a file that one process encrypted is decrypted
to the buffer by any process, whatever is in its table, unless there is an error; what a decryption
returns does not depend on the table, unless there is an error; the first `2 ^ 64` encryptions of a
process use different pairs of a key and a nonce; and a file that differs from an encrypted one is
not authentic, unless its trailer is the HMAC of its contents, which is the case only if both
differ. -/
theorem cryptoFile_codec (pub : keys.encrPub = some (true, rsa))
    (priv : keys.encrPriv = some (true, rsa)) {hkey : List UInt8}
    (read : keys.hmacFile = some hkey) (write : keys.hmacFileWrite = some hkey) :
    (∀ other buf filebuf cache outcomes, Encrypted F keys other buf filebuf →
      Cached F keys hash cache → ∃ result cache',
        cryptoFileDec F keys hash outcomes cache filebuf buf.length = some (result, cache') ∧
          (result = .error ∨ result = .success buf) ∧
          (Provided outcomes cache → result = .success buf)) ∧
    (∀ filebuf len cache outcomes, Cached F keys hash cache → ∃ ideal empty result cache',
      cryptoFileDec F keys hash .works rwhashtabInit filebuf len = some (ideal, empty) ∧
        cryptoFileDec F keys hash outcomes cache filebuf len = some (result, cache') ∧
        (result = .error ∨ result = ideal) ∧ (Provided outcomes cache → result = ideal)) ∧
    (∀ done state, FileHistory F keys hash done state →
      ((pairs done).take (2 ^ 64)).Nodup ∧
        ∀ call : FileCall, ∃ result state', call.run F keys hash state = some (result, state')) ∧
    ∀ other buf encrypted filebuf len, Encrypted F keys other buf encrypted →
      filebuf.length = CRYPTO_FILE_HLEN + len + CRYPTO_FILE_TLEN → filebuf ≠ encrypted →
      (F.hmac hkey (filePart filebuf len) = F.hmac hkey (filePart encrypted buf.length) →
        filePart filebuf len = filePart encrypted buf.length) →
      (∀ cache outcomes, fileTrailer filebuf len ≠ (F.hmac hkey (filePart filebuf len)).toList →
        cryptoFileDec F keys hash outcomes cache filebuf len = some (.bad, cache)) ∧
      (fileTrailer filebuf len = (F.hmac hkey (filePart filebuf len)).toList →
        filePart filebuf len ≠ filePart encrypted buf.length ∧
          fileTrailer filebuf len ≠ fileTrailer encrypted buf.length) := by
  have files : ∀ other buf filebuf, Encrypted F keys other buf filebuf →
      FileOf F keys hkey buf filebuf := by
    intro other buf filebuf encrypted
    obtain ⟨done, state, outcomes, pair, history, member⟩ := encrypted
    exact history.file pub priv write member
  refine ⟨?_, ?_, ?_, ?_⟩
  · intro other buf filebuf cache outcomes encrypted cached
    obtain ⟨done, state, history, rfl⟩ := cached
    obtain ⟨_, opens⟩ := (files other buf filebuf encrypted).opens hash read
    obtain ⟨ideal, _, result, cache', ran, ran', _, either, provided⟩ :=
      cryptoFileDec_spec history.cacheSound outcomes filebuf buf.length
    rw [opens] at ran
    cases ran
    exact ⟨result, cache', ran', either, provided⟩
  · intro filebuf len cache outcomes cached
    obtain ⟨done, state, history, rfl⟩ := cached
    obtain ⟨ideal, empty, result, cache', ran, ran', _, either, provided⟩ :=
      cryptoFileDec_spec history.cacheSound outcomes filebuf len
    exact ⟨ideal, empty, result, cache', ran, ran', either, provided⟩
  · intro done state history
    refine ⟨history.pairs_nodup, fun call => ?_⟩
    obtain ⟨result, state', ran, _⟩ := call.run_spec history.cacheSound
    exact ⟨result, state', ran⟩
  · intro other buf encrypted filebuf len made whole differs noCollision
    refine ⟨?_, ?_⟩
    · intro cache outcomes wrong
      exact cryptoFileDec_bad read whole wrong outcomes
    · intro right
      exact fileTrailer_differs (files other buf encrypted made) whole noCollision differs right

end Runs

section Example

/-- RSA with exponents that are one. -/
def plainRsa : RsaPair where
  rsaPublic EM := .block EM
  rsaPrivate EM := .block EM
  decrypts EM length _ := ⟨EM, length, rfl, rfl⟩
  verifies EM length _ := ⟨EM, length, rfl, rfl⟩

/-- A sum of bytes in place of a hash. -/
def sumHash (data : List UInt8) : Bytes32 := Vector.replicate 32 data.sum

/-- Sums of bytes in place of hashes, and a cipherstream of zeros. -/
def plainFile : FilePrimitives := ⟨sumHash, fun _ => sumHash, fun _ _ => Vector.replicate 16 0⟩

/-- Keys for it. -/
def plainKeys : FileKeys := ⟨some (true, plainRsa), some (true, plainRsa), some [], some []⟩

/-- Nothing fails when a file is encrypted, and the random bytes are zeros. -/
def EncOutcomes.works : EncOutcomes :=
  ⟨true, some (Vector.replicate 32 0), true, some (Vector.replicate 32 0), true⟩

/-- There always is a session key. -/
theorem plain_sessionKey (encrAes : Option FileAesKey) :
    ∃ key, sessionKey plainFile plainKeys .works encrAes = some key := by
  cases encrAes with
  | some key => exact ⟨key, rfl⟩
  | none =>
    obtain ⟨c, encrypted, _⟩ := (@cryptoRsaDecrypt_exact sumHash plainRsa 256 (Nat.le_refl _)).2
      (Vector.replicate 32 0).toList (Vector.replicate 32 0) (by rw [Vector.length_toList]; omega)
    refine ⟨⟨(Vector.replicate 32 0).toList, 0, c⟩, ?_⟩
    show keygen plainFile plainKeys .works = _
    have pub : cryptoRsaEncrypt plainFile.sha256 plainKeys.encrPub EncOutcomes.works.seed
        (Vector.replicate 32 0).toList 256 = .success c := encrypted
    unfold keygen
    rw [if_neg (show EncOutcomes.works.malloc ≠ false by decide)]
    have random : EncOutcomes.works.aeskey = some (Vector.replicate 32 0) := rfl
    rw [random]
    simp only
    rw [if_neg (show EncOutcomes.works.expand ≠ false by decide), pub]

/-- Any number of files can be encrypted. -/
theorem plain_histories (count : Nat) : ∃ done state,
    FileHistory plainFile plainKeys (fun _ => 0) done state ∧ (pairs done).length = count := by
  induction count with
  | zero => exact ⟨[], cryptoFileInitKeys, .start, rfl⟩
  | succ count ih =>
    obtain ⟨done, state, history, length⟩ := ih
    have one : (FileCall.enc .works []).run plainFile plainKeys (fun _ => 0) state =
      some (_, _) := rfl
    refine ⟨_, _, history.call one, ?_⟩
    obtain ⟨key, has⟩ := plain_sessionKey state.encrAes
    rcases cryptoFileEnc_cases .works state.encrAes [] with ⟨none, _⟩ | ⟨_, _, used, _, _⟩
    · rw [none] at has
      cases has
    · rw [pairs_append, FileResult.pair, used, Option.toList_some, List.length_append, length]
      rfl

/-- An encrypted file. -/
def plainEncrypted (key : FileAesKey) (buf : List UInt8) : List UInt8 :=
  fileContents plainFile key buf ++ (sumHash (fileContents plainFile key buf)).toList

/-- A buffer is encrypted. -/
theorem plain_enc {state : FileState} {key : FileAesKey}
    (has : sessionKey plainFile plainKeys .works state.encrAes = some key) (buf : List UInt8) :
    (FileCall.enc .works buf).run plainFile plainKeys (fun _ => 0) state =
      some (.encrypted (some (plainEncrypted key buf)) (some (key.key, key.nonce)),
        { state with encrAes := some { key with nonce := key.nonce + 1 } }) := by
  have done : cryptoFileEnc plainFile plainKeys .works state.encrAes buf =
      ⟨some (plainEncrypted key buf), some (key.key, key.nonce),
        some { key with nonce := key.nonce + 1 }⟩ := by
    unfold cryptoFileEnc
    rw [has]
    simp only
    rw [if_neg (show EncOutcomes.works.stream ≠ false by decide)]
    rfl
  show some (_, _) = _
  rw [done]

/-- Two files of one byte are encrypted in turn. -/
theorem plain_files : ∃ key, key.nonce = 0 ∧ SessionSound plainFile plainKeys key ∧
    Encrypted plainFile plainKeys (fun _ => 0) [0] (plainEncrypted key [0]) ∧
    Encrypted plainFile plainKeys (fun _ => 0) [1]
      (plainEncrypted { key with nonce := key.nonce + 1 } [1]) := by
  obtain ⟨key, has⟩ := plain_sessionKey none
  have generated : keygen plainFile plainKeys .works = some key := has
  have first := FileHistory.start.call (plain_enc has [0])
  have second := first.call (plain_enc rfl [1])
  refine ⟨key, keygen_nonce generated, keygen_sound rfl rfl generated, ?_, ?_⟩
  · exact ⟨_, _, _, _, first, List.mem_singleton_self _⟩
  · exact ⟨_, _, _, _, second, List.mem_append_right _ (List.mem_singleton_self _)⟩

/-- The sum of the contents of a file of one byte. -/
theorem plain_sum (key : FileAesKey) (byte : UInt8) : (fileContents plainFile key [byte]).sum =
    key.keyEncrypted.sum + (beEnc 8 key.nonce.toNat).sum + byte := by
  have zero : ∀ pos, cipherstream plainFile key.key key.nonce pos = 0 := by
    intro pos
    show ((Vector.replicate 16 (0 : UInt8)).toList).getD _ 0 = 0
    rw [Vector.toList_replicate, List.getD_eq_getElem?_getD, List.getElem?_replicate]
    split
    · rfl
    · rfl
  rw [fileContents, List.sum_append, List.sum_append, xorStream, xorStream, zero, UInt8.xor_zero,
    List.sum_singleton]

/-- The two files have different sums. -/
theorem plain_sums {key : FileAesKey} (nonce : key.nonce = 0) :
    sumHash (fileContents plainFile { key with nonce := key.nonce + 1 } [1]) ≠
      sumHash (fileContents plainFile key [0]) := by
  intro same
  have sums : (fileContents plainFile { key with nonce := key.nonce + 1 } [1]).sum =
      (fileContents plainFile key [0]).sum := congrArg (·.get 0) same
  rw [plain_sum, plain_sum, nonce, UInt8.add_assoc, UInt8.add_assoc, UInt8.add_right_inj] at sums
  have different : (beEnc 8 (0 + 1 : UInt64).toNat).sum + 1 ≠
      (beEnc 8 (0 : UInt64).toNat).sum + (0 : UInt8) := by decide
  exact different sums

/-- After `2 ^ 64` encryptions a nonce is used again, and a file that differs from an encrypted one
may be another encrypted file. -/
theorem cryptoFile_reused :
    (¬∀ (F : FilePrimitives) (keys : FileKeys) (hash : List UInt8 → Nat)
      (done : List (FileCall × FileResult)) (state : FileState),
      FileHistory F keys hash done state → (pairs done).Nodup) ∧
    ¬∀ (F : FilePrimitives) (keys : FileKeys) (hash : List UInt8 → Nat) (rsa : RsaPair)
      (hkey buf encrypted filebuf : List UInt8) (len : Nat) (outcomes : DecOutcomes),
      keys.encrPub = some (true, rsa) → keys.encrPriv = some (true, rsa) →
      keys.hmacFile = some hkey → keys.hmacFileWrite = some hkey →
      Encrypted F keys hash buf encrypted →
      filebuf.length = CRYPTO_FILE_HLEN + len + CRYPTO_FILE_TLEN → filebuf ≠ encrypted →
      (F.hmac hkey (filePart filebuf len) = F.hmac hkey (filePart encrypted buf.length) →
        filePart filebuf len = filePart encrypted buf.length) →
      cryptoFileDec F keys hash outcomes rwhashtabInit filebuf len =
        some (.bad, rwhashtabInit) := by
  refine ⟨?_, ?_⟩
  · intro distinct
    obtain ⟨done, state, history, length⟩ := plain_histories (2 ^ 64 + 1)
    have nodup := distinct _ _ _ _ _ history
    rcases history.pairs_range with ⟨empty, _⟩ | ⟨key, _, _, range⟩
    · rw [empty] at length
      cases length
    · rw [range, length] at nodup
      have same := List.inj_on_of_nodup_map nodup (List.mem_range.mpr (Nat.succ_pos _))
        (List.mem_range.mpr (Nat.lt_succ_self (2 ^ 64))) (congrArg (Prod.mk key.key) rfl)
      cases same
  · intro authentic
    obtain ⟨key, nonce, sound, first, second⟩ := plain_files
    have later : SessionSound plainFile plainKeys { key with nonce := key.nonce + 1 } :=
      ⟨sound.length, sound.unwraps⟩
    have parts := file_parts sound [0] (sumHash (fileContents plainFile key [0]))
    have laterParts := file_parts later [1]
      (sumHash (fileContents plainFile { key with nonce := key.nonce + 1 } [1]))
    have whole : (plainEncrypted { key with nonce := key.nonce + 1 } [1]).length =
        CRYPTO_FILE_HLEN + 1 + CRYPTO_FILE_TLEN := by
      rw [plainEncrypted, List.length_append, fileContents_length later, Vector.length_toList]
      rfl
    have differs : plainEncrypted { key with nonce := key.nonce + 1 } [1] ≠
        plainEncrypted key [0] := by
      intro same
      have contents := congrArg (filePart · 1) same
      have equal := laterParts.1.symm.trans (contents.trans parts.1)
      exact plain_sums nonce (congrArg sumHash equal)
    have bad := authentic _ _ _ plainRsa [] _ _ _ 1 .works rfl rfl rfl rfl first whole differs (by
      intro same
      have equal : sumHash (fileContents plainFile { key with nonce := key.nonce + 1 } [1]) =
          sumHash (fileContents plainFile key [0]) := by
        rw [← laterParts.1, ← parts.1]
        exact same
      exact absurd equal (plain_sums nonce))
    have file : FileOf plainFile plainKeys [] [1]
        (plainEncrypted { key with nonce := key.nonce + 1 } [1]) := ⟨_, later, rfl⟩
    obtain ⟨cache, opens⟩ := file.opens (fun _ => 0) rfl
    rw [show ([1] : List UInt8).length = 1 from rfl, bad] at opens
    cases opens

/-- A file of one byte is decrypted. -/
theorem cryptoFile_codec_byte : ∃ filebuf cache,
    cryptoFileDec plainFile plainKeys (fun _ => 0) .works rwhashtabInit filebuf 1 =
      some (.success [0], cache) := by
  obtain ⟨key, nonce, sound, first, second⟩ := plain_files
  have codec := @cryptoFile_codec plainFile plainKeys (fun _ => 0) plainRsa rfl rfl [] rfl rfl
  obtain ⟨result, cache, decrypted, _, right⟩ :=
    codec.1 _ _ _ _ .works first ⟨_, _, .start, rfl⟩
  rw [right provided_init] at decrypted
  exact ⟨_, cache, decrypted⟩

end Example

end Tarsnap.Crypto
