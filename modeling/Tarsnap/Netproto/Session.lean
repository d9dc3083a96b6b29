import Tarsnap.Lib.Keystream
import Tarsnap.Netpacket.Packet

/-!
# Sessions

A session holds a key and a stream position for the encryption of each direction, and a key and a
counter for the authentication of each direction. The two sides derive the keys from a shared
secret and from labels, with the labels of the directions exchanged; each of them then proves its
possession of the secret. From there on what one side signs and encrypts, the other side verifies
and decrypts.
-/

namespace Tarsnap.Netproto

open Tarsnap.Lib Tarsnap.Netpacket

/-- The cryptographic functions that a session uses. -/
structure Primitives where
  /-- HMAC-SHA256 under a key. -/
  hmac : List UInt8 → List UInt8 → Bytes32
  /-- SHA256. -/
  sha256 : List UInt8 → Bytes32
  /-- The cipherstream of AES in counter mode under a key. -/
  cipherstream : List UInt8 → UInt64 → UInt8

/-- AES-CTR state. -/
structure Aesctr where
  /-- The key. -/
  key : List UInt8
  /-- The position in the cipherstream. -/
  bytectr : UInt64
deriving DecidableEq, Repr

/-- The state of a session. -/
structure Session where
  /-- Encryption of what is written. -/
  encrWriteStream : Aesctr
  /-- Key that authenticates what is written. -/
  authWrite : List UInt8
  /-- Number of the next signature. -/
  authWriteNonce : UInt64
  /-- Decryption of what is read. -/
  encrReadStream : Aesctr
  /-- Key that authenticates what is read. -/
  authRead : List UInt8
  /-- Number of the next verification. -/
  authReadNonce : UInt64
deriving DecidableEq, Repr

variable (F : Primitives)

/-- Add the next part of the cipherstream to a buffer. -/
def cryptoAesctrStream (stream : Aesctr) (inbuf : List UInt8) : List UInt8 × Aesctr :=
  (xorStream (F.cipherstream stream.key) stream.bytectr inbuf,
    { stream with bytectr := stream.bytectr + UInt64.ofNat inbuf.length })

/-- Set up a session from the shared key, with the labels of its four keys. -/
def cryptoSessionInit (mkey encrWrite authWrite encrRead authRead : List UInt8) : Session where
  encrWriteStream := ⟨(F.hmac mkey encrWrite).toList, 0⟩
  authWrite := (F.hmac mkey authWrite).toList
  authWriteNonce := 0
  encrReadStream := ⟨(F.hmac mkey encrRead).toList, 0⟩
  authRead := (F.hmac mkey authRead).toList
  authReadNonce := 0

/-- Encrypt a buffer with the session write key. -/
def cryptoSessionEncrypt (CS : Session) (inbuf : List UInt8) : List UInt8 × Session :=
  let (outbuf, encrWriteStream) := cryptoAesctrStream F CS.encrWriteStream inbuf
  (outbuf, { CS with encrWriteStream })

/-- Decrypt a buffer with the session read key. -/
def cryptoSessionDecrypt (CS : Session) (inbuf : List UInt8) : List UInt8 × Session :=
  let (outbuf, encrReadStream) := cryptoAesctrStream F CS.encrReadStream inbuf
  (outbuf, { CS with encrReadStream })

/-- What is hashed for a signature: its number, then the buffer. -/
def numbered (nonce : UInt64) (buf : List UInt8) : List UInt8 := beEnc 8 nonce.toNat ++ buf

/-- Sign a buffer. -/
def cryptoSessionSign (CS : Session) (buf : List UInt8) : List UInt8 × Session :=
  ((F.hmac CS.authWrite (numbered CS.authWriteNonce buf)).toList,
    { CS with authWriteNonce := CS.authWriteNonce + 1 })

/-- Verify a signature; the counter moves on in either case. -/
def cryptoSessionVerify (CS : Session) (buf sig : List UInt8) : Bool × Session :=
  (sig = (F.hmac CS.authRead (numbered CS.authReadNonce buf)).toList,
    { CS with authReadNonce := CS.authReadNonce + 1 })

/-- The writing state of one side and the reading state of the other agree. -/
structure Paired (writer reader : Session) : Prop where
  /-- The cipherstreams agree, position included. -/
  stream : reader.encrReadStream = writer.encrWriteStream
  /-- The authentication keys agree. -/
  auth : reader.authRead = writer.authWrite
  /-- The counters agree. -/
  nonce : reader.authReadNonce = writer.authWriteNonce

/-- The label of the client's encryption key, `C_encr`. -/
def clientEncr : List UInt8 := [67, 95, 101, 110, 99, 114]
/-- The label of the client's authentication key, `C_auth`. -/
def clientAuth : List UInt8 := [67, 95, 97, 117, 116, 104]
/-- The label of the server's encryption key, `S_encr`. -/
def serverEncr : List UInt8 := [83, 95, 101, 110, 99, 114]
/-- The label of the server's authentication key, `S_auth`. -/
def serverAuth : List UInt8 := [83, 95, 97, 117, 116, 104]

/-- The sessions of the client and of the server after each of them signed the shared key and
verified the other one's signature. -/
def keyexchange (mkey : List UInt8) : Session × Session :=
  let client := cryptoSessionInit F mkey clientEncr clientAuth serverEncr serverAuth
  let server := cryptoSessionInit F mkey serverEncr serverAuth clientEncr clientAuth
  let (clientproof, client) := cryptoSessionSign F client mkey
  let (_, server) := cryptoSessionVerify F server mkey clientproof
  let (serverproof, server) := cryptoSessionSign F server mkey
  let (_, client) := cryptoSessionVerify F client mkey serverproof
  (client, server)

/-- After the key exchange each direction is in agreement. -/
theorem keyexchange_paired (mkey : List UInt8) :
    Paired (keyexchange F mkey).1 (keyexchange F mkey).2 ∧
      Paired (keyexchange F mkey).2 (keyexchange F mkey).1 :=
  ⟨⟨rfl, rfl, rfl⟩, ⟨rfl, rfl, rfl⟩⟩

/-- An encrypted buffer has the length of the buffer. -/
@[simp] theorem cryptoSessionEncrypt_length (CS : Session) (inbuf : List UInt8) :
    (cryptoSessionEncrypt F CS inbuf).1.length = inbuf.length := xorStream_length _ _

variable {F} {writer reader : Session}

/-- What one side encrypts, the other side decrypts. -/
theorem Paired.decrypt (paired : Paired writer reader) (inbuf : List UInt8) :
    (cryptoSessionDecrypt F reader (cryptoSessionEncrypt F writer inbuf).1).1 = inbuf := by
  simp only [cryptoSessionDecrypt, cryptoSessionEncrypt, cryptoAesctrStream, paired.stream]
  exact xorStream_xorStream _ _

/-- The cipherstreams stay in agreement over texts of equal length. -/
theorem Paired.crypt (paired : Paired writer reader) {inbuf outbuf : List UInt8}
    (same : outbuf.length = inbuf.length) :
    Paired (cryptoSessionEncrypt F writer inbuf).2 (cryptoSessionDecrypt F reader outbuf).2 where
  stream := by
    simp only [cryptoSessionDecrypt, cryptoSessionEncrypt, cryptoAesctrStream, paired.stream, same]
  auth := paired.auth
  nonce := paired.nonce

/-- What one side signs, the other side verifies. -/
theorem Paired.verify (paired : Paired writer reader) (buf : List UInt8) :
    (cryptoSessionVerify F reader buf (cryptoSessionSign F writer buf).1).1 = true := by
  simp only [cryptoSessionVerify, cryptoSessionSign, paired.auth, paired.nonce, decide_true]

/-- The counters stay in agreement. -/
theorem Paired.sign (paired : Paired writer reader) (signed verified sig : List UInt8) :
    Paired (cryptoSessionSign F writer signed).2 (cryptoSessionVerify F reader verified sig).2 where
  stream := paired.stream
  auth := paired.auth
  nonce := by simp only [cryptoSessionVerify, cryptoSessionSign, paired.nonce]

end Tarsnap.Netproto
