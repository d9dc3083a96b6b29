import Tarsnap.Netproto.Packet

/-!
# Integrity of the packet stream

The reader obtains the packets that were written, however their bytes are segmented. When the
bytes are changed, but no header is forged and no contents collide under the hash, the reader
obtains the first packets and then a failure, as long as the packet counter does not wrap around.
After a wraparound the session is back in its first state, and a repeated packet is accepted.
-/

namespace Tarsnap.Netproto

open Tarsnap.Lib Tarsnap.Netpacket

/-- The status is a network error. -/
def Failure.IsNetwork (status : Failure) : Prop :=
  status = .err ∨ status = .timeout ∨ status = .nodata ∨ status = .closed

section Steps

variable (F : Primitives)

/-- The encrypted header of a packet. -/
def sealedHeader (keys : Session) (packet : Packet) : List UInt8 :=
  (cryptoSessionEncrypt F keys (packetHeader F packet.type packet.data)).1

/-- The session after the header of a packet. -/
def afterHeader (keys : Session) (packet : Packet) : Session :=
  (cryptoSessionSign F
    (cryptoSessionEncrypt F keys (packetHeader F packet.type packet.data)).2 []).2

/-- The session after a packet. -/
def afterPacket (keys : Session) (packet : Packet) : Session :=
  (cryptoSessionEncrypt F (afterHeader F keys packet) packet.data).2

/-- The signature of a header with its number. -/
def signature (authWrite : List UInt8) (nonce : UInt64) (header : List UInt8) : List UInt8 :=
  (F.hmac authWrite (numbered nonce header)).toList

/-- The bytes of a packet. -/
def sealedPacket (keys : Session) (packet : Packet) : List UInt8 :=
  sealedHeader F keys packet ++ (signature F keys.authWrite keys.authWriteNonce
    (sealedHeader F keys packet) ++
      (cryptoSessionEncrypt F (afterHeader F keys packet) packet.data).1)

variable {F} {keys writer reader : Session} {packet : Packet}

/-- A header has 37 bytes. -/
@[simp] theorem packetHeader_length (type : UInt8) (buf : List UInt8) :
    (packetHeader F type buf).length = 37 := by
  simp [packetHeader]

/-- An encrypted header has 37 bytes. -/
@[simp] theorem sealedHeader_length : (sealedHeader F keys packet).length = 37 := by
  simp [sealedHeader]

/-- A signature has 32 bytes. -/
@[simp] theorem signature_length (authWrite : List UInt8) (nonce : UInt64) (header : List UInt8) :
    (signature F authWrite nonce header).length = 32 := by
  simp [signature]

/-- A packet that is not too long is written. -/
theorem netprotoWritepacket_eq (fits : packet.data.length ≤ 4294967295) :
    netprotoWritepacket F keys packet.type packet.data =
      some (sealedPacket F keys packet, afterPacket F keys packet) := by
  rw [netprotoWritepacket, if_neg (by omega)]
  rfl

/-- Empty contents do not move the cipherstream. -/
theorem afterPacket_nil (empty : packet.data = []) :
    afterPacket F keys packet = afterHeader F keys packet := by
  simp [afterPacket, afterHeader, cryptoSessionEncrypt, cryptoSessionSign, cryptoAesctrStream,
    empty]

/-- A header that was written is decrypted, and the reader asks for a buffer and the data. -/
theorem headerReceived_sealed (paired : Paired writer reader)
    (fits : packet.data.length ≤ 4294967295) (callbackGetbuf : UInt8 → Nat → Option Failure)
    (A : Arrivals) :
    ∃ reader', Paired (afterHeader F writer packet) reader' ∧
      headerReceived F reader callbackGetbuf (.ok (sealedHeader F writer packet ++
        signature F writer.authWrite writer.authWriteNonce (sealedHeader F writer packet), A)) =
      match callbackGetbuf packet.type packet.data.length with
      | some status => .error status
      | none =>
        if packet.data.length = 0 then .ok (⟨packet.type, []⟩, reader', A)
        else dataReceived F reader' packet.type (F.sha256 packet.data).toList
          (tsnetworkRead packet.data.length A) := by
  have first : (sealedHeader F writer packet ++
      signature F writer.authWrite writer.authWriteNonce (sealedHeader F writer packet)).take 37 =
      sealedHeader F writer packet := List.take_left' sealedHeader_length
  have last : (sealedHeader F writer packet ++
      signature F writer.authWrite writer.authWriteNonce (sealedHeader F writer packet)).drop 37 =
      signature F writer.authWrite writer.authWriteNonce (sealedHeader F writer packet) :=
    List.drop_left' sealedHeader_length
  have verified : cryptoSessionVerify F reader (sealedHeader F writer packet)
      (signature F writer.authWrite writer.authWriteNonce (sealedHeader F writer packet)) =
      (true, { reader with authReadNonce := reader.authReadNonce + 1 }) := by
    rw [cryptoSessionVerify, paired.auth, paired.nonce]
    exact Prod.ext (decide_eq_true rfl) rfl
  have plain : (cryptoSessionDecrypt F
      { reader with authReadNonce := reader.authReadNonce + 1 }
      (sealedHeader F writer packet)).1 = packetHeader F packet.type packet.data :=
    paired.decrypt _
  refine ⟨(cryptoSessionDecrypt F
    { reader with authReadNonce := reader.authReadNonce + 1 }
    (sealedHeader F writer packet)).2, ?_, ?_⟩
  · have decrypted := @Paired.crypt F _ _ paired (packetHeader F packet.type packet.data)
      (sealedHeader F writer packet) (by rw [sealedHeader_length, packetHeader_length])
    exact ⟨decrypted.stream, decrypted.auth, congrArg (fun count => count + 1) paired.nonce⟩
  · have len : beDec (((packetHeader F packet.type packet.data).drop 1).take 4) =
        packet.data.length := by
      rw [packetHeader, List.drop_succ_cons, List.drop_zero, List.take_left' (beEnc_length 4 _),
        beDec_beEnc, Nat.mod_eq_of_lt (by omega)]
    have hash : (packetHeader F packet.type packet.data).drop 5 =
        (F.sha256 packet.data).toList := by
      rw [packetHeader, List.drop_succ_cons, List.drop_left' (beEnc_length 4 _)]
    have type : (packetHeader F packet.type packet.data).headD 0 = packet.type := rfl
    cases accepted : callbackGetbuf packet.type packet.data.length with
    | none => simp only [headerReceived, first, last, verified, plain, len, hash, type, accepted]
    | some status => simp only [headerReceived, first, last, verified, plain, len, type, accepted]

/-- The contents that were written are read. -/
theorem dataReceived_sealed (paired : Paired writer reader) (type : UInt8) (data : List UInt8)
    (A : Arrivals) :
    dataReceived F reader type (F.sha256 data).toList
        (.ok ((cryptoSessionEncrypt F writer data).1, A)) =
      .ok (⟨type, data⟩, (cryptoSessionDecrypt F reader (cryptoSessionEncrypt F writer data).1).2,
        A) := by
  simp only [dataReceived, paired.decrypt, if_true]

/-- A packet that was written is read from the front of what arrives. -/
theorem netprotoReadpacket_sealed {callbackGetbuf : UInt8 → Nat → Option Failure}
    {A : Arrivals} {rest : List UInt8} (paired : Paired writer reader)
    (fits : packet.data.length ≤ 4294967295)
    (admitted : callbackGetbuf packet.type packet.data.length = none)
    (bytes : A.bytes = sealedPacket F writer packet ++ rest) :
    ∃ reader' A', netprotoReadpacket F callbackGetbuf reader A = .ok (packet, reader', A') ∧
      Paired (afterPacket F writer packet) reader' ∧ A'.bytes = rest := by
  have split : A.bytes = (sealedHeader F writer packet ++ signature F writer.authWrite
      writer.authWriteNonce (sealedHeader F writer packet)) ++
        ((cryptoSessionEncrypt F (afterHeader F writer packet) packet.data).1 ++ rest) := by
    rw [bytes, sealedPacket]
    simp only [List.append_assoc]
  have length : (sealedHeader F writer packet ++ signature F writer.authWrite
      writer.authWriteNonce (sealedHeader F writer packet)).length = 69 := by
    rw [List.length_append, sealedHeader_length, signature_length]
  obtain ⟨A1, header, left⟩ := tsnetworkRead_ok split
    (by intro empty; rw [empty] at length; exact absurd length (by decide))
  obtain ⟨reader1, paired1, received⟩ := headerReceived_sealed paired fits callbackGetbuf A1
  rw [length] at header
  rw [netprotoReadpacket, header, received, admitted]
  by_cases empty : packet.data.length = 0
  · have nothing : packet.data = [] := List.eq_nil_of_length_eq_zero empty
    have same : (⟨packet.type, []⟩ : Packet) = packet := by rw [← nothing]
    refine ⟨reader1, A1, ?_, ?_, ?_⟩
    · simp only [empty, if_true, same]
    · rwa [afterPacket_nil nothing]
    · rw [left, nothing]
      rfl
  · simp only [empty, if_false]
    have wanted : (cryptoSessionEncrypt F (afterHeader F writer packet) packet.data).1.length =
        packet.data.length := cryptoSessionEncrypt_length F _ _
    obtain ⟨A2, data, rest'⟩ := tsnetworkRead_ok left
      (by intro none; rw [none] at wanted; exact empty wanted.symm)
    rw [wanted] at data
    rw [data, dataReceived_sealed paired1]
    exact ⟨_, A2, rfl, paired1.crypt wanted, rest'⟩

end Steps

section Runs

variable (F : Primitives)

/-- The bytes of packets that are written one after the other. -/
def sealedPackets (keys : Session) : List Packet → List UInt8
  | [] => []
  | packet :: rest => sealedPacket F keys packet ++ sealedPackets (afterPacket F keys packet) rest

/-- The session after some packets. -/
def afterPackets (keys : Session) : List Packet → Session
  | [] => keys
  | packet :: rest => afterPackets (afterPacket F keys packet) rest

/-- The headers that are signed while packets are written, with their numbers. -/
def signedHeaders (keys : Session) : List Packet → List (UInt64 × List UInt8)
  | [] => []
  | packet :: rest =>
    (keys.authWriteNonce, sealedHeader F keys packet) ::
      signedHeaders (afterPacket F keys packet) rest

/-- Every header among the bytes that is followed by its signature was signed by the writer. -/
def NoForgery (authWrite : List UInt8) (signed : List (UInt64 × List UInt8))
    (bytes : List UInt8) : Prop :=
  ∀ nonce header, header.length = 37 → header ++ signature F authWrite nonce header <:+: bytes →
    (nonce, header) ∈ signed

/-- No part of the bytes that has the length of a packet decrypts, at any position, to other
contents with the hash of the packet. -/
def NoCollision (key : List UInt8) (packets : List Packet) (bytes : List UInt8) : Prop :=
  ∀ packet ∈ packets, ∀ pos cipher, cipher <:+: bytes → cipher.length = packet.data.length →
    F.sha256 (xorStream (F.cipherstream key) pos cipher) = F.sha256 packet.data →
    xorStream (F.cipherstream key) pos cipher = packet.data

/-- The status is a protocol error, a network error, or what the callback returned for a packet
that was sent. -/
def Reported (callbackGetbuf : UInt8 → Nat → Option Failure) (packets : List Packet)
    (status : Failure) : Prop :=
  status = .proterr ∨ status.IsNetwork ∨
    ∃ packet ∈ packets, callbackGetbuf packet.type packet.data.length = some status

variable {F} {writer reader : Session} {callbackGetbuf : UInt8 → Nat → Option Failure}

/-- Packets that are not too long are written. -/
theorem writePackets_eq {keys : Session} {packets : List Packet}
    (fits : ∀ packet ∈ packets, packet.data.length ≤ 4294967295) :
    writePackets F keys packets =
      some (sealedPackets F keys packets, afterPackets F keys packets) := by
  induction packets generalizing keys with
  | nil => rfl
  | cons packet rest ih =>
    have tail : writePackets F (afterPacket F keys packet) rest =
        some (sealedPackets F (afterPacket F keys packet) rest,
          afterPackets F (afterPacket F keys packet) rest) :=
      ih fun other member => fits other (List.mem_cons_of_mem packet member)
    rw [writePackets, netprotoWritepacket_eq (fits packet List.mem_cons_self),
      Option.bind_eq_bind, Option.bind_some]
    simp only []
    rw [tail, Option.bind_some]
    rfl

/-- The packets that were written are read from the front of what arrives. -/
theorem readPackets_sealed {packets : List Packet} {A : Arrivals} {rest : List UInt8}
    (paired : Paired writer reader)
    (fits : ∀ packet ∈ packets, packet.data.length ≤ 4294967295)
    (admitted : ∀ packet ∈ packets, callbackGetbuf packet.type packet.data.length = none)
    (bytes : A.bytes = sealedPackets F writer packets ++ rest) :
    readPackets F callbackGetbuf packets.length reader A = (packets, none) := by
  induction packets generalizing writer reader A with
  | nil => rfl
  | cons packet later ih =>
    rw [sealedPackets, List.append_assoc] at bytes
    obtain ⟨reader', A', read, paired', left⟩ := netprotoReadpacket_sealed paired
      (fits packet List.mem_cons_self) (admitted packet List.mem_cons_self) bytes
    have tail := ih paired' (fun other member => fits other (List.mem_cons_of_mem packet member))
      (fun other member => admitted other (List.mem_cons_of_mem packet member)) left
    rw [List.length_cons, readPackets, read]
    simp only [tail]

/-- A packet is read only after its header was verified. -/
theorem netprotoReadpacket_verified (A : Arrivals) :
    (∃ status : Failure, netprotoReadpacket F callbackGetbuf reader A = .error status ∧
      (status = .proterr ∨ status.IsNetwork)) ∨
    ∃ header A', header.length = 37 ∧
      A.bytes = header ++ signature F reader.authRead reader.authReadNonce header ++ A'.bytes ∧
      netprotoReadpacket F callbackGetbuf reader A = headerReceived F reader callbackGetbuf
        (.ok (header ++ signature F reader.authRead reader.authReadNonce header, A')) := by
  rw [netprotoReadpacket]
  cases read : tsnetworkRead 69 A with
  | error status => exact .inl ⟨status, rfl, .inr (tsnetworkRead_failure read)⟩
  | ok result =>
    obtain ⟨buf, A'⟩ := result
    obtain ⟨length, bytes⟩ := tsnetworkRead_bytes read
    have split : buf.take 37 ++ buf.drop 37 = buf := List.take_append_drop 37 buf
    by_cases verified :
        buf.drop 37 = signature F reader.authRead reader.authReadNonce (buf.take 37)
    · right
      refine ⟨buf.take 37, A', by rw [List.length_take, length]; rfl, ?_, ?_⟩
      · rw [← verified, split, bytes]
      · rw [← verified, split]
    · left
      refine ⟨.proterr, ?_, .inl rfl⟩
      have refused : cryptoSessionVerify F reader (buf.take 37) (buf.drop 37) =
          (false, { reader with authReadNonce := reader.authReadNonce + 1 }) :=
        Prod.ext (decide_eq_false verified) rfl
      rw [headerReceived, refused]

/-- When the only header that can be verified is the one of the next packet, this packet is read
or a failure is reported. -/
theorem netprotoReadpacket_tampered {packet : Packet} {A : Arrivals}
    (paired : Paired writer reader) (fits : packet.data.length ≤ 4294967295)
    (genuine : ∀ header, header.length = 37 →
      header ++ signature F writer.authWrite writer.authWriteNonce header <:+: A.bytes →
      header = sealedHeader F writer packet)
    (distinct : NoCollision F writer.encrWriteStream.key [packet] A.bytes) :
    (∃ status, netprotoReadpacket F callbackGetbuf reader A = .error status ∧
      Reported callbackGetbuf [packet] status) ∨
    ∃ reader' A', netprotoReadpacket F callbackGetbuf reader A = .ok (packet, reader', A') ∧
      Paired (afterPacket F writer packet) reader' ∧ A'.bytes <:+ A.bytes := by
  rcases @netprotoReadpacket_verified F reader callbackGetbuf A with
    ⟨status, failed, kind⟩ | ⟨header, A1, length, bytes, verified⟩
  · exact .inl ⟨status, failed, kind.imp_right .inl⟩
  rw [paired.auth, paired.nonce] at bytes verified
  have same := genuine header length ⟨[], A1.bytes, by rw [bytes, List.nil_append]⟩
  obtain ⟨reader1, paired1, received⟩ := headerReceived_sealed paired fits callbackGetbuf A1
  rw [← same] at received
  rw [verified, received]
  have left : A1.bytes <:+ A.bytes := ⟨_, bytes.symm⟩
  cases admitted : callbackGetbuf packet.type packet.data.length with
  | some status =>
    exact .inl ⟨status, rfl, .inr (.inr ⟨packet, List.mem_cons_self, admitted⟩)⟩
  | none =>
    by_cases empty : packet.data.length = 0
    · have nothing : packet.data = [] := List.eq_nil_of_length_eq_zero empty
      right
      refine ⟨reader1, A1, ?_, ?_, left⟩
      · rw [if_pos empty, ← nothing]
      · rwa [afterPacket_nil nothing]
    · simp only [empty, if_false]
      cases read : tsnetworkRead packet.data.length A1 with
      | error status => exact .inl ⟨status, rfl, .inr (.inl (tsnetworkRead_failure read))⟩
      | ok result =>
        obtain ⟨buf, A2⟩ := result
        obtain ⟨size, rest⟩ := tsnetworkRead_bytes read
        have part : buf <:+: A.bytes := by
          apply List.IsInfix.trans _ left.isInfix
          exact ⟨[], A2.bytes, rest.symm⟩
        have agree := congrArg Aesctr.key paired1.stream
        have key : reader1.encrReadStream.key = writer.encrWriteStream.key := agree
        by_cases hash : (F.sha256 packet.data).toList =
            (F.sha256 (cryptoSessionDecrypt F reader1 buf).1).toList
        · have collides : F.sha256 (xorStream (F.cipherstream writer.encrWriteStream.key)
              reader1.encrReadStream.bytectr buf) = F.sha256 packet.data := by
            rw [← key]
            exact (Vector.toList_inj.mp hash).symm
          have data : (cryptoSessionDecrypt F reader1 buf).1 = packet.data := by
            have known := distinct packet List.mem_cons_self _ buf part size collides
            rwa [← key] at known
          right
          refine ⟨(cryptoSessionDecrypt F reader1 buf).2, A2, ?_, paired1.crypt size, ?_⟩
          · simp only [dataReceived, data, if_true]
          · exact List.IsSuffix.trans ⟨buf, rest.symm⟩ left
        · left
          refine ⟨.proterr, ?_, .inl rfl⟩
          simp only [dataReceived, hash, if_false]

/-- The number after no packets. -/
theorem number_zero (start : UInt64) : start + UInt64.ofNat 0 = start := UInt64.add_zero start

/-- Numbers that are less than `2 ^ 64` apart are different as words. -/
theorem number_injective {start : UInt64} {left right : Nat}
    (same : start + UInt64.ofNat left = start + UInt64.ofNat right)
    (boundLeft : left < 18446744073709551616) (boundRight : right < 18446744073709551616) :
    left = right := by
  have values := congrArg UInt64.toNat same
  simp only [UInt64.toNat_add, UInt64.toNat_ofNat'] at values
  omega

/-- The number after a given count of packets is one less than that after the next one. -/
theorem number_succ (start : UInt64) (count : Nat) :
    start + 1 + UInt64.ofNat count = start + UInt64.ofNat (count + 1) := by
  apply UInt64.toNat_inj.mp
  simp only [UInt64.toNat_add, UInt64.toNat_ofNat']
  have one : (1 : UInt64).toNat = 1 := rfl
  omega

/-- The headers of the packets are numbered in turn. -/
theorem signedHeaders_numbered {keys : Session} {packets : List Packet} {nonce : UInt64}
    {header : List UInt8} (signed : (nonce, header) ∈ signedHeaders F keys packets) :
    ∃ count < packets.length, nonce = keys.authWriteNonce + UInt64.ofNat count := by
  induction packets generalizing keys with
  | nil => cases signed
  | cons packet rest ih =>
    rcases List.mem_cons.mp signed with first | later
    · have number : nonce = keys.authWriteNonce := congrArg Prod.fst first
      exact ⟨0, Nat.zero_lt_succ _, number.trans (number_zero _).symm⟩
    · obtain ⟨count, below, number⟩ := ih later
      exact ⟨count + 1, Nat.succ_lt_succ below, number.trans (number_succ _ _)⟩

/-- What is not forged among some bytes is not forged at their end. -/
theorem NoForgery.suffix {authWrite : List UInt8} {signed : List (UInt64 × List UInt8)}
    {bytes rest : List UInt8} (genuine : NoForgery F authWrite signed bytes)
    (later : rest <:+ bytes) : NoForgery F authWrite signed rest := by
  intro nonce header length part
  exact genuine nonce header length (part.trans later.isInfix)

/-- What does not collide among some bytes does not collide at their end, for some of the
packets. -/
theorem NoCollision.suffix {key : List UInt8} {packets some : List Packet}
    {bytes rest : List UInt8} (distinct : NoCollision F key packets bytes)
    (later : rest <:+ bytes) (fewer : ∀ packet ∈ some, packet ∈ packets) :
    NoCollision F key some rest := by
  intro packet member pos cipher part
  exact distinct packet (fewer packet member) pos cipher (part.trans later.isInfix)

/-- Before the counter wraps around, the only header with the next number is that of the next
packet. -/
theorem next_header {before : List (UInt64 × List UInt8)} {packet : Packet} {rest : List Packet}
    {bytes : List UInt8}
    (genuine : NoForgery F writer.authWrite
      (before ++ signedHeaders F writer (packet :: rest)) bytes)
    (fresh : ∀ entry ∈ before, ∀ count ≤ (packet :: rest).length,
      entry.1 ≠ writer.authWriteNonce + UInt64.ofNat count)
    (few : (packet :: rest).length < 18446744073709551616)
    (header : List UInt8) (length : header.length = 37)
    (part : header ++ signature F writer.authWrite writer.authWriteNonce header <:+: bytes) :
    header = sealedHeader F writer packet := by
  have start := (number_zero writer.authWriteNonce).symm
  rcases List.mem_append.mp (genuine _ header length part) with old | new
  · exact absurd start (fresh _ old 0 (Nat.zero_le _))
  · rcases List.mem_cons.mp new with this | later
    · exact congrArg Prod.snd this
    · obtain ⟨count, below, number⟩ := signedHeaders_numbered later
      have next : writer.authWriteNonce = writer.authWriteNonce + 1 + UInt64.ofNat count := number
      rw [number_succ, List.length_cons] at *
      have wrapped := number_injective (start.symm.trans next) (by decide) (by omega)
      omega

/-- When nothing is forged and nothing collides, the packets that are read are the first of those
that were written, and a read that delivers no packet reports a failure. -/
theorem readPackets_tampered {packets : List Packet} {before : List (UInt64 × List UInt8)}
    {A : Arrivals} (paired : Paired writer reader)
    (fits : ∀ packet ∈ packets, packet.data.length ≤ 4294967295)
    (genuine : NoForgery F writer.authWrite (before ++ signedHeaders F writer packets) A.bytes)
    (fresh : ∀ entry ∈ before, ∀ count ≤ packets.length,
      entry.1 ≠ writer.authWriteNonce + UInt64.ofNat count)
    (few : packets.length < 18446744073709551616)
    (distinct : NoCollision F writer.encrWriteStream.key packets A.bytes) (count : Nat) :
    (readPackets F callbackGetbuf count reader A).1 <+: packets ∧
      (∀ status, (readPackets F callbackGetbuf count reader A).2 = some status →
        Reported callbackGetbuf packets status) ∧
      ((readPackets F callbackGetbuf count reader A).2 = none →
        (readPackets F callbackGetbuf count reader A).1.length = count) := by
  induction count generalizing packets before writer reader A with
  | zero => exact ⟨List.nil_prefix, nofun, fun _ => rfl⟩
  | succ count ih =>
    cases packets with
    | nil =>
      rcases @netprotoReadpacket_verified F reader callbackGetbuf A with
        ⟨status, failed, kind⟩ | ⟨header, A', length, bytes, _⟩
      · rw [readPackets, failed]
        refine ⟨List.nil_prefix, ?_, nofun⟩
        intro reported same
        cases same
        exact kind.imp_right .inl
      · rw [paired.auth, paired.nonce] at bytes
        have entry := genuine writer.authWriteNonce header length
          ⟨[], A'.bytes, by rw [bytes, List.nil_append]⟩
        rw [signedHeaders, List.append_nil] at entry
        exact absurd (number_zero _).symm (fresh _ entry 0 (Nat.zero_le _))
    | cons packet rest =>
      have only (other : Packet) (member : other ∈ [packet]) : other ∈ packet :: rest := by
        rw [List.mem_singleton.mp member]
        exact List.mem_cons_self
      rcases @netprotoReadpacket_tampered F writer reader callbackGetbuf packet A paired
          (fits packet List.mem_cons_self) (next_header genuine fresh few)
          (distinct.suffix (List.suffix_refl _) only) with
        ⟨status, failed, kind⟩ | ⟨reader', A', read, paired', left⟩
      · rw [readPackets, failed]
        refine ⟨List.nil_prefix, ?_, nofun⟩
        intro reported same
        cases same
        rcases kind with protocol | network | ⟨other, member, refused⟩
        · exact .inl protocol
        · exact .inr (.inl network)
        · exact .inr (.inr ⟨other, only other member, refused⟩)
      · have later := @ih (afterPacket F writer packet) reader' rest
          (before ++ [(writer.authWriteNonce, sealedHeader F writer packet)]) A' paired'
          (fun other member => fits other (List.mem_cons_of_mem packet member))
          (by
            rw [List.append_assoc]
            exact genuine.suffix left)
          (by
            intro entry member number bound same
            have next : (afterPacket F writer packet).authWriteNonce + UInt64.ofNat number =
              writer.authWriteNonce + UInt64.ofNat (number + 1) := number_succ _ _
            rw [next] at same
            rcases List.mem_append.mp member with old | new
            · exact fresh entry old (number + 1) (Nat.succ_le_succ bound) same
            · rw [List.mem_singleton.mp new] at same
              have start := (number_zero writer.authWriteNonce).trans same
              rw [List.length_cons] at few
              have wrapped := number_injective start (by decide) (by omega)
              omega)
          (by rw [List.length_cons] at few; omega)
          (distinct.suffix left fun other member => List.mem_cons_of_mem packet member)
        obtain ⟨delivered, reported, complete⟩ := later
        simp only [readPackets, read]
        refine ⟨List.prefix_cons_inj packet |>.mpr delivered, ?_, ?_⟩
        · intro status same
          rcases reported status same with protocol | network | ⟨other, member, refused⟩
          · exact .inl protocol
          · exact .inr (.inl network)
          · exact .inr (.inr ⟨other, List.mem_cons_of_mem packet member, refused⟩)
        · intro finished
          rw [List.length_cons, complete finished]

/-- The bytes of the packets come one after the other. -/
theorem sealedPackets_append {keys : Session} (left right : List Packet) :
    sealedPackets F keys (left ++ right) =
      sealedPackets F keys left ++ sealedPackets F (afterPackets F keys left) right := by
  induction left generalizing keys with
  | nil => rfl
  | cons packet rest ih =>
    rw [List.cons_append, sealedPackets, sealedPackets, ih, List.append_assoc, afterPackets]

/-- A packet without contents has 69 bytes. -/
theorem sealedPacket_length {keys : Session} {packet : Packet} (empty : packet.data = []) :
    (sealedPacket F keys packet).length = 69 := by
  simp [sealedPacket, empty]

/-- Packets without contents move the cipherstream by 37 bytes each. -/
theorem afterPackets_empty {keys : Session} {packets : List Packet}
    (empty : ∀ packet ∈ packets, packet.data = []) :
    afterPackets F keys packets = { keys with
      encrWriteStream := { keys.encrWriteStream with
        bytectr := keys.encrWriteStream.bytectr + UInt64.ofNat (37 * packets.length) }
      authWriteNonce := keys.authWriteNonce + UInt64.ofNat packets.length } := by
  induction packets generalizing keys with
  | nil =>
    rw [List.length_nil, Nat.mul_zero, number_zero, number_zero]
    rfl
  | cons packet rest ih =>
    have nothing : packet.data = [] := empty packet List.mem_cons_self
    have step : afterPacket F keys packet = { keys with
        encrWriteStream := { keys.encrWriteStream with
          bytectr := keys.encrWriteStream.bytectr + UInt64.ofNat 37 }
        authWriteNonce := keys.authWriteNonce + 1 } := by
      rw [afterPacket_nil nothing]
      simp [afterHeader, cryptoSessionEncrypt, cryptoSessionSign, cryptoAesctrStream]
    have moved : keys.encrWriteStream.bytectr + UInt64.ofNat 37 +
        UInt64.ofNat (37 * rest.length) =
          keys.encrWriteStream.bytectr + UInt64.ofNat (37 * (rest.length + 1)) := by
      rw [UInt64.add_assoc, ← UInt64.ofNat_add, Nat.mul_succ, Nat.add_comm 37]
    rw [afterPackets, ih fun other member => empty other (List.mem_cons_of_mem packet member), step]
    simp only [moved, number_succ, List.length_cons]

/-- After `2 ^ 64` packets without contents the session is as it was before. -/
theorem afterPackets_wraparound {keys : Session} {packets : List Packet}
    (empty : ∀ packet ∈ packets, packet.data = [])
    (many : packets.length = 18446744073709551616) : afterPackets F keys packets = keys := by
  have count : UInt64.ofNat 18446744073709551616 = 0 := rfl
  have bytes : UInt64.ofNat (37 * 18446744073709551616) = 0 := rfl
  rw [afterPackets_empty empty, many, count, bytes, UInt64.add_zero, UInt64.add_zero]

/-- After `2 ^ 64` packets without contents another such packet has the bytes that it would have
had at first. -/
theorem sealedPackets_wraparound {keys : Session} {front : List Packet} (packet : Packet)
    (empty : ∀ other ∈ front, other.data = []) (many : front.length = 18446744073709551616) :
    sealedPackets F keys (front ++ [packet]) =
      sealedPackets F keys front ++ sealedPacket F keys packet := by
  rw [sealedPackets_append, afterPackets_wraparound empty many, sealedPackets, sealedPackets,
    List.append_nil]

end Runs

/-- The reader obtains the packets that were written, in whatever segments their bytes arrive.
From fewer than `2 ^ 64` packets whose bytes are changed in any way that forges no header and
makes no contents collide, the reader obtains the first packets, and then a failure. -/
theorem packetStream (F : Primitives) {writer reader : Session} (paired : Paired writer reader)
    (packets : List Packet) (fits : ∀ packet ∈ packets, packet.data.length ≤ 4294967295) :
    (∃ stream writer', writePackets F writer packets = some (stream, writer') ∧
      ∀ (callbackGetbuf : UInt8 → Nat → Option Failure) (A : Arrivals),
        (∀ packet ∈ packets, callbackGetbuf packet.type packet.data.length = none) →
        stream <+: A.bytes →
        readPackets F callbackGetbuf packets.length reader A = (packets, none)) ∧
    (packets.length < 2 ^ 64 →
      ∀ (callbackGetbuf : UInt8 → Nat → Option Failure) (A : Arrivals) (count : Nat),
        NoForgery F writer.authWrite (signedHeaders F writer packets) A.bytes →
        NoCollision F writer.encrWriteStream.key packets A.bytes →
        (readPackets F callbackGetbuf count reader A).1 <+: packets ∧
        (∀ status, (readPackets F callbackGetbuf count reader A).2 = some status →
          Reported callbackGetbuf packets status) ∧
        ((readPackets F callbackGetbuf count reader A).2 = none →
          (readPackets F callbackGetbuf count reader A).1.length = count)) := by
  constructor
  · refine ⟨_, _, writePackets_eq fits, ?_⟩
    intro callbackGetbuf A admitted arrived
    obtain ⟨rest, bytes⟩ := arrived
    exact readPackets_sealed paired fits admitted bytes.symm
  · intro few callbackGetbuf A count genuine distinct
    have none_signed : ∀ entry ∈ ([] : List (UInt64 × List UInt8)), ∀ count ≤ packets.length,
        entry.1 ≠ writer.authWriteNonce + UInt64.ofNat count :=
      fun _ member => absurd member List.not_mem_nil
    exact readPackets_tampered paired fits genuine none_signed few distinct count

/-- The first 32 bytes of some data, with zeros after them. -/
def firstBytes (data : List UInt8) : Bytes32 := Vector.ofFn fun i => data.getD i.val 0

/-- Primitives for a short run: hashes and signatures show the first bytes of what they stand
for. -/
def plainPrimitives : Primitives where
  hmac _ data := firstBytes data
  sha256 data := firstBytes data
  cipherstream _ pos := UInt8.ofNat pos.toNat

/-- Short data of a known length is told apart by its first bytes. -/
theorem firstBytes_inj {data other : List UInt8} (short : data.length ≤ 32)
    (length : other.length = data.length) (same : firstBytes other = firstBytes data) :
    other = data := by
  apply List.ext_getElem length
  intro i before inside
  have position : i < 32 := by omega
  have value := congrArg (fun bytes : Bytes32 => bytes[i]) same
  simp only [firstBytes, Vector.getElem_ofFn] at value
  rwa [List.getD_eq_getElem _ _ before, List.getD_eq_getElem _ _ inside] at value

/-- A signature shows its number and the first bytes of the header. -/
theorem signature_plain (key : List UInt8) (nonce : UInt64) {header : List UInt8}
    (length : header.length = 37) : signature plainPrimitives key nonce header =
      beEnc 8 nonce.toNat ++ header.take 24 := by
  change (firstBytes (numbered nonce header)).toList = _
  apply List.ext_getElem
  · rw [Vector.length_toList, List.length_append, beEnc_length, List.length_take, length]
    rfl
  intro i before inside
  rw [Vector.length_toList] at before
  have room : i < (numbered nonce header).length := by
    rw [numbered, List.length_append, beEnc_length, length]
    omega
  simp only [firstBytes, Vector.toList_ofFn, List.getElem_ofFn]
  rw [List.getD_eq_getElem _ _ room]
  simp only [numbered, List.getElem_append, List.getElem_take]

/-- Nothing among the bytes is forged if each part that looks like a signed header is one. -/
theorem noForgery_plain {key : List UInt8} {signed : List (UInt64 × List UInt8)}
    {bytes : List UInt8} (all : ∀ k ∈ List.range bytes.length,
      ((bytes.drop k).drop 45).take 24 = (bytes.drop k).take 24 → 69 ≤ (bytes.drop k).length →
        (UInt64.ofNat (beDec (((bytes.drop k).drop 37).take 8)), (bytes.drop k).take 37) ∈ signed) :
    NoForgery plainPrimitives key signed bytes := by
  rintro nonce header length ⟨front, back, split⟩
  rw [signature_plain key nonce length] at split
  have rest : bytes.drop front.length =
      header ++ (beEnc 8 nonce.toNat ++ (header.take 24 ++ back)) := by
    rw [← split, List.append_assoc, List.drop_left, List.append_assoc, List.append_assoc]
  have taken : (header.take 24).length = 24 := by rw [List.length_take, length]; rfl
  have number : (beEnc 8 nonce.toNat).length = 8 := beEnc_length 8 _
  have long : (bytes.drop front.length).length = 69 + back.length := by
    rw [rest, List.length_append, List.length_append, List.length_append, taken, number, length]
    omega
  have inside : front.length < bytes.length := by
    rw [List.length_drop] at long
    omega
  have middle : (bytes.drop front.length).drop 37 =
      beEnc 8 nonce.toNat ++ (header.take 24 ++ back) := by
    rw [rest, List.drop_left' length]
  have shown : ((bytes.drop front.length).drop 45).take 24 = header.take 24 := by
    rw [show 45 = 37 + 8 from rfl, ← List.drop_drop, middle, List.drop_left' number,
      List.take_left' taken]
  have start : (bytes.drop front.length).take 37 = header := by rw [rest, List.take_left' length]
  have first : (bytes.drop front.length).take 24 = header.take 24 := by
    rw [rest, List.take_append_of_le_length (by omega)]
  have member := all front.length (List.mem_range.mpr inside) (shown.trans first.symm) (by omega)
  rw [start, middle, List.take_left' number, beDec_beEnc,
    Nat.mod_eq_of_lt (by exact nonce.toNat_lt), UInt64.ofNat_toNat] at member
  exact member

/-- Short contents do not collide. -/
theorem noCollision_plain {key : List UInt8} {packets : List Packet} {bytes : List UInt8}
    (short : ∀ packet ∈ packets, packet.data.length ≤ 32) :
    NoCollision plainPrimitives key packets bytes := by
  intro packet member pos cipher _ length same
  exact firstBytes_inj (short packet member) (by rw [xorStream_length, length]) same

/-- The client's packets reach the server in two segments. When the second packet is cut off, or
replaced by the first one again, the server gets the first packet and then a failure. -/
theorem packetStream_twoSegments :
    ∃ stream client, writePackets plainPrimitives (keyexchange plainPrimitives [1]).1
        [⟨7, [1, 2]⟩, ⟨8, []⟩] = some (stream, client) ∧
      readPackets plainPrimitives (fun _ _ => none) 2 (keyexchange plainPrimitives [1]).2
        ⟨[stream.take 50, stream.drop 50], .timeout⟩ = ([⟨7, [1, 2]⟩, ⟨8, []⟩], none) ∧
      readPackets plainPrimitives (fun _ _ => none) 2 (keyexchange plainPrimitives [1]).2
        ⟨[stream.take 100], .closed⟩ = ([⟨7, [1, 2]⟩], some .closed) ∧
      readPackets plainPrimitives (fun _ _ => none) 2 (keyexchange plainPrimitives [1]).2
        ⟨[stream.take 71, stream.take 71], .closed⟩ = ([⟨7, [1, 2]⟩], some .proterr) ∧
      ∀ A ∈ [Arrivals.mk [stream.take 100] .closed,
          Arrivals.mk [stream.take 71, stream.take 71] .closed],
        (readPackets plainPrimitives (fun _ _ => none) 2 (keyexchange plainPrimitives [1]).2 A).1
            <+: [⟨7, [1, 2]⟩, ⟨8, []⟩] ∧
          ∀ status, (readPackets plainPrimitives (fun _ _ => none) 2
              (keyexchange plainPrimitives [1]).2 A).2 = some status →
            Reported (fun _ _ => none) [⟨7, [1, 2]⟩, ⟨8, []⟩] status := by
  obtain ⟨⟨stream, client, written, reads⟩, tampered⟩ := packetStream plainPrimitives
    (keyexchange_paired plainPrimitives [1]).1 [⟨7, [1, 2]⟩, ⟨8, []⟩] (by decide)
  have value : stream = sealedPackets plainPrimitives (keyexchange plainPrimitives [1]).1
      [⟨7, [1, 2]⟩, ⟨8, []⟩] := by
    rw [writePackets_eq (by decide), Option.some.injEq] at written
    exact (congrArg Prod.fst written).symm
  refine ⟨stream, client, written, reads _ _ (by simp) ?_, ?_, ?_, ?_⟩
  · simp [Arrivals.bytes]
  · rw [value]
    decide +kernel
  · rw [value]
    decide +kernel
  · intro A member
    have genuine : NoForgery plainPrimitives (keyexchange plainPrimitives [1]).1.authWrite
        (signedHeaders plainPrimitives (keyexchange plainPrimitives [1]).1
          [⟨7, [1, 2]⟩, ⟨8, []⟩]) A.bytes := by
      apply noForgery_plain
      rw [value] at member
      rcases List.mem_cons.mp member with rfl | member
      · decide +kernel
      · rw [List.mem_singleton.mp member]
        decide +kernel
    have outcome := tampered (by decide) (fun _ _ => none) A 2 genuine
      (noCollision_plain (by decide))
    exact ⟨outcome.1, outcome.2.1⟩

/-- When the last of `2 ^ 64 + 1` packets is replaced by a repetition of the first one, the reader
accepts it: the counter and the cipherstream are back where they were. -/
theorem replayed_packet_delivered :
    ∃ packets : List Packet, packets.length = 2 ^ 64 + 1 ∧
      (∀ packet ∈ packets, packet.data = []) ∧
      ∀ (F : Primitives) (mkey : List UInt8), ∃ stream client,
        writePackets F (keyexchange F mkey).1 packets = some (stream, client) ∧
        ∀ A : Arrivals, A.bytes = stream.take (stream.length - 69) ++ stream.take 69 →
          ¬ (readPackets F (fun _ _ => none) packets.length (keyexchange F mkey).2 A).1 <+:
            packets := by
  generalize size : 2 ^ 64 - 1 = others
  have count : others + 1 = 18446744073709551616 := by omega
  let first : Packet := ⟨1, []⟩
  let other : Packet := ⟨2, []⟩
  let front : List Packet := first :: List.replicate others other
  have many : front.length = 18446744073709551616 := by
    rw [List.length_cons, List.length_replicate, count]
  have empty : ∀ packet ∈ front, packet.data = [] := by
    intro packet member
    rcases List.mem_cons.mp member with rfl | member
    · rfl
    · rw [(List.mem_replicate.mp member).2]
  have empties (last : Packet) (nothing : last.data = []) :
      ∀ packet ∈ front ++ [last], packet.data = [] := by
    intro packet member
    rcases List.mem_append.mp member with old | new
    · exact empty packet old
    · rw [List.mem_singleton.mp new, nothing]
  have fits (last : Packet) (nothing : last.data = []) :
      ∀ packet ∈ front ++ [last], packet.data.length ≤ 4294967295 := by
    intro packet member
    rw [empties last nothing packet member]
    exact Nat.zero_le _
  refine ⟨front ++ [other], ?_, empties other rfl, ?_⟩
  · rw [List.length_append, many]
    rfl
  intro F mkey
  refine ⟨_, _, writePackets_eq (fits other rfl), ?_⟩
  intro A bytes
  -- The bytes are those of the packets with the first packet again as the last one.
  have replayed : A.bytes = sealedPackets F (keyexchange F mkey).1 (front ++ [first]) ++ [] := by
    have start : sealedPackets F (keyexchange F mkey).1 front =
        sealedPacket F (keyexchange F mkey).1 first ++ sealedPackets F
          (afterPacket F (keyexchange F mkey).1 first) (List.replicate others other) := rfl
    have one : (sealedPacket F (keyexchange F mkey).1 first).length = 69 :=
      sealedPacket_length rfl
    have last : (sealedPacket F (keyexchange F mkey).1 other).length = 69 :=
      sealedPacket_length rfl
    have initial : (sealedPackets F (keyexchange F mkey).1 front ++
        sealedPacket F (keyexchange F mkey).1 other).take 69 =
          sealedPacket F (keyexchange F mkey).1 first := by
      rw [start, List.append_assoc, List.take_left' one]
    rw [bytes, sealedPackets_wraparound other empty many, sealedPackets_wraparound first empty many,
      List.append_nil, List.length_append, last, Nat.add_sub_cancel, List.take_left, initial]
  have delivered := @readPackets_sealed F _ _ (fun _ _ => none) _ _ _
    (keyexchange_paired F mkey).1 (fits first rfl) (fun _ _ => rfl) replayed
  have lengths : (front ++ [other]).length = (front ++ [first]).length := by
    rw [List.length_append, List.length_append]
    rfl
  rw [lengths, delivered]
  intro initial
  have same := initial.eq_of_length lengths.symm
  have last := List.append_cancel_left same
  exact absurd last (by decide)

end Tarsnap.Netproto
