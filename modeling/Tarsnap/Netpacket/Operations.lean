import Tarsnap.Netpacket.Packet

/-!
# Operations of the netpacket layer

A connection has a queue of operations. The packet of an operation is sent when it is queued or,
if there is no connection to the server yet, once there is one. A response belongs to the operation
at the front, whose handler either sends another packet or is done, so that the operation leaves
the queue. After a connection is lost, everything in the queue is sent again over a new one. All
callbacks return a status that is not zero on failure.
-/

namespace Tarsnap.Netpacket

/-- Maximum number of times that a reconnection is tried. -/
def MAXRECONNECTS : Nat := 10

/-- As above, except that the server does not seem to be around at all. -/
def MAXRECONNECTS_AWOL : Nat := 3

/-- Whether there is a connection to the server. -/
inductive LinkState where
  /-- State 0. -/
  | disconnected
  /-- State 1. -/
  | connecting
  /-- State 2. -/
  | connected
deriving DecidableEq, Repr

/-- What is known about the connection to the server. -/
structure Link where
  /-- Whether there is one. -/
  state : LinkState
  /-- Number of lost connections since the last successful operation. -/
  ndrops : Nat
  /-- We have ever successfully connected. -/
  serveralive : Bool
  /-- A read of a packet is pending. -/
  reading : Bool
deriving DecidableEq

/-- A queued operation. -/
structure NetpacketOp (χ : Type) where
  /-- The cookie that is passed to the callbacks. -/
  cookie : χ
  /-- Whether the handler is set; it is not before the packet was sent, or during its call. -/
  handlepacket : Bool

/-- A netpacket connection. -/
structure NetpacketConnection (χ : Type) where
  /-- The connection to the server. -/
  link : Link
  /-- Queue of uncompleted operations. -/
  pending : List (NetpacketOp χ)

/-- Sanity-check the type and length of a packet before its contents are read. -/
def callbackGetbuf (type : UInt8) (buflen : Nat) : Bool :=
  -- The two responses of a registration, and a nonce or a commit, which have no HMAC.
  if type = 0x80 then buflen = 32 + 256
  else if type = 0x81 then buflen = 41
  else if type = 0x90 ∨ type = 0x92 then buflen = 32
  else lengthAdmitted type buflen

/-- Which of the functions that the layer calls succeed. -/
structure LayerFaults where
  /-- Memory for an operation. -/
  malloc : Bool
  /-- Starting to connect. -/
  connect : Bool
  /-- Closing the dead connection. -/
  close : Bool
  /-- Sending the packet of this number. -/
  writepacket : Nat → Bool
  /-- Starting to read a packet. -/
  readpacket : Bool
  /-- Flushing the activity on the socket. -/
  flush : Bool
  /-- Reading the clock. -/
  clock : Bool
  /-- Starting to wait. -/
  sleep : Bool

/-- How the read of a packet ends. -/
inductive Received where
  /-- A packet with its type. -/
  | packet (packettype : UInt8) (packetbuf : List UInt8)
  /-- The data is not a packet. -/
  | protocol
  /-- The connection is lost, or there is no memory. -/
  | lost

/-- What a handler is called with: its packet, or nothing if the protocol is violated. A packet
whose length is not right for its type does not get here. -/
abbrev Handled := Option (UInt8 × List UInt8)

section Operations

variable {χ σ : Type}

/-- A connection that was not used yet. -/
def netpacketOpen : NetpacketConnection χ := ⟨⟨.disconnected, 0, false, false⟩, []⟩

/-- Try to reconnect, unless the connection was lost too often. -/
def reconnect (forever : Bool) (N : NetpacketConnection χ) (f : LayerFaults) :
    Int × NetpacketConnection χ :=
  if f.flush = false then (-1, N)
  else
    let ndrops := N.link.ndrops + 1
    let ndrops := if forever ∧ MAXRECONNECTS < ndrops then MAXRECONNECTS else ndrops
    let N := { N with link := { N.link with state := .connecting, reading := false, ndrops } }
    if MAXRECONNECTS < ndrops ∨ (N.link.serveralive = false ∧ MAXRECONNECTS_AWOL < ndrops) then
      (-1, N)
    else if f.clock = false ∨ f.sleep = false then (-1, N)
    else (0, N)

/-- Send the packets of operations in their order. -/
def writepackets (writepacket : Nat → Bool) :
    Nat → List (NetpacketOp χ) → Int × List (NetpacketOp χ)
  | _, [] => (0, [])
  | n, op :: rest =>
    if writepacket n then
      let sent := writepackets writepacket (n + 1) rest
      (sent.1, { op with handlepacket := true } :: sent.2)
    else (-1, op :: rest)

/-- An attempt to connect has ended. If it succeeded, do the pending operations now. -/
def callbackConnect (forever : Bool) (N : NetpacketConnection χ) (ok : Bool) (f : LayerFaults) :
    Int × NetpacketConnection χ :=
  if ok then
    let sent := writepackets f.writepacket 0 N.pending
    (sent.1, ⟨{ N.link with state := .connected, serveralive := true }, sent.2⟩)
  else reconnect forever N f

/-- Queue an operation, and send its packet if there is a connection. -/
def netpacketOp (N : NetpacketConnection χ) (cookie : χ) (f : LayerFaults) :
    Int × NetpacketConnection χ :=
  if f.malloc = false then (-1, N)
  else
    let queued := N.pending ++ [⟨cookie, false⟩]
    match N.link.state with
    | .disconnected =>
      if f.connect then (0, ⟨{ N.link with state := .connecting }, queued⟩)
      else (-1, { N with pending := queued })
    | .connecting => (0, { N with pending := queued })
    | .connected =>
      if f.writepacket 0 then (0, { N with pending := N.pending ++ [⟨cookie, true⟩] })
      else (-1, { N with pending := queued })

/-- The wait before a reconnection has ended. -/
def callbackReconnect (N : NetpacketConnection χ) (f : LayerFaults) :
    Int × NetpacketConnection χ :=
  if f.close = false then (-1, N) else if f.connect = false then (-1, N) else (0, N)

/-- A packet was sent. Read a response unless that is being done. -/
def netpacketOpPacketsent (forever : Bool) (N : NetpacketConnection χ) (ok : Bool)
    (f : LayerFaults) : Int × NetpacketConnection χ :=
  if ok = false then reconnect forever N f
  else if N.link.reading = false then
    if f.readpacket then (0, { N with link := { N.link with reading := true } }) else (-1, N)
  else (0, N)

/-- A handler: the cookie, what was received and the state of the layer above. It returns its
status, whether it sent another packet, and the state. -/
abbrev Handler (χ σ : Type) := χ → Handled → σ → Int × Bool × σ

/-- Call the handler of the operation at the front. There is no result if there is no handler. -/
def handlePacket (handler : Handler χ σ) (N : NetpacketConnection χ) (handled : Handled) (s : σ)
    (f : LayerFaults) : Option (Int × NetpacketConnection χ × σ) :=
  match N.pending with
  | [] => none
  | head :: rest =>
    if head.handlepacket = false then none
    else
      let called := handler head.cookie handled s
      -- If no follow-up packet was sent, this operation is done.
      let pending := if called.2.1 then { head with handlepacket := true } :: rest else rest
      let link := if called.2.1 then N.link else { N.link with ndrops := 0 }
      if (pending.head?.map (·.handlepacket)).getD false then
        if f.readpacket then some (called.1, ⟨link, pending⟩, called.2.2)
        else some (-1, ⟨link, pending⟩, called.2.2)
      else some (called.1, ⟨{ link with reading := false }, pending⟩, called.2.2)

/-- The read of a packet has ended. -/
def callbackPacketreceived (forever : Bool) (handler : Handler χ σ) (N : NetpacketConnection χ)
    (received : Received) (s : σ) (f : LayerFaults) :
    Option (Int × NetpacketConnection χ × σ) :=
  match received with
  | .lost =>
    let tried := reconnect forever N f
    some (tried.1, tried.2, s)
  | .protocol => handlePacket handler N none s f
  | .packet packettype packetbuf =>
    if callbackGetbuf packettype packetbuf.length then
      handlePacket handler N (some (packettype, packetbuf)) s f
    else handlePacket handler N none s f

/-- Something that happens at a connection. -/
inductive NetpacketEvent where
  /-- An attempt to connect has ended. -/
  | connected (ok : Bool)
  /-- A packet was sent, or could not be sent. -/
  | packetsent (ok : Bool)
  /-- The read of a packet has ended. -/
  | packetreceived (received : Received)
  /-- The wait before a reconnection has ended. -/
  | reconnect

/-- The callback for an event. -/
def netpacketEvent (forever : Bool) (handler : Handler χ σ) (N : NetpacketConnection χ)
    (event : NetpacketEvent) (s : σ) (f : LayerFaults) :
    Option (Int × NetpacketConnection χ × σ) :=
  match event with
  | .connected ok =>
    let called := callbackConnect forever N ok f
    some (called.1, called.2, s)
  | .packetsent ok =>
    let called := netpacketOpPacketsent forever N ok f
    some (called.1, called.2, s)
  | .packetreceived received => callbackPacketreceived forever handler N received s f
  | .reconnect =>
    let called := callbackReconnect N f
    some (called.1, called.2, s)

end Operations

end Tarsnap.Netpacket
