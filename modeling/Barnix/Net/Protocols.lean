import Barnix.Net.Replies
/-!
# ARP, ping, DHCP and DNS

The functions of `net_ip.c` on the addresses they share. The adapter is what the driver
answers at each point in time: the card's address, whether a frame is taken, and the
frame that has come in. What a local array holds before its function fills it is given
with the call.
-/

namespace Barnix.Net

/-- The address of a card. -/
abbrev Mac := { bytes : List UInt8 // bytes.length = 6 }

structure Adapter where
  /-- `net_mac` -/
  mac : Nat → Option Mac
  /-- Whether `net_packet_send` takes a frame. -/
  takes : Nat → Bool
  /-- The next frame that has come in; nothing is a frame without bytes. -/
  frame : Nat → Cells

/-- Which function built a frame. -/
inductive Sender where
  | sendArp
  | netIpPing
  | netIpDhcp
  | netDnsResolve
deriving DecidableEq

structure Sent where
  sender : Sender
  bytes : List UInt8

/-- The static variables, with the frames sent so far and the calls made of the driver. -/
structure Net where
  localIp : UInt32
  gatewayIp : UInt32
  localMac : Mac
  gatewayMac : Mac
  haveArp : Bool
  sent : List Sent
  clock : Nat

def Net.start : Net where
  localIp := 0x0F02000A
  gatewayIp := 0x0202000A
  localMac := ⟨List.replicate 6 0, rfl⟩
  gatewayMac := ⟨List.replicate 6 0, rfl⟩
  haveArp := false
  sent := []
  clock := 0

def Net.tick (s : Net) : Net := { s with clock := s.clock + 1 }

/-- `net_packet_send` -/
def netPacketSend (card : Adapter) (sender : Sender) (bytes : List UInt8) (s : Net) : Net × Bool :=
  if card.takes s.clock then ({ s.tick with sent := s.sent ++ [⟨sender, bytes⟩] }, true) else (s.tick, false)

/-- What `net_packet_receive` copies into an array of `capacity` bytes. -/
def netPacketReceive (card : Adapter) (capacity : Nat) (s : Net) : Cells := (card.frame s.clock).take capacity

/-- A byte and the fields of more bytes in a frame that is long enough. -/
def byteAt (f : Cells) (i : Nat) : UInt8 := f.getD i 0
def field16 (f : Cells) (i : Nat) : UInt16 := (byteAt f i).toUInt16 ||| (byteAt f (i + 1)).toUInt16 <<< 8
def field32 (f : Cells) (i : Nat) : UInt32 := address (byteAt f (i + 3)) (byteAt f (i + 2)) (byteAt f (i + 1)) (byteAt f i)

/-! ## ARP -/

def broadcast : List UInt8 := List.replicate 6 0xff

def arpRequest (s : Net) : List UInt8 :=
  Eth.bytes { dst := broadcast, src := s.localMac, type := swap16 0x0806 } ++
    Arp.bytes { htype := swap16 1, ptype := swap16 0x0800, hlen := 6, plen := 4, oper := swap16 1, sha := s.localMac, spa := s.localIp,
                tha := List.replicate 6 0, tpa := s.gatewayIp }

def sendArp (card : Adapter) (s : Net) : Net := (netPacketSend card .sendArp (arpRequest s) s).1

/-- `swap16(e->type) == 0x0806 && swap16(a->oper) == 2` -/
def isArpReply (f : Cells) : Bool := swap16 (field16 f 12) = 0x0806 ∧ swap16 (field16 f 20) = 2

/-- The reply that ends the wait of `resolve_gateway`. -/
def isGatewayReply (s : Net) (f : Cells) : Bool := isArpReply f && field32 f 28 == s.gatewayIp

/-- The bytes of a field as an address of a card. -/
def macAt (f : Cells) (i : Nat) : Mac := ⟨[byteAt f i, byteAt f (i + 1), byteAt f (i + 2), byteAt f (i + 3), byteAt f (i + 4), byteAt f (i + 5)], rfl⟩

def awaitArp (card : Adapter) : Nat → Net → Net × Bool
  | 0, s => (s, false)
  | wait + 1, s =>
    let f := netPacketReceive card 1600 s
    if 42 ≤ f.length ∧ isGatewayReply s f then ({ s.tick with gatewayMac := macAt f 22, haveArp := true }, true)
    else awaitArp card wait s.tick

def resolveGateway (card : Adapter) (s : Net) : Net × Bool :=
  if s.haveArp then (s, true)
  else
    match card.mac s.clock with
    | none => (s.tick, false)
    | some mac => awaitArp card 300000 (sendArp card { s.tick with localMac := mac })

/-! ## Ping -/

/-- A header with its checksum stored as `checksum` computes it. -/
def Ipv4.summed (h : Ipv4) : Ipv4 := { h with sum := checksum { h with sum := 0 }.bytes }
def Icmp.summed (m : Icmp) : Icmp := { m with sum := checksum { m with sum := 0 }.bytes }

def pingHeader (src dst : UInt32) : Ipv4 :=
  Ipv4.summed { vhl := 0x45, tos := 0, len := swap16 28, id := 0, frag := 0, ttl := 64, proto := 1, sum := 0, src := src, dst := dst }

def pingMessage : Icmp := Icmp.summed { type := 8, code := 0, sum := 0, id := swap16 0xBADD, seq := swap16 1 }

def echoRequest (s : Net) : List UInt8 :=
  Eth.bytes { dst := s.gatewayMac, src := s.localMac, type := swap16 0x0800 } ++ (pingHeader s.localIp s.gatewayIp).bytes ++
    pingMessage.bytes

def isEchoReply (f : Cells) : Bool :=
  swap16 (field16 f 12) = 0x0800 ∧ byteAt f 23 = 1 ∧ byteAt f 34 = 0 ∧ field16 f 38 = swap16 0xBADD

/-- The milliseconds, of which a thousand rounds make one. -/
def awaitEcho (card : Adapter) : Nat → Nat → Net → Net × Option Nat
  | 0, _, s => (s, none)
  | left + 1, wait, s =>
    let f := netPacketReceive card 128 s
    if 42 ≤ f.length ∧ isEchoReply f then (s.tick, some (wait / 1000 + 1)) else awaitEcho card left (wait + 1) s.tick

def netIpPing (card : Adapter) (s : Net) : Net × Option Nat :=
  let resolved := resolveGateway card s
  if resolved.2 then
    let posted := netPacketSend card .netIpPing (echoRequest resolved.1) resolved.1
    if posted.2 then awaitEcho card 500000 0 posted.1 else (posted.1, none)
  else (resolved.1, none)

/-! ## DHCP -/

/-- `static u32 xid` -/
def xid : UInt32 := 0xBAA11001

def put32 (v : UInt32) : List UInt8 := [(v >>> 24).toUInt8, (v >>> 16).toUInt8, (v >>> 8).toUInt8, v.toUInt8]

def dhcpHeader : Ipv4 :=
  Ipv4.summed { vhl := 0x45, tos := 0, len := swap16 272, id := 0, frag := 0, ttl := 64, proto := 17, sum := 0, src := 0, dst := 0xffffffff }

def dhcpUdp : Udp := { src := swap16 68, dst := swap16 67, len := swap16 252, sum := 0 }

/-- The array with the question for an address, of which the first 286 bytes are sent. -/
def discover (mac : Mac) (stack : Cells) : Checked Cells := do
  let frame ← stack.pokes payload ([1, 1, 6, 0] ++ put32 xid)
  let frame ← frame.pokes (payload + 10) [0x80]
  let frame ← frame.pokes (payload + 28) mac
  let frame ← frame.pokes (payload + 236) [99, 130, 83, 99, 53, 1, 1, 255]
  frame.pokes 0 (Eth.bytes { dst := broadcast, src := mac, type := swap16 0x0800 } ++ dhcpHeader.bytes ++ dhcpUdp.bytes)

/-- With the reply that was accepted; the array holds what came before it. -/
def awaitLease (card : Adapter) : Nat → Cells → Net → Checked (Net × Option Cells)
  | 0, _, s => .ok (s, none)
  | wait + 1, old, s => do
    let f := netPacketReceive card 400 s
    match ← dhcpReply f.length s.gatewayIp (received old f) with
    | some (localIp, gatewayIp) => .ok ({ s.tick with localIp := localIp, gatewayIp := gatewayIp, haveArp := false }, some f)
    | none => awaitLease card wait (received old f) s.tick

def netIpDhcp (card : Adapter) (stack : Cells) (s : Net) : Checked (Net × Option Cells) :=
  match card.mac s.clock with
  | none => .ok (s.tick, none)
  | some mac => do
    let frame ← discover mac stack
    let posted := netPacketSend card .netIpDhcp (frame.take 286) { s.tick with localMac := mac }
    if posted.2 then awaitLease card 800000 frame posted.1 else .ok (posted.1, none)

/-! ## DNS -/

def dnsHeader (src : UInt32) (plen : Nat) : Ipv4 :=
  Ipv4.summed { vhl := 0x45, tos := 0, len := swap16 (UInt16.ofNat (28 + plen)), id := 0, frag := 0, ttl := 64, proto := 17, sum := 0,
                src := src, dst := 0x0302000A }

def dnsUdp (plen : Nat) : Udp := { src := swap16 49152, dst := swap16 53, len := swap16 (UInt16.ofNat (8 + plen)), sum := 0 }

def awaitAnswer (card : Adapter) : Nat → Cells → Net → Checked (Net × Option UInt32)
  | 0, _, s => .ok (s, none)
  | wait + 1, old, s => do
    let f := netPacketReceive card 512 s
    match ← dnsReply f.length (received old f) with
    | some address => .ok (s.tick, some address)
    | none => awaitAnswer card wait (received old f) s.tick

/-- The array with the question for a name, and how many of its bytes are sent. -/
def question (s : Net) (name : List UInt8) (stack : Cells) : Checked (Cells × Nat) := do
  let (frame, plen) ← dnsQuestion name stack
  let frame ← frame.pokes 0 (Eth.bytes { dst := s.gatewayMac, src := s.localMac, type := swap16 0x0800 } ++
    (dnsHeader s.localIp plen).bytes ++ (dnsUdp plen).bytes)
  .ok (frame, payload + plen)

def netDnsResolve (card : Adapter) (name : List UInt8) (stack : Cells) (s : Net) : Checked (Net × Option UInt32) :=
  let resolved := resolveGateway card s
  if resolved.2 then do
    let (frame, length) ← question resolved.1 name stack
    let posted := netPacketSend card .netDnsResolve (frame.take length) resolved.1
    if posted.2 then awaitAnswer card 700000 frame posted.1 else .ok (posted.1, none)
  else .ok (resolved.1, none)

end Barnix.Net
