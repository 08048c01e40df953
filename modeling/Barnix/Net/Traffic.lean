import Barnix.Net.Protocols
/-!
# What is sent

Every frame that leaves is one of four, made of the two addresses at hand. A call keeps
the addresses, unless it accepts a lease, and so every frame sent until the next lease is
made of the same two. The checksums in these frames are those of RFC 1071 with their two
bytes swapped, which a receiver takes only by chance.
-/

namespace Barnix.Net

/-! ## Frames -/

/-- A frame as the functions build it, with the local address and the gateway's. -/
inductive Built (localIp gatewayIp : UInt32) : Sent → Prop where
  | sendArp (dst mac : Mac) : Built localIp gatewayIp ⟨.sendArp,
      Eth.bytes { dst := dst, src := mac, type := swap16 0x0806 } ++
        Arp.bytes { htype := swap16 1, ptype := swap16 0x0800, hlen := 6, plen := 4, oper := swap16 1, sha := mac, spa := localIp,
                    tha := List.replicate 6 0, tpa := gatewayIp }⟩
  | netIpPing (dst mac : Mac) : Built localIp gatewayIp ⟨.netIpPing,
      Eth.bytes { dst := dst, src := mac, type := swap16 0x0800 } ++ (pingHeader localIp gatewayIp).bytes ++ pingMessage.bytes⟩
  | netIpDhcp (dst mac : Mac) (rest : List UInt8) : Built localIp gatewayIp ⟨.netIpDhcp,
      Eth.bytes { dst := dst, src := mac, type := swap16 0x0800 } ++ dhcpHeader.bytes ++ rest⟩
  | netDnsResolve (dst mac : Mac) (plen : Nat) (rest : List UInt8) : Built localIp gatewayIp ⟨.netDnsResolve,
      Eth.bytes { dst := dst, src := mac, type := swap16 0x0800 } ++ (dnsHeader localIp plen).bytes ++ rest⟩

/-- What was sent between two states was built with the addresses of the first. -/
def Sends (s s' : Net) : Prop := ∃ frames, s'.sent = s.sent ++ frames ∧ ∀ m ∈ frames, Built s.localIp s.gatewayIp m

/-- Between two states nothing was leased. -/
structure Keeps (s s' : Net) : Prop where
  localIp : s'.localIp = s.localIp
  gatewayIp : s'.gatewayIp = s.gatewayIp
  sends : Sends s s'

namespace Keeps

theorem refl (s : Net) : Keeps s s := ⟨rfl, rfl, [], (List.append_nil _).symm, by simp⟩

theorem trans {s t u : Net} (h : Keeps s t) (h' : Keeps t u) : Keeps s u := by
  obtain ⟨frames, hframes, hbuilt⟩ := h.sends
  obtain ⟨frames', hframes', hbuilt'⟩ := h'.sends
  refine ⟨h'.localIp.trans h.localIp, h'.gatewayIp.trans h.gatewayIp, frames ++ frames', ?_, ?_⟩
  · rw [hframes', hframes, List.append_assoc]
  · intro m hm
    rcases List.mem_append.1 hm with hm | hm
    · exact hbuilt m hm
    · have := hbuilt' m hm
      rwa [h.localIp, h.gatewayIp] at this

/-- Variables other than the addresses and the frames do not matter. -/
theorem of_eq {s s' : Net} (hlocal : s'.localIp = s.localIp) (hgateway : s'.gatewayIp = s.gatewayIp) (hsent : s'.sent = s.sent) :
    Keeps s s' := ⟨hlocal, hgateway, [], hsent.trans (List.append_nil _).symm, by simp⟩

theorem tick (s : Net) : Keeps s s.tick := .of_eq rfl rfl rfl

theorem netPacketSend (card : Adapter) {sender : Sender} {bytes : List UInt8} {s : Net} (h : Built s.localIp s.gatewayIp ⟨sender, bytes⟩) :
    Keeps s (netPacketSend card sender bytes s).1 := by
  unfold Net.netPacketSend
  split
  · exact ⟨rfl, rfl, [⟨sender, bytes⟩], rfl, fun m hm => List.mem_singleton.1 hm ▸ h⟩
  · exact tick s

end Keeps

theorem keeps_awaitArp (card : Adapter) (wait : Nat) : ∀ s : Net, Keeps s (awaitArp card wait s).1 := by
  induction wait with
  | zero => exact Keeps.refl
  | succ wait ih =>
    intro s
    rw [awaitArp]
    split
    · exact .of_eq rfl rfl rfl
    · exact (Keeps.tick s).trans (ih s.tick)

theorem keeps_sendArp (card : Adapter) (s : Net) : Keeps s (sendArp card s) :=
  .netPacketSend card (.sendArp ⟨broadcast, rfl⟩ s.localMac)

theorem keeps_resolveGateway (card : Adapter) (s : Net) : Keeps s (resolveGateway card s).1 := by
  unfold resolveGateway
  split
  · exact .refl s
  cases card.mac s.clock with
  | none => exact .tick s
  | some mac =>
    have hmac : Keeps s { s.tick with localMac := mac } := .of_eq rfl rfl rfl
    exact (hmac.trans (keeps_sendArp card _)).trans (keeps_awaitArp card _ _)

theorem keeps_awaitEcho (card : Adapter) (left : Nat) : ∀ (wait : Nat) (s : Net), Keeps s (awaitEcho card left wait s).1 := by
  induction left with
  | zero => exact fun _ => Keeps.refl
  | succ left ih =>
    intro wait s
    rw [awaitEcho]
    split
    · exact .tick s
    · exact (Keeps.tick s).trans (ih _ s.tick)

theorem keeps_netIpPing (card : Adapter) (s : Net) : Keeps s (netIpPing card s).1 := by
  have hresolve := keeps_resolveGateway card s
  unfold netIpPing
  dsimp only
  generalize resolveGateway card s = resolved at hresolve
  have hsend : Keeps resolved.1 (netPacketSend card .netIpPing (echoRequest resolved.1) resolved.1).1 :=
    .netPacketSend card (.netIpPing resolved.1.gatewayMac resolved.1.localMac)
  split
  · split
    · exact (hresolve.trans hsend).trans (keeps_awaitEcho card _ _ _)
    · exact hresolve.trans hsend
  · exact hresolve

theorem length_eth (e : Eth) (hdst : e.dst.length = 6) (hsrc : e.src.length = 6) : e.bytes.length = 14 := by
  simp [Eth.bytes, bytes16, hdst, hsrc]

theorem length_ipv4 (h : Ipv4) : h.bytes.length = 20 := by simp [Ipv4.bytes, bytes16, bytes32]

/-- The first bytes of an array that begins with two headers and more. -/
theorem take_headers {e : Eth} {h : Ipv4} (hdst : e.dst.length = 6) (hsrc : e.src.length = 6) (more rest : List UInt8) {n : Nat} (hn : 34 ≤ n) :
    ∃ rest', (e.bytes ++ h.bytes ++ more ++ rest).take n = e.bytes ++ h.bytes ++ rest' := by
  refine ⟨(more ++ rest).take (n - (e.bytes ++ h.bytes).length), ?_⟩
  rw [List.append_assoc, List.take_append, List.take_of_length_le]
  rw [List.length_append, length_eth e hdst hsrc, length_ipv4]
  omega

theorem keeps_awaitAnswer (card : Adapter) (wait : Nat) : ∀ {old : Cells} {s s' : Net} {found : Option UInt32},
    awaitAnswer card wait old s = .ok (s', found) → Keeps s s' := by
  induction wait with
  | zero =>
    intro old s s' found h
    obtain rfl := (Prod.mk.inj (Except.ok.inj h)).1
    exact .refl s
  | succ wait ih =>
    intro old s s' found h
    rw [awaitAnswer] at h
    obtain ⟨reply, -, h⟩ := bind_eq_ok h
    cases reply with
    | none => exact (Keeps.tick s).trans (ih h)
    | some address =>
      obtain rfl := (Prod.mk.inj (Except.ok.inj h)).1
      exact .tick s

theorem keeps_netDnsResolve {card : Adapter} {name : List UInt8} {stack : Cells} {s s' : Net} {found : Option UInt32}
    (h : netDnsResolve card name stack s = .ok (s', found)) : Keeps s s' := by
  have hresolve := keeps_resolveGateway card s
  unfold netDnsResolve at h
  dsimp only at h
  generalize resolveGateway card s = resolved at hresolve h
  split at h
  · obtain ⟨⟨frame, length⟩, hquestion, h⟩ := bind_eq_ok h
    obtain ⟨⟨front, plen⟩, -, hquestion⟩ := bind_eq_ok hquestion
    obtain ⟨frame', hpoke, hquestion⟩ := bind_eq_ok hquestion
    obtain ⟨rfl, rfl⟩ := Prod.mk.inj (Except.ok.inj hquestion)
    obtain ⟨-, rest, rfl⟩ := Cells.pokes_start hpoke
    obtain ⟨rest', hbytes⟩ := take_headers (e := { dst := resolved.1.gatewayMac, src := resolved.1.localMac, type := swap16 0x0800 })
      (h := dnsHeader resolved.1.localIp plen) resolved.1.gatewayMac.2 resolved.1.localMac.2 (dnsUdp plen).bytes rest
      (n := payload + plen) (by have : payload = 42 := rfl; omega)
    have hsend := Keeps.netPacketSend card (s := resolved.1) (.netDnsResolve resolved.1.gatewayMac resolved.1.localMac plen rest')
    rw [← hbytes] at hsend
    dsimp only at h
    split at h
    · exact (hresolve.trans hsend).trans (keeps_awaitAnswer card _ h)
    · obtain rfl := (Prod.mk.inj (Except.ok.inj h)).1
      exact hresolve.trans hsend
  · obtain rfl := (Prod.mk.inj (Except.ok.inj h)).1
    exact hresolve

/-! ## Leases -/

theorem discover_start {mac : Mac} {stack frame : Cells} (h : discover mac stack = .ok frame) : ∃ front : Cells,
    front.pokes 0 (Eth.bytes { dst := broadcast, src := mac, type := swap16 0x0800 } ++ dhcpHeader.bytes ++ dhcpUdp.bytes) = .ok frame := by
  obtain ⟨a, -, h⟩ := bind_eq_ok h
  obtain ⟨b, -, h⟩ := bind_eq_ok h
  obtain ⟨c, -, h⟩ := bind_eq_ok h
  obtain ⟨front, -, h⟩ := bind_eq_ok h
  exact ⟨front, h⟩

/-- A reply was accepted: the addresses are those read of it, and the gateway's card is unknown again. -/
def Leases (s s' : Net) (reply : Cells) : Prop :=
  ∃ t old localIp gatewayIp, Keeps s t ∧ dhcpReply reply.length t.gatewayIp (received old reply) = .ok (some (localIp, gatewayIp)) ∧
    s' = { t.tick with localIp := localIp, gatewayIp := gatewayIp, haveArp := false }

/-- How a wait for a lease ends. -/
def Waited (s s' : Net) : Option Cells → Prop
  | none => Keeps s s'
  | some reply => Leases s s' reply

theorem Waited.after {s t u : Net} (h : Keeps s t) : ∀ {reply : Option Cells}, Waited t u reply → Waited s u reply
  | none, h' => h.trans h'
  | some _, ⟨t', old, localIp, gatewayIp, hkeeps, hread, hu⟩ => ⟨t', old, localIp, gatewayIp, h.trans hkeeps, hread, hu⟩

theorem awaitLease_ends (card : Adapter) (wait : Nat) : ∀ {old : Cells} {s s' : Net} {reply : Option Cells},
    awaitLease card wait old s = .ok (s', reply) → Waited s s' reply := by
  induction wait with
  | zero =>
    intro old s s' reply h
    obtain ⟨rfl, rfl⟩ := Prod.mk.inj (Except.ok.inj h)
    exact Keeps.refl s
  | succ wait ih =>
    intro old s s' reply h
    rw [awaitLease] at h
    obtain ⟨lease, hlease, h⟩ := bind_eq_ok h
    cases lease with
    | none => exact (ih h).after (.tick s)
    | some lease =>
      obtain ⟨rfl, rfl⟩ := Prod.mk.inj (Except.ok.inj h)
      exact ⟨s, old, lease.1, lease.2, Keeps.refl s, hlease, rfl⟩

theorem netIpDhcp_ends {card : Adapter} {stack : Cells} {s s' : Net} {reply : Option Cells}
    (h : netIpDhcp card stack s = .ok (s', reply)) : Waited s s' reply := by
  unfold netIpDhcp at h
  cases hmac : card.mac s.clock with
  | none =>
    rw [hmac] at h
    obtain ⟨rfl, rfl⟩ := Prod.mk.inj (Except.ok.inj h)
    exact Keeps.tick s
  | some mac =>
    rw [hmac] at h
    obtain ⟨frame, hframe, h⟩ := bind_eq_ok h
    obtain ⟨front, hfront⟩ := discover_start hframe
    obtain ⟨-, rest, rfl⟩ := Cells.pokes_start hfront
    obtain ⟨rest', hbytes⟩ := take_headers (e := { dst := broadcast, src := mac, type := swap16 0x0800 }) (h := dhcpHeader) rfl mac.2
      dhcpUdp.bytes rest (n := 286) (by decide)
    have hmac : Keeps s { s.tick with localMac := mac } := .of_eq rfl rfl rfl
    have hsend := hmac.trans (Keeps.netPacketSend card (.netIpDhcp ⟨broadcast, rfl⟩ mac rest'))
    rw [← hbytes] at hsend
    dsimp only at h
    split at h
    · exact (awaitLease_ends card _ h).after hsend
    · obtain ⟨rfl, rfl⟩ := Prod.mk.inj (Except.ok.inj h)
      exact hsend

/-! ## Checksums -/

theorem wordSum_pair (a b : UInt8) (p : List UInt8) : wordSum ([a, b] ++ p) = 256 * a.toNat + b.toNat + wordSum p := wordSum_cons a b p

theorem wordSum_swap16 (x : UInt16) (p : List UInt8) : wordSum (bytes16 (swap16 x) ++ p) = x.toNat + wordSum p := by
  have hlow : x.toUInt8.toNat = x.toNat % 256 := (toNat_bytes16 x).1
  have hhigh : ((x >>> 8).toUInt8).toNat = x.toNat / 256 := (toNat_bytes16 x).2
  rw [bytes16_swap16, wordSum_pair, hlow, hhigh]
  omega

/-- The bytes of a header in front of its checksum and behind it. -/
def Ipv4.front (h : Ipv4) : List UInt8 :=
  [h.vhl, h.tos] ++ (bytes16 h.len ++ (bytes16 h.id ++ (bytes16 h.frag ++ [h.ttl, h.proto])))
def Ipv4.back (h : Ipv4) : List UInt8 := bytes32 h.src ++ bytes32 h.dst

theorem Ipv4.bytes_eq (h : Ipv4) : h.bytes = h.front ++ bytes16 h.sum ++ h.back := by
  simp only [Ipv4.bytes, Ipv4.front, Ipv4.back, List.append_assoc]

theorem accepted_summed {h : Ipv4} (hzero : h.sum = 0) (hpos : 0 < wordSum h.bytes) : Accepted h.summed.bytes ↔ 257 ∣ wordSum h.bytes := by
  have hcleared : { h with sum := 0 } = h := by rw [← hzero]
  have hbytes : h.bytes = h.front ++ [0, 0] ++ h.back := by
    rw [h.bytes_eq, hzero]
    rfl
  have hsummed : h.summed.bytes = h.front ++ bytes16 (checksum h.bytes) ++ h.back := by
    rw [Ipv4.summed, hcleared, Ipv4.bytes_eq]
    rfl
  rw [hbytes] at hpos
  rw [hsummed, hbytes]
  exact accepted_stored (by simp [Ipv4.front, bytes16]) (by simp [Ipv4.front, Ipv4.back, bytes16, bytes32]) hpos

/-- The words of a header that `net_ip.c` builds: 4500, its length, 40 with the protocol, and the addresses. -/
theorem wordSum_header (len : UInt16) (proto : UInt8) (src dst : UInt32) :
    wordSum (Ipv4.bytes { vhl := 0x45, tos := 0, len := swap16 len, id := 0, frag := 0, ttl := 64, proto := proto, sum := 0, src := src,
                          dst := dst }) =
      17664 + len.toNat + (16384 + proto.toNat) + wordSum (bytes32 src) + wordSum (bytes32 dst) := by
  have hzero (p : List UInt8) : wordSum (bytes16 0 ++ p) = wordSum p := by
    rw [bytes16, List.cons_append, List.cons_append, wordSum_cons]
    exact Nat.zero_add _
  have hsrc : wordSum (bytes32 src ++ bytes32 dst) = wordSum (bytes32 src) + wordSum (bytes32 dst) := wordSum_append (by simp [bytes32]) _
  simp only [Ipv4.bytes, List.append_assoc, wordSum_pair, wordSum_swap16, hzero, hsrc]
  change 256 * 69 + 0 + (len.toNat + (256 * 64 + proto.toNat + _)) = _
  omega

theorem accepted_pingHeader (src dst : UInt32) :
    Accepted (pingHeader src dst).bytes ↔ 257 ∣ 34077 + wordSum (bytes32 src) + wordSum (bytes32 dst) := by
  have hsum := wordSum_header 28 1 src dst
  change _ = 34077 + _ + _ at hsum
  rw [pingHeader, accepted_summed rfl (by rw [hsum]; omega), hsum]

theorem accepted_dnsHeader (src : UInt32) (plen : Nat) :
    Accepted (dnsHeader src plen).bytes ↔ 257 ∣ 37140 + (28 + plen) % 65536 + wordSum (bytes32 src) := by
  have hsum := wordSum_header (UInt16.ofNat (28 + plen)) 17 src 0x0302000A
  have hlen : (UInt16.ofNat (28 + plen)).toNat = (28 + plen) % 65536 := rfl
  have hdst : wordSum (bytes32 0x0302000A) = 3075 := rfl
  have hproto : (17 : UInt8).toNat = 17 := rfl
  rw [hlen, hdst, hproto] at hsum
  rw [dnsHeader, accepted_summed rfl (by rw [hsum]; omega), hsum]
  omega

theorem not_accepted_dhcpHeader : ¬ Accepted dhcpHeader.bytes := by
  have hsum := wordSum_header 272 17 0 0xffffffff
  rw [dhcpHeader, accepted_summed rfl (by rw [hsum]; omega), hsum]
  decide

theorem not_accepted_pingMessage : ¬ Accepted pingMessage.bytes := by
  have h := @accepted_stored [8, 0] (bytes16 (swap16 0xBADD) ++ bytes16 (swap16 1)) rfl (by decide) (by decide)
  exact fun haccepted => absurd (h.1 haccepted) (by decide)

/-! ## Calls -/

/-- A call of one of the three functions. -/
inductive Step (card : Adapter) (s : Net) : Net → Prop where
  | netIpPing : Step card s (netIpPing card s).1
  | netIpDhcp {stack : Cells} {s' : Net} {reply : Option Cells} : netIpDhcp card stack s = .ok (s', reply) → Step card s s'
  | netDnsResolve {name : List UInt8} {stack : Cells} {s' : Net} {found : Option UInt32} :
      netDnsResolve card name stack s = .ok (s', found) → Step card s s'

theorem sends_step {card : Adapter} {s s' : Net} (h : Step card s s') : Sends s s' := by
  cases h with
  | netIpPing => exact (keeps_netIpPing card s).sends
  | @netIpDhcp stack _ reply h =>
    have hends := netIpDhcp_ends h
    cases reply with
    | none => exact hends.sends
    | some reply =>
      obtain ⟨t, old, localIp, gatewayIp, hkeeps, -, rfl⟩ := hends
      exact hkeeps.sends
  | netDnsResolve h => exact (keeps_netDnsResolve h).sends

theorem Sends.built {s s' : Net} (h : Sends s s') : ∀ m ∈ s'.sent.drop s.sent.length, Built s.localIp s.gatewayIp m := by
  obtain ⟨frames, hframes, hbuilt⟩ := h
  rwa [hframes, List.drop_left]

/-- The receiver takes the headers of the three functions and the ICMP message, built of these addresses
and for this name. -/
def Verified (localIp gatewayIp : UInt32) (name : List UInt8) : Prop :=
  Accepted (pingHeader localIp gatewayIp).bytes ∧ Accepted pingMessage.bytes ∧ Accepted dhcpHeader.bytes ∧
    Accepted (dnsHeader localIp (name.length + 18)).bytes

/-- What is sent is never verified as a whole: the ICMP message and the header of the question for an
address are always refused, the other headers are taken where their words add up to a multiple of 257. -/
theorem never_verified (localIp gatewayIp : UInt32) (name : List UInt8) :
    ¬ Verified localIp gatewayIp name ∧ (¬ Accepted pingMessage.bytes ∧ ¬ Accepted dhcpHeader.bytes) ∧
    (Accepted (pingHeader localIp gatewayIp).bytes ↔ 257 ∣ 34077 + wordSum (bytes32 localIp) + wordSum (bytes32 gatewayIp)) ∧
    (∀ plen : Nat, Accepted (dnsHeader localIp plen).bytes ↔ 257 ∣ 37140 + (28 + plen) % 65536 + wordSum (bytes32 localIp)) ∧
    ∀ (card : Adapter) (s s' : Net), s.localIp = localIp → s.gatewayIp = gatewayIp → Step card s s' →
      ∀ m ∈ s'.sent.drop s.sent.length, Built localIp gatewayIp m := by
  refine ⟨?_, ⟨not_accepted_pingMessage, not_accepted_dhcpHeader⟩, accepted_pingHeader _ _, accepted_dnsHeader _, ?_⟩
  · rintro ⟨-, hmessage, -, -⟩
    exact not_accepted_pingMessage hmessage
  · rintro card s s' rfl rfl h
    exact (sends_step h).built

def someMac : Mac := ⟨[2, 0, 0, 0, 0, 1], rfl⟩

/-- An adapter that never receives anything. -/
def idle : Adapter where
  mac _ := some someMac
  takes _ := true
  frame _ := []

theorem never_verified_idle : ∀ m ∈ (netIpPing idle .start).1.sent.drop 0, Built 0x0F02000A 0x0202000A m :=
  (never_verified 0x0F02000A 0x0202000A []).2.2.2.2 idle .start (netIpPing idle .start).1 rfl rfl .netIpPing

/-- The header of a ping with the addresses at the start. -/
theorem ping_refused_at_start : ¬ Accepted (pingHeader Net.start.localIp Net.start.gatewayIp).bytes := by
  intro h
  exact absurd ((accepted_pingHeader _ _).1 h) (by decide)

end Barnix.Net
