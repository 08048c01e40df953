import Barnix.Net.Traffic
/-!
# Leased addresses

A DHCP reply is read into two numbers with the first byte the highest, while every frame
stores these numbers, and compares them, with the lowest byte first. So a leased address
goes out and is looked for backwards.
-/

namespace Barnix.Net

/-! ## What a reply offers -/

/-- An address in the payload. -/
def AddressAt (p : List UInt8) (i : Nat) (a b c d : UInt8) : Prop :=
  p[i]? = some a ∧ p[i + 1]? = some b ∧ p[i + 2]? = some c ∧ p[i + 3]? = some d

/-- A router option that ends inside the length of the frame. -/
def RouterOption (p : List UInt8) (i : Nat) : Prop :=
  OptionAt p i ∧ p[i]? = some 3 ∧ ∃ len : UInt8, p[i + 1]? = some len ∧ 4 ≤ len ∧ i + 2 + len.toNat ≤ p.length + payload

/-- A reply offers an address and, through its last router option, a router. -/
def Offers (reply : Cells) (a b c d e f g h : UInt8) : Prop :=
  AddressAt (reply.drop payload) 16 a b c d ∧ ∃ i, RouterOption (reply.drop payload) i ∧
    AddressAt (reply.drop payload) (i + 2) e f g h ∧ ∀ j, RouterOption (reply.drop payload) j → j ≤ i

theorem readAddress_of_at {f : Cells} {i : Nat} {a b c d : UInt8} (h : AddressAt (f.drop payload) i a b c d) :
    readAddress f i = .ok (address a b c d) := by
  obtain ⟨ha, hb, hc, hd⟩ := h
  rw [readAddress, payloadByte_eq_ok.2 ha, ok_bind, payloadByte_eq_ok.2 hb, ok_bind, payloadByte_eq_ok.2 hc, ok_bind,
    payloadByte_eq_ok.2 hd, ok_bind]

/-- Where no router option follows, the gateway stays. -/
theorem optionsLoop_rest {f : Cells} (hn : 300 ≤ f.length) (old : Cells) (rounds : Nat) :
    ∀ {i : Nat}, OptionAt (f.drop payload) i → f.length < i + rounds → (∀ j, RouterOption (f.drop payload) j → j < i) →
      ∀ gateway, optionsLoop f.length rounds i gateway (f ++ old) = .ok gateway := by
  have hp : (f.drop payload).length = f.length - payload := List.length_drop
  have hpay : payload = 42 := rfl
  induction rounds with
  | zero =>
    intro i hi hr
    have := hi.le hn
    omega
  | succ rounds ih =>
    intro i hi hr hlast gateway
    by_cases hin : i + 1 < f.length - payload
    · obtain ⟨tag, htag⟩ := payloadByte_inside (f := f) (i := i) (by omega)
      obtain ⟨len, hlen⟩ := payloadByte_inside (f := f) (i := i + 1) (by omega)
      have htag' : payloadByte (f ++ old) i = .ok tag := stable_payloadByte i f old _ htag
      have hlen' : payloadByte (f ++ old) (i + 1) = .ok len := stable_payloadByte (i + 1) f old _ hlen
      rw [optionsLoop, if_pos hin, htag', ok_bind, hlen', ok_bind]
      by_cases hend : tag = 255
      · rw [if_pos hend]
      by_cases hover : i + 2 + len.toNat > f.length
      · rw [if_neg hend, if_pos hover]
      rw [if_neg hend, if_neg hover]
      have hrouter : ¬ (tag = 3 ∧ 4 ≤ len) := by
        rintro ⟨rfl, hfour⟩
        have := hlast i ⟨hi, payloadByte_eq_ok.1 htag, len, payloadByte_eq_ok.1 hlen, hfour, by omega⟩
        omega
      rw [if_neg hrouter]
      refine ih (.next hi (payloadByte_eq_ok.1 htag) (payloadByte_eq_ok.1 hlen) hend (by omega)) (by omega) ?_ gateway
      intro j hj
      have := hlast j hj
      omega
    · rw [optionsLoop, if_neg hin]

/-- An accepted reply is read as it offers, whatever lies behind it. -/
theorem dhcpReply_offers {reply old : Cells} {a b c d e f g h : UInt8} (hoffers : Offers reply a b c d e f g h) {gateway : UInt32}
    {lease : UInt32 × UInt32} (hread : dhcpReply reply.length gateway (reply ++ old) = .ok (some lease)) :
    lease = (address a b c d, address e f g h) := by
  obtain ⟨haddress, i, ⟨hi, htag, len, hlen, hfour, hle⟩, hrouter, hlast⟩ := hoffers
  have hin := (List.getElem?_eq_some_iff.1 hlen).1
  have hp : (reply.drop payload).length = reply.length - payload := List.length_drop
  have hpay : payload = 42 := rfl
  have hfour' := UInt8.le_iff_toNat_le.1 hfour
  change 4 ≤ len.toNat at hfour'
  obtain ⟨ok, hok⟩ := isDhcpReply_ok reply
  have hok' : isDhcpReply reply.length (reply ++ old) = .ok ok := stable_isDhcpReply _ reply old _ hok
  rw [dhcpReply, hok', ok_bind] at hread
  cases ok with
  | false => cases Except.ok.inj hread
  | true =>
    have hn := length_of_reply hok
    obtain ⟨rounds, gateway', hrounds, hloop⟩ := optionsLoop_reaches hn hi hin gateway
    obtain ⟨rounds, rfl⟩ := Nat.exists_eq_add_one.2 (show 0 < rounds by have := hi.le hn; omega)
    have hlocal' : readAddress (reply ++ old) 16 = _ := stable_readAddress _ reply old _ (readAddress_of_at haddress)
    have hrouter' : readAddress (reply ++ old) (i + 2) = _ := stable_readAddress _ reply old _ (readAddress_of_at hrouter)
    have htag' : payloadByte (reply ++ old) i = .ok 3 := stable_payloadByte i reply old _ (payloadByte_eq_ok.2 htag)
    have hlen' : payloadByte (reply ++ old) (i + 1) = .ok len := stable_payloadByte (i + 1) reply old _ (payloadByte_eq_ok.2 hlen)
    have hrest := optionsLoop_rest hn old rounds (.next hi htag hlen (by decide) hle) (by omega)
      (fun j hj => by have := hlast j hj; omega) (address e f g h)
    rw [if_pos rfl, hlocal', ok_bind, hloop, optionsLoop, if_pos (by omega), htag', ok_bind, hlen', ok_bind, if_neg (by decide),
      if_neg (by omega), if_pos ⟨rfl, hfour⟩, hrouter', ok_bind, hrest, ok_bind] at hread
    exact (Option.some.inj (Except.ok.inj hread)).symm

/-! ## Addresses in frames -/

theorem address_inj {a b c d a' b' c' d' : UInt8} (h : address a b c d = address a' b' c' d') : a = a' ∧ b = b' ∧ c = c' ∧ d = d' := by
  have hbytes := congrArg bytes32 h
  rw [bytes32_address, bytes32_address] at hbytes
  simp only [List.cons.injEq] at hbytes
  obtain ⟨hd, hc, hb, ha, -⟩ := hbytes
  exact ⟨ha, hb, hc, hd⟩

/-- The four bytes of an address in a frame. -/
def fourAt (f : Cells) (i : Nat) : List UInt8 := (f.drop i).take 4

theorem fourAt_append {front : List UInt8} {i : Nat} (hfront : front.length = i) (v : UInt32) (rest : List UInt8) :
    fourAt (front ++ bytes32 v ++ rest) i = bytes32 v := by
  rw [fourAt, List.append_assoc, ← hfront, List.drop_left]
  exact List.take_left' rfl

/-- What a frame shows of the leased addresses: an ARP request the sender's and the target's, a header
the source. The question for an address comes from the address zero. -/
def UsesLease (a b c d e f g h : UInt8) (m : Sent) : Prop :=
  match m.sender with
  | .sendArp => fourAt m.bytes 28 = [a, b, c, d] ∧ fourAt m.bytes 38 = [e, f, g, h]
  | .netIpPing => fourAt m.bytes 26 = [a, b, c, d]
  | .netDnsResolve => fourAt m.bytes 26 = [a, b, c, d]
  | .netIpDhcp => True

theorem source_of_header {e : Eth} (hdst : e.dst.length = 6) (hsrc : e.src.length = 6) (h : Ipv4) (rest : List UInt8) :
    fourAt (e.bytes ++ h.summed.bytes ++ rest) 26 = bytes32 h.src := by
  have hshape : e.bytes ++ h.summed.bytes ++ rest =
      e.bytes ++ (h.summed.front ++ bytes16 h.summed.sum) ++ bytes32 h.src ++ (bytes32 h.dst ++ rest) := by
    rw [Ipv4.bytes_eq]
    simp only [Ipv4.back, Ipv4.summed, List.append_assoc]
  rw [hshape]
  apply fourAt_append
  rw [List.length_append, length_eth e hdst hsrc]
  rfl

theorem addresses_of_arp {dst mac : List UInt8} (hdst : dst.length = 6) (hmac : mac.length = 6) (type htype ptype oper : UInt16)
    (hlen plen : UInt8) (spa tpa : UInt32) :
    let bytes := Eth.bytes { dst := dst, src := mac, type := type } ++
      Arp.bytes { htype := htype, ptype := ptype, hlen := hlen, plen := plen, oper := oper, sha := mac, spa := spa,
                  tha := List.replicate 6 0, tpa := tpa }
    fourAt bytes 28 = bytes32 spa ∧ fourAt bytes 38 = bytes32 tpa := by
  intro bytes
  have hshape : bytes = Eth.bytes { dst := dst, src := mac, type := type } ++
      (bytes16 htype ++ bytes16 ptype ++ [hlen, plen] ++ bytes16 oper ++ mac) ++ bytes32 spa ++ (List.replicate 6 0 ++ bytes32 tpa) := by
    simp only [bytes, Arp.bytes, List.append_assoc]
  have hfront : (Eth.bytes { dst := dst, src := mac, type := type } ++
      (bytes16 htype ++ bytes16 ptype ++ [hlen, plen] ++ bytes16 oper ++ mac)).length = 28 := by
    rw [List.length_append, length_eth _ hdst hmac]
    simp [bytes16, hmac]
  refine ⟨?_, ?_⟩
  · rw [hshape]
    exact fourAt_append hfront spa _
  · have hlast : bytes = Eth.bytes { dst := dst, src := mac, type := type } ++
        (bytes16 htype ++ bytes16 ptype ++ [hlen, plen] ++ bytes16 oper ++ mac) ++ (bytes32 spa ++ List.replicate 6 0) ++ bytes32 tpa ++ [] := by
      rw [hshape]
      simp only [List.append_assoc, List.append_nil]
    rw [hlast]
    apply fourAt_append
    rw [List.length_append, hfront]
    rfl

/-- A frame made of two addresses shows their bytes as they are stored. -/
theorem usesLease_iff {a b c d e f g h : UInt8} {m : Sent} (hbuilt : Built (address a b c d) (address e f g h) m) :
    UsesLease a b c d e f g h m ↔
      (m.sender ≠ .netIpDhcp → a = d ∧ b = c) ∧ (m.sender = .sendArp → e = h ∧ f = g) := by
  have hpalindrome (a b c d : UInt8) : [d, c, b, a] = [a, b, c, d] ↔ a = d ∧ b = c := by
    simp only [List.cons.injEq, and_true]
    exact ⟨fun h => ⟨h.2.2.2, h.2.2.1⟩, fun h => ⟨h.1.symm, h.2.symm, h.2, h.1⟩⟩
  cases hbuilt with
  | sendArp dst mac =>
    obtain ⟨hsrc, htarget⟩ := addresses_of_arp dst.2 mac.2 (swap16 0x0806) (swap16 1) (swap16 0x0800) (swap16 1) 6 4
      (address a b c d) (address e f g h)
    simp only [UsesLease, hsrc, htarget, bytes32_address, hpalindrome]
    simp
  | netIpPing dst mac =>
    have hsrc := source_of_header (e := { dst := dst, src := mac, type := swap16 0x0800 }) dst.2 mac.2
      { vhl := 0x45, tos := 0, len := swap16 28, id := 0, frag := 0, ttl := 64, proto := 1, sum := 0, src := address a b c d,
        dst := address e f g h } pingMessage.bytes
    simp only [UsesLease, pingHeader, hsrc, bytes32_address, hpalindrome]
    simp
  | netIpDhcp dst mac rest => simp [UsesLease]
  | netDnsResolve dst mac plen rest =>
    have hsrc := source_of_header (e := { dst := dst, src := mac, type := swap16 0x0800 }) dst.2 mac.2
      { vhl := 0x45, tos := 0, len := swap16 (UInt16.ofNat (28 + plen)), id := 0, frag := 0, ttl := 64, proto := 17, sum := 0,
        src := address a b c d, dst := 0x0302000A } rest
    simp only [UsesLease, dnsHeader, hsrc, bytes32_address, hpalindrome]
    simp

/-- The gateway's reply is looked for by the stored bytes. -/
theorem isGatewayReply_iff {s : Net} {e f g h : UInt8} (hs : s.gatewayIp = address e f g h) {reply : Cells} (harp : isArpReply reply = true) :
    isGatewayReply s reply = true ↔
      byteAt reply 28 = h ∧ byteAt reply 29 = g ∧ byteAt reply 30 = f ∧ byteAt reply 31 = e := by
  rw [isGatewayReply, harp, Bool.true_and, beq_iff_eq, hs, field32]
  constructor
  · intro hsame
    obtain ⟨h3, h2, h1, h0⟩ := address_inj hsame
    exact ⟨h0, h1, h2, h3⟩
  · rintro ⟨h0, h1, h2, h3⟩
    rw [h0, h1, h2, h3]

/-! ## Until the next lease -/

/-- The states that come after `s` before another lease is accepted. -/
inductive Later (card : Adapter) (s : Net) : Net → Prop where
  | start : Later card s s
  | netIpPing {t : Net} : Later card s t → Later card s (netIpPing card t).1
  | netDnsResolve {t t' : Net} {name : List UInt8} {stack : Cells} {found : Option UInt32} : Later card s t →
      netDnsResolve card name stack t = .ok (t', found) → Later card s t'
  | netIpDhcp {t t' : Net} {stack : Cells} : Later card s t → netIpDhcp card stack t = .ok (t', none) → Later card s t'

theorem Later.keeps {card : Adapter} {s t : Net} (h : Later card s t) : Keeps s t := by
  induction h with
  | start => exact .refl s
  | netIpPing _ ih => exact ih.trans (keeps_netIpPing card _)
  | netDnsResolve _ hrun ih => exact ih.trans (keeps_netDnsResolve hrun)
  | netIpDhcp _ hrun ih => exact ih.trans (netIpDhcp_ends hrun)

/-- Until the next lease, whatever the adapter does, every frame uses the addresses, and the gateway's
reply is the one from the router. -/
def LeaseUsed (s : Net) (a b c d e f g h : UInt8) : Prop :=
  ∀ (card : Adapter) (t : Net), Later card s t →
    (∀ m ∈ t.sent.drop s.sent.length, UsesLease a b c d e f g h m) ∧
    ∀ reply : Cells, 42 ≤ reply.length → isArpReply reply = true →
      (isGatewayReply t reply = true ↔
        byteAt reply 28 = e ∧ byteAt reply 29 = f ∧ byteAt reply 30 = g ∧ byteAt reply 31 = h)

theorem awaitArp_idle (wait : Nat) : ∀ s : Net, (awaitArp idle wait s).1.sent = s.sent ∧ (awaitArp idle wait s).2 = false := by
  induction wait with
  | zero => exact fun _ => ⟨rfl, rfl⟩
  | succ wait ih =>
    intro s
    have hnone : ¬ 42 ≤ (netPacketReceive idle 1600 s).length := by
      rw [netPacketReceive, idle, List.take_nil]
      decide
    rw [awaitArp, if_neg (fun h => hnone h.1)]
    exact ih s.tick

theorem sendArp_idle (s : Net) : (sendArp idle s).sent = s.sent ++ [⟨.sendArp, arpRequest s⟩] := rfl

/-- A ping that finds no gateway sends the ARP request only. -/
theorem netIpPing_unanswered {card : Adapter} {s : Net} (hs : s.haveArp = false) {mac : Mac} (hmac : card.mac s.clock = some mac)
    (hwait : ∀ t, (awaitArp card 300000 t).1.sent = t.sent ∧ (awaitArp card 300000 t).2 = false) :
    (netIpPing card s).1.sent = (sendArp card { s.tick with localMac := mac }).sent := by
  have hresolve : resolveGateway card s = awaitArp card 300000 (sendArp card { s.tick with localMac := mac }) := by
    rw [resolveGateway, hs, if_neg (by decide), hmac]
  obtain ⟨hsent, hfails⟩ := hwait (sendArp card { s.tick with localMac := mac })
  unfold netIpPing
  dsimp only
  rw [hresolve, hfails, if_neg (by decide), hsent]

theorem netIpPing_idle {s : Net} (hs : s.haveArp = false) :
    ∃ mac, (netIpPing idle s).1.sent = s.sent ++ [⟨.sendArp, arpRequest { s.tick with localMac := mac }⟩] := by
  obtain ⟨mac, hmac⟩ : ∃ mac, idle.mac s.clock = some mac := ⟨_, rfl⟩
  exact ⟨mac, (netIpPing_unanswered hs hmac (awaitArp_idle 300000)).trans (sendArp_idle _)⟩

theorem leaseUsed_bytes {s : Net} {a b c d e f g h : UInt8} (hlocal : s.localIp = address a b c d) (hgateway : s.gatewayIp = address e f g h)
    (harp : s.haveArp = false) (hused : LeaseUsed s a b c d e f g h) : a = d ∧ b = c ∧ e = h ∧ f = g := by
  obtain ⟨mac, hsent⟩ := netIpPing_idle harp
  have hframes := (hused idle _ (.netIpPing .start)).1
  have hbuilt := (keeps_netIpPing idle s).sends.built
  rw [hsent, List.drop_left, List.forall_mem_singleton] at hframes hbuilt
  rw [hlocal, hgateway] at hbuilt
  obtain ⟨hown, hrouter⟩ := (usesLease_iff hbuilt).1 hframes
  obtain ⟨had, hbc⟩ := hown (fun h => by cases h)
  obtain ⟨heh, hfg⟩ := hrouter rfl
  exact ⟨had, hbc, heh, hfg⟩

theorem leaseUsed_of_bytes {s : Net} {a b e f : UInt8} (hlocal : s.localIp = address a b b a) (hgateway : s.gatewayIp = address e f f e) :
    LeaseUsed s a b b a e f f e := by
  intro card t hlater
  have hkeeps := hlater.keeps
  refine ⟨fun m hm => ?_, fun reply _ harp => ?_⟩
  · have hbuilt := hkeeps.sends.built m hm
    rw [hlocal, hgateway] at hbuilt
    exact (usesLease_iff hbuilt).2 ⟨fun _ => ⟨rfl, rfl⟩, fun _ => ⟨rfl, rfl⟩⟩
  · exact isGatewayReply_iff (hkeeps.gatewayIp.trans hgateway) harp

/-- A leased address is used as leased just where its bytes read the same backwards. -/
theorem lease_used_as_leased {card : Adapter} {stack : Cells} {s s' : Net} {reply : Cells} {a b c d e f g h : UInt8}
    (haccepts : netIpDhcp card stack s = .ok (s', some reply)) (hoffers : Offers reply a b c d e f g h) :
    LeaseUsed s' a b c d e f g h ↔ a = d ∧ b = c ∧ e = h ∧ f = g := by
  obtain ⟨t, old, localIp, gatewayIp, -, hread, rfl⟩ := netIpDhcp_ends haccepts
  have hlease := dhcpReply_offers hoffers hread
  obtain ⟨rfl, rfl⟩ := Prod.mk.inj hlease
  constructor
  · exact leaseUsed_bytes rfl rfl rfl
  · rintro ⟨rfl, rfl, rfl, rfl⟩
    exact leaseUsed_of_bytes rfl rfl

/-- A reply that offers 10.0.0.5 with the router 10.0.0.1. -/
def offer : Cells :=
  List.replicate 12 0 ++ [8, 0] ++ List.replicate 9 0 ++ [17] ++ List.replicate 10 0 ++ [0, 67] ++ List.replicate 6 0 ++
    [2, 1, 6] ++ List.replicate 13 0 ++ [10, 0, 0, 5] ++ List.replicate 220 0 ++ [3, 4, 10, 0, 0, 1, 255] ++ List.replicate 11 0

def lender : Adapter where
  mac _ := some someMac
  takes _ := true
  frame _ := offer

theorem discover_fits (mac : Mac) {stack : Cells} (hstack : stack.length = 400) :
    ∃ frame, discover mac stack = .ok frame ∧ frame.length = 400 := by
  have hpay : payload = 42 := rfl
  obtain ⟨a, ha, hlen⟩ := @Cells.pokes_fits stack payload ([1, 1, 6, 0] ++ put32 xid) (by rw [hstack]; decide)
  obtain ⟨b, hb, hlen'⟩ := @Cells.pokes_fits a (payload + 10) [0x80] (by rw [hlen, hstack]; decide)
  obtain ⟨c, hc, hlen''⟩ := @Cells.pokes_fits b (payload + 28) mac (by rw [mac.2]; omega)
  obtain ⟨front, hfront, hlen₃⟩ := @Cells.pokes_fits c (payload + 236) [99, 130, 83, 99, 53, 1, 1, 255]
    (by rw [hlen'', hlen', hlen, hstack]; decide)
  have hheaders : (Eth.bytes { dst := broadcast, src := mac, type := swap16 0x0800 } ++ dhcpHeader.bytes ++ dhcpUdp.bytes).length = 42 := by
    rw [List.length_append, List.length_append, length_eth _ rfl mac.2, length_ipv4]
    rfl
  obtain ⟨frame, hframe, hlen₄⟩ := @Cells.pokes_fits front 0
    (Eth.bytes { dst := broadcast, src := mac, type := swap16 0x0800 } ++ dhcpHeader.bytes ++ dhcpUdp.bytes)
    (by rw [hheaders]; omega)
  refine ⟨frame, ?_, by omega⟩
  rw [discover, ha, ok_bind, hb, ok_bind, hc, ok_bind, hfront, ok_bind, hframe]

theorem netIpDhcp_lender : ∃ s', netIpDhcp lender (List.replicate 400 0) .start = .ok (s', some offer) ∧
    s'.localIp = address 10 0 0 5 ∧ s'.gatewayIp = address 10 0 0 1 ∧ s'.haveArp = false := by
  obtain ⟨mac, hmac⟩ : ∃ mac, lender.mac Net.start.clock = some mac := ⟨_, rfl⟩
  obtain ⟨frame, hframe, -⟩ := @discover_fits mac (List.replicate 400 0) List.length_replicate
  obtain ⟨t, hsend, hgateway⟩ : ∃ t, netPacketSend lender .netIpDhcp (frame.take 286) { Net.start.tick with localMac := mac } = (t, true) ∧
      t.gatewayIp = 0x0202000A := ⟨_, rfl, rfl⟩
  have hreceive : netPacketReceive lender 400 t = offer := by
    rw [netPacketReceive, lender]
    exact List.take_of_length_le (by simp only [offer, List.length_append, List.length_replicate, List.length_cons, List.length_nil]; decide)
  have hoffer : dhcpReply offer.length 0x0202000A offer = .ok (some (address 10 0 0 5, address 10 0 0 1)) := by decide +kernel
  have hread : dhcpReply offer.length 0x0202000A (received frame offer) = _ := stable_dhcpReply _ _ offer _ _ hoffer
  refine ⟨{ t.tick with localIp := address 10 0 0 5, gatewayIp := address 10 0 0 1, haveArp := false }, ?_, rfl, rfl, rfl⟩
  rw [netIpDhcp, hmac]
  dsimp only
  rw [hframe, ok_bind, hsend, if_pos rfl, awaitLease, hreceive, hgateway, hread, ok_bind]

theorem offers_offer : Offers offer 10 0 0 5 10 0 0 1 := by
  have hoptions {i : Nat} (hi : OptionAt (offer.drop payload) i) : i = 240 ∨ i = 246 := by
    induction hi with
    | first => exact .inl rfl
    | @next i tag len _ htag hlen hend _ ih =>
      rcases ih with rfl | rfl
      · have hfour : (offer.drop payload)[241]? = some 4 := by decide +kernel
        obtain rfl := Option.some.inj (hlen.symm.trans hfour)
        exact .inr rfl
      · have hlast : (offer.drop payload)[246]? = some 255 := by decide +kernel
        exact absurd (Option.some.inj (htag.symm.trans hlast)) hend
  refine ⟨by unfold AddressAt; decide +kernel, 240, ⟨.first, by decide +kernel, 4, by decide +kernel, by decide, by decide +kernel⟩,
    by unfold AddressAt; decide +kernel, ?_⟩
  rintro j ⟨hj, htag, -⟩
  rcases hoptions hj with rfl | rfl
  · exact le_rfl
  · have hlast : (offer.drop payload)[246]? = some 255 := by decide +kernel
    exact absurd (Option.some.inj (htag.symm.trans hlast)) (by decide)

theorem lease_used_as_leased_offer :
    ∃ s', netIpDhcp lender (List.replicate 400 0) .start = .ok (s', some offer) ∧
      (LeaseUsed s' 10 0 0 5 10 0 0 1 ↔ (10 : UInt8) = 5 ∧ (0 : UInt8) = 0 ∧ (10 : UInt8) = 1 ∧ (0 : UInt8) = 0) := by
  obtain ⟨s', hrun, -⟩ := netIpDhcp_lender
  exact ⟨s', hrun, lease_used_as_leased hrun offers_offer⟩

/-- The lease of 10.0.0.5 is not used as leased. -/
theorem lease_used_backwards : ∃ s', netIpDhcp lender (List.replicate 400 0) .start = .ok (s', some offer) ∧
    Offers offer 10 0 0 5 10 0 0 1 ∧ ¬ LeaseUsed s' 10 0 0 5 10 0 0 1 := by
  obtain ⟨s', hrun, hlocal, hgateway, harp⟩ := netIpDhcp_lender
  refine ⟨s', hrun, offers_offer, fun hused => ?_⟩
  exact absurd (leaseUsed_bytes hlocal hgateway harp hused).1 (by decide)

end Barnix.Net
