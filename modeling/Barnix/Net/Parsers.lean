import Barnix.Lib.Arrays
import Barnix.Net.Packets
/-!
# Parsing replies, building a question

The loops of `net_ip.c` over received frames and over the name of a DNS question, on
the arrays they work in. A frame is received into an array that keeps what it held
behind the frame. Positions are those in the payload behind the three headers, while
the code compares them with the length of the whole frame.
-/

namespace Barnix.Net

/-- Where the payload starts: `sizeof(struct eth) + sizeof(struct ipv4) + sizeof(struct udp)`. -/
def payload : Nat := 42

/-- `p[i]` -/
def payloadByte (frame : Cells) (i : Nat) : Checked UInt8 := frame.peek (payload + i)

/-- A `u16` of a packed struct. -/
def load16 (frame : Cells) (i : Nat) : Checked UInt16 := do
  let low ← frame.peek i
  let high ← frame.peek (i + 1)
  .ok (low.toUInt16 ||| high.toUInt16 <<< 8)

/-- `read16(p + i)` -/
def read16 (frame : Cells) (i : Nat) : Checked UInt16 := do
  let high ← payloadByte frame i
  let low ← payloadByte frame (i + 1)
  .ok (high.toUInt16 <<< 8 ||| low.toUInt16)

/-- `((u32)a << 24) | ((u32)b << 16) | ((u32)c << 8) | d` -/
def address (a b c d : UInt8) : UInt32 := a.toUInt32 <<< 24 ||| b.toUInt32 <<< 16 ||| c.toUInt32 <<< 8 ||| d.toUInt32

theorem toNat_address (a b c d : UInt8) :
    (address a b c d).toNat = 16777216 * a.toNat + 65536 * b.toNat + 256 * c.toNat + d.toNat := toNat_fourBytes a b c d

theorem bytes32_address (a b c d : UInt8) : bytes32 (address a b c d) = [d, c, b, a] := by
  have h := toNat_address a b c d
  have ha := a.toNat_lt
  have hb := b.toNat_lt
  have hc := c.toNat_lt
  have hd := d.toNat_lt
  have hbyte (n : UInt32) (k : Nat) (hk : n.toNat % 32 = k) :
      ((address a b c d) >>> n).toUInt8.toNat = (16777216 * a.toNat + 65536 * b.toNat + 256 * c.toNat + d.toNat) / 2 ^ k % 256 := by
    rw [UInt32.toNat_toUInt8, UInt32.toNat_shiftRight, hk, Nat.shiftRight_eq_div_pow, h]
  simp only [bytes32, List.cons.injEq, and_true, ← UInt8.toNat_inj]
  rw [UInt32.toNat_toUInt8, h, hbyte 8 8 rfl, hbyte 16 16 rfl, hbyte 24 24 rfl]
  omega

/-- The address of the four bytes from `p[i]` on. -/
def readAddress (frame : Cells) (i : Nat) : Checked UInt32 := do
  let a ← payloadByte frame i
  let b ← payloadByte frame (i + 1)
  let c ← payloadByte frame (i + 2)
  let d ← payloadByte frame (i + 3)
  .ok (address a b c d)

/-! ## DHCP -/

/-- The options from `i` on, for at most `rounds` of them; `n` is the length received. -/
def optionsLoop (n : Nat) : Nat → Nat → UInt32 → Cells → Checked UInt32
  | 0, _, _, _ => .error .unfinished
  | rounds + 1, i, gateway, frame =>
    if i + 1 < n - payload then do
      let tag ← payloadByte frame i
      let len ← payloadByte frame (i + 1)
      if tag = 255 then .ok gateway
      else if i + 2 + len.toNat > n then .ok gateway
      else if tag = 3 ∧ 4 ≤ len then do
        let gateway ← readAddress frame (i + 2)
        optionsLoop n rounds (i + 2 + len.toNat) gateway frame
      else optionsLoop n rounds (i + 2 + len.toNat) gateway frame
    else .ok gateway

/-- The checks of a DHCP reply: the headers, and the first bytes of the payload. -/
def isDhcpReply (n : Nat) (frame : Cells) : Checked Bool :=
  if n < 300 then .ok false
  else do
    let type ← load16 frame 12
    let proto ← frame.peek 23
    let src ← load16 frame 34
    let op ← payloadByte frame 0
    let htype ← payloadByte frame 1
    let hlen ← payloadByte frame 2
    .ok (swap16 type = 0x0800 ∧ proto = 17 ∧ swap16 src = 67 ∧ op = 2 ∧ htype = 1 ∧ hlen = 6)

/-- The local address and the gateway after a frame of `n` bytes; none if it is no reply. -/
def dhcpReply (n : Nat) (gateway : UInt32) (frame : Cells) : Checked (Option (UInt32 × UInt32)) := do
  if ← isDhcpReply n frame then
    let localIp ← readAddress frame 16
    let gateway ← optionsLoop n n 240 gateway frame
    .ok (some (localIp, gateway))
  else .ok none

/-! ## DNS replies -/

/-- `while (q < (unsigned int)got && p[q]) q += p[q] + 1;` for at most `rounds` labels. -/
def skipName (got : Nat) : Nat → Nat → Cells → Checked Nat
  | 0, _, _ => .error .unfinished
  | rounds + 1, q, frame =>
    if q < got then do
      let c ← payloadByte frame q
      if c = 0 then .ok q else skipName got rounds (q + c.toNat + 1) frame
    else .ok q

/-- Over the name of a record at `q`, which may be compressed. -/
def skipRecordName (got q : Nat) (frame : Cells) : Checked Nat := do
  let c ← payloadByte frame q
  if c &&& 0xC0 = 0xC0 then .ok (q + 2)
  else do
    let q ← skipName got (got + 1) q frame
    .ok (q + 1)

/-- The records from `q` on, the number of which is the first argument. -/
def answersLoop (got : Nat) : Nat → Nat → Cells → Checked (Option UInt32)
  | 0, _, _ => .ok none
  | answers + 1, q, frame =>
    if q + 12 ≤ got then do
      let q ← skipRecordName got q frame
      if q + 10 > got then .ok none
      else do
        let type ← read16 frame q
        let len ← read16 frame (q + 8)
        if type = 1 ∧ len = 4 ∧ q + 14 ≤ got then do
          let a ← readAddress frame (q + 10)
          .ok (some a)
        else answersLoop got answers (q + 10 + len.toNat) frame
    else .ok none

/-- The checks of a DNS reply. -/
def isDnsReply (got : Nat) (frame : Cells) : Checked Bool :=
  if got < 60 then .ok false
  else do
    let type ← load16 frame 12
    let proto ← frame.peek 23
    let src ← load16 frame 34
    let id ← read16 frame 0
    let answers ← read16 frame 6
    .ok (swap16 type = 0x0800 ∧ proto = 17 ∧ swap16 src = 53 ∧ id = 0x4221 ∧ answers ≠ 0)

/-- The address in a frame of `got` bytes, if it is a reply and has one. -/
def dnsReply (got : Nat) (frame : Cells) : Checked (Option UInt32) := do
  if ← isDnsReply got frame then
    let q ← skipName got (got + 1) 12 frame
    let answers ← read16 frame 6
    answersLoop got answers.toNat (q + 5) frame
  else .ok none

/-! ## The DNS question -/

/-- A label with its length in front, from `p[n]` on. -/
def putLabel (frame : Cells) (n : Nat) (label : List UInt8) : Checked Cells :=
  frame.pokes (payload + n) (UInt8.ofNat label.length :: label)

/-- The loop over the rest of the name: the array, `n`, and the last label. -/
def putLabels : List UInt8 → List UInt8 → Nat → Cells → Checked (Cells × Nat × List UInt8)
  | [], label, n, frame => .ok (frame, n, label)
  | c :: name, label, n, frame =>
    -- `name[i] == '.'`
    if c = 46 then do
      let frame ← putLabel frame n label
      putLabels name [] (n + 1 + label.length) frame
    else putLabels name (label ++ [c]) n frame

/-- The payload of the question for a name, and its length. -/
def dnsQuestion (name : List UInt8) (frame : Cells) : Checked (Cells × Nat) := do
  let frame ← frame.pokes payload [0x42, 0x21, 1, 0, 0, 1, 0, 0, 0, 0, 0, 0]
  let (frame, n, label) ← putLabels name [] 12 frame
  let frame ← putLabel frame n label
  let frame ← frame.pokes (payload + (n + 1 + label.length)) [0, 0, 1, 0, 1]
  .ok (frame, n + 1 + label.length + 5)

end Barnix.Net
