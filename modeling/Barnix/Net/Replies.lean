import Barnix.Net.Parsers
/-!
# Replies read in bounds

Which replies `net_ip.c` reads inside of what was received, and which names it can put
into a question. What is read of an array that only holds the frame is read alike of
every array that begins with it; a byte behind the frame is one that was there before.
-/

namespace Barnix.Net

/-! ## Single reads -/

theorem stable_payloadByte (i : Nat) : Cells.Stable fun frame => payloadByte frame i := .peek _

theorem stable_load16 (i : Nat) : Cells.Stable fun frame => load16 frame i :=
  .bind (.peek _) fun _ => .bind (.peek _) fun _ => .ok _

theorem stable_read16 (i : Nat) : Cells.Stable fun frame => read16 frame i :=
  .bind (stable_payloadByte _) fun _ => .bind (stable_payloadByte _) fun _ => .ok _

theorem stable_readAddress (i : Nat) : Cells.Stable fun frame => readAddress frame i :=
  .bind (stable_payloadByte _) fun _ => .bind (stable_payloadByte _) fun _ => .bind (stable_payloadByte _) fun _ =>
    .bind (stable_payloadByte _) fun _ => .ok _

/-- A byte of the payload, in a frame that is nothing but what was received. -/
theorem payloadByte_eq_ok {f : Cells} {i : Nat} {c : UInt8} : payloadByte f i = .ok c ↔ (f.drop payload)[i]? = some c := by
  unfold payloadByte Cells.peek
  rw [List.getElem?_drop]
  cases f[payload + i]? <;> simp

theorem payloadByte_inside {f : Cells} {i : Nat} (h : i < (f.drop payload).length) :
    ∃ c, payloadByte f i = .ok c := ⟨(f.drop payload)[i], payloadByte_eq_ok.2 (List.getElem?_eq_getElem h)⟩

theorem peek_inside {f : Cells} {i : Nat} (h : i < f.length) : ∃ c, f.peek i = .ok c :=
  ⟨f[i], by rw [Cells.peek, List.getElem?_eq_getElem h]⟩

theorem load16_inside {f : Cells} {i : Nat} (h : i + 1 < f.length) : ∃ v, load16 f i = .ok v := by
  obtain ⟨low, hlow⟩ := peek_inside (f := f) (i := i) (by omega)
  obtain ⟨high, hhigh⟩ := peek_inside h
  exact ⟨low.toUInt16 ||| high.toUInt16 <<< 8, by rw [load16, hlow, ok_bind, hhigh, ok_bind]⟩

theorem payloadByte_outside {f : Cells} {i : Nat} (h : (f.drop payload).length ≤ i) : payloadByte f i = .error .overrun := by
  rw [List.length_drop] at h
  unfold payloadByte Cells.peek
  rw [List.getElem?_eq_none (by omega)]

/-- The frame `f` in an array that held `old`. -/
def received (old f : Cells) : Cells := f ++ old.drop f.length

/-- Whatever an array of `cap` bytes held, a frame is read inside the array and with one result. -/
def Settles {α : Type} (cap : Nat) (parse : Cells → Checked α) (f : Cells) : Prop :=
  ∃ r, ∀ old : Cells, old.length = cap → parse (received old f) = .ok r

theorem Settles.of_ok {α : Type} {parse : Cells → Checked α} (hs : Cells.Stable parse) {f : Cells} {r : α} (h : parse f = .ok r)
    (cap : Nat) : Settles cap parse f := ⟨r, fun _ _ => hs f _ r h⟩

/-! ## DHCP options -/

theorem stable_optionsLoop (n : Nat) : ∀ (rounds i : Nat) (gateway : UInt32), Cells.Stable (optionsLoop n rounds i gateway)
  | 0, _, _ => .error _
  | rounds + 1, i, gateway => by
    refine .ite ?_ (.ok _)
    refine .bind (stable_payloadByte i) fun tag => .bind (stable_payloadByte (i + 1)) fun len => ?_
    refine .ite (.ok _) (.ite (.ok _) (.ite ?_ (stable_optionsLoop n rounds _ _)))
    exact .bind (stable_readAddress _) fun gateway => stable_optionsLoop n rounds _ gateway

theorem stable_isDhcpReply (n : Nat) : Cells.Stable (isDhcpReply n) :=
  .ite (.ok _) (.bind (stable_load16 _) fun _ => .bind (.peek _) fun _ => .bind (stable_load16 _) fun _ =>
    .bind (stable_payloadByte _) fun _ => .bind (stable_payloadByte _) fun _ => .bind (stable_payloadByte _) fun _ => .ok _)

theorem stable_dhcpReply (n : Nat) (gateway : UInt32) : Cells.Stable (dhcpReply n gateway) := by
  refine .bind (stable_isDhcpReply n) fun ok => .ite ?_ (.ok _)
  exact .bind (stable_readAddress _) fun _ => .bind (stable_optionsLoop _ _ _ _) fun _ => .ok _

/-- Where an option starts in the payload `p` of a reply. -/
inductive OptionAt (p : List UInt8) : Nat → Prop where
  | first : OptionAt p 240
  | next {i : Nat} {tag len : UInt8} : OptionAt p i → p[i]? = some tag → p[i + 1]? = some len → tag ≠ 255 →
      i + 2 + len.toNat ≤ p.length + payload → OptionAt p (i + 2 + len.toNat)

/-- A reply with a router option that ends inside the length of the frame, while its address
does not end inside the payload. -/
def RouterCut (f : Cells) : Prop :=
  isDhcpReply f.length f = .ok true ∧ ∃ (i : Nat) (len : UInt8), OptionAt (f.drop payload) i ∧
    (f.drop payload)[i]? = some 3 ∧ (f.drop payload)[i + 1]? = some len ∧ 4 ≤ len ∧ i + 2 + len.toNat ≤ f.length ∧
    (f.drop payload).length < i + 6

theorem length_of_reply {f : Cells} (h : isDhcpReply f.length f = .ok true) : 300 ≤ f.length := by
  by_contra hshort
  rw [isDhcpReply, if_pos (by omega)] at h
  cases h

theorem OptionAt.le {f : Cells} (hn : 300 ≤ f.length) {i : Nat} (h : OptionAt (f.drop payload) i) : i ≤ f.length := by
  cases h with
  | first => omega
  | next hi htag hlen hne hle =>
    have : payload = 42 := rfl
    rw [List.length_drop] at hle
    omega

theorem readAddress_inside {f : Cells} {i : Nat} (h : i + 4 ≤ (f.drop payload).length) : ∃ a, readAddress f i = .ok a := by
  obtain ⟨a, ha⟩ := payloadByte_inside (f := f) (i := i) (by omega)
  obtain ⟨b, hb⟩ := payloadByte_inside (f := f) (i := i + 1) (by omega)
  obtain ⟨c, hc⟩ := payloadByte_inside (f := f) (i := i + 2) (by omega)
  obtain ⟨d, hd⟩ := payloadByte_inside (f := f) (i := i + 3) (by omega)
  refine ⟨address a b c d, ?_⟩
  rw [readAddress, ha, ok_bind, hb, ok_bind, hc, ok_bind, hd, ok_bind]

/-- Where no router option is cut, the loop over the options ends with what was received. -/
theorem optionsLoop_ok {f : Cells} (hreply : isDhcpReply f.length f = .ok true) (hcut : ¬ RouterCut f) (rounds : Nat) :
    ∀ {i : Nat}, OptionAt (f.drop payload) i → f.length < i + rounds → ∀ gateway, ∃ r, optionsLoop f.length rounds i gateway f = .ok r := by
  have hn := length_of_reply hreply
  have hp : (f.drop payload).length = f.length - payload := List.length_drop
  have hpay : payload = 42 := rfl
  induction rounds with
  | zero =>
    intro i hi hr
    have := hi.le hn
    omega
  | succ rounds ih =>
    intro i hi hr gateway
    by_cases hin : i + 1 < f.length - payload
    · obtain ⟨tag, htag⟩ := payloadByte_inside (f := f) (i := i) (by omega)
      obtain ⟨len, hlen⟩ := payloadByte_inside (f := f) (i := i + 1) (by omega)
      rw [optionsLoop, if_pos hin, htag, ok_bind, hlen, ok_bind]
      by_cases hend : tag = 255
      · rw [if_pos hend]
        exact ⟨_, rfl⟩
      by_cases hover : i + 2 + len.toNat > f.length
      · rw [if_neg hend, if_pos hover]
        exact ⟨_, rfl⟩
      rw [if_neg hend, if_neg hover]
      have hnext := OptionAt.next hi (payloadByte_eq_ok.1 htag) (payloadByte_eq_ok.1 hlen) hend (by omega)
      by_cases hrouter : tag = 3 ∧ 4 ≤ len
      · obtain ⟨rfl, hfour⟩ := hrouter
        have hwhole : i + 6 ≤ (f.drop payload).length := by
          by_contra hshort
          exact hcut ⟨hreply, i, len, hi, payloadByte_eq_ok.1 htag, payloadByte_eq_ok.1 hlen, hfour, by omega, by omega⟩
        obtain ⟨a, ha⟩ := readAddress_inside (f := f) (i := i + 2) (by omega)
        rw [if_pos ⟨rfl, hfour⟩, ha, ok_bind]
        exact ih hnext (by omega) a
      · rw [if_neg hrouter]
        exact ih hnext (by omega) gateway
    · rw [optionsLoop, if_neg hin]
      exact ⟨_, rfl⟩

theorem isDhcpReply_ok (f : Cells) : ∃ reply, isDhcpReply f.length f = .ok reply := by
  by_cases hn : f.length < 300
  · exact ⟨false, if_pos hn⟩
  · have hpay : payload = 42 := rfl
    obtain ⟨type, htype⟩ := load16_inside (f := f) (i := 12) (by omega)
    obtain ⟨proto, hproto⟩ := peek_inside (f := f) (i := 23) (by omega)
    obtain ⟨src, hsrc⟩ := load16_inside (f := f) (i := 34) (by omega)
    obtain ⟨op, hop⟩ := payloadByte_inside (f := f) (i := 0) (by rw [List.length_drop]; omega)
    obtain ⟨hw, hhw⟩ := payloadByte_inside (f := f) (i := 1) (by rw [List.length_drop]; omega)
    obtain ⟨hlen, hhlen⟩ := payloadByte_inside (f := f) (i := 2) (by rw [List.length_drop]; omega)
    refine ⟨decide (swap16 type = 0x0800 ∧ proto = 17 ∧ swap16 src = 67 ∧ op = 2 ∧ hw = 1 ∧ hlen = 6), ?_⟩
    rw [isDhcpReply, if_neg hn, htype, ok_bind, hproto, ok_bind, hsrc, ok_bind, hop, ok_bind, hhw, ok_bind,
      hhlen, ok_bind]

theorem dhcpReply_ok {f : Cells} (hcut : ¬ RouterCut f) (gateway : UInt32) : ∃ r, dhcpReply f.length gateway f = .ok r := by
  have hpay : payload = 42 := rfl
  unfold dhcpReply
  obtain ⟨reply, hreply⟩ := isDhcpReply_ok f
  rw [hreply, ok_bind]
  cases reply with
  | false => exact ⟨_, rfl⟩
  | true =>
    have hn := length_of_reply hreply
    obtain ⟨localIp, hlocal⟩ := readAddress_inside (f := f) (i := 16) (by rw [List.length_drop]; omega)
    obtain ⟨g, hg⟩ := optionsLoop_ok hreply hcut f.length .first (by omega) gateway
    refine ⟨some (localIp, g), ?_⟩
    rw [if_pos rfl, hlocal, ok_bind, hg, ok_bind]

/-- The loop comes to every option that has its two bytes in the payload, the same whatever lies
behind the frame. -/
theorem optionsLoop_reaches {f : Cells} (hn : 300 ≤ f.length) {i : Nat} (hi : OptionAt (f.drop payload) i)
    (hin : i + 1 < (f.drop payload).length) (gateway : UInt32) :
    ∃ rounds gateway', f.length < i + rounds ∧
      ∀ old, optionsLoop f.length f.length 240 gateway (f ++ old) = optionsLoop f.length rounds i gateway' (f ++ old) := by
  have hp : (f.drop payload).length = f.length - payload := List.length_drop
  have hpay : payload = 42 := rfl
  induction hi with
  | first => exact ⟨f.length, gateway, by omega, fun _ => rfl⟩
  | @next i tag len hi htag hlen hend hle ih =>
    have hhere := (List.getElem?_eq_some_iff.1 hlen).1
    obtain ⟨rounds, gateway', hrounds, hloop⟩ := ih hhere
    obtain ⟨rounds, rfl⟩ := Nat.exists_eq_add_one.2 (show 0 < rounds by have := hi.le hn; omega)
    -- the address of a router option lies inside, as the next option does
    obtain ⟨g, hg⟩ : ∃ g, ∀ old, optionsLoop f.length (rounds + 1) i gateway' (f ++ old) =
        optionsLoop f.length rounds (i + 2 + len.toNat) g (f ++ old) := by
      have htag' (old : Cells) : payloadByte (f ++ old) i = .ok tag := stable_payloadByte i f old _ (payloadByte_eq_ok.2 htag)
      have hlen' (old : Cells) : payloadByte (f ++ old) (i + 1) = .ok len := stable_payloadByte (i + 1) f old _ (payloadByte_eq_ok.2 hlen)
      by_cases hrouter : tag = 3 ∧ 4 ≤ len
      · have hfour := UInt8.le_iff_toNat_le.1 hrouter.2
        obtain ⟨a, ha⟩ := readAddress_inside (f := f) (i := i + 2) (by change 4 ≤ _ at hfour; omega)
        refine ⟨a, fun old => ?_⟩
        have ha' : readAddress (f ++ old) (i + 2) = .ok a := stable_readAddress _ f old _ ha
        rw [optionsLoop, if_pos (by omega), htag', ok_bind, hlen', ok_bind, if_neg hend, if_neg (by omega), if_pos hrouter, ha', ok_bind]
      · refine ⟨gateway', fun old => ?_⟩
        rw [optionsLoop, if_pos (by omega), htag', ok_bind, hlen', ok_bind, if_neg hend, if_neg (by omega), if_neg hrouter]
    exact ⟨rounds, g, by omega, fun old => (hloop old).trans (hg old)⟩

/-- A cut router option is read with the bytes behind the frame. -/
theorem dhcpReply_cut {f : Cells} (hcut : RouterCut f) (gateway : UInt32) :
    ∃ (i : Nat) (localIp : UInt32), i + 4 ≤ f.length ∧ (f.drop payload).length < i + 4 ∧
      ∀ old, dhcpReply f.length gateway (f ++ old) =
        readAddress (f ++ old) i >>= fun gateway => .ok (some (localIp, gateway)) := by
  obtain ⟨hreply, i, len, hi, htag, hlen, hfour, hle, hshort⟩ := hcut
  have hn := length_of_reply hreply
  have hp : (f.drop payload).length = f.length - payload := List.length_drop
  have hpay : payload = 42 := rfl
  have hin := (List.getElem?_eq_some_iff.1 hlen).1
  have hfour' := UInt8.le_iff_toNat_le.1 hfour
  change 4 ≤ len.toNat at hfour'
  obtain ⟨localIp, hlocal⟩ := readAddress_inside (f := f) (i := 16) (by omega)
  obtain ⟨rounds, gateway', hrounds, hloop⟩ := optionsLoop_reaches hn hi hin gateway
  obtain ⟨rounds, rfl⟩ : ∃ r, rounds = r + 2 := ⟨rounds - 2, by omega⟩
  refine ⟨i + 2, localIp, by omega, by omega, fun old => ?_⟩
  have hend (g : UInt32) : optionsLoop f.length (rounds + 1) (i + 2 + len.toNat) g (f ++ old) = .ok g := if_neg (by omega)
  have hlocal' : readAddress (f ++ old) 16 = .ok localIp := stable_readAddress _ f old _ hlocal
  have htag' : payloadByte (f ++ old) i = .ok 3 := stable_payloadByte i f old _ (payloadByte_eq_ok.2 htag)
  have hlen' : payloadByte (f ++ old) (i + 1) = .ok len := stable_payloadByte (i + 1) f old _ (payloadByte_eq_ok.2 hlen)
  rw [dhcpReply, stable_isDhcpReply _ f old _ hreply, ok_bind, if_pos rfl, hlocal', ok_bind, hloop, optionsLoop, if_pos (by omega),
    htag', ok_bind, hlen', ok_bind, if_neg (by decide), if_neg (by omega), if_pos ⟨rfl, hfour⟩]
  simp only [hend, bind_assoc, ok_bind]

theorem payloadByte_behind {f : Cells} {i k : Nat} {c d : UInt8} (hi : f.length ≤ payload + i)
    (h : payloadByte (f ++ List.replicate k c) i = .ok d) : d = c := by
  rw [payloadByte_eq_ok, List.getElem?_drop, List.getElem?_append_right hi] at h
  exact List.eq_of_mem_replicate (List.mem_of_getElem? h)

theorem readAddress_last {f : Cells} {i : Nat} {g : UInt32} (h : readAddress f i = .ok g) : payloadByte f (i + 3) = .ok g.toUInt8 := by
  unfold readAddress at h
  obtain ⟨a, ha, h⟩ := bind_eq_ok h
  obtain ⟨b, hb, h⟩ := bind_eq_ok h
  obtain ⟨c, hc, h⟩ := bind_eq_ok h
  obtain ⟨d, hd, h⟩ := bind_eq_ok h
  obtain rfl := Except.ok.inj h
  have hbytes := bytes32_address a b c d
  rw [bytes32, List.cons.injEq] at hbytes
  rw [hd, hbytes.1]

/-- What a cut address was received with depends on the bytes behind the frame, or lies outside the array. -/
theorem not_settles_cut {f : Cells} (hcut : RouterCut f) (gateway : UInt32) :
    ¬ Settles 400 (dhcpReply f.length gateway) f := by
  rintro ⟨r, hr⟩
  obtain ⟨i, localIp, hle, hshort, hreply⟩ := dhcpReply_cut hcut gateway
  have hp : (f.drop payload).length = f.length - payload := List.length_drop
  have hpay : payload = 42 := rfl
  have hn := length_of_reply hcut.1
  -- the bytes `c` behind the frame come out as the last byte of the gateway
  have hlast (c : UInt8) : ∃ g : UInt32, r = some (localIp, g) ∧ g.toUInt8 = c := by
    have hrun := hr (List.replicate 400 c) List.length_replicate
    rw [received, List.drop_replicate, hreply] at hrun
    cases ha : readAddress (f ++ List.replicate (400 - f.length) c) i with
    | error e =>
      rw [ha] at hrun
      cases hrun
    | ok g =>
      rw [ha] at hrun
      refine ⟨g, (Except.ok.inj hrun).symm, ?_⟩
      exact payloadByte_behind (by omega) (readAddress_last ha)
  obtain ⟨g, rfl, hg⟩ := hlast 0
  obtain ⟨g', hsame, hg'⟩ := hlast 1
  obtain rfl : g = g' := (Prod.mk.inj (Option.some.inj hsame)).2
  exact absurd (hg.symm.trans hg') (by decide)

/-! ## DNS names and records -/

/-- The loop over a name that starts at `q` in the payload `p` ends at the second position. -/
inductive NameInside (p : List UInt8) : Nat → Nat → Prop where
  | past {q : Nat} : p.length + payload ≤ q → NameInside p q q
  | root {q : Nat} : p[q]? = some 0 → NameInside p q q
  | label {q q' : Nat} {c : UInt8} : p[q]? = some c → c ≠ 0 → NameInside p (q + c.toNat + 1) q' → NameInside p q q'

/-- The name of a record, compressed or not, that starts at `q` and has its end before `q'`. -/
inductive RecordName (p : List UInt8) : Nat → Nat → Prop where
  | compressed {q : Nat} {c : UInt8} : p[q]? = some c → c &&& 0xC0 = 0xC0 → RecordName p q (q + 2)
  | plain {q q' : Nat} {c : UInt8} : p[q]? = some c → c &&& 0xC0 ≠ 0xC0 → NameInside p q q' → RecordName p q (q' + 1)

/-- A word of the payload. -/
def WordAt (p : List UInt8) (i : Nat) (w : UInt16) : Prop :=
  ∃ high low, p[i]? = some high ∧ p[i + 1]? = some low ∧ w = high.toUInt16 <<< 8 ||| low.toUInt16

/-- The records from `q` on, as far as they are gone through, lie inside of the payload. -/
inductive RecordsInside (p : List UInt8) : Nat → Nat → Prop where
  | none {q : Nat} : RecordsInside p 0 q
  | short {answers q : Nat} : p.length + payload < q + 12 → RecordsInside p (answers + 1) q
  | name {answers q q' : Nat} : q + 12 ≤ p.length + payload → RecordName p q q' → p.length + payload < q' + 10 →
      RecordsInside p (answers + 1) q
  | address {answers q q' : Nat} : q + 12 ≤ p.length + payload → RecordName p q q' → WordAt p q' 1 → WordAt p (q' + 8) 4 →
      q' + 14 ≤ p.length → RecordsInside p (answers + 1) q
  | other {answers q q' : Nat} {type len : UInt16} : q + 12 ≤ p.length + payload → RecordName p q q' → WordAt p q' type →
      WordAt p (q' + 8) len → ¬ (type = 1 ∧ len = 4 ∧ q' + 14 ≤ p.length + payload) →
      RecordsInside p answers (q' + 10 + len.toNat) → RecordsInside p (answers + 1) q

/-- A DNS reply in which the name of the question, and the records up to the answer, end inside of
the payload. -/
def AnswerInside (f : Cells) : Prop :=
  isDnsReply f.length f = .ok true →
    ∃ q answers, NameInside (f.drop payload) 12 q ∧ WordAt (f.drop payload) 6 answers ∧
      RecordsInside (f.drop payload) answers.toNat (q + 5)

theorem read16_eq_ok {f : Cells} {i : Nat} {w : UInt16} : read16 f i = .ok w ↔ WordAt (f.drop payload) i w := by
  constructor
  · intro h
    obtain ⟨high, hhigh, h⟩ := bind_eq_ok h
    obtain ⟨low, hlow, h⟩ := bind_eq_ok h
    exact ⟨high, low, payloadByte_eq_ok.1 hhigh, payloadByte_eq_ok.1 hlow, (Except.ok.inj h).symm⟩
  · rintro ⟨high, low, hhigh, hlow, rfl⟩
    rw [read16, payloadByte_eq_ok.2 hhigh, ok_bind, payloadByte_eq_ok.2 hlow, ok_bind]

theorem skipName_eq_ok {f : Cells} (hn : payload ≤ f.length) {q' : Nat} (rounds : Nat) :
    ∀ {q : Nat}, f.length ≤ q + rounds → (skipName f.length (rounds + 1) q f = .ok q' ↔ NameInside (f.drop payload) q q') := by
  have hp : (f.drop payload).length + payload = f.length := by rw [List.length_drop]; omega
  have hpast (rounds : Nat) {q : Nat} (hq : f.length ≤ q) :
      skipName f.length (rounds + 1) q f = .ok q' ↔ NameInside (f.drop payload) q q' := by
    rw [skipName, if_neg (by omega)]
    constructor
    · intro h
      obtain rfl := Except.ok.inj h
      exact .past (by omega)
    · intro h
      cases h with
      | past => rfl
      | root => rfl
      | label hc => have := (List.getElem?_eq_some_iff.1 hc).1; omega
  induction rounds with
  | zero => exact fun hq => hpast 0 hq
  | succ rounds ih =>
    intro q hq
    by_cases hin : q < f.length
    · rw [skipName, if_pos hin]
      constructor
      · intro h
        obtain ⟨c, hc, h⟩ := bind_eq_ok h
        by_cases hzero : c = 0
        · rw [if_pos hzero] at h
          obtain rfl := Except.ok.inj h
          exact .root (hzero ▸ payloadByte_eq_ok.1 hc)
        · rw [if_neg hzero] at h
          exact .label (payloadByte_eq_ok.1 hc) hzero ((ih (by omega)).1 h)
      · intro h
        cases h with
        | past hpast => omega
        | root hc => rw [payloadByte_eq_ok.2 hc, ok_bind, if_pos rfl]
        | label hc hne hrest => rw [payloadByte_eq_ok.2 hc, ok_bind, if_neg hne, (ih (by omega)).2 hrest]
    · exact hpast _ (by omega)

theorem skipRecordName_eq_ok {f : Cells} (hn : payload ≤ f.length) {q q' : Nat} :
    skipRecordName f.length q f = .ok q' ↔ RecordName (f.drop payload) q q' := by
  unfold skipRecordName
  constructor
  · intro h
    obtain ⟨c, hc, h⟩ := bind_eq_ok h
    by_cases hcomp : c &&& 0xC0 = 0xC0
    · rw [if_pos hcomp] at h
      obtain rfl := Except.ok.inj h
      exact .compressed (payloadByte_eq_ok.1 hc) hcomp
    · rw [if_neg hcomp] at h
      obtain ⟨e, he, h⟩ := bind_eq_ok h
      obtain rfl := Except.ok.inj h
      exact .plain (payloadByte_eq_ok.1 hc) hcomp ((skipName_eq_ok hn _ (by omega)).1 he)
  · intro h
    cases h with
    | compressed hc hcomp => rw [payloadByte_eq_ok.2 hc, ok_bind, if_pos hcomp]
    | plain hc hcomp hname => rw [payloadByte_eq_ok.2 hc, ok_bind, if_neg hcomp, (skipName_eq_ok hn _ (by omega)).2 hname, ok_bind]

theorem WordAt.inside {p : List UInt8} {i : Nat} {w : UInt16} (h : WordAt p i w) : i + 1 < p.length := by
  obtain ⟨high, low, -, hlow, -⟩ := h
  exact (List.getElem?_eq_some_iff.1 hlow).1

/-- The loop over the records reads inside of the frame just where they lie inside. -/
theorem answersLoop_ok_iff {f : Cells} (hn : payload ≤ f.length) (answers q : Nat) :
    (∃ r, answersLoop f.length answers q f = .ok r) ↔ RecordsInside (f.drop payload) answers q := by
  have hp : (f.drop payload).length + payload = f.length := by rw [List.length_drop]; omega
  constructor
  · rintro ⟨r, h⟩
    induction answers generalizing q with
    | zero => exact .none
    | succ answers ih =>
      rw [answersLoop] at h
      by_cases hshort : q + 12 ≤ f.length
      · rw [if_pos hshort] at h
        obtain ⟨q', hname, h⟩ := bind_eq_ok h
        rw [skipRecordName_eq_ok hn] at hname
        by_cases hend : q' + 10 > f.length
        · exact .name (by omega) hname (by omega)
        rw [if_neg hend] at h
        obtain ⟨type, htype, h⟩ := bind_eq_ok h
        obtain ⟨len, hlen, h⟩ := bind_eq_ok h
        by_cases haddr : type = 1 ∧ len = 4 ∧ q' + 14 ≤ f.length
        · rw [if_pos haddr] at h
          obtain ⟨a, ha, -⟩ := bind_eq_ok h
          obtain ⟨rfl, rfl, -⟩ := haddr
          have hlast := payloadByte_eq_ok.1 (readAddress_last ha)
          have := (List.getElem?_eq_some_iff.1 hlast).1
          exact .address (by omega) hname (read16_eq_ok.1 htype) (read16_eq_ok.1 hlen) (by omega)
        · rw [if_neg haddr] at h
          exact .other (by omega) hname (read16_eq_ok.1 htype) (read16_eq_ok.1 hlen) (by rwa [hp]) (ih _ h)
      · exact .short (by omega)
  · intro h
    induction h with
    | none => exact ⟨_, rfl⟩
    | short hshort =>
      rw [answersLoop, if_neg (by omega)]
      exact ⟨_, rfl⟩
    | name hnear hname hend =>
      rw [answersLoop, if_pos (by omega), (skipRecordName_eq_ok hn).2 hname, ok_bind, if_pos (by omega)]
      exact ⟨_, rfl⟩
    | @address answers q q' hnear hname htype hlen hle =>
      obtain ⟨a, ha⟩ := readAddress_inside (f := f) (i := q' + 10) (by omega)
      rw [answersLoop, if_pos (by omega), (skipRecordName_eq_ok hn).2 hname, ok_bind, if_neg (by omega), read16_eq_ok.2 htype, ok_bind, read16_eq_ok.2 hlen,
        ok_bind, if_pos ⟨rfl, rfl, by omega⟩, ha, ok_bind]
      exact ⟨_, rfl⟩
    | other hnear hname htype hlen hno hrest ih =>
      have := hlen.inside
      rw [answersLoop, if_pos (by omega), (skipRecordName_eq_ok hn).2 hname, ok_bind, if_neg (by omega), read16_eq_ok.2 htype, ok_bind, read16_eq_ok.2 hlen,
        ok_bind, if_neg (by rwa [hp] at hno)]
      exact ih

theorem isDnsReply_ok (f : Cells) : ∃ reply, isDnsReply f.length f = .ok reply := by
  by_cases hn : f.length < 60
  · exact ⟨false, if_pos hn⟩
  · have hpay : payload = 42 := rfl
    have hword (i : Nat) (hi : i + 1 < f.length - payload) : ∃ w, read16 f i = .ok w := by
      obtain ⟨high, hhigh⟩ := payloadByte_inside (f := f) (i := i) (by rw [List.length_drop]; omega)
      obtain ⟨low, hlow⟩ := payloadByte_inside (f := f) (i := i + 1) (by rw [List.length_drop]; omega)
      exact ⟨_, read16_eq_ok.2 ⟨high, low, payloadByte_eq_ok.1 hhigh, payloadByte_eq_ok.1 hlow, rfl⟩⟩
    obtain ⟨type, htype⟩ := load16_inside (f := f) (i := 12) (by omega)
    obtain ⟨proto, hproto⟩ := peek_inside (f := f) (i := 23) (by omega)
    obtain ⟨src, hsrc⟩ := load16_inside (f := f) (i := 34) (by omega)
    obtain ⟨id, hid⟩ := hword 0 (by omega)
    obtain ⟨answers, hanswers⟩ := hword 6 (by omega)
    refine ⟨decide (swap16 type = 0x0800 ∧ proto = 17 ∧ swap16 src = 53 ∧ id = 0x4221 ∧ answers ≠ 0), ?_⟩
    rw [isDnsReply, if_neg hn, htype, ok_bind, hproto, ok_bind, hsrc, ok_bind, hid, ok_bind, hanswers, ok_bind]

theorem dnsReply_ok_iff (f : Cells) : (∃ r, dnsReply f.length f = .ok r) ↔ AnswerInside f := by
  unfold dnsReply AnswerInside
  obtain ⟨reply, hreply⟩ := isDnsReply_ok f
  rw [hreply, ok_bind]
  cases reply with
  | false => exact ⟨fun _ h => absurd (Except.ok.inj h) (by decide), fun _ => ⟨none, rfl⟩⟩
  | true =>
    have hn : payload ≤ f.length := by
      by_contra hshort
      rw [isDnsReply, if_pos (by have : payload = 42 := rfl; omega)] at hreply
      cases hreply
    rw [if_pos rfl]
    constructor
    · rintro ⟨r, h⟩ -
      obtain ⟨q, hq, h⟩ := bind_eq_ok h
      obtain ⟨answers, hanswers, h⟩ := bind_eq_ok h
      exact ⟨q, answers, (skipName_eq_ok hn _ (by omega)).1 hq, read16_eq_ok.1 hanswers, (answersLoop_ok_iff hn _ _).1 ⟨r, h⟩⟩
    · intro h
      obtain ⟨q, answers, hq, hanswers, hrest⟩ := h rfl
      obtain ⟨r, hr⟩ := (answersLoop_ok_iff hn _ _).2 hrest
      refine ⟨r, ?_⟩
      rw [(skipName_eq_ok hn _ (by omega)).2 hq, ok_bind, read16_eq_ok.2 hanswers, ok_bind, hr]

theorem stable_skipName (got : Nat) : ∀ rounds q : Nat, Cells.Stable (skipName got rounds q)
  | 0, _ => .error _
  | rounds + 1, q => .ite (.bind (stable_payloadByte q) fun _ => .ite (.ok _) (stable_skipName got rounds _)) (.ok _)

theorem stable_skipRecordName (got q : Nat) : Cells.Stable (skipRecordName got q) :=
  .bind (stable_payloadByte q) fun _ => .ite (.ok _) (.bind (stable_skipName _ _ _) fun _ => .ok _)

theorem stable_answersLoop (got : Nat) : ∀ answers q : Nat, Cells.Stable (answersLoop got answers q)
  | 0, _ => .ok _
  | answers + 1, q => by
    refine .ite (.bind (stable_skipRecordName got q) fun q => .ite (.ok _) ?_) (.ok _)
    refine .bind (stable_read16 _) fun type => .bind (stable_read16 _) fun len => ?_
    exact .ite (.bind (stable_readAddress _) fun _ => .ok _) (stable_answersLoop got answers _)

theorem stable_isDnsReply (got : Nat) : Cells.Stable (isDnsReply got) :=
  .ite (.ok _) (.bind (stable_load16 _) fun _ => .bind (.peek _) fun _ => .bind (stable_load16 _) fun _ =>
    .bind (stable_read16 _) fun _ => .bind (stable_read16 _) fun _ => .ok _)

theorem stable_dnsReply (got : Nat) : Cells.Stable (dnsReply got) :=
  .bind (stable_isDnsReply got) fun _ => .ite (.bind (stable_skipName _ _ _) fun _ => .bind (stable_read16 _) fun _ =>
    stable_answersLoop _ _ _) (.ok _)

/-! ## Questions -/

theorem putLabel_fits {frame : Cells} {n : Nat} {label : List UInt8} (h : payload + n + 1 + label.length ≤ frame.length) :
    ∃ frame', putLabel frame n label = .ok frame' ∧ frame'.length = frame.length :=
  Cells.pokes_fits (by rw [List.length_cons]; omega)

theorem putLabel_overruns {frame : Cells} {n : Nat} {label : List UInt8} (h : frame.length < payload + n + 1 + label.length) :
    putLabel frame n label = .error .overrun := Cells.pokes_overruns (List.cons_ne_nil _ _) (by rw [List.length_cons]; omega)

/-- Every character of the name takes one byte of the frame, a dot that of the length before the next label. -/
theorem putLabels_ends (name : List UInt8) : ∀ (label : List UInt8) (n : Nat) (frame : Cells),
    (∃ frame' n' label', putLabels name label n frame = .ok (frame', n', label') ∧ frame'.length = frame.length ∧
      n' + label'.length = n + label.length + name.length) ∨
    putLabels name label n frame = .error .overrun ∧ frame.length < payload + n + label.length + name.length := by
  induction name with
  | nil => exact fun label n frame => .inl ⟨frame, n, label, rfl, rfl, rfl⟩
  | cons c name ih =>
    intro label n frame
    rw [putLabels, List.length_cons]
    by_cases hdot : c = 46
    · rw [if_pos hdot]
      by_cases hfits : payload + n + 1 + label.length ≤ frame.length
      · obtain ⟨frame', hput, hlen⟩ := putLabel_fits hfits
        rw [hput, ok_bind]
        rcases ih [] (n + 1 + label.length) frame' with ⟨frame'', n', label', hrest, hlen', hsum⟩ | ⟨hrest, hover⟩
        · exact .inl ⟨frame'', n', label', hrest, hlen'.trans hlen, by rw [hsum, List.length_nil]; omega⟩
        · exact .inr ⟨hrest, by rw [List.length_nil, hlen] at hover; omega⟩
      · rw [putLabel_overruns (by omega)]
        exact .inr ⟨rfl, by omega⟩
    · rw [if_neg hdot]
      rcases ih (label ++ [c]) n frame with ⟨frame', n', label', hrest, hlen, hsum⟩ | ⟨hrest, hover⟩
      · exact .inl ⟨frame', n', label', hrest, hlen, by rw [hsum, List.length_append, List.length_singleton]; omega⟩
      · exact .inr ⟨hrest, by rw [List.length_append, List.length_singleton] at hover; omega⟩

/-- A question with its twelve bytes in front and its five bytes at the end. -/
theorem dnsQuestion_ends (name : List UInt8) {frame : Cells} (hframe : payload + 12 ≤ frame.length) :
    payload + name.length + 18 ≤ frame.length ∧
      (∃ frame', dnsQuestion name frame = .ok (frame', name.length + 18) ∧ frame'.length = frame.length) ∨
    frame.length < payload + name.length + 18 ∧ dnsQuestion name frame = .error .overrun := by
  unfold dnsQuestion
  obtain ⟨front, hfront, hlen⟩ := @Cells.pokes_fits frame payload [0x42, 0x21, 1, 0, 0, 1, 0, 0, 0, 0, 0, 0] hframe
  rw [hfront, ok_bind]
  rcases putLabels_ends name [] 12 front with ⟨labels, n, label, hlabels, hlen', hsum⟩ | ⟨hlabels, hover⟩
  · rw [hlabels, ok_bind]
    rw [List.length_nil] at hsum
    dsimp only
    by_cases hlast : payload + n + 1 + label.length ≤ labels.length
    · obtain ⟨last, hput, hlen''⟩ := putLabel_fits hlast
      rw [hput, ok_bind]
      by_cases hend : payload + (n + 1 + label.length) + 5 ≤ last.length
      · obtain ⟨all, hall, hlen'''⟩ := @Cells.pokes_fits last _ [0, 0, 1, 0, 1] hend
        refine .inl ⟨by omega, all, ?_, by omega⟩
        rw [hall, ok_bind, show n + 1 + label.length + 5 = name.length + 18 by omega]
      · refine .inr ⟨by omega, ?_⟩
        rw [Cells.pokes_overruns (List.cons_ne_nil _ _) (Nat.lt_of_not_le hend)]
        rfl
    · refine .inr ⟨by omega, ?_⟩
      rw [putLabel_overruns (by omega)]
      rfl
  · rw [hlabels]
    rw [List.length_nil] at hover
    exact .inr ⟨by omega, rfl⟩

/-! ## What stays in bounds -/

/-- A frame in an array of `cap` bytes is read where it was received, and to the same result whatever
lies behind it. -/
def ReadsReceived {α : Type} (cap : Nat) (parse : Cells → Checked α) (f : Cells) : Prop :=
  (∃ r, parse f = .ok r) ∧ Settles cap parse f

/-- DHCP replies are read in bounds but for a cut router option, DNS replies just where their names
and records lie inside of the payload, and a question is built for a name of up to 452 characters. -/
theorem parsers_in_bounds (gateway : UInt32) (f name : Cells) {frame : Cells} (hframe : frame.length = 512) :
    (f.length ≤ 400 →
      (Settles 400 (dhcpReply f.length gateway) f ↔ ¬ RouterCut f) ∧
      (ReadsReceived 400 (dhcpReply f.length gateway) f ↔ ¬ RouterCut f)) ∧
    (f.length ≤ 512 → (ReadsReceived 512 (dnsReply f.length) f ↔ AnswerInside f)) ∧
    ((∃ frame' n, dnsQuestion name frame = .ok (frame', n) ∧ frame'.length = 512) ↔ name.length ≤ 452) := by
  have hdhcp (hcut : ¬ RouterCut f) : ReadsReceived 400 (dhcpReply f.length gateway) f := by
    obtain ⟨r, hr⟩ := dhcpReply_ok hcut gateway
    exact ⟨⟨r, hr⟩, .of_ok (stable_dhcpReply _ _) hr 400⟩
  refine ⟨fun _ => ⟨⟨?_, fun hcut => (hdhcp hcut).2⟩, ?_, hdhcp⟩, fun _ => ⟨?_, ?_⟩, ?_⟩
  · exact fun h hcut => not_settles_cut hcut gateway h
  · exact fun h hcut => not_settles_cut hcut gateway h.2
  · exact fun h => (dnsReply_ok_iff f).1 h.1
  · intro h
    obtain ⟨r, hr⟩ := (dnsReply_ok_iff f).2 h
    exact ⟨⟨r, hr⟩, .of_ok (stable_dnsReply _) hr 512⟩
  · have hpay : payload = 42 := rfl
    rcases @dnsQuestion_ends name frame (by omega) with ⟨hle, frame', hrun, hlen⟩ | ⟨hover, hrun⟩
    · exact ⟨fun _ => by omega, fun _ => ⟨frame', _, hrun, hlen.trans hframe⟩⟩
    · refine ⟨?_, fun h => by omega⟩
      rintro ⟨frame', n, hok, -⟩
      cases hrun.symm.trans hok

theorem parsers_in_bounds_name : ∃ frame' n,
    dnsQuestion [104, 111, 115, 116, 46, 110, 101, 116] (List.replicate 512 0) = .ok (frame', n) ∧ frame'.length = 512 :=
  (@parsers_in_bounds 0 [] [104, 111, 115, 116, 46, 110, 101, 116] (List.replicate 512 0) List.length_replicate).2.2.2 (by decide)

/-- A reply of 300 bytes with a router option in its last four bytes, of which two are the address. -/
def cutReply : Cells :=
  List.replicate 12 0 ++ [8, 0] ++ List.replicate 9 0 ++ [17] ++ List.replicate 10 0 ++ [0, 67] ++ List.replicate 6 0 ++
    [2, 1, 6] ++ List.replicate 237 0 ++ [53, 12] ++ List.replicate 12 0 ++ [3, 4, 10, 0]

/-- A DNS reply of 60 bytes that ends with the name of its question. -/
def cutAnswer : Cells :=
  List.replicate 12 0 ++ [8, 0] ++ List.replicate 9 0 ++ [17] ++ List.replicate 10 0 ++ [0, 53] ++ List.replicate 6 0 ++
    [0x42, 0x21, 0x81, 0x80, 0, 1, 0, 1, 0, 0, 0, 0, 5, 97, 98, 99, 100, 101]

/-- A frame that was received before, with the end of an answer from byte 60 on. -/
def oldAnswer : Cells :=
  List.replicate 60 0 ++ [0, 0, 1, 0, 1, 0xC0, 12, 0, 1, 0, 1, 0, 0, 0, 0, 0, 4, 9, 9, 9, 9] ++ List.replicate 431 0

theorem parsers_out_of_bounds :
    ¬ Settles 400 (dhcpReply cutReply.length 0x0202000A) cutReply ∧
    ¬ Settles 512 (dnsReply cutAnswer.length) cutAnswer ∧
    dnsQuestion (List.replicate 453 97) (List.replicate 512 0) = .error .overrun := by
  refine ⟨?_, ?_, ?_⟩
  · rintro ⟨r, hr⟩
    have hzero := hr (List.replicate 400 0) List.length_replicate
    have hone := hr (List.replicate 400 1) List.length_replicate
    have hzero' : dhcpReply cutReply.length 0x0202000A (received (List.replicate 400 0) cutReply) = .ok (some (0, 0x0A000000)) := by decide +kernel
    have hone' : dhcpReply cutReply.length 0x0202000A (received (List.replicate 400 1) cutReply) = .ok (some (0, 0x0A000101)) := by decide +kernel
    have hsame := Except.ok.inj (hzero'.symm.trans (hzero.trans (hone.symm.trans hone')))
    exact absurd hsame (by decide)
  · rintro ⟨r, hr⟩
    have hzero := hr (List.replicate 512 0) List.length_replicate
    have hold := hr oldAnswer (by simp only [oldAnswer, List.length_append, List.length_replicate, List.length_cons, List.length_nil])
    have hzero' : dnsReply cutAnswer.length (received (List.replicate 512 0) cutAnswer) = .ok none := by decide +kernel
    have hold' : dnsReply cutAnswer.length (received oldAnswer cutAnswer) = .ok (some 0x09090909) := by decide +kernel
    cases Except.ok.inj (hzero'.symm.trans (hzero.trans (hold.symm.trans hold')))
  · rcases @dnsQuestion_ends (List.replicate 453 97) (List.replicate 512 0) (by rw [List.length_replicate]; decide) with ⟨hle, -⟩ | ⟨-, hrun⟩
    · rw [List.length_replicate, List.length_replicate] at hle
      exact absurd hle (by decide)
    · exact hrun

end Barnix.Net
