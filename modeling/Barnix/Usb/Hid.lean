import Barnix.Usb.Pointer
import Barnix.Lib.Words
import Mathlib.Data.List.Monad
import Mathlib.Data.Nat.Bitwise
/-!
# Report descriptors and reports

`usb_hid.c`: a mouse describes the layout of its reports in a descriptor of short
items, and the fields found there are read from every report. Both come from the
device. A byte outside a descriptor or a report reads as `none`.
-/

namespace Barnix.Usb

/-! ## The descriptor -/

structure HidMouseField where
  bit : Nat
  size : Nat
  id : Nat
  kind : Nat
  relative : Bool
  minimum : Int32
  maximum : Int32
deriving DecidableEq

structure HidMouse where
  fields : List HidMouseField
  buttons : UInt32
  reportIds : Bool
deriving DecidableEq

def hidMouseFields : Nat := 64

structure Global where
  page : UInt32
  size : UInt32
  count : UInt32
  id : UInt32
  minimum : Int32
  maximum : Int32

/-- The variables of `hid_mouse_descriptor`. The two stacks have their top in front. -/
structure Parser where
  mouse : HidMouse
  g : Global
  saved : List Global
  offsets : Nat → UInt32
  usages : List UInt32
  umin : UInt32
  umax : UInt32
  haveRange : Bool
  collection : List Bool
  x : Bool
  y : Bool

def Parser.start : Parser :=
  ⟨⟨[], 0, false⟩, ⟨0, 0, 0, 0, 0, 0⟩, [], fun _ => 0, [], 0, 0, false, [], false, false⟩

/-- The data of an item, little endian. -/
def itemValue : List UInt8 → UInt32
  | [] => 0
  | b :: d => b.toUInt32 ||| itemValue d <<< 8

def signedValue (v : UInt32) (bytes : UInt32) : Int32 :=
  (if bytes ≠ 0 ∧ bytes < 4 ∧ v &&& (1 <<< (bytes * 8 - 1)) ≠ 0 then v ||| ~~~((1 <<< (bytes * 8)) - 1) else v).toInt32

def Parser.globalItem (s : Parser) (tag size : Nat) (value : UInt32) : Option Parser :=
  match tag with
  | 0 => some { s with g.page := value }
  | 1 => some { s with g.minimum := signedValue value (UInt32.ofNat size) }
  | 2 => some { s with g.maximum := if s.g.minimum < 0 then signedValue value (UInt32.ofNat size) else value.toInt32 }
  | 7 => if value > 32 then none else some { s with g.size := value }
  | 8 => if value = 0 ∨ value > 255 then none else some { s with g.id := value, mouse.reportIds := true }
  | 9 => if value > 512 then none else some { s with g.count := value }
  | 10 => if s.saved.length = 8 then none else some { s with saved := s.g :: s.saved }
  | 11 =>
    match s.saved with
    | [] => none
    | g :: saved => some { s with g := g, saved := saved }
  | _ => some s

def Parser.localItem (s : Parser) (tag size : Nat) (value : UInt32) : Option Parser :=
  let usage := if size = 4 then value else s.g.page <<< 16 ||| value
  match tag with
  | 0 => if s.usages.length = 64 then none else some { s with usages := s.usages ++ [usage] }
  | 1 => some { s with umin := usage, haveRange := true }
  | 2 => some { s with umax := usage }
  | _ => some s

/-- The usage of the `i`th field of an input item. -/
def Parser.usageAt (s : Parser) (i : Nat) : UInt32 :=
  if s.usages ≠ [] then s.usages.getD (if i < s.usages.length then i else s.usages.length - 1) 0
  else if s.haveRange ∧ s.umin ≤ s.umax ∧ UInt32.ofNat i ≤ s.umax - s.umin then s.umin + UInt32.ofNat i
  else 0

def kindOf (u : UInt32) : Nat :=
  if u = 0x10030 then 1
  else if u = 0x10031 then 2
  else if u = 0x10038 then 3
  else if u = 0xc0238 then 4
  else if 0x90001 ≤ u ∧ u ≤ 0x90005 then 10 + (u &&& 0xffff).toNat
  else 0

/-- The report with id `id` is `v` bits long. -/
def Parser.extend (s : Parser) (id : Nat) (v : UInt32) : Parser := { s with offsets := Function.update s.offsets id v }

def Parser.addField (value : UInt32) (s : Parser) (i : Nat) : Option Parser :=
  let kind := kindOf (s.usageAt i)
  if kind = 0 then some s
  else if s.mouse.fields.length = hidMouseFields then none
  else
    -- the struct keeps the bit in 16 bits, the size and the id in 8
    let bit := s.offsets s.g.id.toNat + UInt32.ofNat i * s.g.size
    let f : HidMouseField := ⟨bit.toNat % 2 ^ 16, s.g.size.toNat % 2 ^ 8, s.g.id.toNat % 2 ^ 8, kind, value &&& 4 ≠ 0,
      s.g.minimum, s.g.maximum⟩
    some { s with mouse.fields := s.mouse.fields ++ [f], x := s.x || kind == 1, y := s.y || kind == 2 }

/-- The fields of an input item: only data variables in a collection of a mouse or a pointer count. -/
def Parser.addFields (s : Parser) (value : UInt32) : Option Parser :=
  if value &&& 1 = 0 ∧ value &&& 2 ≠ 0 ∧ s.collection.headD false then
    (List.range s.g.count.toNat).foldlM (Parser.addField value) s
  else some s

def Parser.inputItem (s : Parser) (value : UInt32) : Option Parser :=
  let id := s.g.id.toNat
  if s.g.size = 0 ∨ s.g.size * s.g.count > 4096 - s.offsets id then none
  else (s.addFields value).map fun t => t.extend id (t.offsets id + t.g.size * t.g.count)

def Parser.mainItem (s : Parser) (tag : Nat) (value : UInt32) : Option Parser :=
  match tag with
  | 10 =>
    if s.collection.length = 16 then none
    else
      let u := if s.usages ≠ [] then s.usages.getD 0 0 else s.umin
      some { s with collection := (s.collection.headD false || value == 1 && (u == 0x10002 || u == 0x10001)) :: s.collection }
  | 12 =>
    match s.collection with
    | [] => none
    | _ :: collection => some { s with collection := collection }
  | 8 => s.inputItem value
  | _ => some s

def Parser.item (s : Parser) (type tag size : Nat) (value : UInt32) : Option Parser :=
  match type with
  | 1 => s.globalItem tag size value
  | 2 => s.localItem tag size value
  | 0 => (s.mainItem tag value).map fun s => { s with usages := [], umin := 0, umax := 0, haveRange := false }
  | _ => some s

def itemSize (lead : UInt8) : Nat := if lead &&& 3 = 3 then 4 else (lead &&& 3).toNat

/-- The items from the rest of the descriptor on. -/
def Parser.items : Nat → Parser → List UInt8 → Option Parser
  | _, s, [] => some s
  | 0, _, _ :: _ => none
  | n + 1, s, lead :: d =>
    if lead = 0xfe then none
    else if itemSize lead > d.length then none
    else do
      let s ← s.item ((lead >>> 2) &&& 3).toNat (lead >>> 4).toNat (itemSize lead) (itemValue (d.take (itemSize lead)))
      Parser.items n s (d.drop (itemSize lead))

def hidMouseDescriptor (d : List UInt8) : Option HidMouse :=
  if d = [] ∨ d.length > 4096 then none
  else do
    let s ← Parser.start.items d.length d
    if s.collection ≠ [] ∨ s.saved ≠ [] ∨ !s.x ∨ !s.y then none
    else if s.mouse.reportIds ∧ s.mouse.fields.any (fun f => f.id == 0) then none
    else some s.mouse

/-! ## The report -/

/-- Bit `i` of a report. -/
def bitAt (p : List UInt8) (i : Nat) : Option UInt32 := do
  let byte ← p[i / 8]?
  some ((byte.toUInt32 >>> UInt32.ofNat (i % 8)) &&& 1)

def valueAt (p : List UInt8) (f : HidMouseField) : Option Int32 := do
  let v ← (List.range f.size).foldlM (fun v i => (bitAt p (f.bit + i)).map fun b => v ||| b <<< UInt32.ofNat i) (0 : UInt32)
  let size := UInt32.ofNat f.size
  some (if f.minimum < 0 ∧ f.size < 32 ∧ v &&& (1 <<< (size - 1)) ≠ 0 then v ||| ~~~((1 <<< size) - 1) else v).toInt32

/-- `position` and `range` halved until the range has 16 bits. -/
def halved (range position : UInt32) : UInt32 × UInt32 :=
  if range > 65535 then halved (range >>> 1) (position >>> 1) else (range, position)
termination_by range.toNat
decreasing_by
  rename_i h
  have := UInt32.lt_iff_toNat_lt.1 h
  simp only [UInt32.toNat_shiftRight, UInt32.reduceToNat, Nat.shiftRight_eq_div_pow, Nat.reduceMod, Nat.pow_one] at this ⊢
  omega

def absolute (value low high pixels : Int32) : Int32 :=
  if high ≤ low then 0
  else if value ≤ low then 0
  else if value ≥ high then pixels - 1
  else
    let (range, position) := halved (high.toUInt32 - low.toUInt32) (value.toUInt32 - low.toUInt32)
    (position * (pixels - 1).toUInt32 / range).toInt32

/-- What a report says: the variables of `hid_mouse_report`. -/
structure Motion where
  dx : Int32
  dy : Int32
  wheel : Int32
  pan : Int32
  buttons : UInt32

/-- What field `f` says when its value is `v`. -/
def Motion.take (current : BarnixMouse) (r : Motion) (f : HidMouseField) (v : Int32) : Motion :=
  if 11 ≤ f.kind ∧ f.kind ≤ 15 then
    let bit : UInt32 := 1 <<< UInt32.ofNat (f.kind - 11)
    { r with buttons := if v ≠ 0 then r.buttons ||| bit else r.buttons &&& ~~~bit }
  else if f.kind = 1 then
    { r with dx := if f.relative then v else absolute v f.minimum f.maximum 640 - current.x }
  else if f.kind = 2 then
    { r with dy := if f.relative then v else absolute v f.minimum f.maximum 400 - current.y }
  else if f.kind = 3 then { r with wheel := v }
  else if f.kind = 4 then { r with pan := v }
  else r

def hidMouseReport (m : HidMouse) (source : Nat) (report : List UInt8) (s : Pointer) :
    Option (Bool × HidMouse × Pointer) :=
  match report with
  | [] => some (false, m, s)
  | lead :: rest =>
    let id := if m.reportIds then lead.toNat else 0
    let p := if m.reportIds then rest else lead :: rest
    let length := UInt32.ofNat p.length
    let mine := m.fields.filter fun f => f.id == id
    if mine.any fun f => UInt32.ofNat (f.bit + f.size) > length * 8 then some (false, m, s)
    else if mine = [] then some (false, m, s)
    else do
      let r ← mine.foldlM (fun (r : Motion) f => (valueAt p f).map (r.take s.mouse f)) ⟨0, 0, 0, 0, m.buttons⟩
      let (changed, t) := mouseSource source true r.dx r.dy r.buttons r.wheel r.pan s
      some (changed, { m with buttons := r.buttons }, t)

/-! ## What is kept of a descriptor -/

structure Global.Valid (g : Global) (reportIds : Bool) : Prop where
  size : g.size.toNat ≤ 32
  count : g.count.toNat ≤ 512
  id : g.id.toNat ≤ 255
  ids : g.id ≠ 0 → reportIds

/-- What holds between two items: the fields of each report lie behind one another, up to where
the next one starts. -/
structure Parser.Valid (s : Parser) : Prop where
  current : s.g.Valid s.mouse.reportIds
  saved : ∀ g ∈ s.saved, g.Valid s.mouse.reportIds
  offsets : ∀ i, (s.offsets i).toNat ≤ 4096
  sizes : ∀ f ∈ s.mouse.fields, 1 ≤ f.size ∧ f.size ≤ 32
  ends : ∀ f ∈ s.mouse.fields, f.bit + f.size ≤ (s.offsets f.id).toNat
  apart : s.mouse.fields.Pairwise fun f g => f.id = g.id → f.bit + f.size ≤ g.bit
  ids : ∀ f ∈ s.mouse.fields, f.id ≠ 0 → s.mouse.reportIds
  x : s.x → ∃ f ∈ s.mouse.fields, f.kind = 1
  y : s.y → ∃ f ∈ s.mouse.fields, f.kind = 2

theorem Parser.valid_start : Parser.start.Valid := by
  refine ⟨⟨?_, ?_, ?_, ?_⟩, ?_, ?_, ?_, ?_, .nil, ?_, ?_, ?_⟩ <;> simp [Parser.start]

theorem Global.Valid.mono {g : Global} {a b : Bool} (h : g.Valid a) (hab : a → b) : g.Valid b :=
  ⟨h.size, h.count, h.id, fun hid => hab (h.ids hid)⟩

theorem Parser.Valid.globalItem {s t : Parser} (h : s.Valid) {tag size : Nat} {value : UInt32}
    (ht : s.globalItem tag size value = some t) : t.Valid := by
  have hnew : ∀ g : Global, g.Valid s.mouse.reportIds → Parser.Valid { s with g := g } := fun g hg =>
    ⟨hg, h.saved, h.offsets, h.sizes, h.ends, h.apart, h.ids, h.x, h.y⟩
  unfold Parser.globalItem at ht
  split at ht
  · obtain rfl := Option.some.inj ht
    exact hnew _ ⟨h.current.size, h.current.count, h.current.id, h.current.ids⟩
  · obtain rfl := Option.some.inj ht
    exact hnew _ ⟨h.current.size, h.current.count, h.current.id, h.current.ids⟩
  · obtain rfl := Option.some.inj ht
    exact hnew _ ⟨h.current.size, h.current.count, h.current.id, h.current.ids⟩
  · split at ht
    · cases ht
    rename_i hsize
    obtain rfl := Option.some.inj ht
    exact hnew _ ⟨UInt32.le_iff_toNat_le.1 (UInt32.not_lt.1 hsize), h.current.count, h.current.id, h.current.ids⟩
  · split at ht
    · cases ht
    rename_i hid
    obtain rfl := Option.some.inj ht
    have hid' := UInt32.le_iff_toNat_le.1 (UInt32.not_lt.1 (not_or.1 hid).2)
    exact ⟨⟨h.current.size, h.current.count, hid', fun _ => rfl⟩, fun g hg => (h.saved g hg).mono fun _ => rfl, h.offsets, h.sizes,
      h.ends, h.apart, fun _ _ _ => rfl, h.x, h.y⟩
  · split at ht
    · cases ht
    rename_i hcount
    obtain rfl := Option.some.inj ht
    exact hnew _ ⟨h.current.size, UInt32.le_iff_toNat_le.1 (UInt32.not_lt.1 hcount), h.current.id, h.current.ids⟩
  · split at ht
    · cases ht
    obtain rfl := Option.some.inj ht
    refine ⟨h.current, fun g hg => ?_, h.offsets, h.sizes, h.ends, h.apart, h.ids, h.x, h.y⟩
    rcases List.mem_cons.1 hg with rfl | hg
    · exact h.current
    · exact h.saved g hg
  · split at ht
    · cases ht
    rename_i g saved hsaved
    obtain rfl := Option.some.inj ht
    have hall := hsaved ▸ h.saved
    exact ⟨hall g (List.mem_cons_self ..), fun g' hg => hall g' (List.mem_cons_of_mem _ hg), h.offsets, h.sizes, h.ends, h.apart, h.ids,
      h.x, h.y⟩
  · obtain rfl := Option.some.inj ht
    exact h

/-- The local state, and the nesting of collections, matter to no field that is there. -/
theorem Parser.Valid.locals {s t : Parser} (h : s.Valid) (hm : t.mouse = s.mouse) (hg : t.g = s.g) (hsaved : t.saved = s.saved)
    (hoffsets : t.offsets = s.offsets) (hx : t.x = s.x) (hy : t.y = s.y) : t.Valid := by
  cases s
  cases t
  dsimp only at *
  subst hm hg hsaved hoffsets hx hy
  exact ⟨h.current, h.saved, h.offsets, h.sizes, h.ends, h.apart, h.ids, h.x, h.y⟩

theorem Parser.Valid.localItem {s t : Parser} (h : s.Valid) {tag size : Nat} {value : UInt32}
    (ht : s.localItem tag size value = some t) : t.Valid := by
  unfold Parser.localItem at ht
  dsimp only at ht
  split at ht
  · split at ht
    · cases ht
    obtain rfl := Option.some.inj ht
    exact h.locals rfl rfl rfl rfl rfl rfl
  · obtain rfl := Option.some.inj ht
    exact h.locals rfl rfl rfl rfl rfl rfl
  · obtain rfl := Option.some.inj ht
    exact h.locals rfl rfl rfl rfl rfl rfl
  · obtain rfl := Option.some.inj ht
    exact h

theorem Parser.Valid.extend {s : Parser} (h : s.Valid) {id : Nat} {v : UInt32} (hlonger : (s.offsets id).toNat ≤ v.toNat)
    (hmax : v.toNat ≤ 4096) : (s.extend id v).Valid := by
  have hgrows : ∀ i, (s.offsets i).toNat ≤ ((s.extend id v).offsets i).toNat := fun i => by
    by_cases hi : i = id
    · simp [Parser.extend, hi, hlonger]
    · simp [Parser.extend, hi]
  refine ⟨h.current, h.saved, fun i => ?_, h.sizes, fun f hf => Nat.le_trans (h.ends f hf) (hgrows f.id), h.apart, h.ids, h.x, h.y⟩
  by_cases hi : i = id
  · simp [Parser.extend, hi, hmax]
  · simpa [Parser.extend, hi] using h.offsets i

/-- What every step of a loop keeps, holds at its end. -/
theorem foldlM_range {σ : Type} {f : σ → Nat → Option σ} {P : Nat → σ → Prop} : ∀ {n : Nat} {s t : σ}, P 0 s →
    (∀ i s t, i < n → P i s → f s i = some t → P (i + 1) t) → (List.range n).foldlM f s = some t → P n t
  | 0, s, t, h0, _, ht => Option.some.inj ht ▸ h0
  | n + 1, s, t, h0, hstep, ht => by
    rw [List.range_succ, List.foldlM_append] at ht
    obtain ⟨u, hu, hut⟩ := Option.bind_eq_some_iff.1 ht
    have hn := foldlM_range (n := n) h0 (fun i s t hi => hstep i s t (by omega)) hu
    rw [List.foldlM_cons] at hut
    obtain ⟨v, hv, hvt⟩ := Option.bind_eq_some_iff.1 hut
    exact Option.some.inj hvt ▸ hstep n u v (Nat.lt_succ_self n) hn hv

/-- The offset of the `i`th field of an input item. -/
def Parser.reach (s : Parser) (i : Nat) : UInt32 := s.offsets s.g.id.toNat + UInt32.ofNat i * s.g.size

theorem Parser.toNat_reach {s : Parser} (h : s.Valid) {i : Nat} (hi : i ≤ 512) :
    (s.reach i).toNat = (s.offsets s.g.id.toNat).toNat + i * s.g.size.toNat := by
  have hsize := h.current.size
  have hoffset := h.offsets s.g.id.toNat
  have hmul : i * s.g.size.toNat ≤ 512 * 32 := Nat.mul_le_mul hi hsize
  rw [Parser.reach, UInt32.toNat_add, UInt32.toNat_mul, UInt32.toNat_ofNat_of_lt' (by simp only [UInt32.size]; omega),
    Nat.mod_eq_of_lt (a := i * _) (by omega), Nat.mod_eq_of_lt (by omega)]

/-- One more field, where the report ended. -/
theorem Parser.Valid.append {s : Parser} (h : s.Valid) {f : HidMouseField} {id : Nat} {v : UInt32} (hid : f.id = id)
    (hsize : 1 ≤ f.size ∧ f.size ≤ 32) (hbit : f.bit = (s.offsets id).toNat) (hends : f.bit + f.size = v.toNat) (hmax : v.toNat ≤ 4096)
    (hids : f.id ≠ 0 → s.mouse.reportIds) :
    Parser.Valid { s.extend id v with
      mouse.fields := s.mouse.fields ++ [f], x := s.x || f.kind == 1, y := s.y || f.kind == 2 } := by
  have hlonger := @Parser.Valid.extend s h id v (by omega) hmax
  refine ⟨h.current, h.saved, hlonger.offsets, fun f' hf => ?_, fun f' hf => ?_, ?_, fun f' hf => ?_, fun hx => ?_, fun hy => ?_⟩
  · rcases List.mem_append.1 hf with hf | hf
    · exact h.sizes f' hf
    · exact List.mem_singleton.1 hf ▸ hsize
  · rcases List.mem_append.1 hf with hf | hf
    · exact hlonger.ends f' hf
    · rw [List.mem_singleton.1 hf]
      simp [Parser.extend, hid, hends]
  · refine List.pairwise_append.2 ⟨h.apart, List.pairwise_singleton _ _, fun f' hf g hg hsame => ?_⟩
    rw [List.mem_singleton.1 hg] at hsame ⊢
    rw [hbit, ← hid, ← hsame]
    exact h.ends f' hf
  · rcases List.mem_append.1 hf with hf | hf
    · exact h.ids f' hf
    · exact List.mem_singleton.1 hf ▸ hids
  · rcases Bool.or_eq_true_iff.1 hx with hx | hx
    · obtain ⟨f', hf, hkind⟩ := h.x hx
      exact ⟨f', List.mem_append_left _ hf, hkind⟩
    · exact ⟨f, List.mem_append_right _ (List.mem_singleton_self f), by simpa using hx⟩
  · rcases Bool.or_eq_true_iff.1 hy with hy | hy
    · obtain ⟨f', hf, hkind⟩ := h.y hy
      exact ⟨f', List.mem_append_left _ hf, hkind⟩
    · exact ⟨f, List.mem_append_right _ (List.mem_singleton_self f), by simpa using hy⟩

theorem Parser.extend_extend (s : Parser) (id : Nat) (a b : UInt32) : (s.extend id a).extend id b = s.extend id b := by
  simp [Parser.extend]

/-- What a field adds reaches from the `i`th offset to the next one. -/
theorem Parser.Valid.addField {t u : Parser} {i : Nat} {value : UInt32} (h : (t.extend t.g.id.toNat (t.reach i)).Valid)
    (hnext : (t.reach (i + 1)).toNat = (t.reach i).toNat + t.g.size.toNat) (hsize : 0 < t.g.size.toNat)
    (hmax : (t.reach (i + 1)).toNat ≤ 4096) (hu : t.addField value i = some u) :
    u.g = t.g ∧ u.offsets = t.offsets ∧ (u.extend t.g.id.toNat (t.reach (i + 1))).Valid := by
  have hbit : t.offsets t.g.id.toNat + UInt32.ofNat i * t.g.size = t.reach i := rfl
  have hsmall := h.current.size
  have hid := h.current.id
  have hids := h.current.ids
  simp only [Parser.extend] at hsmall hid hids
  unfold Parser.addField at hu
  rw [hbit] at hu
  dsimp only at hu
  split at hu
  · obtain rfl := Option.some.inj hu
    refine ⟨rfl, rfl, ?_⟩
    rw [← extend_extend _ _ (t.reach i)]
    exact h.extend (by simp [Parser.extend]; omega) hmax
  split at hu
  · cases hu
  obtain rfl := Option.some.inj hu
  refine ⟨rfl, rfl, ?_⟩
  have hmod16 : (t.reach i).toNat % 2 ^ 16 = (t.reach i).toNat := Nat.mod_eq_of_lt (by omega)
  have hmod8 : t.g.size.toNat % 2 ^ 8 = t.g.size.toNat := Nat.mod_eq_of_lt (by omega)
  have hmodid : t.g.id.toNat % 2 ^ 8 = t.g.id.toNat := Nat.mod_eq_of_lt (by omega)
  have happend := h.append (v := t.reach (i + 1)) (f := ⟨(t.reach i).toNat % 2 ^ 16, t.g.size.toNat % 2 ^ 8, t.g.id.toNat % 2 ^ 8,
    kindOf (t.usageAt i), value &&& 4 ≠ 0, t.g.minimum, t.g.maximum⟩) hmodid (by dsimp only; omega)
    (by simp [Parser.extend]; omega) (by dsimp only; omega) hmax
    (fun hne => hids fun hzero => hne (by rw [hzero]; rfl))
  rw [extend_extend] at happend
  exact happend

/-- The fields of an input item that are there before the `i`th. -/
structure Parser.Filling (s : Parser) (i : Nat) (t : Parser) : Prop where
  g : t.g = s.g
  offsets : t.offsets = s.offsets
  valid : (t.extend s.g.id.toNat (s.reach i)).Valid

theorem Parser.Filling.addField {s t u : Parser} {i : Nat} {value : UInt32} (h : s.Valid) (hi : i < s.g.count.toNat)
    (hsize : 0 < s.g.size.toNat) (hroom : (s.reach (i + 1)).toNat ≤ 4096) (ht : s.Filling i t) (hu : t.addField value i = some u) :
    s.Filling (i + 1) u := by
  have hcount := h.current.count
  have hreach : t.reach = s.reach := by
    funext i
    rw [Parser.reach, Parser.reach, ht.g, ht.offsets]
  have hnext : (s.reach (i + 1)).toNat = (s.reach i).toNat + s.g.size.toNat := by
    rw [toNat_reach h (by omega), toNat_reach h (by omega), Nat.add_one_mul, Nat.add_assoc]
  have hstep := Valid.addField (by rw [ht.g, hreach]; exact ht.valid) (by rw [ht.g, hreach]; exact hnext) (by rw [ht.g]; exact hsize)
    (by rw [hreach]; exact hroom) hu
  rw [ht.g, ht.offsets, hreach] at hstep
  exact ⟨hstep.1, hstep.2.1, hstep.2.2⟩

theorem Parser.Valid.inputItem {s t : Parser} (h : s.Valid) {value : UInt32} (ht : s.inputItem value = some t) : t.Valid := by
  unfold Parser.inputItem at ht
  dsimp only at ht
  split at ht
  · cases ht
  rename_i hfits
  obtain ⟨hsize, hfits⟩ := not_or.1 hfits
  have hsize' : 0 < s.g.size.toNat := Nat.pos_of_ne_zero fun hzero => hsize (UInt32.toNat_inj.1 hzero)
  have hcount := h.current.count
  have hsmall := h.current.size
  have hoffset := h.offsets s.g.id.toNat
  have hmul : s.g.size.toNat * s.g.count.toNat ≤ 32 * 512 := Nat.mul_le_mul hsmall hcount
  have hfits' : s.g.size.toNat * s.g.count.toNat ≤ 4096 - (s.offsets s.g.id.toNat).toNat := by
    have := UInt32.le_iff_toNat_le.1 (UInt32.not_lt.1 hfits)
    rwa [UInt32.toNat_mul, Nat.mod_eq_of_lt (by omega), UInt32.toNat_sub_of_le _ _ (UInt32.le_iff_toNat_le.2 hoffset)] at this
  have hroom : ∀ i, i ≤ s.g.count.toNat → (s.reach i).toNat ≤ 4096 := fun i hi => by
    have hmono := Nat.mul_le_mul_right s.g.size.toNat hi
    rw [toNat_reach h (by omega)]
    rw [Nat.mul_comm] at hfits'
    omega
  obtain ⟨u, hu, hend⟩ := Option.map_eq_some_iff.1 ht
  have hreach : s.reach s.g.count.toNat = s.offsets s.g.id.toNat + s.g.size * s.g.count := by
    rw [Parser.reach, UInt32.ofNat_toNat, UInt32.mul_comm]
  have hfilled : s.Filling s.g.count.toNat u := by
    unfold Parser.addFields at hu
    split at hu
    · refine foldlM_range (P := s.Filling) ⟨rfl, rfl, ?_⟩
        (fun i t u hi ht hu => ht.addField h hi hsize' (hroom _ hi) hu) hu
      exact h.extend (by rw [toNat_reach h (Nat.zero_le _)]; omega) (hroom 0 (Nat.zero_le _))
    · obtain rfl := Option.some.inj hu
      exact ⟨rfl, rfl, h.extend (by rw [toNat_reach h hcount]; omega) (hroom _ (Nat.le_refl _))⟩
  rw [← hend, hfilled.offsets, hfilled.g, ← hreach]
  exact hfilled.valid

theorem Parser.Valid.mainItem {s t : Parser} (h : s.Valid) {tag : Nat} {value : UInt32} (ht : s.mainItem tag value = some t) : t.Valid := by
  unfold Parser.mainItem at ht
  split at ht
  · split at ht
    · cases ht
    obtain rfl := Option.some.inj ht
    exact h.locals rfl rfl rfl rfl rfl rfl
  · split at ht
    · cases ht
    obtain rfl := Option.some.inj ht
    exact h.locals rfl rfl rfl rfl rfl rfl
  · exact h.inputItem ht
  · obtain rfl := Option.some.inj ht
    exact h

theorem Parser.Valid.item {s t : Parser} (h : s.Valid) {type tag size : Nat} {value : UInt32}
    (ht : s.item type tag size value = some t) : t.Valid := by
  unfold Parser.item at ht
  split at ht
  · exact h.globalItem ht
  · exact h.localItem ht
  · obtain ⟨u, hu, rfl⟩ := Option.map_eq_some_iff.1 ht
    exact (h.mainItem hu).locals rfl rfl rfl rfl rfl rfl
  · obtain rfl := Option.some.inj ht
    exact h

theorem Parser.Valid.items : ∀ {n : Nat} {s t : Parser} {d : List UInt8}, s.Valid → s.items n d = some t → t.Valid
  | 0, s, t, [], h, ht => Option.some.inj ht ▸ h
  | _ + 1, s, t, [], h, ht => Option.some.inj ht ▸ h
  | 0, _, _, _ :: _, _, ht => by cases ht
  | n + 1, s, t, lead :: d, h, ht => by
    unfold Parser.items at ht
    split at ht
    · cases ht
    split at ht
    · cases ht
    obtain ⟨u, hu, hut⟩ := Option.bind_eq_some_iff.1 ht
    exact (h.item hu).items hut

/-- The fuel of `items` is enough: each item takes a byte at least. -/
theorem Parser.items_fuel : ∀ {n k : Nat} {s : Parser} {d : List UInt8}, d.length ≤ n → d.length ≤ k → s.items n d = s.items k d
  | 0, 0, _, _, _, _ => rfl
  | 0, _ + 1, _, [], _, _ => rfl
  | _ + 1, 0, _, [], _, _ => rfl
  | _ + 1, _ + 1, _, [], _, _ => rfl
  | n + 1, k + 1, s, lead :: d, hn, hk => by
    rw [List.length_cons] at hn hk
    unfold Parser.items
    split
    · rfl
    split
    · rfl
    refine congrArg (Option.bind _) ?_
    funext t
    exact items_fuel (by rw [List.length_drop]; omega) (by rw [List.length_drop]; omega)

/-! ## The numbers in a report -/

/-- A report as one number, the first byte the lowest. -/
def littleEndian : List UInt8 → Nat
  | [] => 0
  | b :: p => b.toNat + 256 * littleEndian p

theorem testBit_littleEndian (p : List UInt8) (i : Nat) :
    (littleEndian p).testBit i = ((p[i / 8]?).map fun b => b.toNat.testBit (i % 8)).getD false := by
  induction p generalizing i with
  | nil => simp [littleEndian]
  | cons b p ih =>
    have hsplit : littleEndian (b :: p) = 2 ^ 8 * littleEndian p + b.toNat := Nat.add_comm _ _
    rw [hsplit, Nat.testBit_two_pow_mul_add _ b.toNat_lt]
    by_cases hi : i < 8
    · rw [if_pos hi, Nat.div_eq_of_lt hi, Nat.mod_eq_of_lt hi]
      rfl
    · rw [if_neg hi, ih]
      have hdiv : i / 8 = (i - 8) / 8 + 1 := by omega
      have hmod : i % 8 = (i - 8) % 8 := by omega
      rw [hdiv, hmod]
      rfl

theorem bitAt_eq {p : List UInt8} {i : Nat} (h : i < 8 * p.length) :
    ∃ b : UInt32, bitAt p i = some b ∧ b.toNat = ((littleEndian p).testBit i).toNat := by
  have hlt : i / 8 < p.length := by omega
  refine ⟨_, by rw [bitAt, List.getElem?_eq_getElem hlt]; rfl, ?_⟩
  rw [testBit_littleEndian, List.getElem?_eq_getElem hlt]
  have hmod : i % 8 % 2 ^ 32 % 32 = i % 8 := by omega
  simp only [UInt32.toNat_and, UInt32.toNat_shiftRight, UInt8.toNat_toUInt32, UInt32.toNat_ofNat', UInt32.toNat_one, hmod,
    Option.map_some, Option.getD_some, Nat.and_one_is_mod, Nat.testBit_eq_decide_div_mod_eq, Nat.shiftRight_eq_div_pow]
  rcases Nat.mod_two_eq_zero_or_one (p[i / 8].toNat / 2 ^ (i % 8)) with h | h <;> simp [h]

/-- The lowest `n` bits of a field. -/
theorem foldlM_bitAt {p : List UInt8} {bit : Nat} : ∀ {n : Nat}, n ≤ 32 → bit + n ≤ 8 * p.length → ∃ v : UInt32,
    (List.range n).foldlM (fun v i => (bitAt p (bit + i)).map fun b => v ||| b <<< UInt32.ofNat i) (0 : UInt32) = some v ∧
      v.toNat = littleEndian p / 2 ^ bit % 2 ^ n
  | 0, _, _ => ⟨0, rfl, by simp [Nat.mod_one]⟩
  | n + 1, hn, hbits => by
    obtain ⟨v, hv, hlow⟩ := foldlM_bitAt (p := p) (n := n) (by omega) (by omega : bit + n ≤ _)
    obtain ⟨b, hb, hbit⟩ := bitAt_eq (p := p) (i := bit + n) (by omega)
    refine ⟨v ||| b <<< UInt32.ofNat n, ?_, ?_⟩
    · rw [List.range_succ, List.foldlM_append, hv]
      simp [hb]
    · have hvlt : v.toNat < 2 ^ n := hlow ▸ Nat.mod_lt _ (Nat.two_pow_pos n)
      have hshift : n % 2 ^ 32 % 32 = n := by omega
      have hone : b.toNat ≤ 1 := hbit ▸ Bool.toNat_le _
      have hpow : 2 ^ n ≤ 2 ^ 31 := Nat.pow_le_pow_right (by decide) (by omega)
      have hfits : b.toNat * 2 ^ n % 2 ^ 32 = 2 ^ n * b.toNat := by
        rw [Nat.mod_eq_of_lt, Nat.mul_comm]
        calc b.toNat * 2 ^ n ≤ 1 * 2 ^ n := Nat.mul_le_mul_right _ hone
          _ < 2 ^ 32 := by omega
      rw [Nat.mod_pow_succ, ← hlow, ← Nat.toNat_testBit, Nat.testBit_div_two_pow, Nat.add_comm n bit, ← hbit, UInt32.toNat_or, UInt32.toNat_shiftLeft, UInt32.toNat_ofNat', hshift,
        Nat.shiftLeft_eq, hfits, Nat.or_comm, ← Nat.two_pow_add_eq_or_of_lt hvlt, Nat.add_comm]

theorem toInt32_eq (v : UInt32) : v.toInt32 = Int32.ofInt v.toNat := by
  apply Int32.toBitVec.inj
  simp

/-- The number in a field of a report: its bits, with the sign of a field that may be negative. -/
def HidMouseField.packed (f : HidMouseField) (p : List UInt8) : Int :=
  let n := littleEndian p / 2 ^ f.bit % 2 ^ f.size
  if f.minimum < 0 ∧ 2 ^ (f.size - 1) ≤ n then (n : Int) - 2 ^ f.size else n

theorem toNat_one_shiftLeft {n : Nat} (h : n < 32) : ((1 : UInt32) <<< UInt32.ofNat n).toNat = 2 ^ n := by
  have hmod : n % 2 ^ 32 % 32 = n := by omega
  rw [UInt32.toNat_shiftLeft, UInt32.toNat_ofNat', hmod, UInt32.toNat_one, Nat.one_shiftLeft]
  exact Nat.mod_eq_of_lt (Nat.pow_lt_pow_right (by decide) h)

/-- `v |= ~((1U << size) - 1)` -/
theorem toNat_extend {v : UInt32} {n : Nat} (h : n < 32) (hv : v.toNat < 2 ^ n) :
    (v ||| ~~~(((1 : UInt32) <<< UInt32.ofNat n) - 1)).toNat = v.toNat + (2 ^ 32 - 2 ^ n) := by
  have hpow : 2 ^ n ≤ 2 ^ 31 := Nat.pow_le_pow_right (by decide) (by omega)
  have hpos : 0 < 2 ^ n := Nat.two_pow_pos n
  have hmask : (~~~(((1 : UInt32) <<< UInt32.ofNat n) - 1)).toNat = 2 ^ n * (2 ^ (32 - n) - 1) := by
    rw [UInt32.toNat_not, UInt32.toNat_sub_of_le, toNat_one_shiftLeft h, UInt32.toNat_one, Nat.mul_sub, ← pow_add]
    · have : n + (32 - n) = 32 := by omega
      rw [this]
      simp only [UInt32.size]
      omega
    · rw [UInt32.le_iff_toNat_le, toNat_one_shiftLeft h, UInt32.toNat_one]
      exact hpos
  rw [UInt32.toNat_or, hmask, Nat.or_comm, ← Nat.two_pow_add_eq_or_of_lt hv, Nat.mul_sub, ← pow_add]
  have : n + (32 - n) = 32 := by omega
  rw [this]
  omega

theorem and_top_ne_zero {v : UInt32} {n : Nat} (h0 : 0 < n) (h : n < 32) (hv : v.toNat < 2 ^ n) :
    v &&& ((1 : UInt32) <<< (UInt32.ofNat n - 1)) ≠ 0 ↔ 2 ^ (n - 1) ≤ v.toNat := by
  have hpred : UInt32.ofNat n - 1 = UInt32.ofNat (n - 1) := by
    apply UInt32.toNat_inj.1
    rw [UInt32.toNat_sub_of_le]
    · simp
      omega
    · rw [UInt32.le_iff_toNat_le]
      simp
      omega
  rw [hpred, Ne, ← UInt32.toNat_inj, UInt32.toNat_and, toNat_one_shiftLeft (by omega), UInt32.toNat_zero, Nat.and_two_pow]
  have hdouble : 2 ^ n = 2 * 2 ^ (n - 1) := by
    rw [← Nat.pow_succ']
    congr
    omega
  have htop : v.toNat.testBit (n - 1) = decide (2 ^ (n - 1) ≤ v.toNat) := by
    by_cases hle : 2 ^ (n - 1) ≤ v.toNat
    · rw [Nat.testBit_eq_decide_div_mod_eq, Nat.div_eq_of_lt_le (k := 1) (by omega) (by omega)]
      simp [hle]
    · rw [Nat.testBit_lt_two_pow (by omega)]
      simp [hle]
  rw [htop]
  by_cases hle : 2 ^ (n - 1) ≤ v.toNat <;> simp [hle]

theorem ofInt_add_size (n : Int) : Int32.ofInt (n + 2 ^ 32) = Int32.ofInt n := by
  apply Int32.toInt.inj
  rw [Int32.toInt_ofInt, Int32.toInt_ofInt]
  exact Int.add_bmod_right n (2 ^ 32)

/-- A field that lies in the report is the number packed there. -/
theorem valueAt_eq {p : List UInt8} {f : HidMouseField} (h0 : 0 < f.size) (hsize : f.size ≤ 32) (hbits : f.bit + f.size ≤ 8 * p.length) :
    valueAt p f = some (Int32.ofInt (f.packed p)) := by
  obtain ⟨v, hv, hlow⟩ := @foldlM_bitAt p f.bit _ hsize hbits
  unfold valueAt
  rw [hv]
  simp only [HidMouseField.packed, ← hlow]
  have hlt : v.toNat < 2 ^ f.size := hlow ▸ Nat.mod_lt _ (Nat.two_pow_pos _)
  change some _ = some _
  congr 1
  by_cases hshort : f.size < 32
  · simp only [hshort, true_and, and_top_ne_zero h0 hshort hlt]
    split
    · have hpow : 2 ^ f.size ≤ 2 ^ 31 := Nat.pow_le_pow_right (by decide) (by omega)
      rw [toInt32_eq, toNat_extend hshort hlt, ← ofInt_add_size (_ - _)]
      have hcast : ((2 ^ f.size : Nat) : Int) = 2 ^ f.size := by push_cast; rfl
      congr 1
      omega
    · exact toInt32_eq v
  · -- a field of 32 bits is a C `int` as it is
    have hfull : f.size = 32 := by omega
    rw [if_neg (by simp [hshort]), toInt32_eq, hfull]
    split
    · rw [← ofInt_add_size (_ - _)]
      congr 1
      omega
    · rfl

/-! ## Accepted mice -/

/-- The bits of its report that a field takes. -/
def HidMouseField.Covers (f : HidMouseField) (k : Nat) : Prop := f.bit ≤ k ∧ k < f.bit + f.size

structure HidMouse.Sound (m : HidMouse) : Prop where
  limits : ∀ f ∈ m.fields, 1 ≤ f.size ∧ f.size ≤ 32 ∧ f.bit + f.size ≤ 4096
  disjoint : m.fields.Pairwise fun f g => f.id = g.id → ∀ k, ¬ (f.Covers k ∧ g.Covers k)
  x : ∃ f ∈ m.fields, f.kind = 1
  y : ∃ f ∈ m.fields, f.kind = 2
  ids : ∀ f ∈ m.fields, f.id ≠ 0 ↔ m.reportIds

theorem hidMouseDescriptor_sound {d : List UInt8} {m : HidMouse} (h : hidMouseDescriptor d = some m) : m.Sound := by
  unfold hidMouseDescriptor at h
  split at h
  · cases h
  obtain ⟨s, hs, hm⟩ := Option.bind_eq_some_iff.1 h
  have hvalid := Parser.valid_start.items hs
  split at hm
  · cases hm
  rename_i hends
  split at hm
  · cases hm
  rename_i hids
  obtain rfl := Option.some.inj hm
  obtain ⟨-, -, hx, hy⟩ : s.collection = [] ∧ s.saved = [] ∧ s.x ∧ s.y := by simpa using hends
  refine ⟨fun f hf => ⟨(hvalid.sizes f hf).1, (hvalid.sizes f hf).2, Nat.le_trans (hvalid.ends f hf) (hvalid.offsets f.id)⟩, ?_,
    hvalid.x hx, hvalid.y hy, fun f hf => ⟨hvalid.ids f hf, fun hused hzero => hids ⟨hused, ?_⟩⟩⟩
  · refine hvalid.apart.imp fun hapart hsame k hk => ?_
    have := hapart hsame
    have := hk.1.2
    have := hk.2.1
    omega
  · exact List.any_eq_true.2 ⟨f, hf, by simp [hzero]⟩

namespace HidMouse

variable (m : HidMouse) (report : List UInt8)

def reportId : Nat := if m.reportIds then (report.headD 0).toNat else 0

/-- The report without its id. -/
def reportBody : List UInt8 := if m.reportIds then report.tail else report

/-- The fields that a report has. -/
def matching : List HidMouseField := m.fields.filter fun f => f.id == m.reportId report

/-- A field ends after the report. -/
def Truncated : Prop := ∃ f ∈ m.matching report, 8 * (m.reportBody report).length < f.bit + f.size

instance : Decidable (m.Truncated report) :=
  inferInstanceAs (Decidable (∃ f ∈ m.matching report, 8 * (m.reportBody report).length < f.bit + f.size))

/-- What a report says, by the numbers in its fields. -/
def motion (current : BarnixMouse) : Motion :=
  (m.matching report).foldl (fun r f => r.take current f (Int32.ofInt (f.packed (m.reportBody report)))) ⟨0, 0, 0, 0, m.buttons⟩

end HidMouse

theorem foldlM_valueAt {p : List UInt8} (current : BarnixMouse) : ∀ {fields : List HidMouseField} (r : Motion),
    (∀ f ∈ fields, 0 < f.size ∧ f.size ≤ 32 ∧ f.bit + f.size ≤ 8 * p.length) →
    fields.foldlM (fun (r : Motion) f => (valueAt p f).map (r.take current f)) r =
      some (fields.foldl (fun r f => r.take current f (Int32.ofInt (f.packed p))) r)
  | [], r, _ => rfl
  | f :: fields, r, h => by
    obtain ⟨hpos, hsize, hbits⟩ := h f (List.mem_cons_self ..)
    rw [List.foldlM_cons, valueAt_eq hpos hsize hbits, List.foldl_cons]
    exact foldlM_valueAt current _ fun f hf => h f (List.mem_cons_of_mem _ hf)

/-- An accepted mouse has no field in an empty report. -/
theorem HidMouse.Sound.empty {m : HidMouse} (h : m.Sound) : m.matching [] = [] ∨ m.Truncated [] := by
  by_cases hids : m.reportIds
  · left
    refine List.filter_eq_nil_iff.2 fun f hf => ?_
    have := (h.ids f hf).2 hids
    simpa [reportId, hids] using this
  · cases hmine : m.matching [] with
    | nil => exact .inl rfl
    | cons f rest =>
      have hf : f ∈ m.matching [] := hmine ▸ List.mem_cons_self ..
      have hpos := (h.limits f (List.mem_filter.1 hf).1).1
      refine .inr ⟨f, hf, ?_⟩
      simp only [reportBody, hids, Bool.false_eq_true, if_false, List.length_nil]
      omega

theorem hidMouseReport_eq {m : HidMouse} (h : m.Sound) (source : Nat) {report : List UInt8} (hlength : report.length ≤ 1024) (s : Pointer) :
    ((m.matching report = [] ∨ m.Truncated report) → hidMouseReport m source report s = some (false, m, s)) ∧
    (¬ (m.matching report = [] ∨ m.Truncated report) →
      let r := m.motion report s.mouse
      let call := mouseSource source true r.dx r.dy r.buttons r.wheel r.pan s
      hidMouseReport m source report s = some (call.1, { m with buttons := r.buttons }, call.2)) := by
  cases report with
  | nil => exact ⟨fun _ => rfl, fun hfields => absurd h.empty hfields⟩
  | cons lead rest =>
    have hid : (if m.reportIds then lead.toNat else 0) = m.reportId (lead :: rest) := rfl
    have hp : (if m.reportIds then rest else lead :: rest) = m.reportBody (lead :: rest) := rfl
    have hmine : m.fields.filter (fun f => f.id == m.reportId (lead :: rest)) = m.matching (lead :: rest) := rfl
    have hbody : (m.reportBody (lead :: rest)).length ≤ 1024 := by
      unfold HidMouse.reportBody
      split
      · rw [List.length_cons] at hlength
        simpa using by omega
      · exact hlength
    have htruncated : (m.matching (lead :: rest)).any (fun f => decide (UInt32.ofNat (f.bit + f.size) >
        UInt32.ofNat (m.reportBody (lead :: rest)).length * 8)) = true ↔ m.Truncated (lead :: rest) := by
      rw [List.any_eq_true]
      refine exists_congr fun f => and_congr_right fun hf => ?_
      have hlimit := (h.limits f (List.mem_filter.1 hf).1).2.2
      rw [decide_eq_true_iff, gt_iff_lt, UInt32.lt_iff_toNat_lt, UInt32.toNat_mul,
        UInt32.toNat_ofNat_of_lt' (by simp only [UInt32.size]; omega), UInt32.toNat_ofNat_of_lt' (by simp only [UInt32.size]; omega)]
      simp only [UInt32.reduceToNat]
      omega
    unfold hidMouseReport
    dsimp only
    rw [hid, hp, hmine, if_congr htruncated rfl rfl]
    by_cases hcut : m.Truncated (lead :: rest)
    · simp [hcut]
    by_cases hnone : m.matching (lead :: rest) = []
    · simp [hnone]
    have hinside : ∀ f ∈ m.matching (lead :: rest), 0 < f.size ∧ f.size ≤ 32 ∧ f.bit + f.size ≤ 8 * (m.reportBody (lead :: rest)).length :=
      fun f hf =>
        have hlimits := h.limits f (List.mem_filter.1 hf).1
        ⟨hlimits.1, hlimits.2.1, Nat.le_of_not_lt fun hlt => hcut ⟨f, hf, hlt⟩⟩
    refine ⟨fun hor => (hor.elim hnone hcut).elim, fun _ => ?_⟩
    rw [if_neg hcut, if_neg hnone, foldlM_valueAt s.mouse _ hinside]
    rfl

theorem hid_mouse_safe {d : List UInt8} {m : HidMouse} (h : hidMouseDescriptor d = some m) :
    m.Sound ∧ ∀ (buttons : UInt32) (source : Nat) (report : List UInt8) (s : Pointer), report.length ≤ 1024 →
      let m := { m with buttons := buttons }
      ((m.matching report = [] ∨ m.Truncated report) → hidMouseReport m source report s = some (false, m, s)) ∧
      (¬ (m.matching report = [] ∨ m.Truncated report) →
        let r := m.motion report s.mouse
        let call := mouseSource source true r.dx r.dy r.buttons r.wheel r.pan s
        hidMouseReport m source report s = some (call.1, { m with buttons := r.buttons }, call.2)) := by
  have hsound := hidMouseDescriptor_sound h
  refine ⟨hsound, fun buttons source report s hlength => ?_⟩
  have hkept : HidMouse.Sound { m with buttons := buttons } := ⟨hsound.limits, hsound.disjoint, hsound.x, hsound.y, hsound.ids⟩
  exact hidMouseReport_eq hkept source hlength s

/-- Two axes of a byte each. -/
theorem hid_mouse_safe_axes : ∃ m, hidMouseDescriptor
    [0x05, 1, 0x09, 2, 0xa1, 1, 0x09, 0x30, 0x09, 0x31, 0x15, 0x81, 0x25, 0x7f, 0x75, 8, 0x95, 2, 0x81, 6, 0xc0] = some m ∧ m.Sound ∧
      hidMouseReport { m with buttons := 2 } 1 [5] mouseReset = some (false, { m with buttons := 2 }, mouseReset) := by
  have haccepted : hidMouseDescriptor
      [0x05, 1, 0x09, 2, 0xa1, 1, 0x09, 0x30, 0x09, 0x31, 0x15, 0x81, 0x25, 0x7f, 0x75, 8, 0x95, 2, 0x81, 6, 0xc0] =
      some ⟨[⟨0, 8, 0, 1, true, -127, 127⟩, ⟨8, 8, 0, 2, true, -127, 127⟩], 0, false⟩ := by decide
  have hsafe := hid_mouse_safe haccepted
  exact ⟨_, haccepted, hsafe.1, (hsafe.2 2 1 [5] mouseReset (by decide)).1 (by decide)⟩

/-! ## Absolute axes -/

theorem toNat_half (v : UInt32) : (v >>> 1).toNat = v.toNat / 2 := by
  rw [UInt32.toNat_shiftRight, Nat.shiftRight_eq_div_pow]
  rfl

theorem halved_spec (range position : UInt32) (h : position.toNat ≤ range.toNat) (h0 : 0 < range.toNat) :
    (halved range position).2.toNat ≤ (halved range position).1.toNat ∧ 0 < (halved range position).1.toNat ∧
      (halved range position).1.toNat ≤ 65535 := by
  induction range, position using halved.induct with
  | case1 range position hwide ih =>
    have hwide' := UInt32.lt_iff_toNat_lt.1 hwide
    simp only [UInt32.reduceToNat] at hwide'
    rw [halved, if_pos hwide]
    exact ih (by rw [toNat_half, toNat_half]; omega) (by rw [toNat_half]; omega)
  | case2 range position hnarrow =>
    have hnarrow' := UInt32.le_iff_toNat_le.1 (UInt32.not_lt.1 hnarrow)
    rw [halved, if_neg hnarrow]
    exact ⟨h, h0, hnarrow'⟩

/-- How often the range is halved does not depend on the position. -/
theorem halved_mono (range position : UInt32) : ∀ {position' : UInt32}, position.toNat ≤ position'.toNat →
    (halved range position).1 = (halved range position').1 ∧
      (halved range position).2.toNat ≤ (halved range position').2.toNat := by
  induction range, position using halved.induct with
  | case1 range position hwide ih =>
    intro position' h
    rw [halved, if_pos hwide, halved.eq_1 range position', if_pos hwide]
    apply ih
    rw [toNat_half, toNat_half]
    omega
  | case2 range position hnarrow =>
    intro position' h
    rw [halved, if_neg hnarrow, halved.eq_1 range position', if_neg hnarrow]
    exact ⟨rfl, h⟩

/-- The distance of two C `int`s is an `unsigned int`. -/
theorem toNat_distance {a b : Int32} (h : a.toInt ≤ b.toInt) : ((b.toUInt32 - a.toUInt32).toNat : Int) = b.toInt - a.toInt := by
  have ha := toInt_eq_toNat a
  have hb := toInt_eq_toNat b
  have halt := a.toUInt32.toNat_lt
  have hblt := b.toUInt32.toNat_lt
  rw [UInt32.toNat_sub]
  split at ha <;> split at hb <;> omega

/-- `pixels - 1` as the two types of C have it. -/
theorem lastPixel {pixels : Int32} (h : 1 ≤ pixels.toInt) :
    (pixels - 1).toInt = pixels.toInt - 1 ∧ ((pixels - 1).toUInt32.toNat : Int) = pixels.toInt - 1 := by
  have hlt := pixels.toInt_lt
  have hlast : (pixels - 1).toInt = pixels.toInt - 1 := by
    rw [Int32.toInt_sub, Int32.toInt_one, Int.bmod_eq_of_le]
    all_goals omega
  have hsplit := toInt_eq_toNat (pixels - 1)
  have hword := (pixels - 1).toUInt32.toNat_lt
  refine ⟨hlast, ?_⟩
  split at hsplit <;> omega

/-- The numbers of `absolute` between the ends are those of the integers: the distances are exact, the
divisor is positive, and the product is below 2^32. -/
structure Exact (value low high pixels : Int32) : Prop where
  range : ((high.toUInt32 - low.toUInt32).toNat : Int) = high.toInt - low.toInt
  position : ((value.toUInt32 - low.toUInt32).toNat : Int) = value.toInt - low.toInt
  last : ((pixels - 1).toUInt32.toNat : Int) = pixels.toInt - 1
  divisor : 0 < (halved (high.toUInt32 - low.toUInt32) (value.toUInt32 - low.toUInt32)).1.toNat
  product : (halved (high.toUInt32 - low.toUInt32) (value.toUInt32 - low.toUInt32)).2.toNat * (pixels - 1).toUInt32.toNat < 4294967296

section

variable {value low high pixels : Int32}

theorem exact_between (hlow : low < value) (hhigh : value < high) (hpos : 1 ≤ pixels.toInt) (hwide : pixels.toInt ≤ 65536) :
    Exact value low high pixels := by
  rw [Int32.lt_iff_toInt_lt] at hlow hhigh
  have hrange := @toNat_distance low high (by omega)
  have hposition := @toNat_distance low value (by omega)
  obtain ⟨hle, hdivisor, hnarrow⟩ := halved_spec (high.toUInt32 - low.toUInt32) (value.toUInt32 - low.toUInt32) (by omega) (by omega)
  have hlast := (lastPixel hpos).2
  refine ⟨hrange, hposition, hlast, hdivisor, ?_⟩
  calc _ ≤ 65535 * 65535 := Nat.mul_le_mul (hle.trans hnarrow) (by omega)
    _ < 4294967296 := by decide

/-- Between the ends the quotient is that of the integers. -/
theorem absolute_between (hlow : low < value) (hhigh : value < high) (hpos : 1 ≤ pixels.toInt) (hwide : pixels.toInt ≤ 65536) :
    let r := halved (high.toUInt32 - low.toUInt32) (value.toUInt32 - low.toUInt32)
    (absolute value low high pixels).toInt = (r.2.toNat * (pixels - 1).toUInt32.toNat / r.1.toNat : Nat) ∧
      r.2.toNat * (pixels - 1).toUInt32.toNat / r.1.toNat ≤ (pixels - 1).toUInt32.toNat := by
  have hexact := exact_between hlow hhigh hpos hwide
  have hrange := hexact.range
  have hposition := hexact.position
  have hlast := hexact.last
  have hproduct := hexact.product
  rw [Int32.lt_iff_toInt_lt] at hlow hhigh
  obtain ⟨hle, -, -⟩ := halved_spec (high.toUInt32 - low.toUInt32) (value.toUInt32 - low.toUInt32) (by omega) (by omega)
  unfold absolute
  rw [if_neg (by rw [Int32.le_iff_toInt_le]; omega), if_neg (by rw [Int32.le_iff_toInt_le]; omega),
    if_neg (by rw [ge_iff_le, Int32.le_iff_toInt_le]; omega)]
  generalize halved (high.toUInt32 - low.toUInt32) (value.toUInt32 - low.toUInt32) = r at hle hproduct
  dsimp only
  have hquotient : r.2.toNat * (pixels - 1).toUInt32.toNat / r.1.toNat ≤ (pixels - 1).toUInt32.toNat :=
    Nat.div_le_of_le_mul (Nat.mul_le_mul_right _ hle)
  have hvalue := toInt_eq_toNat (r.2 * (pixels - 1).toUInt32 / r.1).toInt32
  rw [UInt32.toUInt32_toInt32, UInt32.toNat_div, UInt32.toNat_mul, Nat.mod_eq_of_lt hproduct, if_pos (by omega)] at hvalue
  exact ⟨hvalue, hquotient⟩

/-- An absolute axis is scaled to the screen. -/
theorem absolute_mem (value low high pixels : Int32) (hpos : 1 ≤ pixels.toInt) (hwide : pixels.toInt ≤ 65536) :
    0 ≤ (absolute value low high pixels).toInt ∧ (absolute value low high pixels).toInt < pixels.toInt := by
  by_cases hrange : high ≤ low
  · rw [absolute, if_pos hrange, Int32.toInt_zero]
    omega
  by_cases hlow : value ≤ low
  · rw [absolute, if_neg hrange, if_pos hlow, Int32.toInt_zero]
    omega
  by_cases hhigh : value ≥ high
  · rw [absolute, if_neg hrange, if_neg hlow, if_pos hhigh, (lastPixel hpos).1]
    omega
  · obtain ⟨hvalue, hquotient⟩ := absolute_between (Int32.not_le.1 hlow) (Int32.not_le.1 hhigh) hpos hwide
    have hlast := (lastPixel hpos).2
    have hquotient' := Int.ofNat_le.2 hquotient
    rw [hvalue]
    exact ⟨Int.natCast_nonneg _, by omega⟩

theorem absolute_mono {value' : Int32} (h : value ≤ value') (hpos : 1 ≤ pixels.toInt) (hwide : pixels.toInt ≤ 65536) :
    absolute value low high pixels ≤ absolute value' low high pixels := by
  have hmem := absolute_mem value low high pixels hpos hwide
  have hmem' := absolute_mem value' low high pixels hpos hwide
  have hlast := lastPixel hpos
  rw [Int32.le_iff_toInt_le] at h ⊢
  by_cases hrange : high ≤ low
  · apply Int.le_of_eq
    rw [absolute, if_pos hrange, absolute, if_pos hrange]
  by_cases hlow : value ≤ low
  · rw [absolute, if_neg hrange, if_pos hlow, Int32.toInt_zero]
    exact hmem'.1
  by_cases hhigh : value' ≥ high
  · have hlow' : ¬ value' ≤ low := by
      rw [Int32.le_iff_toInt_le] at hlow ⊢
      omega
    rw [absolute.eq_1 value', if_neg hrange, if_neg hlow', if_pos hhigh, hlast.1]
    omega
  -- both are between the ends, and their positions are halved equally often
  rw [Int32.not_le] at hlow hhigh
  have hlow' := Int32.lt_iff_toInt_lt.1 hlow
  have hhigh' := Int32.lt_iff_toInt_lt.1 hhigh
  have hbelow : value < high := Int32.lt_iff_toInt_lt.2 (by omega)
  have habove : low < value' := Int32.lt_iff_toInt_lt.2 (by omega)
  have hposition := (exact_between hlow hbelow hpos hwide).position
  have hposition' := (exact_between habove hhigh hpos hwide).position
  obtain ⟨hsame, hle⟩ := halved_mono (high.toUInt32 - low.toUInt32) (value.toUInt32 - low.toUInt32)
    (show _ ≤ (value'.toUInt32 - low.toUInt32).toNat by omega)
  rw [(absolute_between hlow hbelow hpos hwide).1, (absolute_between habove hhigh hpos hwide).1, hsame]
  exact Int.ofNat_le.2 (Nat.div_le_div_right (Nat.mul_le_mul_right _ hle))

end

/-- The scaling of an absolute axis is exact in 32 bits, stays on the screen, keeps the order of the
values, and takes the ends of the range to those of the screen. -/
theorem absolute_scales (value low high pixels : Int32) (hpos : 1 ≤ pixels.toInt) (hwide : pixels.toInt ≤ 65536) :
    (low < value → value < high → Exact value low high pixels) ∧
    (0 ≤ (absolute value low high pixels).toInt ∧ (absolute value low high pixels).toInt ≤ pixels.toInt - 1) ∧
    (∀ value', value ≤ value' → absolute value low high pixels ≤ absolute value' low high pixels) ∧
    (low < high → (value ≤ low → absolute value low high pixels = 0) ∧
      (high ≤ value → (absolute value low high pixels).toInt = pixels.toInt - 1)) := by
  have hmem := absolute_mem value low high pixels hpos hwide
  refine ⟨fun hlow hhigh => exact_between hlow hhigh hpos hwide, ⟨hmem.1, by omega⟩, fun value' h => absolute_mono h hpos hwide,
    fun h => ⟨fun hlow => ?_, fun hhigh => ?_⟩⟩
  · rw [absolute, if_neg (Int32.not_le.2 h), if_pos hlow]
  · have hlow : ¬ value ≤ low := by
      rw [Int32.le_iff_toInt_le] at hhigh ⊢
      rw [Int32.lt_iff_toInt_lt] at h
      omega
    rw [absolute, if_neg (Int32.not_le.2 h), if_neg hlow, if_pos hhigh]
    exact (lastPixel hpos).1

/-- The whole range of the type on the most pixels. -/
theorem absolute_scales_whole : (1 : Int) ≤ (65536 : Int32).toInt ∧
    (-2147483648 < (0 : Int32) → (0 : Int32) < 2147483647 → Exact 0 (-2147483648) 2147483647 65536) ∧
    (absolute 0 (-2147483648) 2147483647 65536).toInt ≤ (65536 : Int32).toInt - 1 := by
  have h := absolute_scales 0 (-2147483648) 2147483647 65536 (by decide) (by decide)
  exact ⟨by decide, h.1, h.2.1.2⟩

/-- The delta of an absolute axis is the distance from the cursor. -/
theorem absolute_sub (value low high : Int32) {pixels current : Int32} (hwide : pixels.toInt ≤ 65536) (hlow : 0 ≤ current.toInt)
    (hhigh : current.toInt < pixels.toInt) :
    (absolute value low high pixels - current).toInt = (absolute value low high pixels).toInt - current.toInt := by
  have hmem := absolute_mem value low high pixels (by omega) hwide
  rw [Int32.toInt_sub, Int.bmod_eq_of_le]
  all_goals omega

/-! ## Runs of the pointer -/

/-- What the pointer can come to, by bytes of the PS/2 port, reports, and sources that come and go. -/
inductive Reached : Pointer → Prop
  | reset : Reached mouseReset
  | feed {s : Pointer} (byte : UInt8) : Reached s → Reached (mouseFeed byte s).2
  | boot {s : Pointer} (report : List UInt8) : Reached s → Reached (mouseUsbReport report s).2
  | report {s : Pointer} {m : HidMouse} {source : Nat} {report : List UInt8} {r : Bool × HidMouse × Pointer} :
      Reached s → hidMouseReport m source report s = some r → Reached r.2.2
  | source {s : Pointer} (source : Nat) (connected : Bool) (dx dy : Int32) (buttons : UInt32) (wheel horizontal : Int32) :
      Reached s → Reached (mouseSource source connected dx dy buttons wheel horizontal s).2

theorem Fused.hidMouseReport {s : Pointer} (h : Fused s) {m : HidMouse} {source : Nat} {report : List UInt8}
    {r : Bool × HidMouse × Pointer} (hr : hidMouseReport m source report s = some r) : Fused r.2.2 := by
  unfold Usb.hidMouseReport at hr
  split at hr
  · exact Option.some.inj hr ▸ h
  rename_i lead rest
  dsimp only at hr
  generalize (if m.reportIds then lead.toNat else 0) = id, (if m.reportIds then rest else lead :: rest) = p at hr
  split at hr
  · exact Option.some.inj hr ▸ h
  split at hr
  · exact Option.some.inj hr ▸ h
  obtain ⟨motion, -, hend⟩ := Option.bind_eq_some_iff.1 hr
  obtain rfl := Option.some.inj hend
  exact h.mouseSource ..

theorem Reached.fused {s : Pointer} (h : Reached s) : Fused s := by
  induction h with
  | reset => exact fused_mouseReset
  | feed byte _ ih => exact ih.mouseFeed byte
  | boot report _ ih => exact ih.mouseUsbReport report
  | report _ hr ih => exact ih.hidMouseReport hr
  | source _ _ _ _ _ _ _ _ ih => exact ih.mouseSource ..

end Barnix.Usb
