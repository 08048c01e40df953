import Mathlib.Logic.Function.Basic
/-!
# NVMe queues

`nvme_command` of `storage_pci.c`, together with the controller that it waits for. A command is put in
the submission queue; its completion is found in the completion queue by a phase bit, which the
controller inverts each time it has gone through the queue.
-/

namespace Barnix.Nvme

open Function

/-- `WAIT_LIMIT` -/
def waitLimit : Nat := 10000000

/-- `QDEPTH` -/
def qdepth : Nat := 16

/-- `queues[0]` and `queues[1]` -/
inductive Queue where
  | admin
  | io
deriving DecidableEq

def Queue.index : Queue → Nat
  | .admin => 0
  | .io => 1

/-- `unsigned int cmd[16]` -/
abbrev Command := Nat → UInt32

/-- What happens to a command: it is submitted, the controller posts a completion with its id and a
status, and the driver takes a completion with an id and a status. -/
inductive Event where
  | submitted (q : Queue) (cmd : Command)
  | posted (q : Queue) (cid status : UInt32)
  | accepted (q : Queue) (cid status : UInt32)

/-- The registers and the positions of a controller. -/
structure Controller (σ : Type) where
  device : σ
  stride : Nat
  enabled : Bool
  sqTail : Queue → Nat
  cqHead : Queue → Nat
  sqHead : Queue → Nat
  cqTail : Queue → Nat
  phase : Queue → UInt8

/-- `Nvme`, the controller and all events so far. Of an entry of `cq` only the dword that the driver
reads; `ready` stands for the devices of this controller. -/
structure Machine (σ : Type) where
  cid : UInt32
  tail : Queue → Nat
  head : Queue → Nat
  phase : Queue → UInt8
  sq : Queue → Nat → Command
  cq : Queue → Nat → UInt32
  ready : Bool
  controller : Controller σ
  events : List Event

variable {σ : Type}

/-! ## The controller -/

/-- A write to the register at an offset: the enable bit or one of the doorbells. -/
def Controller.write (c : Controller σ) (offset value : Nat) : Controller σ :=
  if offset = 0x14 then { c with enabled := value % 2 = 1 }
  else if offset = 0x1000 + 2 * Queue.admin.index * c.stride then { c with sqTail := update c.sqTail .admin value }
  else if offset = 0x1000 + (2 * Queue.admin.index + 1) * c.stride then { c with cqHead := update c.cqHead .admin value }
  else if offset = 0x1000 + 2 * Queue.io.index * c.stride then { c with sqTail := update c.sqTail .io value }
  else if offset = 0x1000 + (2 * Queue.io.index + 1) * c.stride then { c with cqHead := update c.cqHead .io value }
  else c

def mmwrite (m : Machine σ) (offset value : Nat) : Machine σ := { m with controller := m.controller.write offset value }

/-- The last dword of a completion: command id, phase and status. -/
def completion (cid : UInt32) (phase : UInt8) (status : UInt32) : UInt32 :=
  .ofNat (cid.toNat % 65536 + 65536 * (phase.toNat % 2) + 131072 * (status.toNat % 32768))

/-- The controller executes the next command of a queue, if there is one and a free entry for its
completion. -/
def serve (execute : σ → Queue → Command → σ × UInt32) (q : Queue) (m : Machine σ) : Machine σ :=
  let c := m.controller
  if c.enabled = false ∨ c.sqHead q = c.sqTail q ∨ (c.cqTail q + 1) % qdepth = c.cqHead q then m
  else
    let cmd := m.sq q (c.sqHead q)
    let (device, status) := execute c.device q cmd
    let cqTail := (c.cqTail q + 1) % qdepth
    { m with
      cq := update m.cq q (update (m.cq q) (c.cqTail q) (completion (cmd 0 >>> 16) (c.phase q) status))
      events := m.events ++ [.posted q (cmd 0 >>> 16) (status % 32768)]
      controller := { c with
        device := device
        sqHead := update c.sqHead q ((c.sqHead q + 1) % qdepth)
        cqTail := update c.cqTail q cqTail
        phase := if cqTail = 0 then update c.phase q (c.phase q ^^^ 1) else c.phase } }

/-! ## The driver -/

/-- The command with an id. -/
def stamp (cid : UInt32) (cmd : Command) : Command :=
  fun i => if i = 0 then (cmd 0 &&& (65535 : UInt32)) ||| (cid <<< (16 : UInt32)) else cmd i

/-- Up to the doorbell: the id and the machine. -/
def submit (q : Queue) (cmd : Command) (m : Machine σ) : UInt32 × Machine σ :=
  let count := m.cid + 1
  let cid := count &&& 65535
  let tail := (m.tail q + 1) % qdepth
  let m := { m with
    cid := count
    sq := update m.sq q (update (m.sq q) (m.tail q) (stamp cid cmd))
    tail := update m.tail q tail
    events := m.events ++ [.submitted q (stamp cid cmd)] }
  (cid, mmwrite m (0x1000 + 2 * q.index * m.controller.stride) tail)

/-- An entry with the awaited phase is taken. -/
def accept (q : Queue) (cid : UInt32) (m : Machine σ) : Int × Machine σ :=
  let status := m.cq q (m.head q)
  let head := (m.head q + 1) % qdepth
  let m := { m with
    head := update m.head q head
    phase := if head = 0 then update m.phase q (m.phase q ^^^ 1) else m.phase
    events := m.events ++ [.accepted q (status &&& 65535) (status >>> 17)] }
  (if status &&& 65535 = cid ∧ status >>> 17 = 0 then 0 else -1,
    mmwrite m (0x1000 + (2 * q.index + 1) * m.controller.stride) head)

/-- The limit is over: the controller is switched off. -/
def giveUp (m : Machine σ) : Int × Machine σ := (-1, { mmwrite m 0x14 0 with ready := false })

/-- The phase of an entry. -/
def phaseOf (entry : UInt32) : UInt32 := (entry >>> 16) &&& 1

/-- `for (i = 0; i < WAIT_LIMIT; i++)` with `rounds` of them left. Before round `i` the controller
serves the queue `schedule i`. -/
def pollLoop (execute : σ → Queue → Command → σ × UInt32) (schedule : Nat → Option Queue) (q : Queue) (cid : UInt32) :
    Nat → Nat → Machine σ → Int × Machine σ
  | 0, _, m => giveUp m
  | rounds + 1, i, m =>
    let m : Machine σ := match schedule i with
      | none => m
      | some served => serve execute served m
    if phaseOf (m.cq q (m.head q)) ≠ (m.phase q).toUInt32 then pollLoop execute schedule q cid rounds (i + 1) m
    else accept q cid m

def nvmeCommand (execute : σ → Queue → Command → σ × UInt32) (schedule : Nat → Option Queue) (q : Queue) (cmd : Command)
    (m : Machine σ) : Int × Machine σ :=
  let (cid, m) := submit q cmd m
  pollLoop execute schedule q cid waitLimit 0 m

/-- A call of `nvme_command`, and when the controller takes its steps during it. -/
structure Call where
  queue : Queue
  cmd : Command
  schedule : Nat → Option Queue

/-- The results of calls one after the other. -/
def runCalls (execute : σ → Queue → Command → σ × UInt32) : List Call → Machine σ → List Int × Machine σ
  | [], m => ([], m)
  | c :: calls, m =>
    let (r, m) := nvmeCommand execute c.schedule c.queue c.cmd m
    let (results, m) := runCalls execute calls m
    (r :: results, m)

/-- `nvme_init` has cleared the queues and enabled the controller. -/
def started (device : σ) (stride : Nat) : Machine σ where
  cid := 0
  tail _ := 0
  head _ := 0
  phase _ := 1
  sq _ _ _ := 0
  cq _ _ := 0
  ready := true
  controller := ⟨device, stride, true, fun _ => 0, fun _ => 0, fun _ => 0, fun _ => 0, fun _ => 1⟩
  events := []

/-! ## One command after the other -/

/-- What the calls do to a device that is simply handed the commands: the results, the device and the
events. -/
def handOver (execute : σ → Queue → Command → σ × UInt32) : List Call → UInt32 → σ → List Int × σ × List Event
  | [], _, device => ([], device, [])
  | c :: calls, count, device =>
    let cid := (count + 1) &&& 65535
    let (device, status) := execute device c.queue (stamp cid c.cmd)
    let (results, device, events) := handOver execute calls (count + 1) device
    ((if status % 32768 = 0 then 0 else -1) :: results, device,
      [.submitted c.queue (stamp cid c.cmd), .posted c.queue cid (status % 32768), .accepted c.queue cid (status % 32768)] ++ events)

/-- The controller serves the queue within the polling limit. -/
def Call.Prompt (c : Call) : Prop := ∃ i < waitLimit, c.schedule i = some c.queue

/-! ## The bits of an entry -/

theorem toNat_low (x : UInt32) : (x &&& 65535).toNat = x.toNat % 65536 := by
  rw [UInt32.toNat_and]
  exact Nat.and_two_pow_sub_one_eq_mod x.toNat 16

theorem toNat_completion (cid : UInt32) (phase : UInt8) (status : UInt32) : (completion cid phase status).toNat =
    cid.toNat % 65536 + 65536 * (phase.toNat % 2) + 131072 * (status.toNat % 32768) := by
  rw [completion, UInt32.toNat_ofNat']
  omega

theorem completion_cid {cid : UInt32} (h : cid.toNat < 65536) (phase : UInt8) (status : UInt32) :
    completion cid phase status &&& 65535 = cid := by
  apply UInt32.toNat_inj.1
  rw [toNat_low, toNat_completion]
  omega

theorem completion_status (cid : UInt32) (phase : UInt8) (status : UInt32) : completion cid phase status >>> 17 = status % 32768 := by
  apply UInt32.toNat_inj.1
  rw [UInt32.toNat_shiftRight, toNat_completion, Nat.shiftRight_eq_div_pow, UInt32.toNat_mod]
  change _ / 2 ^ 17 = status.toNat % 32768
  omega

theorem completion_phase (cid : UInt32) {phase : UInt8} (h : phase = 0 ∨ phase = 1) (status : UInt32) :
    phaseOf (completion cid phase status) = phase.toUInt32 := by
  apply UInt32.toNat_inj.1
  rw [phaseOf, UInt32.toNat_and, UInt32.toNat_shiftRight, toNat_completion, Nat.shiftRight_eq_div_pow]
  change (_ / 2 ^ 16) &&& 1 = _
  rw [Nat.and_one_is_mod, UInt8.toNat_toUInt32]
  rcases h with rfl | rfl
  · change (_ + 65536 * 0 + _) / 2 ^ 16 % 2 = 0
    omega
  · change (_ + 65536 * 1 + _) / 2 ^ 16 % 2 = 1
    omega

theorem stamp_cid (count : UInt32) (cmd : Command) : stamp (count &&& 65535) cmd 0 >>> 16 = count &&& 65535 := by
  have hlow := toNat_low count
  have hcmd := toNat_low (cmd 0)
  have hshift : ((count &&& 65535) <<< (16 : UInt32)).toNat = 2 ^ 16 * (count.toNat % 65536) := by
    rw [UInt32.toNat_shiftLeft, Nat.shiftLeft_eq, hlow]
    change count.toNat % 65536 * 2 ^ 16 % 2 ^ 32 = _
    omega
  apply UInt32.toNat_inj.1
  rw [stamp, if_pos rfl, UInt32.toNat_shiftRight, UInt32.toNat_or, hshift, hcmd, hlow, Nat.or_comm,
    ← Nat.two_pow_add_eq_or_of_lt (by omega), Nat.shiftRight_eq_div_pow]
  change _ / 2 ^ 16 = _
  omega

/-! ## Between two calls -/

/-- Nothing is under way in a queue: driver and controller agree on all positions, and the entries
that the controller has filled on this pass are the ones below `head`. -/
structure Idle (m : Machine σ) (q : Queue) : Prop where
  tail_lt : m.tail q < qdepth
  head_lt : m.head q < qdepth
  sqTail : m.controller.sqTail q = m.tail q
  sqHead : m.controller.sqHead q = m.tail q
  cqHead : m.controller.cqHead q = m.head q
  cqTail : m.controller.cqTail q = m.head q
  phase : m.controller.phase q = m.phase q
  bit : m.phase q = 0 ∨ m.phase q = 1
  entries : ∀ i < qdepth, phaseOf (m.cq q i) = (if i < m.head q then m.phase q else m.phase q ^^^ 1).toUInt32

/-- Nothing is under way at all. -/
structure Ready (m : Machine σ) : Prop where
  enabled : m.controller.enabled = true
  stride : 0 < m.controller.stride
  idle : ∀ q, Idle m q

theorem ready_started (device : σ) {stride : Nat} (h : 0 < stride) : Ready (started device stride) where
  enabled := rfl
  stride := h
  idle q := by
    refine ⟨?_, ?_, rfl, rfl, rfl, rfl, rfl, .inr rfl, fun i _ => ?_⟩
    · exact Nat.succ_pos 15
    · exact Nat.succ_pos 15
    · have hnone : ¬ i < (started device stride).head q := Nat.not_lt_zero i
      rw [if_neg hnone]
      change phaseOf 0 = ((1 : UInt8) ^^^ 1).toUInt32
      decide

theorem index_admin : Queue.admin.index = 0 := rfl
theorem index_io : Queue.io.index = 1 := rfl

theorem write_sqTail {c : Controller σ} (h : 0 < c.stride) (q : Queue) (v : Nat) :
    c.write (0x1000 + 2 * q.index * c.stride) v = { c with sqTail := update c.sqTail q v } := by
  unfold Controller.write
  cases q with
  | admin =>
    rw [index_admin, index_io, if_neg (by omega), if_pos rfl]
  | io =>
    rw [index_admin, index_io, if_neg (by omega), if_neg (by omega), if_neg (by omega), if_pos rfl]

theorem write_cqHead {c : Controller σ} (h : 0 < c.stride) (q : Queue) (v : Nat) :
    c.write (0x1000 + (2 * q.index + 1) * c.stride) v = { c with cqHead := update c.cqHead q v } := by
  unfold Controller.write
  cases q with
  | admin =>
    rw [index_admin, index_io, if_neg (by omega), if_neg (by omega), if_pos rfl]
  | io =>
    rw [index_admin, index_io, if_neg (by omega), if_neg (by omega), if_neg (by omega), if_neg (by omega), if_pos rfl]

/-! ## Polling -/

variable {execute : σ → Queue → Command → σ × UInt32}

theorem serve_idle {m : Machine σ} {q : Queue} (h : m.controller.sqHead q = m.controller.sqTail q) : serve execute q m = m :=
  if_pos (.inr (.inl h))

/-- While the controller does nothing for its queue, the loop waits; then it takes what the controller
has posted. -/
theorem pollLoop_waits {schedule : Nat → Option Queue} {q : Queue} {cid : UInt32} {m : Machine σ}
    (hothers : ∀ p, p ≠ q → serve execute p m = m) (hold : phaseOf (m.cq q (m.head q)) ≠ (m.phase q).toUInt32)
    (hnew : phaseOf ((serve execute q m).cq q ((serve execute q m).head q)) = ((serve execute q m).phase q).toUInt32)
    (rounds : Nat) : ∀ {i k : Nat}, k < rounds → schedule (i + k) = some q →
    pollLoop execute schedule q cid rounds i m = accept q cid (serve execute q m) := by
  induction rounds with
  | zero =>
    intro i k hk
    omega
  | succ rounds ih =>
    intro i k hk hserved
    have hidle : schedule i ≠ some q → pollLoop execute schedule q cid rounds (i + 1) m = accept q cid (serve execute q m) := by
      intro hne
      cases k with
      | zero => exact absurd hserved hne
      | succ k =>
        refine ih (k := k) (by omega) ?_
        rw [← hserved, Nat.add_right_comm, Nat.add_assoc]
    unfold pollLoop
    cases hnow : schedule i with
    | none =>
      dsimp only
      rw [if_pos hold]
      exact hidle (by rw [hnow]; exact Option.some_ne_none q |>.symm)
    | some p =>
      dsimp only
      by_cases hp : p = q
      · subst hp
        exact if_neg (not_not_intro hnew)
      · rw [hothers p hp, if_pos hold]
        exact hidle (by rw [hnow]; exact fun h => hp (Option.some.inj h))

/-! ## One call -/

theorem next_lt (i : Nat) : (i + 1) % qdepth < qdepth := Nat.mod_lt _ (Nat.succ_pos 15)

theorem next_ne (i : Nat) : (i + 1) % qdepth ≠ i := by
  have hdepth : qdepth = 16 := rfl
  rw [hdepth]
  omega

section

variable {m : Machine σ} {q : Queue} {cmd : Command}

/-- The machine after the doorbell. -/
def rung (q : Queue) (cmd : Command) (m : Machine σ) : Machine σ :=
  let cid := (m.cid + 1) &&& 65535
  { m with
    cid := m.cid + 1
    sq := update m.sq q (update (m.sq q) (m.tail q) (stamp cid cmd))
    tail := update m.tail q ((m.tail q + 1) % qdepth)
    events := m.events ++ [.submitted q (stamp cid cmd)]
    controller := { m.controller with sqTail := update m.controller.sqTail q ((m.tail q + 1) % qdepth) } }

theorem submit_eq (h : Ready m) : submit q cmd m = ((m.cid + 1) &&& 65535, rung q cmd m) := by
  unfold submit mmwrite
  dsimp only
  rw [write_sqTail h.stride]
  rfl

/-- The machine after the controller has executed the command. -/
def executed (execute : σ → Queue → Command → σ × UInt32) (q : Queue) (cmd : Command) (m : Machine σ) : Machine σ :=
  let cid := (m.cid + 1) &&& 65535
  let (device, status) := execute m.controller.device q (stamp cid cmd)
  let next := (m.head q + 1) % qdepth
  { rung q cmd m with
    cq := update m.cq q (update (m.cq q) (m.head q) (completion cid (m.phase q) status))
    events := m.events ++ [.submitted q (stamp cid cmd), .posted q cid (status % 32768)]
    controller := { (rung q cmd m).controller with
      device := device
      sqHead := update m.controller.sqHead q ((m.tail q + 1) % qdepth)
      cqTail := update m.controller.cqTail q next
      phase := if next = 0 then update m.controller.phase q (m.phase q ^^^ 1) else m.controller.phase } }

theorem serve_rung (h : Ready m) : serve execute q (rung q cmd m) = executed execute q cmd m := by
  have hq := h.idle q
  have hbusy : ¬ ((rung q cmd m).controller.enabled = false ∨
      (rung q cmd m).controller.sqHead q = (rung q cmd m).controller.sqTail q ∨
      ((rung q cmd m).controller.cqTail q + 1) % qdepth = (rung q cmd m).controller.cqHead q) := by
    have hsq : m.controller.sqHead q ≠ (m.tail q + 1) % qdepth := hq.sqHead ▸ (next_ne (m.tail q)).symm
    have hcq : (m.controller.cqTail q + 1) % qdepth ≠ m.controller.cqHead q := by
      rw [hq.cqTail, hq.cqHead]
      exact next_ne (m.head q)
    simp [rung, h.enabled, hsq, hcq]
  unfold serve
  dsimp only
  rw [if_neg hbusy]
  simp [rung, executed, hq.sqHead, hq.cqTail, hq.phase, stamp_cid]

/-- What a call leaves behind. -/
def finished (execute : σ → Queue → Command → σ × UInt32) (q : Queue) (cmd : Command) (m : Machine σ) : Machine σ :=
  let cid := (m.cid + 1) &&& 65535
  let status := (execute m.controller.device q (stamp cid cmd)).2
  let next := (m.head q + 1) % qdepth
  let after := executed execute q cmd m
  { after with
    head := update m.head q next
    phase := if next = 0 then update m.phase q (m.phase q ^^^ 1) else m.phase
    events := m.events ++ [.submitted q (stamp cid cmd), .posted q cid (status % 32768), .accepted q cid (status % 32768)]
    controller := { after.controller with cqHead := update m.controller.cqHead q next } }

theorem toNat_cid (count : UInt32) : (count &&& 65535).toNat < 65536 := by
  rw [toNat_low]
  omega

theorem accept_executed (h : Ready m) : accept q ((m.cid + 1) &&& 65535) (executed execute q cmd m) =
    (if (execute m.controller.device q (stamp ((m.cid + 1) &&& 65535) cmd)).2 % 32768 = 0 then 0 else -1, finished execute q cmd m) := by
  have hentry : (executed execute q cmd m).cq q ((executed execute q cmd m).head q) =
      completion ((m.cid + 1) &&& 65535) (m.phase q) (execute m.controller.device q (stamp ((m.cid + 1) &&& 65535) cmd)).2 := by
    simp [executed, rung]
  have hstride : 0 < (executed execute q cmd m).controller.stride := h.stride
  unfold accept mmwrite
  dsimp only
  rw [hentry, write_cqHead hstride, completion_cid (toNat_cid _), completion_status]
  simp [executed, finished, rung]
  rfl

/-- A call in which the controller serves the queue in time: its result, and what it leaves. -/
theorem nvmeCommand_eq (h : Ready m) {schedule : Nat → Option Queue} (hprompt : ∃ i < waitLimit, schedule i = some q) :
    nvmeCommand execute schedule q cmd m =
      (if (execute m.controller.device q (stamp ((m.cid + 1) &&& 65535) cmd)).2 % 32768 = 0 then 0 else -1,
        finished execute q cmd m) := by
  obtain ⟨i, hi, hserved⟩ := hprompt
  have hq := h.idle q
  have hothers : ∀ p, p ≠ q → serve execute p (rung q cmd m) = rung q cmd m := by
    intro p hp
    apply serve_idle
    simp [rung, hp, (h.idle p).sqHead, (h.idle p).sqTail]
  have hold : phaseOf ((rung q cmd m).cq q ((rung q cmd m).head q)) ≠ ((rung q cmd m).phase q).toUInt32 := by
    change phaseOf (m.cq q (m.head q)) ≠ (m.phase q).toUInt32
    rw [hq.entries _ hq.head_lt, if_neg (Nat.lt_irrefl _)]
    rcases hq.bit with hbit | hbit <;> rw [hbit] <;> decide
  have hnew : phaseOf ((executed execute q cmd m).cq q ((executed execute q cmd m).head q)) =
      ((executed execute q cmd m).phase q).toUInt32 := by
    simp [executed, rung, completion_phase _ hq.bit]
  rw [nvmeCommand, submit_eq h]
  dsimp only
  rw [pollLoop_waits hothers hold (by rw [serve_rung h]; exact hnew) waitLimit hi (by rw [Nat.zero_add]; exact hserved), serve_rung h,
    accept_executed h]

theorem phase_finished : (finished execute q cmd m).phase q = if (m.head q + 1) % qdepth = 0 then m.phase q ^^^ 1 else m.phase q := by
  unfold finished
  dsimp only
  split
  · exact update_self q _ m.phase
  · rfl

theorem idle_finished_self (h : Ready m) : Idle (finished execute q cmd m) q := by
  have hq := h.idle q
  have hlt := hq.head_lt
  have hdepth : qdepth = 16 := rfl
  have hhead : (finished execute q cmd m).head q = (m.head q + 1) % qdepth := update_self q _ m.head
  have htail : (finished execute q cmd m).tail q = (m.tail q + 1) % qdepth := update_self q _ m.tail
  have hphase := @phase_finished _ execute m q cmd
  have hbit : (finished execute q cmd m).phase q = 0 ∨ (finished execute q cmd m).phase q = 1 := by
    rw [hphase]
    rcases hq.bit with hbit | hbit <;> rw [hbit] <;> split <;> decide
  refine ⟨htail ▸ next_lt _, hhead ▸ next_lt _, ?_, ?_, ?_, ?_, ?_, hbit, fun i hi => ?_⟩
  · rw [htail]
    exact update_self q _ m.controller.sqTail
  · rw [htail]
    exact update_self q _ m.controller.sqHead
  · rw [hhead]
    exact update_self q _ m.controller.cqHead
  · rw [hhead]
    exact update_self q _ m.controller.cqTail
  · rw [hphase]
    unfold finished executed
    dsimp only
    split
    · exact update_self q _ m.controller.phase
    · exact hq.phase
  · have hentry : phaseOf ((finished execute q cmd m).cq q i) =
        (if i ≤ m.head q then m.phase q else m.phase q ^^^ 1).toUInt32 := by
      unfold finished executed
      dsimp only
      rw [update_self]
      by_cases hlast : i = m.head q
      · rw [hlast, update_self, completion_phase _ hq.bit, if_pos (Nat.le_refl _)]
      · rw [update_of_ne hlast, hq.entries i hi]
        congr 2
        simp only [eq_iff_iff]
        omega
    rw [hentry, hhead, hphase]
    by_cases hwrap : (m.head q + 1) % qdepth = 0
    · -- The pass is over: all entries carry the old phase.
      have hback : m.phase q ^^^ 1 ^^^ 1 = m.phase q := by rw [UInt8.xor_assoc, UInt8.xor_self, UInt8.xor_zero]
      rw [if_pos hwrap, hwrap, if_neg (Nat.not_lt_zero i), hback, if_pos (by rw [hdepth] at hwrap hlt hi; omega)]
    · have hnext : (m.head q + 1) % qdepth = m.head q + 1 := by
        rw [hdepth] at hwrap hlt ⊢
        omega
      rw [if_neg hwrap, hnext]
      simp only [Nat.lt_add_one_iff]

theorem idle_finished_other {p : Queue} (hp : Idle m p) (hpq : p ≠ q) : Idle (finished execute q cmd m) p := by
  have hphase : (finished execute q cmd m).phase p = m.phase p := by
    unfold finished
    dsimp only
    split
    · exact update_of_ne hpq _ m.phase
    · rfl
  have hhead : (finished execute q cmd m).head p = m.head p := update_of_ne hpq _ m.head
  have htail : (finished execute q cmd m).tail p = m.tail p := update_of_ne hpq _ m.tail
  refine ⟨htail ▸ hp.tail_lt, hhead ▸ hp.head_lt, ?_, ?_, ?_, ?_, ?_, hphase ▸ hp.bit, fun i hi => ?_⟩
  · rw [htail]
    exact (update_of_ne hpq _ m.controller.sqTail).trans hp.sqTail
  · rw [htail]
    exact (update_of_ne hpq _ m.controller.sqHead).trans hp.sqHead
  · rw [hhead]
    exact (update_of_ne hpq _ m.controller.cqHead).trans hp.cqHead
  · rw [hhead]
    exact (update_of_ne hpq _ m.controller.cqTail).trans hp.cqTail
  · rw [hphase, ← hp.phase]
    unfold finished executed
    dsimp only
    split
    · exact update_of_ne hpq _ m.controller.phase
    · rfl
  · rw [hphase, hhead, ← hp.entries i hi]
    unfold finished executed
    dsimp only
    rw [update_of_ne hpq]

theorem ready_finished (h : Ready m) : Ready (finished execute q cmd m) where
  enabled := h.enabled
  stride := h.stride
  idle p := by
    by_cases hpq : p = q
    · subst hpq
      exact idle_finished_self h
    · exact idle_finished_other (h.idle p) hpq

end

/-! ## Any number of calls -/

/-- From a state in which nothing is under way, calls give what a device gives that is handed the
commands one after the other. -/
theorem runCalls_eq (calls : List Call) (hprompt : ∀ c ∈ calls, c.Prompt) : ∀ {m : Machine σ}, Ready m →
    let done := handOver execute calls m.cid m.controller.device
    (runCalls execute calls m).1 = done.1 ∧ (runCalls execute calls m).2.controller.device = done.2.1 ∧
      (runCalls execute calls m).2.events = m.events ++ done.2.2 := by
  induction calls with
  | nil => exact fun _ => ⟨rfl, rfl, (List.append_nil _).symm⟩
  | cons c calls ih =>
    intro m h
    have hcall := @nvmeCommand_eq _ execute m c.queue c.cmd h _ (hprompt c (List.mem_cons_self ..))
    obtain ⟨hresults, hdevice, hevents⟩ := ih (fun d hd => hprompt d (List.mem_cons_of_mem _ hd))
      (@ready_finished _ execute m c.queue c.cmd h)
    unfold runCalls handOver
    rw [hcall]
    dsimp only
    refine ⟨?_, ?_, ?_⟩
    · rw [hresults]
      rfl
    · rw [hdevice]
      rfl
    · rw [hevents]
      simp [finished]
      rfl

/-- Over any number of calls, each takes the completion of its own command, and gives 0 exactly when
that completion has status 0. -/
theorem completions_matched (execute : σ → Queue → Command → σ × UInt32) (device : σ) {stride : Nat} (hstride : 0 < stride)
    {calls : List Call} (hprompt : ∀ c ∈ calls, c.Prompt) :
    (runCalls execute calls (started device stride)).1 = (handOver execute calls 0 device).1 ∧
    (runCalls execute calls (started device stride)).2.controller.device = (handOver execute calls 0 device).2.1 ∧
    (runCalls execute calls (started device stride)).2.events = (handOver execute calls 0 device).2.2 :=
  runCalls_eq calls hprompt (ready_started device hstride)

/-- A controller that reports an error for every third command, and calls on both queues that it
serves in rounds 0 and 2. -/
theorem completions_matched_both : let execute : Nat → Queue → Command → Nat × UInt32 := fun n _ _ => (n + 1, if n % 3 = 2 then 1 else 0)
    let calls : List Call := [⟨.admin, fun _ => 6, fun _ => some .admin⟩, ⟨.io, fun _ => 2, fun i => if i = 2 then some .io else none⟩]
    (runCalls execute calls (started 0 4)).1 = (handOver execute calls 0 0).1 ∧
    (runCalls execute calls (started 0 4)).2.controller.device = (handOver execute calls 0 0).2.1 ∧
    (runCalls execute calls (started 0 4)).2.events = (handOver execute calls 0 0).2.2 := by
  refine completions_matched _ 0 (by decide) fun c hc => ?_
  rcases List.mem_cons.1 hc with rfl | hc
  · exact ⟨0, Nat.succ_pos _, rfl⟩
  · obtain rfl := List.mem_singleton.1 hc
    exact ⟨2, by unfold waitLimit; omega, rfl⟩

end Barnix.Nvme
