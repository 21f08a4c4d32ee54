import Lestra.Lib.Orbit
import Lestra.Lib.Run
import Lestra.Net.Tcp
import Mathlib.Data.List.Induction

/-!
# The DHCP client

`dhcp_start`, `dhcp_handle` and `dhcp_tick` (`kernel/net/net.c`) over any sequence of datagrams
and timer ticks.

* `optTurn`, `optWalk` — the walk over the options, and the places it reads
* `dhcpStep` — what happens to the client, with the configuration of the interface
* `dhcp_law` — which ACK the configuration comes from
-/

namespace Lestra

-- ---------------------------------------------------------------------------
-- The options
-- ---------------------------------------------------------------------------

def dhcpMagic : BitVec 32 := 0x63825363

def dhcpOptPad : BitVec 8 := 0

def dhcpOptSubnetMask : BitVec 8 := 1

def dhcpOptRouter : BitVec 8 := 3

def dhcpOptDns : BitVec 8 := 6

def dhcpOptMsgType : BitVec 8 := 53

def dhcpOptServerId : BitVec 8 := 54

def dhcpOptEnd : BitVec 8 := 255

def dhcpMsgDiscover : BitVec 8 := 1

def dhcpMsgOffer : BitVec 8 := 2

def dhcpMsgRequest : BitVec 8 := 3

def dhcpMsgAck : BitVec 8 := 5

/-- What the walk has found. -/
structure DhcpOpts where
  msgType : BitVec 8
  subnet : BitVec 32
  router : BitVec 32
  dns : BitVec 32
  serverId : BitVec 32
deriving DecidableEq, Repr

def noOpts : DhcpOpts := ⟨0, 0, 0, 0, 0⟩

/-- The value of an option, at `opt`. -/
def optTake (mem : List UInt8) (code : BitVec 8) (olen opt : ℕ) (o : DhcpOpts) : DhcpOpts :=
  if code = dhcpOptMsgType ∧ 1 ≤ olen then { o with msgType := netU8 mem opt }
  else if code = dhcpOptSubnetMask ∧ 4 ≤ olen then { o with subnet := netU32 mem opt }
  else if code = dhcpOptRouter ∧ 4 ≤ olen then { o with router := netU32 mem opt }
  else if code = dhcpOptDns ∧ 4 ≤ olen then { o with dns := netU32 mem opt }
  else if code = dhcpOptServerId ∧ 4 ≤ olen then { o with serverId := netU32 mem opt }
  else o

/-- One turn of the loop over the options of a datagram of `len` bytes; `none` at its end. The
length is read before anything says that it is in the datagram. -/
def optTurn (mem : List UInt8) (len : ℕ) (st : ℕ × DhcpOpts) : Option (ℕ × DhcpOpts) :=
  let (opt, o) := st
  if len ≤ opt ∨ netU8 mem opt = dhcpOptEnd then none
  else if netU8 mem opt = dhcpOptPad then some (opt + 1, o)
  else
    let code := netU8 mem opt
    let olen := (netU8 mem (opt + 1)).toNat
    let opt := opt + 2
    if len < opt + olen then none else some (opt + olen, optTake mem code olen opt o)

theorem optTurn_lt {mem : List UInt8} {len : ℕ} {st st' : ℕ × DhcpOpts}
    (h : optTurn mem len st = some st') : st.1 < len ∧ st.1 < st'.1 := by
  rw [optTurn] at h
  dsimp only at h
  split at h
  · cases h
  · rename_i hgo
    rw [not_or, Nat.not_le] at hgo
    refine ⟨hgo.1, ?_⟩
    split at h
    · cases h
      exact Nat.lt_succ_self _
    · split at h
      · cases h
      · cases h
        dsimp only
        omega

/-- The loop. Each turn goes forward, so that it ends. -/
def optWalk (mem : List UInt8) (len : ℕ) (st : ℕ × DhcpOpts) : DhcpOpts :=
  match _h : optTurn mem len st with
  | none => st.2
  | some st' => optWalk mem len st'
termination_by len - st.1
decreasing_by
  have hlt := optTurn_lt _h
  omega

/-- The places of the value that are read. -/
def valueReads (code : BitVec 8) (olen opt : ℕ) : List ℕ :=
  if code = dhcpOptMsgType ∧ 1 ≤ olen then [opt]
  else if (code = dhcpOptSubnetMask ∨ code = dhcpOptRouter ∨ code = dhcpOptDns ∨
      code = dhcpOptServerId) ∧ 4 ≤ olen then List.range' opt 4
  else []

/-- The places that a turn reads. -/
def optTurnReads (mem : List UInt8) (len opt : ℕ) : List ℕ :=
  if len ≤ opt then []
  else if netU8 mem opt = dhcpOptEnd ∨ netU8 mem opt = dhcpOptPad then [opt]
  else
    let olen := (netU8 mem (opt + 1)).toNat
    [opt, opt + 1] ++
      if len < opt + 2 + olen then [] else valueReads (netU8 mem opt) olen (opt + 2)

def optReads (mem : List UInt8) (len : ℕ) (st : ℕ × DhcpOpts) : List ℕ :=
  optTurnReads mem len st.1 ++
    match _h : optTurn mem len st with
    | none => []
    | some st' => optReads mem len st'
termination_by len - st.1
decreasing_by
  have hlt := optTurn_lt _h
  omega

-- ---------------------------------------------------------------------------
-- The client
-- ---------------------------------------------------------------------------

/-- `dhcp_state_t` -/
inductive DhcpState where
  | init | selecting | requesting | bound | failed
deriving DecidableEq, Repr

/-- `my_ip`, `my_mask`, `my_gw` and `my_dns` -/
structure IpConfig where
  myIp : BitVec 32
  myMask : BitVec 32
  myGw : BitVec 32
  myDns : BitVec 32
deriving DecidableEq, Repr

/-- The variables of the client, and what it configures. -/
structure Dhcp where
  state : DhcpState
  xid : BitVec 32
  offeredIp : BitVec 32
  serverId : BitVec 32
  lastMsgTime : BitVec 64
  tries : ℕ
  config : IpConfig
deriving DecidableEq, Repr

/-- What the client sends: `dhcp_send` with its arguments and the `xid`, or an ARP request. -/
inductive DhcpOut where
  | send (msgType : BitVec 8) (xid requestedIp serverId : BitVec 32)
  | arpRequest (ip : BitVec 32)
deriving DecidableEq, Repr

/-- As the program starts. -/
def dhcpInit : Dhcp := ⟨.init, 0, 0, 0, 0, 0, ⟨0, 0, 0, 0⟩⟩

def dhcpStart (s : Dhcp) (timerMs : BitVec 64) : Dhcp :=
  { s with
    xid := 0x12345678 ^^^ timerMs.setWidth 32
    state := .selecting
    lastMsgTime := 0
    tries := 0 }

/-- The header before the options. -/
def dhcpFixed : ℕ := 240

/-- `d->xid`, which is in the byte order of the host on both ways. -/
def dhcpXid (mem : List UInt8) : BitVec 32 :=
  netU8 mem 7 ++ netU8 mem 6 ++ netU8 mem 5 ++ netU8 mem 4

/-- `d->yiaddr` -/
def dhcpYiaddr (mem : List UInt8) : BitVec 32 := netU32 mem 16

/-- `ntohl32(d->magic)` -/
def dhcpMagicOf (mem : List UInt8) : BitVec 32 := netU32 mem 236

/-- The options of a datagram, in memory in front of the bytes `beyond`. -/
def dhcpOptions (data beyond : List UInt8) : DhcpOpts :=
  optWalk (data ++ beyond) data.length (dhcpFixed, noOpts)

def dhcpHandle (s : Dhcp) (data beyond : List UInt8) : Dhcp × Option DhcpOut :=
  let mem := data ++ beyond
  if data.length < dhcpFixed then (s, none)
  else if dhcpXid mem ≠ s.xid then (s, none)
  else if dhcpMagicOf mem ≠ dhcpMagic then (s, none)
  else
    let o := dhcpOptions data beyond
    if o.msgType = dhcpMsgOffer ∧ s.state = .selecting then
      ({ s with
          offeredIp := dhcpYiaddr mem
          serverId := o.serverId
          state := .requesting
          lastMsgTime := 0
          tries := 0 }, none)
    else if o.msgType = dhcpMsgAck ∧ s.state = .requesting then
      ({ s with config := ⟨dhcpYiaddr mem, o.subnet, o.router, o.dns⟩, state := .bound },
        if o.router ≠ 0 then some (.arpRequest o.router) else none)
    else (s, none)

def dhcpTick (s : Dhcp) (now : BitVec 64) : Dhcp × Option DhcpOut :=
  if s.state = .bound ∨ s.state = .failed then (s, none)
  else if (now - s.lastMsgTime).toNat < 1000 then (s, none)
  else
    let s := { s with lastMsgTime := now, tries := s.tries + 1 }
    if 10 < s.tries then ({ s with state := .failed }, none)
    else if s.state = .selecting then (s, some (.send dhcpMsgDiscover s.xid 0 0))
    else if s.state = .requesting then
      (s, some (.send dhcpMsgRequest s.xid s.offeredIp s.serverId))
    else (s, none)

/-- What happens to the client. -/
inductive DhcpOp where
  | start (timerMs : BitVec 64)
  | datagram (data beyond : List UInt8)
  | tick (now : BitVec 64)

def dhcpStep (s : Dhcp) : DhcpOp → Dhcp
  | .start timerMs => dhcpStart s timerMs
  | .datagram data beyond => (dhcpHandle s data beyond).1
  | .tick now => (dhcpTick s now).1

def dhcpRun (ops : List DhcpOp) : Dhcp := Run.run dhcpStep dhcpInit ops

/-- The places of the datagram that `dhcp_handle` reads. -/
def dhcpReads (s : Dhcp) (data beyond : List UInt8) : List ℕ :=
  let mem := data ++ beyond
  if data.length < dhcpFixed then []
  else if dhcpXid mem ≠ s.xid then List.range' 4 4
  else if dhcpMagicOf mem ≠ dhcpMagic then List.range' 4 4 ++ List.range' 236 4
  else List.range' 4 4 ++ List.range' 236 4 ++ List.range' 16 4 ++
    optReads mem data.length (dhcpFixed, noOpts)

-- ---------------------------------------------------------------------------
-- What the walk reads
-- ---------------------------------------------------------------------------

/-- The walk comes to an option of which only the code is in the datagram. -/
def EndsInCode (data beyond : List UInt8) : Prop :=
  ∃ n opt o, Orbit.walk (optTurn (data ++ beyond) data.length) (dhcpFixed, noOpts) n = some (opt, o) ∧
    opt + 1 = data.length ∧ netU8 data opt ≠ dhcpOptEnd ∧ netU8 data opt ≠ dhcpOptPad

variable {mem data beyond : List UInt8} {len opt n : ℕ} {s : Dhcp} {ops : List DhcpOp}

theorem valueReads_lt {code : BitVec 8} {olen : ℕ} :
    ∀ i ∈ valueReads code olen opt, i < opt + olen := by
  intro i hi
  rw [valueReads] at hi
  split at hi
  · rename_i hone
    rw [List.mem_singleton.mp hi]
    omega
  · split at hi
    · rename_i hfour
      have hlt := (List.mem_range'_1.mp hi).2
      omega
    · cases hi

/-- A turn reads behind the datagram only when it begins at the last byte. -/
theorem optTurnReads_lt (h : opt + 1 = len → netU8 mem opt = dhcpOptEnd ∨ netU8 mem opt = dhcpOptPad) :
    ∀ i ∈ optTurnReads mem len opt, i < len := by
  intro i hi
  rw [optTurnReads] at hi
  split at hi
  · cases hi
  · split at hi
    · rw [List.mem_singleton.mp hi]
      omega
    · rename_i hcode
      have hroom : opt + 1 ≠ len := fun heq => hcode (h heq)
      rcases List.mem_append.mp hi with hpair | hvalue
      · rcases List.mem_pair.mp hpair with rfl | rfl <;> omega
      · split at hvalue
        · cases hvalue
        · have hlt := valueReads_lt i hvalue
          omega

/-- By induction on what is left of the datagram. -/
theorem optReads_lt (st : ℕ × DhcpOpts)
    (h : ∀ n opt o, Orbit.walk (optTurn mem len) st n = some (opt, o) → opt + 1 = len →
      netU8 mem opt = dhcpOptEnd ∨ netU8 mem opt = dhcpOptPad) :
    ∀ i ∈ optReads mem len st, i < len := by
  induction st using optReads.induct mem len with
  | case1 st ih =>
    intro i hi
    rw [optReads] at hi
    rcases List.mem_append.mp hi with hturn | hrest
    · exact optTurnReads_lt (h 0 st.1 st.2 rfl) i hturn
    · split at hrest
      · cases hrest
      · rename_i st' hnext
        refine ih st' hnext (fun n opt o hwalk => h (n + 1) opt o ?_) i hrest
        rw [Orbit.walk, hnext]
        exact hwalk

theorem dhcpU8_append (h : opt < data.length) : netU8 (data ++ beyond) opt = netU8 data opt := by
  rw [netU8, netU8, List.getD_append _ _ _ _ h]

theorem dhcpReads_lt (h : ¬ EndsInCode data beyond) : ∀ i ∈ dhcpReads s data beyond, i < data.length := by
  have hfield {a i : ℕ} (hi : i ∈ List.range' a 4) (ha : a + 4 ≤ dhcpFixed)
      (hlen : ¬ data.length < dhcpFixed) : i < data.length := by
    have hlt := (List.mem_range'_1.mp hi).2
    omega
  intro i hi
  rw [dhcpReads] at hi
  split at hi
  · cases hi
  · rename_i hlen
    split at hi
    · exact hfield hi (by decide) hlen
    · split at hi
      · rcases List.mem_append.mp hi with hxid | hmagic
        · exact hfield hxid (by decide) hlen
        · exact hfield hmagic (by decide) hlen
      · simp only [List.mem_append] at hi
        rcases hi with ((hxid | hmagic) | hyiaddr) | hopts
        · exact hfield hxid (by decide) hlen
        · exact hfield hmagic (by decide) hlen
        · exact hfield hyiaddr (by decide) hlen
        · refine optReads_lt _ (fun n opt o hwalk hlast => ?_) i hopts
          rw [dhcpU8_append (by omega)]
          by_contra hcode
          rw [not_or] at hcode
          exact h ⟨n, opt, o, hwalk, hlast, hcode⟩

-- ---------------------------------------------------------------------------
-- What a step does
-- ---------------------------------------------------------------------------

/-- A datagram of the exchange `xid`, with a message type. -/
structure IsDhcpMsg (xid : BitVec 32) (msgType : BitVec 8) (data beyond : List UInt8) : Prop where
  long : dhcpFixed ≤ data.length
  xid : dhcpXid (data ++ beyond) = xid
  magic : dhcpMagicOf (data ++ beyond) = dhcpMagic
  msgType : (dhcpOptions data beyond).msgType = msgType

/-- What is configured from an ACK. -/
def ackConfig (data beyond : List UInt8) : IpConfig :=
  let o := dhcpOptions data beyond
  ⟨dhcpYiaddr (data ++ beyond), o.subnet, o.router, o.dns⟩

/-- What a datagram does. -/
theorem dhcpHandle_cases (s : Dhcp) (data beyond : List UInt8) :
    (s.state = .selecting ∧ IsDhcpMsg s.xid dhcpMsgOffer data beyond ∧
      (dhcpHandle s data beyond).1 = { s with
        offeredIp := dhcpYiaddr (data ++ beyond)
        serverId := (dhcpOptions data beyond).serverId
        state := .requesting
        lastMsgTime := 0
        tries := 0 }) ∨
    (s.state = .requesting ∧ IsDhcpMsg s.xid dhcpMsgAck data beyond ∧
      (dhcpHandle s data beyond).1 = { s with config := ackConfig data beyond, state := .bound }) ∨
    (¬ (s.state = .requesting ∧ IsDhcpMsg s.xid dhcpMsgAck data beyond) ∧
      (dhcpHandle s data beyond).1 = s) := by
  rw [dhcpHandle]
  dsimp only
  split
  · rename_i hshort
    exact .inr (.inr ⟨fun h => absurd h.2.long (Nat.not_le.mpr hshort), rfl⟩)
  · rename_i hlong
    split
    · rename_i hxid
      exact .inr (.inr ⟨fun h => hxid h.2.xid, rfl⟩)
    · rename_i hxid
      split
      · rename_i hmagic
        exact .inr (.inr ⟨fun h => hmagic h.2.magic, rfl⟩)
      · rename_i hmagic
        rw [Nat.not_lt] at hlong
        rw [ne_eq, Decidable.not_not] at hxid hmagic
        split
        · rename_i hoffer
          exact .inl ⟨hoffer.2, ⟨hlong, hxid, hmagic, hoffer.1⟩, rfl⟩
        · split
          · rename_i hack
            exact .inr (.inl ⟨hack.2, ⟨hlong, hxid, hmagic, hack.1⟩, rfl⟩)
          · rename_i hack
            exact .inr (.inr ⟨fun h => hack ⟨h.2.msgType, h.1⟩, rfl⟩)

/-- The timer only gives up. -/
theorem dhcpTick_keeps (s : Dhcp) (now : BitVec 64) :
    (dhcpTick s now).1.xid = s.xid ∧ (dhcpTick s now).1.offeredIp = s.offeredIp ∧
      (dhcpTick s now).1.config = s.config ∧
      ((dhcpTick s now).1.state = s.state ∨ (dhcpTick s now).1.state = .failed) := by
  rw [dhcpTick]
  split
  · exact ⟨rfl, rfl, rfl, .inl rfl⟩
  · split
    · exact ⟨rfl, rfl, rfl, .inl rfl⟩
    · dsimp only
      split
      · exact ⟨rfl, rfl, rfl, .inr rfl⟩
      · split
        · exact ⟨rfl, rfl, rfl, .inl rfl⟩
        · split
          · exact ⟨rfl, rfl, rfl, .inl rfl⟩
          · exact ⟨rfl, rfl, rfl, .inl rfl⟩

/-- A request is for the address that was offered. -/
theorem dhcpTick_request {now : BitVec 64} {xid ip serverId : BitVec 32}
    (h : (dhcpTick s now).2 = some (.send dhcpMsgRequest xid ip serverId)) :
    s.state = .requesting ∧ xid = s.xid ∧ ip = s.offeredIp := by
  have hne : dhcpMsgDiscover ≠ dhcpMsgRequest := by decide
  rw [dhcpTick] at h
  split at h
  · cases h
  · split at h
    · cases h
    · dsimp only at h
      split at h
      · cases h
      · split at h
        · rw [Option.some.injEq, DhcpOut.send.injEq] at h
          exact absurd h.1 hne
        · split at h
          · rename_i hstate
            rw [Option.some.injEq, DhcpOut.send.injEq] at h
            exact ⟨hstate, h.2.1.symm, h.2.2.1.symm⟩
          · cases h

-- ---------------------------------------------------------------------------
-- Runs
-- ---------------------------------------------------------------------------

def DhcpOp.IsStart : DhcpOp → Prop
  | .start _ => True
  | _ => False

/-- An OFFER of the address was taken, in the exchange that is still going on. -/
def Offered (ops : List DhcpOp) (xid ip : BitVec 32) : Prop :=
  ∃ before data beyond after, ops = before ++ .datagram data beyond :: after ∧
    (dhcpRun before).state = .selecting ∧ (dhcpRun before).xid = xid ∧
    IsDhcpMsg xid dhcpMsgOffer data beyond ∧ dhcpYiaddr (data ++ beyond) = ip ∧
    ∀ op ∈ after, ¬ op.IsStart

/-- Since then an ACK of the same exchange was taken, with the configuration. -/
def Acked (ops : List DhcpOp) (config : IpConfig) : Prop :=
  ∃ before data beyond after xid, ops = before ++ .datagram data beyond :: after ∧
    (dhcpRun before).state = .requesting ∧ Offered before xid (dhcpRun before).offeredIp ∧
    IsDhcpMsg xid dhcpMsgAck data beyond ∧ ackConfig data beyond = config ∧
    ∀ op ∈ after, ¬ op.IsStart

/-- What holds of a single step: where it reads, what it asks for, and that only an ACK
configures anything. -/
def DhcpStepOk (s : Dhcp) (op : DhcpOp) : Prop :=
  match op with
  | .datagram data beyond =>
    (¬ EndsInCode data beyond → ∀ i ∈ dhcpReads s data beyond, i < data.length) ∧
      (¬ (s.state = .requesting ∧ IsDhcpMsg s.xid dhcpMsgAck data beyond) →
        (dhcpStep s op).config = s.config)
  | .tick now =>
    (∀ xid ip serverId, (dhcpTick s now).2 = some (.send dhcpMsgRequest xid ip serverId) →
      s.state = .requesting ∧ xid = s.xid ∧ ip = s.offeredIp) ∧
      (dhcpStep s op).config = s.config
  | .start _ => (dhcpStep s op).config = s.config

theorem dhcpStep_ok (s : Dhcp) (op : DhcpOp) : DhcpStepOk s op := by
  cases op with
  | start timerMs => rfl
  | datagram data beyond =>
    refine ⟨dhcpReads_lt, fun hnot => ?_⟩
    rw [dhcpStep]
    rcases dhcpHandle_cases s data beyond with ⟨-, -, heq⟩ | ⟨hstate, hmsg, -⟩ | ⟨-, heq⟩
    · rw [heq]
    · exact absurd ⟨hstate, hmsg⟩ hnot
    · rw [heq]
  | tick now => exact ⟨fun _ _ _ => dhcpTick_request, (dhcpTick_keeps s now).2.2.1⟩

theorem dhcpRun_concat (ops : List DhcpOp) (op : DhcpOp) :
    dhcpRun (ops ++ [op]) = dhcpStep (dhcpRun ops) op := Run.run_append _ _ _

variable {xid ip : BitVec 32} {config : IpConfig} {op : DhcpOp}

theorem Offered.concat (h : Offered ops xid ip) (hop : ¬ op.IsStart) : Offered (ops ++ [op]) xid ip := by
  obtain ⟨before, data, beyond, after, rfl, hstate, hxid, hmsg, hip, hafter⟩ := h
  refine ⟨before, data, beyond, after ++ [op], ?_, hstate, hxid, hmsg, hip, ?_⟩
  · rw [List.append_assoc, List.cons_append]
  · exact List.forall_mem_append.mpr ⟨hafter, List.forall_mem_singleton.mpr hop⟩

theorem Acked.concat (h : Acked ops config) (hop : ¬ op.IsStart) : Acked (ops ++ [op]) config := by
  obtain ⟨before, data, beyond, after, xid, rfl, hstate, hoffered, hmsg, hconfig, hafter⟩ := h
  refine ⟨before, data, beyond, after ++ [op], xid, ?_, hstate, hoffered, hmsg, hconfig, ?_⟩
  · rw [List.append_assoc, List.cons_append]
  · exact List.forall_mem_append.mpr ⟨hafter, List.forall_mem_singleton.mpr hop⟩

/-- What the state says about the operations that led to it. -/
structure DhcpHistory (ops : List DhcpOp) : Prop where
  requesting : (dhcpRun ops).state = .requesting →
    Offered ops (dhcpRun ops).xid (dhcpRun ops).offeredIp
  bound : (dhcpRun ops).state = .bound → Acked ops (dhcpRun ops).config

theorem DhcpHistory.step (h : DhcpHistory ops) (op : DhcpOp) : DhcpHistory (ops ++ [op]) := by
  cases op with
  | start timerMs =>
    constructor <;> intro hstate <;> rw [dhcpRun_concat] at hstate <;> cases hstate
  | tick now =>
    obtain ⟨hxid, hip, hconfig, hstate'⟩ := dhcpTick_keeps (dhcpRun ops) now
    constructor <;> intro hstate <;> rw [dhcpRun_concat, dhcpStep] at hstate ⊢ <;>
      rw [hstate] at hstate'
    · rw [hxid, hip]
      exact (h.requesting (hstate'.resolve_right nofun).symm).concat id
    · rw [hconfig]
      exact (h.bound (hstate'.resolve_right nofun).symm).concat id
  | datagram data beyond =>
    rcases dhcpHandle_cases (dhcpRun ops) data beyond with
      ⟨hstate, hmsg, heq⟩ | ⟨hstate, hmsg, heq⟩ | ⟨-, heq⟩
    · constructor <;> intro hstate' <;> rw [dhcpRun_concat, dhcpStep, heq] at hstate' ⊢
      · exact ⟨ops, data, beyond, [], rfl, hstate, rfl, hmsg, rfl, nofun⟩
      · cases hstate'
    · constructor <;> intro hstate' <;> rw [dhcpRun_concat, dhcpStep, heq] at hstate' ⊢
      · cases hstate'
      · exact ⟨ops, data, beyond, [], _, rfl, hstate, h.requesting hstate, hmsg, rfl, nofun⟩
    · constructor <;> intro hstate' <;> rw [dhcpRun_concat, dhcpStep, heq] at hstate' ⊢
      · exact (h.requesting hstate').concat id
      · exact (h.bound hstate').concat id

theorem dhcpHistory (ops : List DhcpOp) : DhcpHistory ops := by
  induction ops using List.reverseRecOn with
  | nil => exact ⟨nofun, nofun⟩
  | append_singleton ops op ih => exact ih.step op

/-- **The client.** In every run each step reads inside the datagram (one that ends in the code of
an option apart), a request asks for the address that was offered, and nothing is configured but by
an ACK. The interface is bound only by an ACK that followed an OFFER of the same exchange, with the
address in that ACK. -/
theorem dhcp_law (ops : List DhcpOp) :
    Run.Allowed dhcpStep DhcpStepOk dhcpInit ops ∧
      ((dhcpRun ops).state = .bound → Acked ops (dhcpRun ops).config) := by
  have hallowed : ∀ (ops : List DhcpOp) (s : Dhcp), Run.Allowed dhcpStep DhcpStepOk s ops := by
    intro ops
    induction ops with
    | nil => exact fun _ => trivial
    | cons op ops ih => exact fun s => ⟨dhcpStep_ok s op, ih _⟩
  exact ⟨hallowed ops dhcpInit, (dhcpHistory ops).bound⟩

theorem optWalk_stop {st : ℕ × DhcpOpts} (h : optTurn mem len st = none) : optWalk mem len st = st.2 := by
  rw [optWalk]
  split
  · rfl
  · rename_i heq
    rw [h] at heq
    cases heq

theorem optWalk_next {st st' : ℕ × DhcpOpts} (h : optTurn mem len st = some st') :
    optWalk mem len st = optWalk mem len st' := by
  rw [optWalk]
  split
  · rename_i heq
    rw [h] at heq
    cases heq
  · rename_i heq
    rw [Option.some.inj (heq.symm.trans h)]

/-- A message of the exchange that begins at time 0, with the address 10.0.0.`host`. -/
def dhcpReply (msgType host : UInt8) : List UInt8 :=
  [2, 1, 6, 0, 0x78, 0x56, 0x34, 0x12, 0, 0, 0, 0, 0, 0, 0, 0, 10, 0, 0, host] ++
    List.replicate 216 0 ++ [0x63, 0x82, 0x53, 0x63, 53, 1, msgType, 255]

/-- 10.0.0.5 is offered and requested, and an ACK of 10.0.0.9 is taken. -/
def switchedOps : List DhcpOp :=
  [.start 0, .datagram (dhcpReply 2 5) [], .tick 1000, .datagram (dhcpReply 5 9) []]

theorem dhcpReply_options (msgType host : UInt8) (h : msgType = 2 ∧ host = 5 ∨ msgType = 5 ∧ host = 9) :
    dhcpOptions (dhcpReply msgType host) [] = { noOpts with msgType := msgType.toBitVec } := by
  rw [dhcpOptions]
  rcases h with ⟨rfl, rfl⟩ | ⟨rfl, rfl⟩
  · have hturn : optTurn (dhcpReply 2 5 ++ []) 244 (dhcpFixed, noOpts) = some (243, ⟨2, 0, 0, 0, 0⟩) := by
      decide
    have hlen : (dhcpReply 2 5).length = 244 := by decide +kernel
    rw [hlen, optWalk_next hturn, optWalk_stop (by decide)]
    rfl
  · have hturn : optTurn (dhcpReply 5 9 ++ []) 244 (dhcpFixed, noOpts) = some (243, ⟨5, 0, 0, 0, 0⟩) := by
      decide
    have hlen : (dhcpReply 5 9).length = 244 := by decide +kernel
    rw [hlen, optWalk_next hturn, optWalk_stop (by decide)]
    rfl

/-- The address that is configured is not the one that was requested. -/
theorem switched_address :
    (dhcpTick (dhcpRun (switchedOps.take 2)) 1000).2 =
        some (.send dhcpMsgRequest 0x12345678 0x0A000005 0) ∧
      (dhcpRun switchedOps).state = .bound ∧ (dhcpRun switchedOps).config.myIp = 0x0A000009 := by
  have hoffer : dhcpOptions (dhcpReply 2 5) [] = { noOpts with msgType := dhcpMsgOffer } :=
    dhcpReply_options 2 5 (.inl ⟨rfl, rfl⟩)
  have hack : dhcpOptions (dhcpReply 5 9) [] = { noOpts with msgType := dhcpMsgAck } :=
    dhcpReply_options 5 9 (.inr ⟨rfl, rfl⟩)
  have hoffered : dhcpRun (switchedOps.take 2) =
      ⟨.requesting, 0x12345678, 0x0A000005, 0, 0, 0, ⟨0, 0, 0, 0⟩⟩ := by
    show (dhcpHandle (dhcpStart dhcpInit 0) (dhcpReply 2 5) []).1 = _
    rw [dhcpHandle, hoffer]
    decide +kernel
  have hbound : dhcpRun switchedOps =
      (dhcpHandle (dhcpTick (dhcpRun (switchedOps.take 2)) 1000).1 (dhcpReply 5 9) []).1 := rfl
  rw [hbound, hoffered, dhcpHandle, hack]
  decide +kernel

end Lestra
