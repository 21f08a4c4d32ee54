import Lestra.Net.Tcp
import Lestra.Lib.Run
import Lestra.Lib.FirstFit
import Mathlib.Data.Fintype.Basic

/-!
# The packet firewall

`kernel/net/firewall.c` and the two places of `kernel/net/net.c` that ask it:
`handle_ipv4` for incoming and `eth_send_ipv4` for outgoing packets. A call that these make
last (a protocol handler, the driver, the answer to a rejected packet, the delivery of a
loopback packet) is part of the result; where it comes back to this code, it is the next
call of the run. Log lines are left out.
-/

namespace Lestra

-- ---------------------------------------------------------------------------
-- Rules
-- ---------------------------------------------------------------------------

inductive FwAction where
  | accept | drop | reject
deriving DecidableEq, Repr

inductive FwProto where
  | any | tcp | udp | icmp
deriving DecidableEq, Repr

/-- The `direction` argument of `fw_check`. -/
inductive FwDir where
  | input | output
deriving DecidableEq, Repr

def FwDir.toInt : FwDir → Int
  | .input => 0
  | .output => 1

def fwMaxRules : Nat := 32

def ipProtoIcmp : BitVec 8 := 1

def ipProtoTcp : BitVec 8 := 6

def ipProtoUdp : BitVec 8 := 17

/-- `struct fw_rule` -/
structure FwRule where
  inUse : Bool
  name : List UInt8
  action : FwAction
  proto : FwProto
  srcIp : Ipv4Addr
  srcMask : Ipv4Addr
  dstIp : Ipv4Addr
  dstMask : Ipv4Addr
  srcPort : BitVec 16
  dstPort : BitVec 16
  direction : Int
  matchCount : BitVec 64
deriving DecidableEq, Repr

def zeroRule : FwRule := ⟨false, [], .accept, .any, 0, 0, 0, 0, 0, 0, 0, 0⟩

/-- `struct fw_stats` -/
structure FwStats where
  totalIn : BitVec 64
  totalOut : BitVec 64
  droppedIn : BitVec 64
  droppedOut : BitVec 64
  rejectedIn : BitVec 64
  acceptedIn : BitVec 64
  acceptedOut : BitVec 64
deriving DecidableEq, Repr

structure Fw where
  rules : Fin fwMaxRules → FwRule
  stats : FwStats
  defaultInPolicy : FwAction
  defaultOutPolicy : FwAction
  initialized : Bool

/-- The static variables before the first call. -/
def fwBoot : Fw := ⟨fun _ => zeroRule, ⟨0, 0, 0, 0, 0, 0, 0⟩, .accept, .accept, false⟩

def fwInit : Fw := { fwBoot with initialized := true }

/-- `if (!fw_initialized) fw_init()` -/
def Fw.ensure (fw : Fw) : Fw := if fw.initialized then fw else fwInit

def Fw.setRule (fw : Fw) (i : Fin fwMaxRules) (r : FwRule) : Fw :=
  { fw with rules := Function.update fw.rules i r }

/-- The name is cut to 31 bytes. -/
def fwAddRule (fw : Fw) (r : FwRule) : Fw × Option (Fin fwMaxRules) :=
  match (List.finRange fwMaxRules).find? fun i => !(fw.ensure.rules i).inUse with
  | none => (fw.ensure, none)
  | some slot => (fw.ensure.setRule slot { r with
      inUse := true, name := r.name.take 31, matchCount := 0 }, some slot)

def fwRemoveRule (fw : Fw) (name : List UInt8) : Fw :=
  match (List.finRange fwMaxRules).find? fun i =>
      (fw.rules i).inUse && (fw.rules i).name == name with
  | none => fw
  | some i => fw.setRule i { fw.rules i with inUse := false }

def fwRemoveRuleById (fw : Fw) (id : Int) : Fw :=
  match (List.finRange fwMaxRules).find? fun i => (i.val : Int) == id with
  | none => fw
  | some i => if (fw.rules i).inUse then fw.setRule i { fw.rules i with inUse := false } else fw

def fwFlush (fw : Fw) : Fw := { fw with rules := fun _ => zeroRule }

def fwSetDefault (fw : Fw) (direction : Int) (action : FwAction) : Fw :=
  if direction = 0 then { fw with defaultInPolicy := action }
  else { fw with defaultOutPolicy := action }

-- ---------------------------------------------------------------------------
-- The check
-- ---------------------------------------------------------------------------

/-- `ip->proto` -/
def ipProto (mem : List UInt8) : BitVec 8 := netU8 mem 9

/-- `ip->src` -/
def ipSrc (mem : List UInt8) : Ipv4Addr := netU32 mem 12

/-- `ip->dst` -/
def ipDst (mem : List UInt8) : Ipv4Addr := netU32 mem 16

/-- `(ip->ver_ihl & 0x0F) * 4` -/
def ipHdrLen (mem : List UInt8) : Nat := (netU8 mem 0 &&& 0x0F).toNat * 4

/-- `sizeof(struct ip_hdr)` -/
def ipHdrSize : Nat := 20

/-- The tests of `rule_matches` before the ports. -/
def ruleMatchesHeader (rule : FwRule) (mem : List UInt8) (dir : FwDir) : Bool :=
  (rule.direction == 2 || rule.direction == dir.toInt) &&
  (match rule.proto with
    | .any => true
    | .tcp => ipProto mem == ipProtoTcp
    | .udp => ipProto mem == ipProtoUdp
    | .icmp => ipProto mem == ipProtoIcmp) &&
  (rule.srcIp == 0 || ipSrc mem &&& rule.srcMask == rule.srcIp &&& rule.srcMask) &&
  (rule.dstIp == 0 || ipDst mem &&& rule.dstMask == rule.dstIp &&& rule.dstMask)

/-- The rule names a port. -/
def FwRule.hasPorts (rule : FwRule) : Bool := rule.srcPort != 0 || rule.dstPort != 0

/-- The packet has ports. -/
def ipHasPorts (mem : List UInt8) : Bool :=
  ipProto mem == ipProtoTcp || ipProto mem == ipProtoUdp

/-- `mem` is the memory from the IP header on. Both headers have the source port first and
the destination port next. -/
def ruleMatches (rule : FwRule) (mem : List UInt8) (dir : FwDir) : Bool :=
  ruleMatchesHeader rule mem dir &&
  (!rule.hasPorts ||
    ipHasPorts mem &&
    (rule.srcPort == 0 || rule.srcPort == netU16 mem (ipHdrLen mem)) &&
    (rule.dstPort == 0 || rule.dstPort == netU16 mem (ipHdrLen mem + 2)))

/-- The counters of a verdict, in `fw_check`. -/
def FwStats.count (s : FwStats) (dir : FwDir) (action : FwAction) : FwStats :=
  match action, dir with
  | .accept, .input => { s with acceptedIn := s.acceptedIn + 1 }
  | .accept, .output => { s with acceptedOut := s.acceptedOut + 1 }
  | .drop, .input => { s with droppedIn := s.droppedIn + 1 }
  | .drop, .output => { s with droppedOut := s.droppedOut + 1 }
  | .reject, _ => { s with rejectedIn := s.rejectedIn + 1 }

def FwStats.countTotal (s : FwStats) : FwDir → FwStats
  | .input => { s with totalIn := s.totalIn + 1 }
  | .output => { s with totalOut := s.totalOut + 1 }

/-- The first rule in use that matches. -/
def fwFindRule (fw : Fw) (mem : List UInt8) (dir : FwDir) : Option (Fin fwMaxRules) :=
  (List.finRange fwMaxRules).find? fun i =>
    (fw.rules i).inUse && ruleMatches (fw.rules i) mem dir

def Fw.defaultPolicy (fw : Fw) : FwDir → FwAction
  | .input => fw.defaultInPolicy
  | .output => fw.defaultOutPolicy

def fwCheck (fw : Fw) (mem : List UInt8) (dir : FwDir) : Fw × FwAction :=
  let fw := fw.ensure
  let stats := fw.stats.countTotal dir
  match fwFindRule fw mem dir with
  | some i =>
    let rule := fw.rules i
    ({ fw.setRule i { rule with matchCount := rule.matchCount + 1 } with
      stats := stats.count dir rule.action }, rule.action)
  | none =>
    ({ fw with stats := stats.count dir (fw.defaultPolicy dir) }, fw.defaultPolicy dir)

-- ---------------------------------------------------------------------------
-- Packets
-- ---------------------------------------------------------------------------

abbrev MacAddr := BitVec 48

/-- The largest frame. -/
def netMaxPkt : Nat := 1518

def ethHdrSize : Nat := 14

def ipBroadcast : Ipv4Addr := 0xFFFFFFFF

def netBytes48 (x : MacAddr) : List UInt8 :=
  netBytes16 (x.extractLsb' 32 16) ++ netBytes32 (x.extractLsb' 0 32)

/-- The sum of `inet_checksum`. -/
def inetSum : List UInt8 → BitVec 32
  | a :: b :: rest => (a.toBitVec ++ b.toBitVec).setWidth 32 + inetSum rest
  | [a] => (a.toBitVec ++ (0 : BitVec 8)).setWidth 32
  | [] => 0

/-- `sum = (sum & 0xFFFF) + (sum >> 16)` -/
def inetFold (sum : BitVec 32) : BitVec 32 := (sum &&& 0xFFFF) + sum >>> 16

/-- Two turns of the loop take a sum of 32 bits to 16 bits. -/
def ipChecksum (data : List UInt8) : BitVec 16 := ~~~(inetFold (inetFold (inetSum data))).setWidth 16

/-- The IP header that `eth_send_ipv4` writes. -/
def ipHeader (src dst : Ipv4Addr) (proto : BitVec 8) (payloadLen : Nat) (checksum : BitVec 16) :
    List UInt8 :=
  [0x45, 0] ++ netBytes16 (BitVec.ofNat 16 (ipHdrSize + payloadLen)) ++ netBytes16 0x1234 ++
    netBytes16 0x4000 ++ [64, ⟨proto⟩] ++ netBytes16 checksum ++ netBytes32 src ++ netBytes32 dst

/-- The packet that `eth_send_ipv4` builds. -/
def ipPacket (src dst : Ipv4Addr) (proto : BitVec 8) (payload : List UInt8) : List UInt8 :=
  ipHeader src dst proto payload.length (ipChecksum (ipHeader src dst proto payload.length 0)) ++
    payload

/-- What the code finds in the other variables of `net.c` and outside: the configuration,
the result of `arp_resolve`, and whether `kmalloc` succeeds. -/
structure NetEnv where
  linkUp : Bool
  myIp : Ipv4Addr
  myMask : Ipv4Addr
  myGw : Ipv4Addr
  myMac : MacAddr
  arpResolve : Ipv4Addr → MacAddr
  kmalloc : Bool

/-- What `handle_ipv4` or `eth_send_ipv4` calls last. -/
inductive IpCall where
  /-- `handle_icmp`, `handle_udp` or `tcp_handle` -/
  | handler (proto : BitVec 8) (packet l4 : List UInt8)
  /-- `net_driver_send` -/
  | driver (frame : List UInt8)
  /-- `eth_send_ipv4` with the answer to a rejected packet -/
  | unreachable (dst : Ipv4Addr) (payload : List UInt8)
  /-- `handle_ipv4` with a loopback packet -/
  | loopback (packet : List UInt8)
deriving DecidableEq

/-- `icmp_buf`: the ICMP header, 20 bytes of the IP header and the first 8 bytes after the
header. With options in the header the last copy does not end in the buffer; what is outside
is left out. -/
def icmpUnreachable (data : List UInt8) : List UInt8 :=
  let l4 := data.drop (ipHdrLen data)
  let body := data.take ipHdrSize ++ List.replicate (ipHdrLen data - ipHdrSize) 0 ++ l4.take 8
  let buf : BitVec 16 → List UInt8 := fun checksum =>
    ([3, 3] ++ netBytes16 checksum ++ [0, 0, 0, 0] ++ body ++ List.replicate 8 0).take 36
  buf (ipChecksum (buf 0))

/-- The checks of `handle_ipv4` before the firewall. -/
def ipForUs (env : NetEnv) (data : List UInt8) : Bool :=
  decide (ipHdrSize ≤ data.length) && decide (ipHdrSize ≤ ipHdrLen data) &&
    decide (ipHdrLen data ≤ data.length) &&
    (ipDst data == env.myIp || ipDst data == ipBroadcast || netU8 data 16 == 127)

/-- `data` is the packet, `beyond` the memory after it. -/
def handleIpv4 (env : NetEnv) (fw : Fw) (data beyond : List UInt8) :
    Fw × Option FwAction × Option IpCall :=
  if ipForUs env data then
    let r := fwCheck fw (data ++ beyond) .input
    match r.2 with
    | .drop => (r.1, some .drop, none)
    | .reject => (r.1, some .reject,
        if ipHasPorts data then some (.unreachable (ipSrc data) (icmpUnreachable data)) else none)
    | .accept => (r.1, some .accept,
        if ipProto data == ipProtoIcmp || ipHasPorts data then
          some (.handler (ipProto data) data (data.drop (ipHdrLen data)))
        else none)
  else (fw, none, none)

/-- The firewall and the part of the static buffer of `eth_send_ipv4` after the headers. -/
structure NetOut where
  fw : Fw
  pl : List UInt8

/-- The MAC address of the next hop, when `eth_send_ipv4` gets to the firewall. -/
def ethRoute (env : NetEnv) (dst : Ipv4Addr) (payloadLen : Nat) : Option MacAddr :=
  if env.linkUp = false then none
  else
    let nextHop := if env.myIp &&& env.myMask ≠ dst &&& env.myMask ∧ env.myGw ≠ 0 then env.myGw
      else dst
    let dstMac := env.arpResolve nextHop
    if dstMac = 0 ∧ nextHop ≠ ipBroadcast then none
    else if netMaxPkt < ethHdrSize + ipHdrSize + payloadLen then none
    else some dstMac

/-- The packet never reaches the network card. -/
def isLoopback (dst : Ipv4Addr) : Bool := dst.extractLsb' 24 8 == 127

/-- The payload is copied to the buffer after the check. A payload is never so long that
`total` wraps. -/
def ethSendIpv4 (env : NetEnv) (n : NetOut) (dst : Ipv4Addr) (proto : BitVec 8)
    (payload : List UInt8) : NetOut × Option FwAction × Option IpCall :=
  if isLoopback dst then
    if netMaxPkt < ipHdrSize + payload.length ∨ env.kmalloc = false then (n, none, none)
    else (n, none, some (.loopback (ipPacket 0x7F000001 dst proto payload)))
  else
    match ethRoute env dst payload.length with
    | none => (n, none, none)
    | some dstMac =>
      let r := fwCheck n.fw (ipHeader env.myIp dst proto payload.length 0 ++ n.pl) .output
      if r.2 = .drop then (⟨r.1, n.pl⟩, some r.2, none)
      else (⟨r.1, payload ++ n.pl.drop payload.length⟩, some r.2,
        some (.driver (netBytes48 dstMac ++ netBytes48 env.myMac ++ netBytes16 0x0800 ++
          ipPacket env.myIp dst proto payload)))

-- ---------------------------------------------------------------------------
-- Runs
-- ---------------------------------------------------------------------------

/-- The rule table, without the counters. -/
structure FwTable where
  rules : Fin fwMaxRules → FwRule
  input : FwAction
  output : FwAction
deriving DecidableEq

def FwRule.policy (r : FwRule) : FwRule := { r with matchCount := 0 }

def Fw.table (fw : Fw) : FwTable :=
  ⟨fun i => (fw.rules i).policy, fw.defaultInPolicy, fw.defaultOutPolicy⟩

/-- A packet that was checked: the table then, the packet, the verdict and what was done. -/
structure Passage where
  table : FwTable
  dir : FwDir
  packet : List UInt8
  verdict : FwAction
  call : Option IpCall
deriving DecidableEq

/-- The state and the packets that were checked. -/
structure Watched where
  net : NetOut
  passages : List Passage

inductive NetOp where
  | receive (env : NetEnv) (data beyond : List UInt8)
  | send (env : NetEnv) (dst : Ipv4Addr) (proto : BitVec 8) (payload : List UInt8)
  | init
  | addRule (rule : FwRule)
  | removeRule (name : List UInt8)
  | removeRuleById (id : Int)
  | flush
  | setDefault (direction : Int) (action : FwAction)

/-- The record of a call, when it asked the firewall. -/
def Watched.add (s : Watched) (n : NetOut) (dir : FwDir) (packet : List UInt8)
    (r : Option FwAction × Option IpCall) : Watched :=
  ⟨n, s.passages ++ (r.1.map fun v => ⟨s.net.fw.table, dir, packet, v, r.2⟩).toList⟩

def Watched.setFw (s : Watched) (fw : Fw) : Watched := ⟨⟨fw, s.net.pl⟩, s.passages⟩

def netStep (s : Watched) : NetOp → Watched
  | .receive env data beyond =>
    let r := handleIpv4 env s.net.fw data beyond
    s.add ⟨r.1, s.net.pl⟩ .input data r.2
  | .send env dst proto payload =>
    let r := ethSendIpv4 env s.net dst proto payload
    s.add r.1 .output (ipPacket env.myIp dst proto payload) r.2
  | .init => s.setFw fwInit
  | .addRule rule => s.setFw (fwAddRule s.net.fw rule).1
  | .removeRule name => s.setFw (fwRemoveRule s.net.fw name)
  | .removeRuleById id => s.setFw (fwRemoveRuleById s.net.fw id)
  | .flush => s.setFw (fwFlush s.net.fw)
  | .setDefault direction action => s.setFw (fwSetDefault s.net.fw direction action)

-- ---------------------------------------------------------------------------
-- The law and the condition
-- ---------------------------------------------------------------------------

/-- The first rule in use that matches the bytes of the packet decides. -/
def FwTable.verdict (t : FwTable) (dir : FwDir) (packet : List UInt8) : FwAction :=
  match (List.finRange fwMaxRules).find? fun i =>
      (t.rules i).inUse && ruleMatches (t.rules i) packet dir with
  | some i => (t.rules i).action
  | none => match dir with
    | .input => t.input
    | .output => t.output

/-- The packet goes to a protocol handler or to the driver. -/
def IpCall.HandsOn : IpCall → Prop
  | .handler .. => True
  | .driver _ => True
  | .unreachable .. => False
  | .loopback _ => False

/-- The counters of each direction add up. There is no counter of outgoing packets that are
rejected. -/
structure FwStats.Balanced (s : FwStats) : Prop where
  input : s.totalIn = s.acceptedIn + s.droppedIn + s.rejectedIn
  output : s.totalOut = s.acceptedOut + s.droppedOut

structure FwLaw (s : Watched) : Prop where
  verdict : ∀ p ∈ s.passages, p.verdict = p.table.verdict p.dir p.packet
  enforced : ∀ p ∈ s.passages, p.verdict ≠ .accept → ∀ c, p.call = some c → ¬ c.HandsOn
  balanced : s.net.fw.stats.Balanced

/-- The check would not set the table back. -/
def Fw.Ready (fw : Fw) : Prop :=
  fw.initialized = true ∨
    ((∀ i, (fw.rules i).inUse = false) ∧ fw.defaultInPolicy = .accept ∧
      fw.defaultOutPolicy = .accept)

/-- The rule is in use and matches. -/
def Fw.Hits (fw : Fw) (mem : List UInt8) (dir : FwDir) (i : Fin fwMaxRules) : Prop :=
  (fw.rules i).inUse ∧ ruleMatches (fw.rules i) mem dir

/-- A rule that the check gets to looks at the ports. -/
def Fw.ReadsPorts (fw : Fw) (mem : List UInt8) (dir : FwDir) : Prop :=
  ∃ i, (fw.rules i).inUse ∧ ruleMatchesHeader (fw.rules i) mem dir ∧ (fw.rules i).hasPorts ∧
    ipHasPorts mem ∧ ∀ j < i, ¬ fw.Hits mem dir j

/-- The first rule that hits says REJECT, or none hits and the default policy says it. -/
def Fw.Rejects (fw : Fw) (mem : List UInt8) (dir : FwDir) : Prop :=
  (∃ i, fw.Hits mem dir i ∧ (∀ j < i, ¬ fw.Hits mem dir j) ∧ (fw.rules i).action = .reject) ∨
    ((∀ i, ¬ fw.Hits mem dir i) ∧ fw.defaultPolicy dir = .reject)

/-- The condition on a call that asks the firewall. The table is initialised. When a rule
looks at the ports, an incoming packet holds them, and the buffer of the outgoing packet
holds those of the packet. No outgoing packet is rejected, and no incoming packet that has
IP options and ports, since its answer is written outside of `icmp_buf`. -/
def netAllowed (s : Watched) : NetOp → Prop
  | .receive env data beyond => ipForUs env data → s.net.fw.Ready ∧
      (s.net.fw.ReadsPorts (data ++ beyond) .input → ipHdrLen data + 4 ≤ data.length) ∧
      (s.net.fw.Rejects (data ++ beyond) .input → ipHasPorts data → ipHdrLen data = ipHdrSize)
  | .send env dst proto payload => ∀ mac, ethRoute env dst payload.length = some mac →
      isLoopback dst = false → s.net.fw.Ready ∧
      (s.net.fw.ReadsPorts (ipHeader env.myIp dst proto payload.length 0 ++ s.net.pl) .output →
        netU16 s.net.pl 0 = netU16 payload 0 ∧ netU16 s.net.pl 2 = netU16 payload 2) ∧
      ¬ s.net.fw.Rejects (ipHeader env.myIp dst proto payload.length 0 ++ s.net.pl) .output
  | _ => True

-- ---------------------------------------------------------------------------
-- The verdict
-- ---------------------------------------------------------------------------

section Verdict

variable {fw : Fw} {mem mem' : List UInt8} {dir : FwDir}

theorem fwCheck_verdict : (fwCheck fw mem dir).2 = fw.ensure.table.verdict dir mem := by
  have hfind : fwFindRule fw.ensure mem dir = (List.finRange fwMaxRules).find? fun i =>
      (fw.ensure.table.rules i).inUse && ruleMatches (fw.ensure.table.rules i) mem dir := rfl
  unfold fwCheck FwTable.verdict
  rw [← hfind]
  dsimp only
  cases fwFindRule fw.ensure mem dir with
  | some i => rfl
  | none => cases dir <;> rfl

theorem fwCheck_stats : (fwCheck fw mem dir).1.stats =
    (fw.ensure.stats.countTotal dir).count dir (fwCheck fw mem dir).2 := by
  unfold fwCheck
  dsimp only
  cases fwFindRule fw.ensure mem dir <;> rfl

theorem FwTable.verdict_unused {t : FwTable} (h : ∀ i, (t.rules i).inUse = false) :
    t.verdict dir mem = match dir with | .input => t.input | .output => t.output := by
  have hnone : ((List.finRange fwMaxRules).find? fun i =>
      (t.rules i).inUse && ruleMatches (t.rules i) mem dir) = none :=
    FirstFit.eq_none_iff.mpr fun i => by rw [h i, Bool.false_and]
  unfold FwTable.verdict
  rw [hnone]

theorem Fw.Ready.verdict (h : fw.Ready) :
    (fwCheck fw mem dir).2 = fw.table.verdict dir mem := by
  rw [fwCheck_verdict]
  unfold Fw.ensure
  split
  · rfl
  · rename_i hinit
    obtain ⟨hunused, hin, hout⟩ := h.resolve_left hinit
    rw [FwTable.verdict_unused (fun _ => rfl), FwTable.verdict_unused (t := fw.table) hunused]
    cases dir with
    | input => exact hin.symm
    | output => exact hout.symm

/-- The verdict of the table is REJECT. -/
theorem verdict_reject_iff : fw.table.verdict dir mem = .reject ↔ fw.Rejects mem dir := by
  have hhits : ∀ i, ((fw.table.rules i).inUse && ruleMatches (fw.table.rules i) mem dir) = true ↔
      fw.Hits mem dir i := fun i => by rw [Bool.and_eq_true]; exact Iff.rfl
  have hmiss : ∀ i, ((fw.table.rules i).inUse && ruleMatches (fw.table.rules i) mem dir) = false ↔
      ¬ fw.Hits mem dir i := fun i => by rw [← hhits i, Bool.not_eq_true]
  unfold FwTable.verdict
  cases hfind : (List.finRange fwMaxRules).find? fun i =>
      (fw.table.rules i).inUse && ruleMatches (fw.table.rules i) mem dir with
  | some i =>
    obtain ⟨hi, hbefore⟩ := FirstFit.eq_some_iff.mp hfind
    constructor
    · exact fun hact => .inl ⟨i, (hhits i).mp hi, fun j hj => (hmiss j).mp (hbefore j hj), hact⟩
    · rintro (⟨k, hk, hkbefore, hact⟩ | ⟨hnone, -⟩)
      · have hsame : k = i := by
          rcases lt_trichotomy k i with hlt | heq | hlt
          · exact absurd hk ((hmiss k).mp (hbefore k hlt))
          · exact heq
          · exact absurd ((hhits i).mp hi) (hkbefore i hlt)
        rw [← hsame]
        exact hact
      · exact absurd ((hhits i).mp hi) (hnone i)
  | none =>
    have hnone : ∀ i, ¬ fw.Hits mem dir i := fun i =>
      (hmiss i).mp (FirstFit.eq_none_iff.mp hfind i)
    constructor
    · intro hact
      refine .inr ⟨hnone, ?_⟩
      cases dir <;> exact hact
    · rintro (⟨k, hk, -, -⟩ | ⟨-, hact⟩)
      · exact absurd hk (hnone k)
      · cases dir <;> exact hact

/-- The header fields that the rules look at are the same. -/
structure SameHeader (mem mem' : List UInt8) : Prop where
  proto : ipProto mem = ipProto mem'
  src : ipSrc mem = ipSrc mem'
  dst : ipDst mem = ipDst mem'

theorem SameHeader.matches (h : SameHeader mem mem') (rule : FwRule) :
    ruleMatchesHeader rule mem dir = ruleMatchesHeader rule mem' dir := by
  unfold ruleMatchesHeader
  rw [h.proto, h.src, h.dst]

theorem SameHeader.hasPorts (h : SameHeader mem mem') : ipHasPorts mem = ipHasPorts mem' := by
  unfold ipHasPorts
  rw [h.proto]

/-- The verdict looks at the header fields, and at the ports when a rule it gets to does. -/
theorem verdict_congr (h : SameHeader mem mem')
    (hports : fw.ReadsPorts mem dir → netU16 mem (ipHdrLen mem) = netU16 mem' (ipHdrLen mem') ∧
      netU16 mem (ipHdrLen mem + 2) = netU16 mem' (ipHdrLen mem' + 2)) :
    fw.table.verdict dir mem = fw.table.verdict dir mem' := by
  have hfind : ((List.finRange fwMaxRules).find? fun i =>
        (fw.table.rules i).inUse && ruleMatches (fw.table.rules i) mem dir) =
      (List.finRange fwMaxRules).find? fun i =>
        (fw.table.rules i).inUse && ruleMatches (fw.table.rules i) mem' dir := by
    refine FirstFit.find_congr fun i hbefore => ?_
    cases huse : (fw.table.rules i).inUse with
    | false => rfl
    | true =>
      unfold ruleMatches
      rw [Bool.true_and, Bool.true_and, ← h.matches, ← h.hasPorts]
      cases hhead : ruleMatchesHeader (fw.table.rules i) mem dir with
      | false => rfl
      | true =>
        cases hnames : (fw.table.rules i).hasPorts with
        | false => rfl
        | true =>
          cases hhas : ipHasPorts mem with
          | false => rfl
          | true =>
            -- the ports are looked at here
            have hreads : fw.ReadsPorts mem dir := by
              refine ⟨i, huse, hhead, hnames, hhas, fun j hj hhit => ?_⟩
              have hmiss := hbefore j hj
              rw [Bool.and_eq_false_iff] at hmiss
              rcases hmiss with hmiss | hmiss
              · exact absurd hhit.1 (by rw [show (fw.rules j).inUse = false from hmiss]; decide)
              · exact absurd hhit.2 (by
                  rw [show ruleMatches (fw.rules j) mem dir = false from hmiss]; decide)
            obtain ⟨hsrc, hdst⟩ := hports hreads
            rw [hsrc, hdst]
  unfold FwTable.verdict
  rw [hfind]

end Verdict

-- ---------------------------------------------------------------------------
-- The packets
-- ---------------------------------------------------------------------------

section Packets

variable {data beyond payload pl : List UInt8}

theorem netU8_append {i : Nat} (h : i < data.length) : netU8 (data ++ beyond) i = netU8 data i := by
  unfold netU8
  rw [List.getD_append _ _ _ _ h]

theorem netU16_inside {i : Nat} (h : i + 2 ≤ data.length) :
    netU16 (data ++ beyond) i = netU16 data i := by
  rw [netU16, netU16, netU8_append (by omega), netU8_append (by omega)]

theorem netU32_inside {i : Nat} (h : i + 4 ≤ data.length) :
    netU32 (data ++ beyond) i = netU32 data i := by
  rw [netU32, netU32, netU16_inside (by omega), netU16_inside (by omega)]

/-- The header of an incoming packet is in the packet. -/
theorem sameHeader_beyond (h : ipHdrSize ≤ data.length) : SameHeader (data ++ beyond) data := by
  unfold ipHdrSize at h
  exact ⟨netU8_append (by omega), netU32_inside (by omega), netU32_inside (by omega)⟩

theorem ipHdrLen_beyond (h : ipHdrSize ≤ data.length) :
    ipHdrLen (data ++ beyond) = ipHdrLen data := by
  unfold ipHdrSize at h
  rw [ipHdrLen, ipHdrLen, netU8_append (by omega)]

section Out

variable (src dst : Ipv4Addr) (proto : BitVec 8) (n : Nat) (checksum : BitVec 16) (rest : List UInt8)

/-- The header ends with the two addresses. -/
theorem ipHeader_append : ∃ front, front.length = 12 ∧
    netU8 front 0 = 0x45 ∧ netU8 front 9 = proto ∧
    ipHeader src dst proto n checksum ++ rest =
      front ++ (netBytes32 src ++ (netBytes32 dst ++ rest)) := by
  refine ⟨[0x45, 0] ++ netBytes16 (BitVec.ofNat 16 (ipHdrSize + n)) ++ netBytes16 0x1234 ++
    netBytes16 0x4000 ++ [64, ⟨proto⟩] ++ netBytes16 checksum, rfl, rfl, rfl, ?_⟩
  simp only [ipHeader, List.append_assoc]

theorem ipFields_out : ipProto (ipHeader src dst proto n checksum ++ rest) = proto ∧
    ipSrc (ipHeader src dst proto n checksum ++ rest) = src ∧
    ipDst (ipHeader src dst proto n checksum ++ rest) = dst ∧
    ipHdrLen (ipHeader src dst proto n checksum ++ rest) = ipHdrSize := by
  obtain ⟨front, hlen, hver, hproto, heq⟩ := ipHeader_append src dst proto n checksum rest
  rw [heq]
  refine ⟨?_, ?_, ?_, ?_⟩
  · rw [ipProto, netU8_append (by omega), hproto]
  · rw [ipSrc, netU32_append (by omega), hlen, netU32_bytes]
  · rw [ipDst, netU32_append (by omega), hlen, netU32_append (Nat.le_refl 4)]
    exact netU32_bytes dst rest
  · rw [ipHdrLen, netU8_append (by omega), hver]
    rfl

/-- The ports of an outgoing packet are the first bytes after the header. -/
theorem ports_out {k : Nat} (h : ipHdrSize ≤ k) :
    netU16 (ipHeader src dst proto n checksum ++ rest) k = netU16 rest (k - ipHdrSize) :=
  netU16_append h

end Out

/-- The checksum and what follows the header are no header fields that a rule looks at. -/
theorem sameHeader_out (src dst : Ipv4Addr) (proto : BitVec 8) (n : Nat)
    (checksum checksum' : BitVec 16) (rest rest' : List UInt8) :
    SameHeader (ipHeader src dst proto n checksum ++ rest)
      (ipHeader src dst proto n checksum' ++ rest') := by
  obtain ⟨hproto, hsrc, hdst, -⟩ := ipFields_out src dst proto n checksum rest
  obtain ⟨hproto', hsrc', hdst', -⟩ := ipFields_out src dst proto n checksum' rest'
  exact ⟨hproto.trans hproto'.symm, hsrc.trans hsrc'.symm, hdst.trans hdst'.symm⟩

end Packets

-- ---------------------------------------------------------------------------
-- Steps
-- ---------------------------------------------------------------------------

theorem FwStats.Balanced.count {s : FwStats} (h : s.Balanced) (dir : FwDir) (action : FwAction)
    (hrej : dir = .output → action ≠ .reject) : ((s.countTotal dir).count dir action).Balanced := by
  obtain ⟨hin, hout⟩ := h
  cases dir with
  | input =>
    cases action with
    | accept => exact ⟨by simp only [FwStats.count, FwStats.countTotal]; rw [hin]; ac_rfl, hout⟩
    | drop => exact ⟨by simp only [FwStats.count, FwStats.countTotal]; rw [hin]; ac_rfl, hout⟩
    | reject => exact ⟨by simp only [FwStats.count, FwStats.countTotal]; rw [hin]; ac_rfl, hout⟩
  | output =>
    cases action with
    | accept => exact ⟨hin, by simp only [FwStats.count, FwStats.countTotal]; rw [hout]; ac_rfl⟩
    | drop => exact ⟨hin, by simp only [FwStats.count, FwStats.countTotal]; rw [hout]; ac_rfl⟩
    | reject => exact absurd rfl (hrej rfl)

theorem fwInit_balanced : fwInit.stats.Balanced := ⟨rfl, rfl⟩

theorem Fw.ensure_balanced {fw : Fw} (h : fw.stats.Balanced) : fw.ensure.stats.Balanced := by
  unfold Fw.ensure
  split
  · exact h
  · exact fwInit_balanced

/-- The calls of the shell do not touch the counters, but for the first one. -/
theorem fwAddRule_balanced {fw : Fw} (h : fw.stats.Balanced) (rule : FwRule) :
    (fwAddRule fw rule).1.stats.Balanced := by
  unfold fwAddRule
  split
  · exact fw.ensure_balanced h
  · exact fw.ensure_balanced h

theorem fwRemoveRule_stats (fw : Fw) (name : List UInt8) :
    (fwRemoveRule fw name).stats = fw.stats := by
  unfold fwRemoveRule
  split <;> rfl

theorem fwRemoveRuleById_stats (fw : Fw) (id : Int) :
    (fwRemoveRuleById fw id).stats = fw.stats := by
  unfold fwRemoveRuleById
  split
  · rfl
  · split <;> rfl

theorem fwSetDefault_stats (fw : Fw) (direction : Int) (action : FwAction) :
    (fwSetDefault fw direction action).stats = fw.stats := by
  unfold fwSetDefault
  split <;> rfl

section Step

variable {s : Watched}

/-- A call that asks nothing. -/
theorem FwLaw.setFw (h : FwLaw s) {fw : Fw} (hbal : fw.stats.Balanced) : FwLaw (s.setFw fw) :=
  ⟨h.verdict, h.enforced, hbal⟩

/-- A call that asked the firewall about a packet. -/
theorem FwLaw.check (h : FwLaw s) {mem packet pl : List UInt8} {dir : FwDir}
    {call : Option IpCall} (hready : s.net.fw.Ready)
    (hsame : s.net.fw.table.verdict dir mem = s.net.fw.table.verdict dir packet)
    (hrej : dir = .output → ¬ s.net.fw.Rejects mem dir)
    (hcall : (fwCheck s.net.fw mem dir).2 ≠ .accept → ∀ c, call = some c → ¬ c.HandsOn) :
    FwLaw (s.add ⟨(fwCheck s.net.fw mem dir).1, pl⟩ dir packet
      (some (fwCheck s.net.fw mem dir).2, call)) where
  verdict p hp := by
    rcases List.mem_append.mp hp with hp | hp
    · exact h.verdict p hp
    · rw [List.mem_singleton.mp hp]
      exact hready.verdict.trans hsame
  enforced p hp := by
    rcases List.mem_append.mp hp with hp | hp
    · exact h.enforced p hp
    · rw [List.mem_singleton.mp hp]
      exact hcall
  balanced := by
    show (fwCheck s.net.fw mem dir).1.stats.Balanced
    rw [fwCheck_stats]
    refine (s.net.fw.ensure_balanced h.balanced).count dir _ fun hdir hact => hrej hdir ?_
    rw [hready.verdict] at hact
    exact verdict_reject_iff.mp hact

/-- A call that did not get to the firewall. -/
theorem FwLaw.unchecked (h : FwLaw s) (dir : FwDir) (packet : List UInt8) (call : Option IpCall) :
    FwLaw (s.add s.net dir packet (none, call)) := by
  have hsame : s.add s.net dir packet (none, call) = s :=
    congrArg (Watched.mk s.net) (List.append_nil s.passages)
  rw [hsame]
  exact h

theorem FwLaw.receive (h : FwLaw s) {env : NetEnv} {data beyond : List UInt8}
    (hok : netAllowed s (.receive env data beyond)) : FwLaw (netStep s (.receive env data beyond)) := by
  rw [netStep, handleIpv4]
  by_cases hus : ipForUs env data = true
  · rw [if_pos hus]
    obtain ⟨hready, hports, -⟩ := hok hus
    have hlen : ipHdrSize ≤ data.length := by
      unfold ipForUs at hus
      simp only [Bool.and_eq_true, decide_eq_true_eq] at hus
      exact hus.1.1.1
    have hverdict : s.net.fw.table.verdict .input (data ++ beyond) =
        s.net.fw.table.verdict .input data := by
      refine verdict_congr (sameHeader_beyond hlen) fun hreads => ?_
      have hin := hports hreads
      rw [ipHdrLen_beyond hlen]
      exact ⟨netU16_inside (by omega), netU16_inside (by omega)⟩
    have hcheck : ∀ call : Option IpCall,
        ((fwCheck s.net.fw (data ++ beyond) .input).2 ≠ .accept →
          ∀ c, call = some c → ¬ c.HandsOn) →
        FwLaw (s.add ⟨(fwCheck s.net.fw (data ++ beyond) .input).1, s.net.pl⟩ .input data
          (some (fwCheck s.net.fw (data ++ beyond) .input).2, call)) :=
      fun _ => h.check hready hverdict (fun hdir => absurd hdir (by decide))
    dsimp only
    cases hact : (fwCheck s.net.fw (data ++ beyond) .input).2 with
    | drop =>
      rw [hact] at hcheck
      exact hcheck none fun _ c hc => absurd hc (by simp)
    | reject =>
      rw [hact] at hcheck
      refine hcheck _ fun _ c hc => ?_
      split at hc
      · rw [← Option.some.inj hc]
        exact id
      · exact absurd hc (by simp)
    | accept =>
      rw [hact] at hcheck
      exact hcheck _ fun hne => absurd rfl hne
  · rw [if_neg hus]
    exact h.unchecked _ _ _

theorem FwLaw.send (h : FwLaw s) {env : NetEnv} {dst : Ipv4Addr} {proto : BitVec 8}
    {payload : List UInt8} (hok : netAllowed s (.send env dst proto payload)) :
    FwLaw (netStep s (.send env dst proto payload)) := by
  rw [netStep, ethSendIpv4]
  cases hloop : isLoopback dst with
  | true =>
    rw [if_pos rfl]
    split
    · exact h.unchecked _ _ _
    · exact h.unchecked _ _ _
  | false =>
    rw [if_neg Bool.false_ne_true]
    cases hroute : ethRoute env dst payload.length with
    | none => exact h.unchecked _ _ _
    | some mac =>
      obtain ⟨hready, hports, hrej⟩ := hok mac hroute hloop
      have hverdict : s.net.fw.table.verdict .output
            (ipHeader env.myIp dst proto payload.length 0 ++ s.net.pl) =
          s.net.fw.table.verdict .output (ipPacket env.myIp dst proto payload) := by
        refine verdict_congr (sameHeader_out ..) fun hreads => ?_
        rw [ipPacket, (ipFields_out ..).2.2.2, (ipFields_out ..).2.2.2,
          ports_out _ _ _ _ _ _ (Nat.le_refl _), ports_out _ _ _ _ _ _ (Nat.le_refl _),
          ports_out _ _ _ _ _ _ (Nat.le_add_right _ _), ports_out _ _ _ _ _ _ (Nat.le_add_right _ _)]
        exact hports hreads
      dsimp only
      split
      · exact h.check hready hverdict (fun _ => hrej) fun _ c hc => absurd hc (by simp)
      · rename_i hact
        refine h.check hready hverdict (fun _ => hrej) fun hne => ?_
        -- the verdict is neither ACCEPT nor DROP
        rw [hready.verdict] at hne hact
        refine absurd (verdict_reject_iff.mp ?_) hrej
        cases hv : s.net.fw.table.verdict .output
            (ipHeader env.myIp dst proto payload.length 0 ++ s.net.pl) with
        | accept => exact absurd hv hne
        | drop => exact absurd hv hact
        | reject => rfl

/-- **One call keeps the law.** -/
theorem netStep_law (h : FwLaw s) (op : NetOp) (hok : netAllowed s op) : FwLaw (netStep s op) := by
  cases op with
  | receive env data beyond => exact h.receive hok
  | send env dst proto payload => exact h.send hok
  | init => exact h.setFw fwInit_balanced
  | addRule rule => exact h.setFw (fwAddRule_balanced h.balanced rule)
  | removeRule name => exact h.setFw (by rw [fwRemoveRule_stats]; exact h.balanced)
  | removeRuleById id => exact h.setFw (by rw [fwRemoveRuleById_stats]; exact h.balanced)
  | flush => exact h.setFw h.balanced
  | setDefault direction action => exact h.setFw (by rw [fwSetDefault_stats]; exact h.balanced)

end Step

/-- Nothing was checked before, and the counters add up. The rule table is any. -/
structure FwStart (s : Watched) : Prop where
  passages : s.passages = []
  balanced : s.net.fw.stats.Balanced

theorem FwStart.law {s : Watched} (h : FwStart s) : FwLaw s := by
  refine ⟨fun p hp => ?_, fun p hp => ?_, h.balanced⟩
  · rw [h.passages] at hp
    exact absurd hp List.not_mem_nil
  · rw [h.passages] at hp
    exact absurd hp List.not_mem_nil

/-- **The firewall is enforced.** In two runs, the same packet in the same direction under
the same table has the same verdict, whatever came before and whatever is in memory after
the packet; what is not accepted is not handed on, and the counters add up. -/
theorem fw_enforces (s s' : Watched) (ops ops' : List NetOp) (hstart : FwStart s)
    (hstart' : FwStart s') (hok : Run.Allowed netStep netAllowed s ops)
    (hok' : Run.Allowed netStep netAllowed s' ops') :
    FwLaw (Run.run netStep s ops) ∧
      ∀ p ∈ (Run.run netStep s ops).passages, ∀ p' ∈ (Run.run netStep s' ops').passages,
        p.table = p'.table → p.dir = p'.dir → p.packet = p'.packet → p.verdict = p'.verdict := by
  have hlaw := Run.inv_run (I := FwLaw) (fun _ op h hop => netStep_law h op hop) ops s
    hstart.law hok
  have hlaw' := Run.inv_run (I := FwLaw) (fun _ op h hop => netStep_law h op hop) ops' s'
    hstart'.law hok'
  refine ⟨hlaw, fun p hp p' hp' htable hdir hpacket => ?_⟩
  rw [hlaw.verdict p hp, hlaw'.verdict p' hp', htable, hdir, hpacket]

/-- The host 10.0.0.2/8, where every address resolves. -/
def hostEnv : NetEnv := ⟨true, 0x0A000002, 0xFF000000, 0, 2, fun _ => 1, true⟩

/-- UDP packets to port 53 are dropped. -/
def noDns (dir : FwDir) : FwRule :=
  { zeroRule with
    inUse := true, action := .drop, proto := .udp, dstPort := 53, direction := dir.toInt }

def noDnsStart (dir : FwDir) : Watched :=
  ⟨⟨fwInit.setRule ⟨0, by decide⟩ (noDns dir), List.replicate 8 0⟩, []⟩

theorem noDnsStart_start (dir : FwDir) : FwStart (noDnsStart dir) := ⟨rfl, fwInit_balanced⟩

/-- A UDP datagram from port 1024 to port 53. -/
def dnsPayload : List UInt8 := [4, 0, 0, 53, 0, 8, 0, 0]

def dnsPacket : List UInt8 := ipPacket 0x0A000001 0x0A000002 ipProtoUdp dnsPayload

/-- The same packet with different memory after it. -/
theorem fw_enforces_dns :
    FwLaw (Run.run netStep (noDnsStart .input) [.receive hostEnv dnsPacket []]) ∧
      ∀ p ∈ (Run.run netStep (noDnsStart .input) [.receive hostEnv dnsPacket []]).passages,
        ∀ p' ∈ (Run.run netStep (noDnsStart .input) [.receive hostEnv dnsPacket [1, 2, 3]]).passages,
          p.table = p'.table → p.dir = p'.dir → p.packet = p'.packet → p.verdict = p'.verdict := by
  have hallowed : ∀ beyond, netAllowed (noDnsStart .input) (.receive hostEnv dnsPacket beyond) :=
    fun _ _ => ⟨.inl rfl, fun _ => by decide, fun _ _ => by decide⟩
  exact fw_enforces _ _ _ _ (noDnsStart_start _) (noDnsStart_start _) ⟨hallowed _, trivial⟩
    ⟨hallowed _, trivial⟩

def dnsSend : NetOp := .send hostEnv 0x0A000001 ipProtoUdp dnsPayload

/-- Sent first, the packet passes; sent after itself, it is dropped. A packet that is
rejected goes to the driver. -/
theorem firewall_leaks : (∀ dir, FwStart (noDnsStart dir)) ∧
    (∃ p ∈ (Run.run netStep (noDnsStart .output) [dnsSend]).passages,
      ∃ p' ∈ (Run.run netStep (noDnsStart .output) [dnsSend, dnsSend]).passages,
        p.table = p'.table ∧ p.dir = p'.dir ∧ p.packet = p'.packet ∧ p.verdict ≠ p'.verdict) ∧
    ∃ p ∈ (Run.run netStep (noDnsStart .input) [.setDefault 1 .reject, dnsSend]).passages,
      p.verdict = .reject ∧ ∃ c, p.call = some c ∧ c.HandsOn := by
  let pass (v : FwAction) (call : Option IpCall) : Passage :=
    ⟨(noDnsStart .output).net.fw.table, .output,
      ipPacket 0x0A000002 0x0A000001 ipProtoUdp dnsPayload, v, call⟩
  let frame : List UInt8 := netBytes48 1 ++ netBytes48 2 ++ netBytes16 0x0800 ++
    ipPacket 0x0A000002 0x0A000001 ipProtoUdp dnsPayload
  have hfirst : pass .accept (some (.driver frame)) ∈
      (Run.run netStep (noDnsStart .output) [dnsSend]).passages := by decide
  have hsecond : pass .drop none ∈
      (Run.run netStep (noDnsStart .output) [dnsSend, dnsSend]).passages := by decide
  have hreject : { pass .reject (some (.driver frame)) with
        table := (fwSetDefault (noDnsStart .input).net.fw 1 .reject).table } ∈
      (Run.run netStep (noDnsStart .input) [.setDefault 1 .reject, dnsSend]).passages := by
    decide
  exact ⟨noDnsStart_start, ⟨_, hfirst, _, hsecond, rfl, rfl, rfl, by decide⟩,
    _, hreject, rfl, _, rfl, trivial⟩

end Lestra
