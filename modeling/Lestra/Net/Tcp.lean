import Lestra.Lib.FirstFit
import Mathlib.Logic.Function.Basic
import Mathlib.Tactic.IntervalCases
import Mathlib.Data.List.GetD

/-!
# The TCP state machine

`kernel/net/tcp.c`: the table of connections, the handlers of incoming segments for
IPv4 and IPv6, the calls of the client and server API, and the retransmit timer.
A segment handed to `eth_send_ipv4_pub` or `eth_send_ipv6_pub` is an output of the
step; what the network does with it comes back as later segments. `clock k` is what
the call reads from `timer_get_ms` at its `k`-th reading.
-/

namespace Lestra

abbrev Ipv4Addr := BitVec 32

abbrev Ipv6Addr := BitVec 128

inductive IpAddr where
  | v4 (a : Ipv4Addr)
  | v6 (a : Ipv6Addr)
deriving DecidableEq, Repr

/-- `tcp_state_t` -/
inductive TcpState where
  | closed | synSent | synReceived | established | finWait1 | finWait2 | closeWait | lastAck
  | closing | listen
deriving DecidableEq, Repr

def tcpMaxConns : Nat := 8

theorem one_lt_tcpMaxConns : 1 < tcpMaxConns := by decide

/-- `sizeof(c->rx_buf)` -/
def tcpRxBufSize : Nat := 8192

def tcpFin : BitVec 16 := 0x01

def tcpSyn : BitVec 16 := 0x02

def tcpRst : BitVec 16 := 0x04

def tcpPsh : BitVec 16 := 0x08

def tcpAck : BitVec 16 := 0x10

def tcpRetransmitTimeoutMs : Nat := 2000

def tcpMaxRetransmits : Nat := 5

-- ---------------------------------------------------------------------------
-- Segments
-- ---------------------------------------------------------------------------

/-- A segment: the fields of `struct tcp_hdr` that the code reads, and the payload. The
window is constant and the checksum is computed from the rest when it is sent. -/
structure TcpSeg where
  srcPort : BitVec 16
  dstPort : BitVec 16
  seq : BitVec 32
  ack : BitVec 32
  flags : BitVec 16
  payload : List UInt8
deriving DecidableEq, Repr

/-- `flags & mask` -/
def TcpSeg.has (s : TcpSeg) (mask : BitVec 16) : Bool := s.flags &&& mask != 0

def netU8 (data : List UInt8) (i : Nat) : BitVec 8 := (data.getD i 0).toBitVec

/-- `ntohs16` of the two bytes at `i` -/
def netU16 (data : List UInt8) (i : Nat) : BitVec 16 := netU8 data i ++ netU8 data (i + 1)

/-- `ntohl32` of the four bytes at `i` -/
def netU32 (data : List UInt8) (i : Nat) : BitVec 32 := netU16 data i ++ netU16 data (i + 2)

/-- `sizeof(struct tcp_hdr)` -/
def tcpHdrSize : Nat := 20

/-- The header fields both handlers read first, with their length checks. -/
def tcpParse (data : List UInt8) : Option TcpSeg :=
  let hdrLen := (netU16 data 12 >>> 12).toNat * 4
  if data.length < tcpHdrSize then none
  else if hdrLen < 20 ∨ data.length < hdrLen then none
  else some ⟨netU16 data 0, netU16 data 2, netU32 data 4, netU32 data 8,
    netU16 data 12 &&& 0x1FF, data.drop hdrLen⟩

def netBytes16 (x : BitVec 16) : List UInt8 := [⟨x.extractLsb' 8 8⟩, ⟨x.extractLsb' 0 8⟩]

def netBytes32 (x : BitVec 32) : List UInt8 :=
  netBytes16 (x.extractLsb' 16 16) ++ netBytes16 (x.extractLsb' 0 16)

/-- The buffer that `tcp_send_seg` fills, without options and with a window of 8192 bytes.
The checksum is computed from the rest and the addresses. -/
def tcpSegBytes (checksum : BitVec 16) (s : TcpSeg) : List UInt8 :=
  netBytes16 s.srcPort ++ netBytes16 s.dstPort ++ netBytes32 s.seq ++ netBytes32 s.ack ++
    netBytes16 (5 <<< 12 ||| s.flags) ++ netBytes16 8192 ++ netBytes16 checksum ++ netBytes16 0 ++
    s.payload

theorem netU16_bytes (x : BitVec 16) (rest : List UInt8) :
    netU16 (netBytes16 x ++ rest) 0 = x := by
  show x.extractLsb' 8 8 ++ x.extractLsb' 0 8 = x
  rw [BitVec.extractLsb'_append_extractLsb'_eq_extractLsb' (by omega)]
  simp

theorem netU16_append {xs rest : List UInt8} {n : Nat} (h : xs.length ≤ n) :
    netU16 (xs ++ rest) n = netU16 rest (n - xs.length) := by
  unfold netU16 netU8
  rw [List.getD_append_right _ _ _ _ h, List.getD_append_right _ _ _ _ (by omega),
    Nat.sub_add_comm h]

theorem netU32_bytes (x : BitVec 32) (rest : List UInt8) :
    netU32 (netBytes32 x ++ rest) 0 = x := by
  have hhigh : netU16 (netBytes32 x ++ rest) 0 = x.extractLsb' 16 16 := by
    rw [netBytes32, List.append_assoc, netU16_bytes]
  have hlow : netU16 (netBytes32 x ++ rest) 2 = x.extractLsb' 0 16 := by
    rw [netBytes32, List.append_assoc, netU16_append (Nat.le_refl 2)]
    exact netU16_bytes _ _
  rw [netU32, hhigh, hlow, BitVec.extractLsb'_append_extractLsb'_eq_extractLsb' (by omega)]
  simp

theorem netU32_append {xs rest : List UInt8} {n : Nat} (h : xs.length ≤ n) :
    netU32 (xs ++ rest) n = netU32 rest (n - xs.length) := by
  unfold netU32
  rw [netU16_append h, netU16_append (by omega), Nat.sub_add_comm h]

/-- **A segment is read back as it was sent.** -/
theorem tcpParse_segBytes (checksum : BitVec 16) (s : TcpSeg) (hflags : s.flags &&& 0x1FF = s.flags) :
    tcpParse (tcpSegBytes checksum s) = some s := by
  have h16 : ∀ x, (netBytes16 x).length = 2 := fun _ => rfl
  have h32 : ∀ x, (netBytes32 x).length = 4 := fun _ => rfl
  have hlen : (tcpSegBytes checksum s).length = 20 + s.payload.length := by
    simp only [tcpSegBytes, List.length_append, h16, h32]
  have hsrc : netU16 (tcpSegBytes checksum s) 0 = s.srcPort := by
    simp only [tcpSegBytes, List.append_assoc, netU16_bytes]
  have hdst : netU16 (tcpSegBytes checksum s) 2 = s.dstPort := by
    simp only [tcpSegBytes, List.append_assoc]
    rw [netU16_append (Nat.le_refl 2), h16, netU16_bytes]
  have hseq : netU32 (tcpSegBytes checksum s) 4 = s.seq := by
    simp only [tcpSegBytes, List.append_assoc]
    rw [netU32_append (show 2 ≤ 4 by omega), netU32_append (Nat.le_refl 2), h16, h16, netU32_bytes]
  have hack : netU32 (tcpSegBytes checksum s) 8 = s.ack := by
    simp only [tcpSegBytes, List.append_assoc]
    rw [netU32_append (show 2 ≤ 8 by omega), netU32_append (show 2 ≤ 6 by omega),
      netU32_append (Nat.le_refl 4), h16, h16, h32, netU32_bytes]
  have hword : netU16 (tcpSegBytes checksum s) 12 = 5 <<< 12 ||| s.flags := by
    simp only [tcpSegBytes, List.append_assoc]
    rw [netU16_append (show 2 ≤ 12 by omega), netU16_append (show 2 ≤ 10 by omega),
      netU16_append (show 4 ≤ 8 by omega), netU16_append (Nat.le_refl 4), h16, h16, h32, h32,
      netU16_bytes]
  have hoff : (5 <<< 12 ||| s.flags : BitVec 16) >>> 12 = 5 := by
    rw [← hflags]
    ext j hj
    interval_cases j <;> simp
  have hmask : (5 <<< 12 ||| s.flags : BitVec 16) &&& 0x1FF = s.flags := by
    rw [← hflags]
    ext j hj
    interval_cases j <;> simp
  have hpayload : (tcpSegBytes checksum s).drop 20 = s.payload := List.drop_left' (by
    simp only [List.length_append, h16, h32])
  rw [tcpParse, hword, hoff, hmask, hsrc, hdst, hseq, hack, hlen]
  rw [if_neg (show ¬ 20 + s.payload.length < tcpHdrSize by unfold tcpHdrSize; omega),
    if_neg (by simp)]
  exact congrArg (fun p => some (TcpSeg.mk _ _ _ _ _ p)) hpayload

-- ---------------------------------------------------------------------------
-- Connections
-- ---------------------------------------------------------------------------

/-- The first `rx_len` bytes of `rx_buf`. -/
structure RxBuf where
  bytes : List UInt8
  fits : bytes.length ≤ tcpRxBufSize
deriving DecidableEq, Repr

def RxBuf.empty : RxBuf := ⟨[], Nat.zero_le _⟩

/-- A payload that does not fit is left out as a whole. -/
def RxBuf.push (b : RxBuf) (payload : List UInt8) : RxBuf :=
  if h : b.bytes.length + payload.length ≤ tcpRxBufSize then
    ⟨b.bytes ++ payload, by rw [List.length_append]; exact h⟩
  else b

/-- `memmove` of what is left after the first `n` bytes. -/
def RxBuf.drop (b : RxBuf) (n : Nat) : RxBuf :=
  ⟨b.bytes.drop n, (List.length_drop ▸ Nat.sub_le _ _ : (b.bytes.drop n).length ≤ _).trans b.fits⟩

/-- `struct tcp_conn`. `lastSeg` is `none` where `last_seg_len` is 0: `last_seg` is not
read then. -/
structure TcpConn where
  inUse : Bool
  state : TcpState
  peerIp : Ipv4Addr
  peerIp6 : Ipv6Addr
  isIpv6 : Bool
  peerPort : BitVec 16
  localPort : BitVec 16
  txSeq : BitVec 32
  rxSeq : BitVec 32
  rxBuf : RxBuf
  rxClosed : Bool
  tcpConnected : Bool
  tcpConnectFailed : Bool
  retransmitCount : Nat
  lastSeg : Option TcpSeg
  lastSegTime : BitVec 64
  isServer : Bool
  pendingAccept : Bool
  accepted : Option (Fin tcpMaxConns)
deriving DecidableEq, Repr

/-- `memset(&conns[i], 0, sizeof(conns[i]))` -/
def zeroConn : TcpConn where
  inUse := false
  state := .closed
  peerIp := 0
  peerIp6 := 0
  isIpv6 := false
  peerPort := 0
  localPort := 0
  txSeq := 0
  rxSeq := 0
  rxBuf := .empty
  rxClosed := false
  tcpConnected := false
  tcpConnectFailed := false
  retransmitCount := 0
  lastSeg := none
  lastSegTime := 0
  isServer := false
  pendingAccept := false
  accepted := none

/-- A segment and the address it is sent to. -/
abbrev TcpOut := IpAddr × TcpSeg

/-- Where the segments of a connection go. -/
def TcpConn.peer (c : TcpConn) : IpAddr := if c.isIpv6 then .v6 c.peerIp6 else .v4 c.peerIp

/-- The segment `tcp_send_seg` builds. -/
def TcpConn.seg (c : TcpConn) (flags : BitVec 16) (payload : List UInt8) : TcpSeg :=
  ⟨c.localPort, c.peerPort, c.txSeq, c.rxSeq, flags, payload⟩

def tcpSendSeg (now : BitVec 64) (c : TcpConn) (flags : BitVec 16) (payload : List UInt8) :
    TcpConn × TcpOut :=
  ({ c with
      lastSeg := some (c.seg flags payload)
      lastSegTime := now
      retransmitCount := 0
      txSeq := c.txSeq + BitVec.ofNat 32 payload.length +
        if flags &&& (tcpSyn ||| tcpFin) != 0 then 1 else 0 },
    (c.peer, c.seg flags payload))

-- ---------------------------------------------------------------------------
-- A segment of a connection
-- ---------------------------------------------------------------------------

/-- The answer to a segment that is not the next one, in `tcp_handle`. -/
def tcpDupAck (now : BitVec 64) (c : TcpConn) (s : TcpSeg) : TcpConn × List TcpOut :=
  if s.seq ≠ c.rxSeq ∧ s.has tcpAck then
    let r := tcpSendSeg now c tcpAck []
    (r.1, [r.2])
  else (c, [])

/-- The payload of a segment, in `tcp_handle`. -/
def tcpRxData (now : BitVec 64) (c : TcpConn) (s : TcpSeg) : TcpConn × List TcpOut :=
  if 0 < s.payload.length ∧ s.has (tcpPsh ||| tcpAck) then
    let r := tcpSendSeg now { c with
      rxBuf := c.rxBuf.push s.payload
      rxSeq := c.rxSeq + BitVec.ofNat 32 s.payload.length } tcpAck []
    (r.1, [r.2])
  else (c, [])

/-- The FIN of a segment, in `tcp_handle`. -/
def tcpRxFin (ackTime finTime : BitVec 64) (c : TcpConn) (s : TcpSeg) : TcpConn × List TcpOut :=
  if s.has tcpFin then
    let r := tcpSendSeg ackTime { c with rxSeq := c.rxSeq + 1 } tcpAck []
    match r.1.state with
    | .established =>
      let r' := tcpSendSeg finTime
        { r.1 with state := .closeWait, rxClosed := true, lastSeg := none } (tcpFin ||| tcpAck) []
      ({ r'.1 with state := .lastAck }, [r.2, r'.2])
    -- TCP_CLOSING is overwritten at once
    | .finWait1 => ({ r.1 with state := .closed }, [r.2])
    | .finWait2 => ({ r.1 with state := .closed }, [r.2])
    | _ => (r.1, [r.2])
  else (c, [])

/-- The acknowledgement of our FIN, in `tcp_handle`. -/
def tcpRxLastAck (c : TcpConn) (s : TcpSeg) : TcpConn :=
  if c.state = .lastAck ∧ s.has tcpAck then { c with state := .closed, lastSeg := none } else c

/-- The states in which a segment's payload is looked at. -/
def TcpState.Receives (st : TcpState) : Prop :=
  st = .established ∨ st = .finWait1 ∨ st = .finWait2 ∨ st = .closeWait

instance (st : TcpState) : Decidable st.Receives := by
  unfold TcpState.Receives
  infer_instance

/-- The part of `tcp_handle` after `find_conn` found the connection. -/
def tcpInput (clock : Nat → BitVec 64) (c : TcpConn) (s : TcpSeg) : TcpConn × List TcpOut :=
  if c.state = .synSent ∧ s.has tcpSyn ∧ s.has tcpAck then
    let r := tcpSendSeg (clock 0) { c with rxSeq := s.seq + 1, txSeq := s.ack } tcpAck []
    ({ r.1 with state := .established, tcpConnected := true, lastSeg := none }, [r.2])
  else if c.state = .synReceived ∧ s.has tcpAck then
    ({ c with state := .established, lastSeg := none }, [])
  else if c.state.Receives then
    let dup := tcpDupAck (clock 0) c s
    if s.seq ≠ c.rxSeq ∧ ¬ s.has tcpFin then dup
    else
      let d := tcpRxData (clock 1) dup.1 s
      let f := tcpRxFin (clock 2) (clock 3) d.1 s
      (tcpRxLastAck f.1 s, dup.2 ++ d.2 ++ f.2)
  else (tcpRxLastAck c s, [])

-- ---------------------------------------------------------------------------
-- The table
-- ---------------------------------------------------------------------------

structure Tcp where
  conns : Fin tcpMaxConns → TcpConn
  nextLocalPort : BitVec 16

def tcpInit : Tcp := ⟨fun _ => zeroConn, 0x4000⟩

def Tcp.setConn (t : Tcp) (i : Fin tcpMaxConns) (c : TcpConn) : Tcp :=
  { t with conns := Function.update t.conns i c }

theorem setConn_conns_self (t : Tcp) (i : Fin tcpMaxConns) (c : TcpConn) :
    (t.setConn i c).conns i = c := Function.update_self ..

theorem setConn_conns_ne (t : Tcp) {i j : Fin tcpMaxConns} (c : TcpConn) (h : j ≠ i) :
    (t.setConn i c).conns j = t.conns j := Function.update_of_ne h ..

def findConn (t : Tcp) (srcIp : Ipv4Addr) (srcPort dstPort : BitVec 16) :
    Option (Fin tcpMaxConns) :=
  (List.finRange tcpMaxConns).find? fun i =>
    (t.conns i).inUse && !(t.conns i).isServer && !(t.conns i).isIpv6 &&
      ((t.conns i).peerIp == srcIp && (t.conns i).peerPort == srcPort &&
        (t.conns i).localPort == dstPort)

def findConn6 (t : Tcp) (srcIp : Ipv6Addr) (srcPort dstPort : BitVec 16) :
    Option (Fin tcpMaxConns) :=
  (List.finRange tcpMaxConns).find? fun i =>
    (t.conns i).inUse && !(t.conns i).isServer && (t.conns i).isIpv6 &&
      ((t.conns i).peerIp6 == srcIp && (t.conns i).peerPort == srcPort &&
        (t.conns i).localPort == dstPort)

def findListener (t : Tcp) (port : BitVec 16) : Option (Fin tcpMaxConns) :=
  (List.finRange tcpMaxConns).find? fun i =>
    (t.conns i).inUse && (t.conns i).isServer && (t.conns i).localPort == port

def allocConnSlot (t : Tcp) : Option (Fin tcpMaxConns) :=
  (List.finRange tcpMaxConns).find? fun i =>
    !(t.conns i).inUse || (t.conns i).state == .closed

/-- A connection that a RST aborts. -/
def TcpConn.reset (c : TcpConn) : TcpConn :=
  { c with state := .closed, tcpConnectFailed := true, lastSeg := none }

def tcpHandle (clock : Nat → BitVec 64) (t : Tcp) (src : Ipv4Addr) (data : List UInt8) :
    Tcp × List TcpOut :=
  match tcpParse data with
  | none => (t, [])
  | some s =>
    if s.has tcpRst then
      match findConn t src s.srcPort s.dstPort with
      | none => (t, [])
      | some i => (t.setConn i (t.conns i).reset, [])
    else if s.has tcpSyn ∧ ¬ s.has tcpAck then
      match findListener t s.dstPort with
      | none => (t, [])
      | some listener =>
        match allocConnSlot t with
        | none => (t, [])
        | some slot =>
          let r := tcpSendSeg (clock 1) { zeroConn with
            inUse := true
            peerIp := src
            peerPort := s.srcPort
            localPort := s.dstPort
            txSeq := 0x56789 ^^^ (clock 0).setWidth 32
            rxSeq := s.seq + 1 } (tcpSyn ||| tcpAck) []
          let t' := t.setConn slot { r.1 with state := .synReceived }
          (t'.setConn listener { t'.conns listener with
            pendingAccept := true, accepted := some slot }, [r.2])
    else
      match findConn t src s.srcPort s.dstPort with
      | none => (t, [])
      | some i =>
        let r := tcpInput clock (t.conns i) s
        (t.setConn i r.1, r.2)

/-- The change to the connection that `find_conn` found. -/
def tcpFound (clock : Nat → BitVec 64) (c : TcpConn) (s : TcpSeg) : TcpConn × List TcpOut :=
  if s.has tcpRst then (c.reset, []) else tcpInput clock c s

/-- A segment of a connection that is no connection request. -/
theorem tcpHandle_found {clock : Nat → BitVec 64} {t : Tcp} {src : Ipv4Addr} {data : List UInt8}
    {s : TcpSeg} {i : Fin tcpMaxConns} (hparse : tcpParse data = some s)
    (hfound : findConn t src s.srcPort s.dstPort = some i)
    (hsyn : s.has tcpRst = false → s.has tcpSyn → s.has tcpAck) :
    tcpHandle clock t src data =
      (t.setConn i (tcpFound clock (t.conns i) s).1, (tcpFound clock (t.conns i) s).2) := by
  unfold tcpHandle tcpFound
  rw [hparse]
  dsimp only
  rw [hfound]
  cases hrst : s.has tcpRst with
  | true => rfl
  | false =>
    rw [if_neg Bool.false_ne_true, if_neg (fun h => h.2 (hsyn hrst h.1)),
      if_neg Bool.false_ne_true]

-- ---------------------------------------------------------------------------
-- IPv6
-- ---------------------------------------------------------------------------

/-- The part of `tcp_handle6` after `find_conn6` found the connection: a second copy of
the state machine in the source. -/
def tcpInput6 (clock : Nat → BitVec 64) (c : TcpConn) (s : TcpSeg) : TcpConn × List TcpOut :=
  if c.state = .synSent ∧ s.has tcpSyn ∧ s.has tcpAck then
    let r := tcpSendSeg (clock 0) { c with rxSeq := s.seq + 1, txSeq := s.ack } tcpAck []
    ({ r.1 with state := .established, tcpConnected := true, lastSeg := none }, [r.2])
  else if c.state = .synReceived ∧ s.has tcpAck then
    ({ c with state := .established, lastSeg := none }, [])
  else if c.state.Receives then
    let dup : TcpConn × List TcpOut :=
      if s.seq ≠ c.rxSeq ∧ s.has tcpAck then
        let r := tcpSendSeg (clock 0) c tcpAck []
        (r.1, [r.2])
      else (c, [])
    if s.seq ≠ c.rxSeq ∧ ¬ s.has tcpFin then dup
    else
      let d : TcpConn × List TcpOut :=
        if 0 < s.payload.length ∧ s.has (tcpPsh ||| tcpAck) then
          let r := tcpSendSeg (clock 1) { dup.1 with
            rxBuf := dup.1.rxBuf.push s.payload
            rxSeq := dup.1.rxSeq + BitVec.ofNat 32 s.payload.length } tcpAck []
          (r.1, [r.2])
        else (dup.1, [])
      let f : TcpConn × List TcpOut :=
        if s.has tcpFin then
          let r := tcpSendSeg (clock 2) { d.1 with rxSeq := d.1.rxSeq + 1 } tcpAck []
          match r.1.state with
          | .established =>
            let r' := tcpSendSeg (clock 3)
              { r.1 with state := .closeWait, rxClosed := true, lastSeg := none }
              (tcpFin ||| tcpAck) []
            ({ r'.1 with state := .lastAck }, [r.2, r'.2])
          | .finWait1 => ({ r.1 with state := .closed }, [r.2])
          | .finWait2 => ({ r.1 with state := .closed }, [r.2])
          | _ => (r.1, [r.2])
        else (d.1, [])
      (if f.1.state = .lastAck ∧ s.has tcpAck then { f.1 with state := .closed, lastSeg := none }
        else f.1, dup.2 ++ d.2 ++ f.2)
  else
    (if c.state = .lastAck ∧ s.has tcpAck then { c with state := .closed, lastSeg := none } else c,
      [])

def tcpHandle6 (clock : Nat → BitVec 64) (t : Tcp) (src : Ipv6Addr) (data : List UInt8) :
    Tcp × List TcpOut :=
  match tcpParse data with
  | none => (t, [])
  | some s =>
    if s.has tcpRst then
      match findConn6 t src s.srcPort s.dstPort with
      | none => (t, [])
      | some i => (t.setConn i (t.conns i).reset, [])
    else if s.has tcpSyn ∧ ¬ s.has tcpAck then
      match findListener t s.dstPort with
      | none => (t, [])
      | some listener =>
        match allocConnSlot t with
        | none => (t, [])
        | some slot =>
          let r := tcpSendSeg (clock 1) { zeroConn with
            inUse := true
            isIpv6 := true
            peerIp6 := src
            peerIp := 0
            peerPort := s.srcPort
            localPort := s.dstPort
            txSeq := 0x56789 ^^^ (clock 0).setWidth 32
            rxSeq := s.seq + 1 } (tcpSyn ||| tcpAck) []
          let t' := t.setConn slot { r.1 with state := .synReceived }
          (t'.setConn listener { t'.conns listener with
            pendingAccept := true, accepted := some slot }, [r.2])
    else
      match findConn6 t src s.srcPort s.dstPort with
      | none => (t, [])
      | some i =>
        let r := tcpInput6 clock (t.conns i) s
        (t.setConn i r.1, r.2)

-- ---------------------------------------------------------------------------
-- The retransmit timer
-- ---------------------------------------------------------------------------

/-- `for (j = 0; j < count && rto < 30000; j++) rto *= 2` -/
def tcpRtoLoop (rto : Nat) : Nat → Nat
  | 0 => rto
  | count + 1 => if rto < 30000 then tcpRtoLoop (rto * 2) count else rto

/-- The timer of a connection has run out. -/
def TcpConn.due (c : TcpConn) (now : BitVec 64) : Prop :=
  tcpRtoLoop tcpRetransmitTimeoutMs c.retransmitCount ≤ (now - c.lastSegTime).toNat

instance (c : TcpConn) (now : BitVec 64) : Decidable (c.due now) :=
  inferInstanceAs (Decidable (_ ≤ _))

/-- One turn of the loop of `tcp_tick`. -/
def tcpTickConn (now : BitVec 64) (c : TcpConn) : TcpConn × List TcpOut :=
  if c.inUse = false then (c, [])
  else if c.state = .closed then ({ c with inUse := false }, [])
  else
    match c.lastSeg with
    | none => (c, [])
    | some s =>
      if c.due now then
        if tcpMaxRetransmits ≤ c.retransmitCount then (c.reset, [])
        else ({ c with lastSegTime := now, retransmitCount := c.retransmitCount + 1 },
          [(c.peer, s)])
      else (c, [])

def tcpTick (now : BitVec 64) (t : Tcp) : Tcp × List TcpOut :=
  ({ t with conns := fun i => (tcpTickConn now (t.conns i)).1 },
    (List.finRange tcpMaxConns).flatMap fun i => (tcpTickConn now (t.conns i)).2)

-- ---------------------------------------------------------------------------
-- The client and server API
-- ---------------------------------------------------------------------------

/-- The connection of the client API. -/
def clientSlot : Fin tcpMaxConns := ⟨0, by decide⟩

/-- `alloc_local_port` -/
def allocLocalPort (t : Tcp) : Tcp × BitVec 16 :=
  let next := t.nextLocalPort + 1
  ({ t with nextLocalPort := if next < 0x4000 then 0x4000 else next }, t.nextLocalPort)

/-- What `tcp_connect` and `tcp_connect6` write to the connection before they send the SYN. -/
def TcpConn.client (c : TcpConn) (peer : IpAddr) (port localPort : BitVec 16)
    (now : BitVec 64) : TcpConn :=
  { c with
    inUse := true
    peerIp := match peer with | .v4 a => a | .v6 _ => 0
    peerIp6 := match peer with | .v4 _ => 0 | .v6 a => a
    isIpv6 := match peer with | .v4 _ => false | .v6 _ => true
    peerPort := port
    localPort := localPort
    txSeq := 0x12345 ^^^ now.setWidth 32
    rxSeq := 0
    rxBuf := .empty
    rxClosed := false
    tcpConnected := false
    tcpConnectFailed := false
    isServer := false
    pendingAccept := false
    accepted := none
    lastSeg := none }

/-- The part of `tcp_connect` and `tcp_connect6` before they wait. `up` is `net_is_up()` or
`net_ipv6_is_valid()`, `sent` is what sending the SYN returned. -/
def tcpConnectTo (clock : Nat → BitVec 64) (up sent : Bool) (t : Tcp) (peer : IpAddr)
    (port : BitVec 16) : Tcp × List TcpOut :=
  if (t.conns clientSlot).state ≠ .closed ∨ up = false then (t, [])
  else
    let p := allocLocalPort t
    let r := tcpSendSeg (clock 1) ((p.1.conns clientSlot).client peer port p.2 (clock 0)) tcpSyn []
    (p.1.setConn clientSlot (if sent then { r.1 with state := .synSent } else r.1), [r.2])

def tcpConnect (clock : Nat → BitVec 64) (up sent : Bool) (t : Tcp) (dstIp : Ipv4Addr)
    (dstPort : BitVec 16) : Tcp × List TcpOut :=
  tcpConnectTo clock up sent t (.v4 dstIp) dstPort

def tcpConnect6 (clock : Nat → BitVec 64) (up sent : Bool) (t : Tcp) (dstIp : Ipv6Addr)
    (dstPort : BitVec 16) : Tcp × List TcpOut :=
  tcpConnectTo clock up sent t (.v6 dstIp) dstPort

/-- The end of `tcp_connect` and `tcp_connect6` when the deadline has passed. -/
def tcpConnectTimeout (t : Tcp) : Tcp :=
  t.setConn clientSlot { t.conns clientSlot with state := .closed }

def tcpListen (t : Tcp) (port : BitVec 16) : Tcp × Option (Fin tcpMaxConns) :=
  match allocConnSlot t with
  | none => (t, none)
  | some i =>
    (t.setConn i { zeroConn with
      inUse := true, state := .listen, isServer := true, localPort := port }, some i)

/-- One turn of the loop of `tcp_accept`, with the connection it hands out. -/
def tcpAccept (t : Tcp) (listener : Fin tcpMaxConns) : Tcp × Option (Fin tcpMaxConns) :=
  if (t.conns listener).isServer ∧ (t.conns listener).pendingAccept then
    (t.setConn listener { t.conns listener with pendingAccept := false, accepted := none },
      (t.conns listener).accepted)
  else (t, none)

def tcpSendConn (now : BitVec 64) (c : TcpConn) (data : List UInt8) : TcpConn × List TcpOut :=
  if c.state ≠ .established then (c, [])
  else
    let r := tcpSendSeg now c (tcpPsh ||| tcpAck) (data.take 1400)
    (r.1, [r.2])

/-- One turn of the loop of `tcp_recv_conn` with room for `room` more bytes. -/
def tcpRecvConn (c : TcpConn) (room : Nat) : TcpConn × List UInt8 :=
  let n := min c.rxBuf.bytes.length room
  ({ c with rxBuf := c.rxBuf.drop n }, c.rxBuf.bytes.take n)

def tcpCloseConn (now : BitVec 64) (c : TcpConn) : TcpConn × List TcpOut :=
  if c.state = .established then
    let r := tcpSendSeg now c (tcpFin ||| tcpAck) []
    ({ r.1 with state := .finWait1 }, [r.2])
  else if c.state = .closeWait then
    let r := tcpSendSeg now c (tcpFin ||| tcpAck) []
    ({ r.1 with state := .lastAck }, [r.2])
  else ({ c with state := .closed }, [])

-- ---------------------------------------------------------------------------
-- What stays of a connection
-- ---------------------------------------------------------------------------

/-- The fields that only `tcp_connect`, `tcp_listen`, `tcp_accept`, a SYN and `tcp_tick`
write. -/
structure SameEnds (c c' : TcpConn) : Prop where
  inUse : c'.inUse = c.inUse := by rfl
  peerIp : c'.peerIp = c.peerIp := by rfl
  peerIp6 : c'.peerIp6 = c.peerIp6 := by rfl
  isIpv6 : c'.isIpv6 = c.isIpv6 := by rfl
  peerPort : c'.peerPort = c.peerPort := by rfl
  localPort : c'.localPort = c.localPort := by rfl
  isServer : c'.isServer = c.isServer := by rfl
  pendingAccept : c'.pendingAccept = c.pendingAccept := by rfl
  accepted : c'.accepted = c.accepted := by rfl

theorem SameEnds.refl (c : TcpConn) : SameEnds c c := {}

theorem SameEnds.trans {c c' c'' : TcpConn} (h : SameEnds c c') (h' : SameEnds c' c'') :
    SameEnds c c'' :=
  ⟨h'.inUse.trans h.inUse, h'.peerIp.trans h.peerIp, h'.peerIp6.trans h.peerIp6,
    h'.isIpv6.trans h.isIpv6, h'.peerPort.trans h.peerPort, h'.localPort.trans h.localPort,
    h'.isServer.trans h.isServer, h'.pendingAccept.trans h.pendingAccept,
    h'.accepted.trans h.accepted⟩

theorem SameEnds.peer {c c' : TcpConn} (h : SameEnds c c') : c'.peer = c.peer := by
  rw [TcpConn.peer, TcpConn.peer, h.isIpv6, h.peerIp6, h.peerIp]

/-- A step of a connection that keeps its ends and sends to its peer. -/
structure OwnStep (c : TcpConn) (r : TcpConn × List TcpOut) : Prop where
  ends : SameEnds c r.1
  outs : ∀ o ∈ r.2, o.1 = c.peer

theorem OwnStep.quiet {c c' : TcpConn} (h : SameEnds c c') : OwnStep c (c', []) :=
  ⟨h, fun _ ho => absurd ho (List.not_mem_nil)⟩

theorem OwnStep.send {c c' : TcpConn} {s : TcpSeg} (h : SameEnds c c') :
    OwnStep c (c', [(c.peer, s)]) :=
  ⟨h, fun _ ho => List.mem_singleton.mp ho ▸ rfl⟩

theorem OwnStep.trans {c c' c'' : TcpConn} {os os' : List TcpOut} (h : OwnStep c (c', os))
    (h' : OwnStep c' (c'', os')) : OwnStep c (c'', os ++ os') :=
  ⟨h.ends.trans h'.ends, fun o ho => (List.mem_append.mp ho).elim (h.outs o) fun ho' =>
    (h'.outs o ho').trans h.ends.peer⟩

section Own

variable (clock : Nat → BitVec 64) (now : BitVec 64) (c : TcpConn) (s : TcpSeg)

theorem tcpDupAck_own : OwnStep c (tcpDupAck now c s) := by
  unfold tcpDupAck
  split
  · exact .send {}
  · exact .quiet {}

theorem tcpRxData_own : OwnStep c (tcpRxData now c s) := by
  unfold tcpRxData
  split
  · exact .send {}
  · exact .quiet {}

theorem tcpRxFin_own (finTime : BitVec 64) : OwnStep c (tcpRxFin now finTime c s) := by
  unfold tcpRxFin
  split
  · dsimp only
    split
    · have hack : OwnStep c (c, [(tcpSendSeg now { c with rxSeq := c.rxSeq + 1 } tcpAck []).2]) :=
        .send (.refl c)
      exact hack.trans (.send {})
    · exact .send {}
    · exact .send {}
    · exact .send {}
  · exact .quiet {}

theorem tcpRxLastAck_ends : SameEnds c (tcpRxLastAck c s) := by
  unfold tcpRxLastAck
  split
  · exact {}
  · exact {}

theorem tcpInput_own : OwnStep c (tcpInput clock c s) := by
  unfold tcpInput
  split
  · exact .send {}
  · split
    · exact .quiet {}
    · split
      · have hdup := tcpDupAck_own (clock 0) c s
        dsimp only
        split
        · exact hdup
        · have hdata := hdup.trans (tcpRxData_own (clock 1) _ s)
          have hfin := hdata.trans (tcpRxFin_own (clock 2) _ s (clock 3))
          exact ⟨hfin.ends.trans (tcpRxLastAck_ends _ s), hfin.outs⟩
      · exact .quiet (tcpRxLastAck_ends c s)

theorem tcpSendConn_own (data : List UInt8) : OwnStep c (tcpSendConn now c data) := by
  unfold tcpSendConn
  split
  · exact .quiet {}
  · exact .send {}

theorem tcpCloseConn_own : OwnStep c (tcpCloseConn now c) := by
  unfold tcpCloseConn
  split
  · exact .send {}
  · split
    · exact .send {}
    · exact .quiet {}

theorem tcpRecvConn_ends (room : Nat) : SameEnds c (tcpRecvConn c room).1 := {}

end Own

-- ---------------------------------------------------------------------------
-- Steps
-- ---------------------------------------------------------------------------

/-- What happens to the table: a segment that comes in, a call, or a tick. The addresses
of peers are of type `α`. -/
inductive TcpOp (α : Type) where
  | segment (clock : Nat → BitVec 64) (src : α) (data : List UInt8)
  | connect (clock : Nat → BitVec 64) (up sent : Bool) (dst : α) (port : BitVec 16)
  | connectTimeout
  | listen (port : BitVec 16)
  | accept (listener : Fin tcpMaxConns)
  | send (now : BitVec 64) (i : Fin tcpMaxConns) (data : List UInt8)
  | recv (i : Fin tcpMaxConns) (room : Nat)
  | close (now : BitVec 64) (i : Fin tcpMaxConns)
  | tick (now : BitVec 64)

/-- What a step gives to the network and to the caller. -/
structure TcpReply where
  outs : List TcpOut
  bytes : List UInt8
  conn : Option (Fin tcpMaxConns)
deriving DecidableEq

/-- `handle_ipv4` and `handle_ipv6` give a TCP segment to the handler of the family. -/
def tcpSegment (clock : Nat → BitVec 64) (t : Tcp) (src : IpAddr) (data : List UInt8) :
    Tcp × List TcpOut :=
  match src with
  | .v4 a => tcpHandle clock t a data
  | .v6 a => tcpHandle6 clock t a data

def tcpConnectAny (clock : Nat → BitVec 64) (up sent : Bool) (t : Tcp) (dst : IpAddr)
    (port : BitVec 16) : Tcp × List TcpOut :=
  match dst with
  | .v4 a => tcpConnect clock up sent t a port
  | .v6 a => tcpConnect6 clock up sent t a port

def tcpStep (t : Tcp) : TcpOp IpAddr → Tcp × TcpReply
  | .segment clock src data =>
    ((tcpSegment clock t src data).1, ⟨(tcpSegment clock t src data).2, [], none⟩)
  | .connect clock up sent dst port =>
    ((tcpConnectAny clock up sent t dst port).1,
      ⟨(tcpConnectAny clock up sent t dst port).2, [], none⟩)
  | .connectTimeout => (tcpConnectTimeout t, ⟨[], [], none⟩)
  | .listen port => ((tcpListen t port).1, ⟨[], [], (tcpListen t port).2⟩)
  | .accept listener => ((tcpAccept t listener).1, ⟨[], [], (tcpAccept t listener).2⟩)
  | .send now i data =>
    (t.setConn i (tcpSendConn now (t.conns i) data).1,
      ⟨(tcpSendConn now (t.conns i) data).2, [], none⟩)
  | .recv i room =>
    (t.setConn i (tcpRecvConn (t.conns i) room).1, ⟨[], (tcpRecvConn (t.conns i) room).2, none⟩)
  | .close now i =>
    (t.setConn i (tcpCloseConn now (t.conns i)).1, ⟨(tcpCloseConn now (t.conns i)).2, [], none⟩)
  | .tick now => ((tcpTick now t).1, ⟨(tcpTick now t).2, [], none⟩)

end Lestra
