import Lestra.Net.Tcp
import Lestra.Lib.HandOut
import Lestra.Lib.Run

/-!
# Demultiplexing

Which connection a segment belongs to, and which connections `tcp_accept` hands out. A run
keeps a record beside the table: every connection that a SYN creates gets a number.

* `DemuxLaw` — one connection for each peer address, peer port and local port, which is the
  one that is found; listeners are in state LISTEN; every connection that has completed the
  handshake was handed out once or waits in one listener
* `demuxAllowed` — a new connection has no other one with the same ends, and its slot and
  its listener are not waiting for `tcp_accept`; listeners are not closed
* `tcp_demux` — the law holds after every run of such steps
-/

namespace Lestra

-- ---------------------------------------------------------------------------
-- The record of a run
-- ---------------------------------------------------------------------------

/-- The number of the connection that a SYN created in each slot, the next number, and the
numbers of those that completed the handshake and of those that were handed out. -/
structure DemuxLog where
  owner : Fin tcpMaxConns → Option ℕ
  born : ℕ
  completed : List ℕ
  handed : List ℕ

structure Demux where
  tcp : Tcp
  log : DemuxLog

def demuxInit : Demux := ⟨tcpInit, ⟨fun _ => none, 0, [], []⟩⟩

/-- The slot that the segment makes a new connection in, with the listener. -/
def synSlot (t : Tcp) (data : List UInt8) : Option (Fin tcpMaxConns × Fin tcpMaxConns) :=
  (tcpParse data).bind fun s =>
    if s.has tcpRst = false ∧ s.has tcpSyn ∧ s.has tcpAck = false then
      (findListener t s.dstPort).bind fun listener =>
        (allocConnSlot t).map fun slot => (listener, slot)
    else none

/-- The client connection is taken for a new connection. -/
def connects (t : Tcp) (up : Bool) : Prop := (t.conns clientSlot).state = .closed ∧ up

instance (t : Tcp) (up : Bool) : Decidable (connects t up) := inferInstanceAs (Decidable (_ ∧ _))

/-- The slots whose connection completes the handshake from one table to the next. -/
def completes (t t' : Tcp) : List (Fin tcpMaxConns) :=
  (List.finRange tcpMaxConns).filter fun i =>
    (t.conns i).state == .synReceived && (t'.conns i).state == .established

/-- What the step adds to the record. -/
def DemuxLog.record (log : DemuxLog) (t : Tcp) (op : TcpOp IpAddr) : DemuxLog :=
  match op with
  | .segment _ _ data =>
    match synSlot t data with
    | some (_, slot) =>
      { log with owner := Function.update log.owner slot (some log.born), born := log.born + 1 }
    | none =>
      { log with
        completed := log.completed ++ (completes t (tcpStep t op).1).filterMap log.owner }
  | .connect _ up _ _ _ =>
    if connects t up then { log with owner := Function.update log.owner clientSlot none } else log
  | .listen _ =>
    match allocConnSlot t with
    | some slot => { log with owner := Function.update log.owner slot none }
    | none => log
  | .accept listener =>
    { log with handed := log.handed ++ ((tcpAccept t listener).2.bind log.owner).toList }
  | _ => log

def demuxStep (s : Demux) (op : TcpOp IpAddr) : Demux :=
  ⟨(tcpStep s.tcp op).1, s.log.record s.tcp op⟩

-- ---------------------------------------------------------------------------
-- The law
-- ---------------------------------------------------------------------------

/-- A connection that is in use and does not listen. -/
def TcpConn.Live (c : TcpConn) : Prop := c.inUse ∧ c.state ≠ .listen

/-- The peer address, the peer port and the local port. -/
def TcpConn.ends (c : TcpConn) : IpAddr × BitVec 16 × BitVec 16 := (c.peer, c.peerPort, c.localPort)

/-- `find_conn` and `find_conn6` -/
def findPeer (t : Tcp) (ends : IpAddr × BitVec 16 × BitVec 16) : Option (Fin tcpMaxConns) :=
  match ends.1 with
  | .v4 a => findConn t a ends.2.1 ends.2.2
  | .v6 a => findConn6 t a ends.2.1 ends.2.2

/-- The listener waits to hand out the connection in slot `i`. -/
def WaitsFor (t : Tcp) (listener i : Fin tcpMaxConns) : Prop :=
  (t.conns listener).isServer ∧ (t.conns listener).pendingAccept ∧
    (t.conns listener).accepted = some i

/-- The number of the connection that the listener waits to hand out. -/
def Demux.waiting (s : Demux) (listener : Fin tcpMaxConns) : Option ℕ :=
  if (s.tcp.conns listener).isServer ∧ (s.tcp.conns listener).pendingAccept then
    (s.tcp.conns listener).accepted.bind s.log.owner
  else none

/-- What was handed out and what waits. -/
def Demux.ledger (s : Demux) : HandOut.Ledger (Fin tcpMaxConns) :=
  ⟨s.log.born, s.waiting, s.log.handed⟩

structure DemuxLaw (s : Demux) : Prop where
  unique : ∀ i j, (s.tcp.conns i).Live → (s.tcp.conns j).Live →
    (s.tcp.conns i).ends = (s.tcp.conns j).ends → i = j
  found : ∀ i, (s.tcp.conns i).Live → findPeer s.tcp (s.tcp.conns i).ends = some i
  listener : ∀ port i, findListener s.tcp port = some i → (s.tcp.conns i).state = .listen
  once : ∀ n ∈ s.log.completed, s.log.handed.count n + s.ledger.places n = 1

/-- No listener waits to hand out the connection in the slot, and no other connection has
these ends. -/
structure FreeFor (t : Tcp) (slot : Fin tcpMaxConns) (ends : IpAddr × BitVec 16 × BitVec 16) :
    Prop where
  unclaimed : ∀ listener, ¬ WaitsFor t listener slot
  fresh : ∀ i, i ≠ slot → (t.conns i).Live → (t.conns i).ends ≠ ends

/-- The condition on a step. -/
def demuxAllowed (s : Demux) : TcpOp IpAddr → Prop
  | .segment _ src data => ∀ seg listener slot, tcpParse data = some seg →
      synSlot s.tcp data = some (listener, slot) →
        FreeFor s.tcp slot (src, seg.srcPort, seg.dstPort) ∧
          (s.tcp.conns listener).pendingAccept = false
  | .connect _ up _ dst port => connects s.tcp up →
      FreeFor s.tcp clientSlot (dst, port, s.tcp.nextLocalPort)
  | .connectTimeout => (s.tcp.conns clientSlot).state ≠ .listen
  | .listen _ => ∀ slot, allocConnSlot s.tcp = some slot →
      ∀ listener, ¬ WaitsFor s.tcp listener slot
  | .close _ i => (s.tcp.conns i).state ≠ .listen
  | _ => True

-- ---------------------------------------------------------------------------
-- Both handlers
-- ---------------------------------------------------------------------------

/-- The connection that a SYN from `src` creates. -/
def synConn (clock : Nat → BitVec 64) (src : IpAddr) (s : TcpSeg) : TcpConn :=
  { (tcpSendSeg (clock 1) { zeroConn with
      inUse := true
      isIpv6 := match src with | .v4 _ => false | .v6 _ => true
      peerIp := match src with | .v4 a => a | .v6 _ => 0
      peerIp6 := match src with | .v4 _ => 0 | .v6 a => a
      peerPort := s.srcPort
      localPort := s.dstPort
      txSeq := 0x56789 ^^^ (clock 0).setWidth 32
      rxSeq := s.seq + 1 } (tcpSyn ||| tcpAck) []).1 with state := .synReceived }

theorem synConn_ends (clock : Nat → BitVec 64) (src : IpAddr) (s : TcpSeg) :
    (synConn clock src s).ends = (src, s.srcPort, s.dstPort) := by
  cases src <;> rfl

section Handlers

variable {clock : Nat → BitVec 64} {t : Tcp} {src : IpAddr} {data : List UInt8} {s : TcpSeg}

/-- A connection request. -/
theorem tcpSegment_syn {listener slot : Fin tcpMaxConns} (hparse : tcpParse data = some s)
    (hsyn : synSlot t data = some (listener, slot)) :
    (tcpSegment clock t src data).1 = (t.setConn slot (synConn clock src s)).setConn listener
      { (t.setConn slot (synConn clock src s)).conns listener with
        pendingAccept := true, accepted := some slot } ∧
      findListener t s.dstPort = some listener ∧ allocConnSlot t = some slot := by
  rw [synSlot, hparse, Option.bind_some] at hsyn
  split at hsyn
  · rename_i hflags
    obtain ⟨l, hlisten, hslot⟩ := Option.bind_eq_some_iff.mp hsyn
    obtain ⟨sl, halloc, heq⟩ := Option.map_eq_some_iff.mp hslot
    obtain ⟨rfl, rfl⟩ := Prod.mk.inj heq
    have hrst : ¬ s.has tcpRst := by rw [hflags.1]; exact Bool.false_ne_true
    have hack : ¬ s.has tcpAck := by rw [hflags.2.2]; exact Bool.false_ne_true
    refine ⟨?_, hlisten, halloc⟩
    cases src with
    | v4 a =>
      simp only [tcpSegment, tcpHandle, hparse, if_neg hrst, if_pos (And.intro hflags.2.1 hack),
        hlisten, halloc]
      rfl
    | v6 a =>
      simp only [tcpSegment, tcpHandle6, hparse, if_neg hrst, if_pos (And.intro hflags.2.1 hack),
        hlisten, halloc]
      rfl
  · exact absurd hsyn.symm (Option.some_ne_none _)

/-- Only `tcp_listen` makes a connection listen. -/
theorem tcpRxFin_listen {c : TcpConn} (ackTime finTime : BitVec 64)
    (h : (tcpRxFin ackTime finTime c s).1.state = .listen) : c.state = .listen := by
  unfold tcpRxFin at h
  split at h
  · dsimp only at h
    split at h
    · exact absurd h (by simp)
    · exact absurd h (by simp)
    · exact absurd h (by simp)
    · exact h
  · exact h

theorem tcpRxLastAck_listen {c : TcpConn} (h : (tcpRxLastAck c s).state = .listen) :
    c.state = .listen := by
  unfold tcpRxLastAck at h
  split at h
  · exact absurd h (by simp)
  · exact h

theorem tcpDupAck_state (now : BitVec 64) (c : TcpConn) :
    (tcpDupAck now c s).1.state = c.state := by
  unfold tcpDupAck
  split <;> rfl

theorem tcpRxData_state (now : BitVec 64) (c : TcpConn) :
    (tcpRxData now c s).1.state = c.state := by
  unfold tcpRxData
  split <;> rfl

theorem tcpInput_listen {c : TcpConn} (h : (tcpInput clock c s).1.state = .listen) :
    c.state = .listen := by
  unfold tcpInput at h
  split at h
  · exact absurd h (by simp)
  · split at h
    · exact absurd h (by simp)
    · split at h
      · dsimp only at h
        split at h
        · rwa [tcpDupAck_state] at h
        · have hdata := tcpRxFin_listen _ _ (tcpRxLastAck_listen h)
          rwa [tcpRxData_state, tcpDupAck_state] at hdata
      · exact tcpRxLastAck_listen h

/-- The connection that a step changes keeps its ends and does not begin to listen. -/
structure OwnChange (t t' : Tcp) (i : Fin tcpMaxConns) (c : TcpConn) : Prop where
  table : t' = t.setConn i c
  ends : SameEnds (t.conns i) c
  listen : c.state = .listen → (t.conns i).state = .listen

theorem findConn_live {a : Ipv4Addr} {srcPort dstPort : BitVec 16} {i : Fin tcpMaxConns}
    (h : findConn t a srcPort dstPort = some i) :
    ((t.conns i).inUse ∧ (t.conns i).isServer = false) ∧
      (t.conns i).ends = (.v4 a, srcPort, dstPort) := by
  have hfound := FirstFit.mem_of_some h
  simp only [Bool.and_eq_true, Bool.not_eq_true', beq_iff_eq] at hfound
  obtain ⟨⟨⟨huse, hclient⟩, hfam⟩, ⟨rfl, rfl⟩, rfl⟩ := hfound
  refine ⟨⟨huse, hclient⟩, ?_⟩
  rw [TcpConn.ends, TcpConn.peer, hfam, if_neg Bool.false_ne_true]

theorem findConn6_live {a : Ipv6Addr} {srcPort dstPort : BitVec 16} {i : Fin tcpMaxConns}
    (h : findConn6 t a srcPort dstPort = some i) :
    ((t.conns i).inUse ∧ (t.conns i).isServer = false) ∧
      (t.conns i).ends = (.v6 a, srcPort, dstPort) := by
  have hfound := FirstFit.mem_of_some h
  simp only [Bool.and_eq_true, Bool.not_eq_true', beq_iff_eq] at hfound
  obtain ⟨⟨⟨huse, hclient⟩, hfam⟩, ⟨rfl, rfl⟩, rfl⟩ := hfound
  refine ⟨⟨huse, hclient⟩, ?_⟩
  rw [TcpConn.ends, TcpConn.peer, hfam, if_pos rfl]

theorem ownChange_reset (i : Fin tcpMaxConns) :
    OwnChange t (t.setConn i (t.conns i).reset) i (t.conns i).reset :=
  ⟨rfl, {}, fun h => absurd h (by simp [TcpConn.reset])⟩

theorem ownChange_input (i : Fin tcpMaxConns) :
    OwnChange t (t.setConn i (tcpInput clock (t.conns i) s).1) i (tcpInput clock (t.conns i) s).1 :=
  ⟨rfl, (tcpInput_own clock _ s).ends, tcpInput_listen⟩

/-- A segment that requests no connection. -/
theorem tcpSegment_other (hsyn : synSlot t data = none) :
    (tcpSegment clock t src data).1 = t ∨ ∃ i c, OwnChange t (tcpSegment clock t src data).1 i c ∧
      (t.conns i).inUse ∧ (t.conns i).isServer = false := by
  cases hparse : tcpParse data with
  | none =>
    left
    cases src <;> simp only [tcpSegment, tcpHandle, tcpHandle6, hparse]
  | some s =>
    -- what is left when no connection is made
    have hnone : s.has tcpRst = false → s.has tcpSyn ∧ ¬ s.has tcpAck →
        findListener t s.dstPort = none ∨ allocConnSlot t = none := by
      intro hrst ⟨hflag, hack⟩
      rw [synSlot, hparse, Option.bind_some, if_pos ⟨hrst, hflag, Bool.eq_false_iff.mpr hack⟩] at hsyn
      cases hlisten : findListener t s.dstPort with
      | none => exact .inl rfl
      | some listener =>
        cases halloc : allocConnSlot t with
        | none => exact .inr rfl
        | some slot => rw [hlisten, halloc] at hsyn; exact absurd hsyn (Option.some_ne_none _)
    cases src with
    | v4 a =>
      simp only [tcpSegment, tcpHandle, hparse]
      cases hfind : findConn t a s.srcPort s.dstPort with
      | none =>
        left
        split
        · rfl
        · split
          · rcases hnone (Bool.eq_false_iff.mpr ‹_›) ‹_› with h | h
            · rw [h]
            · rw [h]
              cases findListener t s.dstPort <;> rfl
          · rfl
      | some i =>
        have hlive := (findConn_live hfind).1
        split
        · exact .inr ⟨i, _, ownChange_reset i, hlive⟩
        · split
          · left
            rcases hnone (Bool.eq_false_iff.mpr ‹_›) ‹_› with h | h
            · rw [h]
            · rw [h]
              cases findListener t s.dstPort <;> rfl
          · exact .inr ⟨i, _, ownChange_input i, hlive⟩
    | v6 a =>
      simp only [tcpSegment, tcpHandle6, hparse]
      cases hfind : findConn6 t a s.srcPort s.dstPort with
      | none =>
        left
        split
        · rfl
        · split
          · rcases hnone (Bool.eq_false_iff.mpr ‹_›) ‹_› with h | h
            · rw [h]
            · rw [h]
              cases findListener t s.dstPort <;> rfl
          · rfl
      | some i =>
        have hlive := (findConn6_live hfind).1
        split
        · exact .inr ⟨i, _, ownChange_reset i, hlive⟩
        · split
          · left
            rcases hnone (Bool.eq_false_iff.mpr ‹_›) ‹_› with h | h
            · rw [h]
            · rw [h]
              cases findListener t s.dstPort <;> rfl
          · exact .inr ⟨i, _, ownChange_input i, hlive⟩

end Handlers

-- ---------------------------------------------------------------------------
-- The invariant
-- ---------------------------------------------------------------------------

structure DemuxTable (t : Tcp) : Prop where
  server : ∀ i, (t.conns i).isServer ↔ (t.conns i).state = .listen
  closed : ∀ i, (t.conns i).inUse = false → (t.conns i).state = .closed
  unique : ∀ i j, (t.conns i).Live → (t.conns j).Live → (t.conns i).ends = (t.conns j).ends → i = j
  quiet : ∀ i, (t.conns i).state = .listen → (t.conns i).lastSeg = none

structure DemuxInv (s : Demux) : Prop where
  table : DemuxTable s.tcp
  owner_inj : ∀ i j n, s.log.owner i = some n → s.log.owner j = some n → i = j
  owner_lt : ∀ i n, s.log.owner i = some n → n < s.log.born
  completed_lt : ∀ n ∈ s.log.completed, n < s.log.born
  balanced : s.ledger.Balanced

/-- What a step may do to a connection without making a new one. -/
structure KeepsPlace (c c' : TcpConn) : Prop where
  ends : c'.ends = c.ends
  isServer : c'.isServer = c.isServer
  listen : c'.state = .listen ↔ c.state = .listen
  inUse : c'.inUse → c.inUse
  closed : (c.inUse = false → c.state = .closed) → c'.inUse = false → c'.state = .closed
  quiet : c'.state = .listen → c.lastSeg = none → c'.lastSeg = none

/-- What waits to be handed out stays, too. -/
structure Alike (c c' : TcpConn) : Prop extends KeepsPlace c c' where
  pendingAccept : c'.pendingAccept = c.pendingAccept
  accepted : c'.accepted = c.accepted

theorem Alike.refl (c : TcpConn) : Alike c c := ⟨⟨rfl, rfl, Iff.rfl, id, id, fun _ => id⟩, rfl, rfl⟩

theorem SameEnds.alike {c c' : TcpConn} (h : SameEnds c c')
    (hlisten : c'.state = .listen ↔ c.state = .listen)
    (hclosed : c.inUse = false → c.state = .closed → c'.state = .closed)
    (hquiet : c'.state = .listen → c.lastSeg = none → c'.lastSeg = none) : Alike c c' where
  ends := by rw [TcpConn.ends, TcpConn.ends, h.peer, h.peerPort, h.localPort]
  isServer := h.isServer
  pendingAccept := h.pendingAccept
  accepted := h.accepted
  listen := hlisten
  inUse := fun huse => h.inUse ▸ huse
  closed := fun hc huse => hclosed (h.inUse ▸ huse) (hc (h.inUse ▸ huse))
  quiet := hquiet

section Invariant

variable {s : Demux} {t t' : Tcp}

theorem DemuxTable.keeps (h : DemuxTable t) (hall : ∀ i, KeepsPlace (t.conns i) (t'.conns i)) :
    DemuxTable t' := by
  have hlive : ∀ i, (t'.conns i).Live → (t.conns i).Live := fun i hi =>
    ⟨(hall i).inUse hi.1, fun hcon => hi.2 ((hall i).listen.mpr hcon)⟩
  refine ⟨fun i => ?_, fun i => (hall i).closed (h.closed i), fun i j hi hj heq => ?_,
    fun i hi => (hall i).quiet hi (h.quiet i ((hall i).listen.mp hi))⟩
  · rw [(hall i).isServer, (hall i).listen]
    exact h.server i
  · rw [(hall i).ends, (hall j).ends] at heq
    exact h.unique i j (hlive i hi) (hlive j hj) heq

/-- A step without a new connection. -/
theorem DemuxInv.alike (h : DemuxInv s) (hall : ∀ i, Alike (s.tcp.conns i) (t'.conns i))
    {completed : List ℕ} (hcompleted : ∀ n ∈ completed, n < s.log.born) :
    DemuxInv ⟨t', { s.log with completed := completed }⟩ := by
  have hledger : (⟨t', { s.log with completed := completed }⟩ : Demux).ledger = s.ledger := by
    refine congrArg (HandOut.Ledger.mk _ · _) (funext fun l => ?_)
    rw [Demux.waiting, Demux.waiting, (hall l).isServer, (hall l).pendingAccept, (hall l).accepted]
  exact ⟨h.table.keeps fun i => (hall i).toKeepsPlace, h.owner_inj, h.owner_lt, hcompleted, hledger ▸ h.balanced⟩

/-- One connection changes on its own. -/
theorem DemuxInv.own (h : DemuxInv s) {i : Fin tcpMaxConns} {c : TcpConn}
    (hc : Alike (s.tcp.conns i) c) : DemuxInv ⟨s.tcp.setConn i c, s.log⟩ := by
  refine h.alike (fun j => ?_) h.completed_lt
  by_cases hj : j = i
  · subst hj
    simpa [Tcp.setConn] using hc
  · simpa [Tcp.setConn, hj] using Alike.refl (s.tcp.conns j)

theorem allocConnSlot_closed (h : DemuxTable t) {slot : Fin tcpMaxConns}
    (halloc : allocConnSlot t = some slot) : (t.conns slot).state = .closed := by
  have hfree := FirstFit.mem_of_some halloc
  simp only [Bool.or_eq_true, Bool.not_eq_true', beq_iff_eq] at hfree
  exact hfree.elim (h.closed slot) id

/-- A new connection in a closed slot. -/
theorem DemuxTable.replace (h : DemuxTable t) {slot : Fin tcpMaxConns} {c : TcpConn}
    (hserver : c.isServer ↔ c.state = .listen) (huse : c.inUse)
    (hquiet : c.state = .listen → c.lastSeg = none)
    (hfresh : c.Live → ∀ i, i ≠ slot → (t.conns i).Live → (t.conns i).ends ≠ c.ends) :
    DemuxTable (t.setConn slot c) := by
  have hself : (t.setConn slot c).conns slot = c := Function.update_self ..
  have hother : ∀ i, i ≠ slot → (t.setConn slot c).conns i = t.conns i := fun i hi =>
    Function.update_of_ne hi ..
  refine ⟨fun i => ?_, fun i hi => ?_, fun i j hi hj heq => ?_, fun i hi => ?_⟩
  · by_cases his : i = slot
    · rw [his, hself]
      exact hserver
    · rw [hother i his]
      exact h.server i
  · by_cases his : i = slot
    · rw [his, hself, huse] at hi
      exact absurd hi.symm Bool.false_ne_true
    · rw [hother i his] at hi ⊢
      exact h.closed i hi
  · by_cases his : i = slot
    · by_cases hjs : j = slot
      · exact his.trans hjs.symm
      · rw [his, hself] at hi heq
        rw [hother j hjs] at hj heq
        exact absurd heq.symm (hfresh hi j hjs hj)
    · rw [hother i his] at hi heq
      by_cases hjs : j = slot
      · rw [hjs, hself] at hj heq
        exact absurd heq (hfresh hj i his hi)
      · rw [hother j hjs] at hj heq
        exact h.unique i j hi hj heq
  · by_cases his : i = slot
    · rw [his, hself] at hi ⊢
      exact hquiet hi
    · rw [hother i his] at hi ⊢
      exact h.quiet i hi

/-- One connection changes: what it waits to hand out may be another. -/
theorem waiting_setConn (i : Fin tcpMaxConns) (c : TcpConn) :
    (⟨s.tcp.setConn i c, s.log⟩ : Demux).waiting = Function.update s.waiting i
      (if c.isServer ∧ c.pendingAccept then c.accepted.bind s.log.owner else none) := by
  funext l
  by_cases hl : l = i
  · rw [hl, Function.update_self, Demux.waiting, setConn_conns_self]
  · rw [Function.update_of_ne hl, Demux.waiting, Demux.waiting,
      show (s.tcp.setConn i c).conns l = s.tcp.conns l from Function.update_of_ne hl ..]

/-- A slot that no listener waits for may get another owner. -/
theorem waiting_replace (h : DemuxTable s.tcp) {slot : Fin tcpMaxConns} {c : TcpConn}
    (hslot : (s.tcp.conns slot).state = .closed) (hpend : c.pendingAccept = false)
    (hclaim : ∀ l, ¬ WaitsFor s.tcp l slot) (o : Option ℕ) (log : DemuxLog)
    (hlog : log.owner = Function.update s.log.owner slot o) :
    (⟨s.tcp.setConn slot c, log⟩ : Demux).waiting = s.waiting := by
  funext l
  by_cases hl : l = slot
  · have hold : ¬ (s.tcp.conns slot).isServer := fun hcon =>
      absurd (hslot.symm.trans ((h.server slot).mp hcon)) (by decide)
    have hself : (s.tcp.setConn slot c).conns slot = c := Function.update_self ..
    rw [hl, Demux.waiting, hself, hpend, if_neg fun hcon => Bool.false_ne_true hcon.2, Demux.waiting,
      if_neg fun hcon => hold hcon.1]
  · have hother : (s.tcp.setConn slot c).conns l = s.tcp.conns l := Function.update_of_ne hl ..
    rw [Demux.waiting, Demux.waiting, hother]
    split
    · rename_i hwaits
      cases hacc : (s.tcp.conns l).accepted with
      | none => rfl
      | some j =>
        have hj : j ≠ slot := fun he => hclaim l ⟨hwaits.1, hwaits.2, he ▸ hacc⟩
        rw [Option.bind_some, Option.bind_some, hlog, Function.update_of_ne hj]
    · rfl

/-- One connection changes in a table. -/
theorem DemuxTable.own (h : DemuxTable t) {i : Fin tcpMaxConns} {c : TcpConn}
    (hc : KeepsPlace (t.conns i) c) : DemuxTable (t.setConn i c) := by
  refine h.keeps fun j => ?_
  by_cases hj : j = i
  · subst hj
    simpa [Tcp.setConn] using hc
  · simpa [Tcp.setConn, hj] using (Alike.refl (t.conns j)).toKeepsPlace

/-- The owner of a slot changes to a number that no slot has. -/
theorem owner_update {owner : Fin tcpMaxConns → Option ℕ} {slot : Fin tcpMaxConns} {o : Option ℕ}
    (hinj : ∀ i j n, owner i = some n → owner j = some n → i = j)
    (hnew : ∀ i n, owner i = some n → o ≠ some n) (i j : Fin tcpMaxConns) (n : ℕ)
    (hi : Function.update owner slot o i = some n) (hj : Function.update owner slot o j = some n) :
    i = j := by
  by_cases his : i = slot
  · by_cases hjs : j = slot
    · exact his.trans hjs.symm
    · rw [his, Function.update_self] at hi
      rw [Function.update_of_ne hjs] at hj
      exact absurd hi (hnew j n hj)
  · rw [Function.update_of_ne his] at hi
    by_cases hjs : j = slot
    · rw [hjs, Function.update_self] at hj
      exact absurd hj (hnew i n hi)
    · rw [Function.update_of_ne hjs] at hj
      exact hinj i j n hi hj

/-- A slot that no listener waits for gets a connection that no SYN created. -/
theorem DemuxInv.replace (h : DemuxInv s) {slot : Fin tcpMaxConns} {c : TcpConn} (port : BitVec 16)
    (hslot : (s.tcp.conns slot).state = .closed) (hclaim : ∀ l, ¬ WaitsFor s.tcp l slot)
    (hserver : c.isServer ↔ c.state = .listen) (huse : c.inUse) (hpend : c.pendingAccept = false)
    (hquiet : c.state = .listen → c.lastSeg = none)
    (hfresh : c.Live → ∀ i, i ≠ slot → (s.tcp.conns i).Live → (s.tcp.conns i).ends ≠ c.ends) :
    DemuxInv ⟨{ s.tcp.setConn slot c with nextLocalPort := port },
      { s.log with owner := Function.update s.log.owner slot none }⟩ := by
  have htable : DemuxTable (s.tcp.setConn slot c) := h.table.replace hserver huse hquiet hfresh
  refine ⟨⟨htable.server, htable.closed, htable.unique, htable.quiet⟩,
    owner_update h.owner_inj fun _ _ _ => (Option.some_ne_none _).symm, fun i n hi => ?_,
    h.completed_lt, ?_⟩
  · by_cases his : i = slot
    · rw [his] at hi
      exact absurd ((Function.update_self ..).symm.trans hi) (Option.some_ne_none _).symm
    · exact h.owner_lt i n ((Function.update_of_ne his ..).symm.trans hi)
  · have hwaiting := waiting_replace h.table hslot hpend hclaim none
      { s.log with owner := Function.update s.log.owner slot none } rfl
    have hledger : (⟨{ s.tcp.setConn slot c with nextLocalPort := port },
        { s.log with owner := Function.update s.log.owner slot none }⟩ : Demux).ledger = s.ledger :=
      congrArg (HandOut.Ledger.mk _ · _) hwaiting
    rw [hledger]
    exact h.balanced

end Invariant

-- ---------------------------------------------------------------------------
-- Steps
-- ---------------------------------------------------------------------------

section Steps

variable {s : Demux} {clock : Nat → BitVec 64} {src : IpAddr} {data : List UInt8}

/-- A connection request makes a new connection, for which its listener waits. -/
theorem DemuxInv.syn (h : DemuxInv s) {seg : TcpSeg} {listener slot : Fin tcpMaxConns}
    (hparse : tcpParse data = some seg) (hsyn : synSlot s.tcp data = some (listener, slot))
    (hfree : FreeFor s.tcp slot (src, seg.srcPort, seg.dstPort))
    (hpend : (s.tcp.conns listener).pendingAccept = false) :
    DemuxInv (demuxStep s (.segment clock src data)) := by
  have hstep : (tcpSegment clock s.tcp src data).1 = _ ∧ _ ∧ _ := tcpSegment_syn hparse hsyn
  obtain ⟨htcp, hlisten, halloc⟩ := hstep
  have hslot := allocConnSlot_closed h.table halloc
  have hserver : (s.tcp.conns listener).isServer := by
    have hfound := FirstFit.mem_of_some hlisten
    simp only [Bool.and_eq_true] at hfound
    exact hfound.1.2
  have hne : listener ≠ slot := by
    rintro rfl
    exact absurd (hslot.symm.trans ((h.table.server listener).mp hserver)) (by decide)
  have hends := synConn_ends clock src seg
  have hold : (s.tcp.setConn slot (synConn clock src seg)).conns listener = s.tcp.conns listener :=
    Function.update_of_ne hne ..
  rw [hold] at htcp
  have hstep : demuxStep s (.segment clock src data) =
      ⟨(s.tcp.setConn slot (synConn clock src seg)).setConn listener
        { s.tcp.conns listener with pendingAccept := true, accepted := some slot },
        { s.log with
          owner := Function.update s.log.owner slot (some s.log.born)
          born := s.log.born + 1 }⟩ := by
    rw [demuxStep, DemuxLog.record, hsyn, ← htcp]
    rfl
  have htable : DemuxTable (s.tcp.setConn slot (synConn clock src seg)) := by
    refine h.table.replace ?_ ?_ ?_ fun _ i his hlive => ?_
    · exact iff_of_false Bool.false_ne_true fun hcon : TcpState.synReceived = .listen =>
        absurd hcon (by decide)
    · rfl
    · exact fun hcon : TcpState.synReceived = .listen => absurd hcon (by decide)
    · rw [hends]
      exact hfree.fresh i his hlive
  rw [hstep]
  refine ⟨htable.own ?_, owner_update h.owner_inj fun i n hi hcon => ?_, fun i n hi => ?_,
    fun n hn => Nat.lt_succ_of_lt (h.completed_lt n hn), ?_⟩
  · rw [hold]
    exact ⟨rfl, rfl, Iff.rfl, id, id, fun _ => id⟩
  · obtain rfl := Option.some.inj hcon
    exact Nat.lt_irrefl _ (h.owner_lt i _ hi)
  · change Function.update s.log.owner slot (some s.log.born) i = some n at hi
    by_cases his : i = slot
    · rw [his, Function.update_self] at hi
      obtain rfl := Option.some.inj hi
      exact Nat.lt_succ_self _
    · rw [Function.update_of_ne his] at hi
      exact Nat.lt_succ_of_lt (h.owner_lt i n hi)
  · have hempty : s.ledger.waiting listener = none :=
      if_neg fun hcon => Bool.false_ne_true (hpend.symm.trans hcon.2)
    have hwaiting := waiting_replace (c := synConn clock src seg) h.table hslot rfl hfree.unclaimed
      (some s.log.born) { s.log with
        owner := Function.update s.log.owner slot (some s.log.born)
        born := s.log.born + 1 } rfl
    have hwaits := waiting_setConn (s := ⟨s.tcp.setConn slot (synConn clock src seg), { s.log with
      owner := Function.update s.log.owner slot (some s.log.born)
      born := s.log.born + 1 }⟩) listener
      { s.tcp.conns listener with pendingAccept := true, accepted := some slot }
    rw [hwaiting, if_pos ⟨hserver, rfl⟩] at hwaits
    have howner : Function.update s.log.owner slot (some s.log.born) slot = some s.log.born :=
      Function.update_self ..
    dsimp only at hwaits
    rw [Option.bind_some, howner] at hwaits
    rw [Demux.ledger, hwaits]
    exact h.balanced.put hempty

/-- A segment that requests no connection. -/
theorem DemuxInv.segment (h : DemuxInv s) (hsyn : synSlot s.tcp data = none) :
    DemuxInv (demuxStep s (.segment clock src data)) := by
  have hcompleted : ∀ n ∈ s.log.completed ++
      (completes s.tcp (tcpSegment clock s.tcp src data).1).filterMap s.log.owner,
      n < s.log.born := by
    intro n hn
    rcases List.mem_append.mp hn with hold | hnew
    · exact h.completed_lt n hold
    · obtain ⟨i, -, hi⟩ := List.mem_filterMap.mp hnew
      exact h.owner_lt i n hi
  have hlog : s.log.record s.tcp (.segment clock src data) = { s.log with
      completed := s.log.completed ++
        (completes s.tcp (tcpSegment clock s.tcp src data).1).filterMap s.log.owner } := by
    rw [DemuxLog.record, hsyn]
    rfl
  rw [demuxStep, hlog]
  refine h.alike (fun j => ?_) hcompleted
  change Alike (s.tcp.conns j) ((tcpSegment clock s.tcp src data).1.conns j)
  have hother : (tcpSegment clock s.tcp src data).1 = s.tcp ∨ _ := tcpSegment_other hsyn
  rcases hother with hsame | ⟨i, c, hc, huse, hclient⟩
  · rw [hsame]
    exact Alike.refl _
  · rw [hc.table]
    by_cases hj : j = i
    · rw [hj, setConn_conns_self]
      have hold : (s.tcp.conns i).state ≠ .listen := fun hcon =>
        absurd ((h.table.server i).mpr hcon) (by rw [hclient]; exact Bool.false_ne_true)
      exact hc.ends.alike (iff_of_false (fun hcon => hold (hc.listen hcon)) hold)
        (fun hfree => absurd (hfree.symm.trans huse) Bool.false_ne_true)
        fun hcon => absurd (hc.listen hcon) hold
    · rw [setConn_conns_ne _ c hj]
      exact Alike.refl _

theorem tcpTickConn_alike (now : BitVec 64) (c : TcpConn)
    (hquiet : c.state = .listen → c.lastSeg = none) : Alike c (tcpTickConn now c).1 := by
  unfold tcpTickConn
  split
  · exact Alike.refl c
  · split
    · rename_i huse hclosed
      exact ⟨⟨rfl, rfl, Iff.rfl, fun h => absurd h Bool.false_ne_true, fun _ _ => hclosed,
        fun _ => id⟩, rfl, rfl⟩
    · rename_i huse _
      cases hlast : c.lastSeg with
      | none => exact Alike.refl c
      | some seg =>
        have hstate : c.state ≠ .listen := fun hcon =>
          absurd ((hquiet hcon).symm.trans hlast) (Option.some_ne_none _).symm
        dsimp only
        split
        · split
          · exact ⟨⟨rfl, rfl, iff_of_false (by simp [TcpConn.reset]) hstate, id, fun _ _ => rfl,
              fun _ _ => rfl⟩, rfl, rfl⟩
          · exact ⟨⟨rfl, rfl, Iff.rfl, id, id, fun hcon => absurd hcon hstate⟩, rfl, rfl⟩
        · exact Alike.refl c

theorem tcpSendConn_alike (now : BitVec 64) (c : TcpConn) (data : List UInt8) :
    Alike c (tcpSendConn now c data).1 := by
  unfold tcpSendConn
  split
  · exact Alike.refl c
  · rename_i hstate
    rw [not_not] at hstate
    exact ⟨⟨rfl, rfl, Iff.rfl, id, id,
      fun hcon => absurd (hstate.symm.trans hcon) (by decide)⟩, rfl, rfl⟩

theorem tcpCloseConn_alike (now : BitVec 64) (c : TcpConn) (hstate : c.state ≠ .listen) :
    Alike c (tcpCloseConn now c).1 := by
  have hlisten : (tcpCloseConn now c).1.state ≠ .listen := by
    unfold tcpCloseConn
    split
    · exact (nomatch ·)
    · split
      · exact (nomatch ·)
      · exact (nomatch ·)
  refine (tcpCloseConn_own now c).ends.alike (iff_of_false hlisten hstate) (fun _ hclosed => ?_)
    fun hcon => absurd hcon hlisten
  rw [tcpCloseConn, if_neg (by rw [hclosed]; decide), if_neg (by rw [hclosed]; decide)]

/-- A client connection. -/
theorem DemuxInv.connect (h : DemuxInv s) {up : Bool} (sent : Bool) {dst : IpAddr}
    {port : BitVec 16} (hfree : connects s.tcp up →
      FreeFor s.tcp clientSlot (dst, port, s.tcp.nextLocalPort)) :
    DemuxInv (demuxStep s (.connect clock up sent dst port)) := by
  have htcp : (tcpStep s.tcp (.connect clock up sent dst port)).1
      = (tcpConnectTo clock up sent s.tcp dst port).1 := by
    cases dst <;> rfl
  rw [demuxStep, htcp, DemuxLog.record, tcpConnectTo]
  by_cases hgo : connects s.tcp up
  · have hgo' : ¬ ((s.tcp.conns clientSlot).state ≠ .closed ∨ up = false) := by
      rw [hgo.1, hgo.2]
      decide
    rw [if_pos hgo, if_neg hgo']
    obtain ⟨hunclaimed, hfresh⟩ := hfree hgo
    have hends : ∀ c : TcpConn, (c.client dst port s.tcp.nextLocalPort (clock 0)).ends
        = (dst, port, s.tcp.nextLocalPort) := by
      intro c
      cases dst <;> rfl
    refine h.replace _ hgo.1 hunclaimed ?_ ?_ ?_ ?_ fun _ i hi hlive => ?_
    · cases sent
      · exact iff_of_false Bool.false_ne_true fun hcon : (s.tcp.conns clientSlot).state = .listen =>
          absurd (hgo.1.symm.trans hcon) (by decide)
      · exact iff_of_false Bool.false_ne_true fun hcon : TcpState.synSent = .listen =>
          absurd hcon (by decide)
    · cases sent <;> rfl
    · cases sent <;> rfl
    · cases sent
      · exact fun hcon : (s.tcp.conns clientSlot).state = .listen =>
          absurd (hgo.1.symm.trans hcon) (by decide)
      · exact fun hcon : TcpState.synSent = .listen => absurd hcon (by decide)
    · have hnew := hfresh i hi hlive
      rw [← hends (s.tcp.conns clientSlot)] at hnew
      cases sent
      · exact hnew
      · exact hnew
  · have hgo' : (s.tcp.conns clientSlot).state ≠ .closed ∨ up = false := by
      by_contra hcon
      rw [not_or, not_not, Bool.not_eq_false] at hcon
      exact hgo hcon
    rw [if_neg hgo, if_pos hgo']
    exact h

/-- A new listener. -/
theorem DemuxInv.listen (h : DemuxInv s) {port : BitVec 16}
    (hclaim : ∀ slot, allocConnSlot s.tcp = some slot → ∀ l, ¬ WaitsFor s.tcp l slot) :
    DemuxInv (demuxStep s (.listen port)) := by
  rw [demuxStep, DemuxLog.record, tcpStep, tcpListen]
  cases halloc : allocConnSlot s.tcp with
  | none => exact h
  | some slot =>
    exact h.replace s.tcp.nextLocalPort (allocConnSlot_closed h.table halloc) (hclaim slot halloc)
      (iff_of_true rfl rfl) rfl rfl (fun _ => rfl) fun hlive => absurd rfl hlive.2

/-- The listener hands out what it waits for. -/
theorem DemuxInv.accept (h : DemuxInv s) (listener : Fin tcpMaxConns) :
    DemuxInv (demuxStep s (.accept listener)) := by
  rw [demuxStep, DemuxLog.record, tcpStep, tcpAccept]
  by_cases hwaits : (s.tcp.conns listener).isServer ∧ (s.tcp.conns listener).pendingAccept
  · rw [if_pos hwaits]
    refine ⟨h.table.own ⟨rfl, rfl, Iff.rfl, id, id, fun _ => id⟩, h.owner_inj, h.owner_lt,
      h.completed_lt, ?_⟩
    have hholds : s.waiting listener = (s.tcp.conns listener).accepted.bind s.log.owner :=
      if_pos hwaits
    have hempty := waiting_setConn (s := s) listener
      { s.tcp.conns listener with pendingAccept := false, accepted := none }
    rw [if_neg fun hcon => Bool.false_ne_true hcon.2] at hempty
    have htake := h.balanced.take (a := listener)
    rw [HandOut.Ledger.take, show s.ledger.waiting listener = _ from hholds] at htake
    rw [Demux.ledger]
    change (HandOut.Ledger.mk s.log.born (Demux.waiting ⟨_, s.log⟩) _).Balanced
    rw [hempty]
    exact htake
  · rw [if_neg hwaits]
    simpa using h

/-- **One step keeps the invariant.** -/
theorem demuxStep_inv (h : DemuxInv s) (op : TcpOp IpAddr) (hok : demuxAllowed s op) :
    DemuxInv (demuxStep s op) := by
  cases op with
  | segment clock src data =>
    cases hsyn : synSlot s.tcp data with
    | none => exact h.segment hsyn
    | some p =>
      obtain ⟨seg, hparse, -⟩ := Option.bind_eq_some_iff.mp hsyn
      obtain ⟨hfree, hpend⟩ := hok seg p.1 p.2 hparse hsyn
      exact h.syn hparse hsyn hfree hpend
  | connect clock up sent dst port => exact h.connect sent hok
  | connectTimeout =>
    exact h.own ⟨⟨rfl, rfl, iff_of_false (by simp) hok, id, fun _ _ => rfl,
      fun hcon => absurd hcon (by simp)⟩, rfl, rfl⟩
  | listen port => exact h.listen hok
  | accept listener => exact h.accept listener
  | send now i data => exact h.own (tcpSendConn_alike now _ data)
  | recv i room =>
    exact h.own ((tcpRecvConn_ends _ room).alike Iff.rfl (fun _ => id) fun _ => id)
  | close now i => exact h.own (tcpCloseConn_alike now _ hok)
  | tick now =>
    exact h.alike (fun i => tcpTickConn_alike now _ (h.table.quiet i)) h.completed_lt

end Steps

-- ---------------------------------------------------------------------------
-- Runs
-- ---------------------------------------------------------------------------

theorem demuxInit_inv : DemuxInv demuxInit where
  table := ⟨by decide, by decide, fun i _ hi => absurd hi.1 Bool.false_ne_true, by decide⟩
  owner_inj := fun _ _ _ h => absurd h (Option.some_ne_none _).symm
  owner_lt := fun _ _ h => absurd h (Option.some_ne_none _).symm
  completed_lt := fun _ h => absurd h List.not_mem_nil
  balanced := ⟨fun _ h => absurd h (Nat.not_lt_zero _), fun _ h => absurd h List.not_mem_nil,
    fun l _ h => absurd h (by simp [Demux.ledger, Demux.waiting, demuxInit, tcpInit, zeroConn])⟩

theorem TcpConn.Live.client {t : Tcp} (h : DemuxTable t) {i : Fin tcpMaxConns} (hi : (t.conns i).Live) :
    (t.conns i).inUse ∧ (t.conns i).isServer = false :=
  ⟨hi.1, Bool.eq_false_iff.mpr fun hcon => hi.2 ((h.server i).mp hcon)⟩

theorem live_of_client {t : Tcp} (h : DemuxTable t) {i : Fin tcpMaxConns}
    (hi : (t.conns i).inUse ∧ (t.conns i).isServer = false) : (t.conns i).Live :=
  ⟨hi.1, fun hcon => absurd ((h.server i).mpr hcon) (by rw [hi.2]; exact Bool.false_ne_true)⟩

/-- Of connections with different ends, the one is found that has them. -/
theorem findPeer_live {t : Tcp} (h : DemuxTable t) {i : Fin tcpMaxConns}
    (hi : (t.conns i).Live) : findPeer t (t.conns i).ends = some i := by
  obtain ⟨huse, hclient⟩ := hi.client h
  have hunique : ∀ j, ((t.conns j).inUse ∧ (t.conns j).isServer = false) →
      (t.conns j).ends = (t.conns i).ends → j = i := fun j hj heq =>
    h.unique j i (live_of_client h hj) hi heq
  cases hfam : (t.conns i).isIpv6 with
  | false =>
    have hends : (t.conns i).ends
        = (.v4 (t.conns i).peerIp, (t.conns i).peerPort, (t.conns i).localPort) := by
      rw [TcpConn.ends, TcpConn.peer, hfam, if_neg Bool.false_ne_true]
    rw [hends]
    change findConn t _ _ _ = some i
    cases hfind : findConn t (t.conns i).peerIp (t.conns i).peerPort (t.conns i).localPort with
    | none => exact absurd (FirstFit.eq_none_iff.mp hfind i) (by simp [huse, hclient, hfam])
    | some j =>
      obtain ⟨hlive, heq⟩ := findConn_live hfind
      rw [hunique j hlive (heq.trans hends.symm)]
  | true =>
    have hends : (t.conns i).ends
        = (.v6 (t.conns i).peerIp6, (t.conns i).peerPort, (t.conns i).localPort) := by
      rw [TcpConn.ends, TcpConn.peer, hfam, if_pos rfl]
    rw [hends]
    change findConn6 t _ _ _ = some i
    cases hfind : findConn6 t (t.conns i).peerIp6 (t.conns i).peerPort (t.conns i).localPort with
    | none => exact absurd (FirstFit.eq_none_iff.mp hfind i) (by simp [huse, hclient, hfam])
    | some j =>
      obtain ⟨hlive, heq⟩ := findConn6_live hfind
      rw [hunique j hlive (heq.trans hends.symm)]

theorem DemuxInv.law {s : Demux} (h : DemuxInv s) : DemuxLaw s where
  unique := h.table.unique
  found := fun i hi => findPeer_live h.table hi
  listener := fun port i hi => by
    have hfound := FirstFit.mem_of_some hi
    simp only [Bool.and_eq_true] at hfound
    exact (h.table.server i).mp hfound.1.2
  once := fun n hn => h.balanced.once n (h.completed_lt n hn)

/-- A SYN from 10.0.0.1, port 1000, to port 80. -/
def synBytes : List UInt8 := tcpSegBytes 0 ⟨1000, 80, 0, 0, tcpSyn, []⟩

def synOp : TcpOp IpAddr := .segment (fun _ => 0) (.v4 0x0A000001) synBytes

/-- The peer repeats its SYN. -/
def synTwice : List (TcpOp IpAddr) := [.listen 80, synOp, synOp]

end Lestra
