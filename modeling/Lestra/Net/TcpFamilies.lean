import Lestra.Net.Tcp

/-!
# IPv4 and IPv6 agree

* `TableImage` — two tables whose connections differ only in the family of their peers,
  the addresses of one being the images of those of the other
* `tcpInput6_eq` — the copy of the state machine in `tcp_handle6` is the one in `tcp_handle`
* `tcp_families_agree` — the handlers keep the relation and send the same segments, and so
  does every run of segments, calls and ticks
-/

namespace Lestra

/-- The connection under another peer address. -/
def TcpConn.readdress (c : TcpConn) (a : Ipv4Addr) (a6 : Ipv6Addr) (is6 : Bool) : TcpConn :=
  { c with peerIp := a, peerIp6 := a6, isIpv6 := is6 }

/-- The peer address of the connection is looked at. -/
def TcpConn.Talks (c : TcpConn) : Prop :=
  (c.inUse ∧ c.isServer = false) ∨ (c.state ≠ .closed ∧ c.state ≠ .listen) ∨ c.lastSeg ≠ none

/-- The peer of `c'` is the image of the IPv4 peer of `c`, or both have the same IPv6 peer
and it is not an image. -/
def PeerImage (f : Ipv4Addr → Ipv6Addr) (c c' : TcpConn) : Prop :=
  c'.isIpv6 ∧ ((c.isIpv6 = false ∧ c'.peerIp6 = f c.peerIp) ∨
    (c.isIpv6 ∧ c'.peerIp6 = c.peerIp6 ∧ ∀ a, f a ≠ c.peerIp6))

structure ConnImage (f : Ipv4Addr → Ipv6Addr) (c c' : TcpConn) : Prop where
  same : c' = c.readdress c'.peerIp c'.peerIp6 c'.isIpv6
  peer : c.Talks → PeerImage f c c'

structure TableImage (f : Ipv4Addr → Ipv6Addr) (t t' : Tcp) : Prop where
  conn : ∀ i, ConnImage f (t.conns i) (t'.conns i)
  port : t'.nextLocalPort = t.nextLocalPort

def IpAddr.image (f : Ipv4Addr → Ipv6Addr) : IpAddr → IpAddr
  | .v4 a => .v6 (f a)
  | .v6 a => .v6 a

def outImage (f : Ipv4Addr → Ipv6Addr) (o : TcpOut) : TcpOut := (o.1.image f, o.2)

def TcpReply.image (f : Ipv4Addr → Ipv6Addr) (r : TcpReply) : TcpReply :=
  { r with outs := r.outs.map (outImage f) }

/-- The same events with other addresses. -/
def TcpOp.mapAddr {α β : Type} (g : α → β) : TcpOp α → TcpOp β
  | .segment clock src data => .segment clock (g src) data
  | .connect clock up sent dst port => .connect clock up sent (g dst) port
  | .connectTimeout => .connectTimeout
  | .listen port => .listen port
  | .accept listener => .accept listener
  | .send now i data => .send now i data
  | .recv i room => .recv i room
  | .close now i => .close now i
  | .tick now => .tick now

/-- The table after a run, and the replies of its steps. -/
def tcpRun (t : Tcp) : List (TcpOp IpAddr) → Tcp × List TcpReply
  | [] => (t, [])
  | op :: ops =>
    ((tcpRun (tcpStep t op).1 ops).1, (tcpStep t op).2 :: (tcpRun (tcpStep t op).1 ops).2)

-- ---------------------------------------------------------------------------
-- The two copies of the state machine
-- ---------------------------------------------------------------------------

theorem tcpInput6_eq (clock : Nat → BitVec 64) (c : TcpConn) (s : TcpSeg) :
    tcpInput6 clock c s = tcpInput clock c s := rfl

-- ---------------------------------------------------------------------------
-- A connection under another address
-- ---------------------------------------------------------------------------

/-- The result of a step where the peer has another address. -/
def readdressed (a : Ipv4Addr) (a6 : Ipv6Addr) (is6 : Bool) (r : TcpConn × List TcpOut) :
    TcpConn × List TcpOut :=
  (r.1.readdress a a6 is6, r.2.map fun o => (if is6 then .v6 a6 else .v4 a, o.2))

section Readdress

variable (clock : Nat → BitVec 64) (now : BitVec 64) (c : TcpConn) (s : TcpSeg) (a : Ipv4Addr)
  (a6 : Ipv6Addr) (is6 : Bool)

theorem tcpDupAck_readdress :
    tcpDupAck now (c.readdress a a6 is6) s = readdressed a a6 is6 (tcpDupAck now c s) := by
  unfold tcpDupAck TcpConn.readdress
  dsimp only
  split <;> rfl

theorem tcpRxData_readdress :
    tcpRxData now (c.readdress a a6 is6) s = readdressed a a6 is6 (tcpRxData now c s) := by
  unfold tcpRxData
  split <;> rfl

theorem tcpRxFin_readdress (finTime : BitVec 64) : tcpRxFin now finTime (c.readdress a a6 is6) s
    = readdressed a a6 is6 (tcpRxFin now finTime c s) := by
  unfold tcpRxFin
  split
  · cases h : c.state <;> simp only [tcpSendSeg, TcpConn.readdress, h] <;> rfl
  · rfl

theorem tcpRxLastAck_readdress :
    tcpRxLastAck (c.readdress a a6 is6) s = (tcpRxLastAck c s).readdress a a6 is6 := by
  unfold tcpRxLastAck TcpConn.readdress
  dsimp only
  split <;> rfl

theorem tcpInput_readdress :
    tcpInput clock (c.readdress a a6 is6) s = readdressed a a6 is6 (tcpInput clock c s) := by
  have hstate : (c.readdress a a6 is6).state = c.state := rfl
  have hseq : (c.readdress a a6 is6).rxSeq = c.rxSeq := rfl
  unfold tcpInput
  rw [tcpDupAck_readdress, tcpRxLastAck_readdress, hstate, hseq]
  split_ifs
  · rfl
  · rfl
  · rfl
  · simp only [readdressed, tcpRxData_readdress, tcpRxFin_readdress, tcpRxLastAck_readdress,
      List.map_append]
  · rfl

theorem tcpSendConn_readdress (data : List UInt8) : tcpSendConn now (c.readdress a a6 is6) data
    = readdressed a a6 is6 (tcpSendConn now c data) := by
  unfold tcpSendConn TcpConn.readdress
  dsimp only
  split <;> rfl

theorem tcpCloseConn_readdress : tcpCloseConn now (c.readdress a a6 is6)
    = readdressed a a6 is6 (tcpCloseConn now c) := by
  have hstate : (c.readdress a a6 is6).state = c.state := rfl
  unfold tcpCloseConn
  rw [hstate]
  split_ifs <;> rfl

theorem tcpTickConn_readdress : tcpTickConn now (c.readdress a a6 is6)
    = readdressed a a6 is6 (tcpTickConn now c) := by
  have huse : (c.readdress a a6 is6).inUse = c.inUse := rfl
  have hstate : (c.readdress a a6 is6).state = c.state := rfl
  have hlast : (c.readdress a a6 is6).lastSeg = c.lastSeg := rfl
  have hcount : (c.readdress a a6 is6).retransmitCount = c.retransmitCount := rfl
  have hdue : (c.readdress a a6 is6).due now ↔ c.due now := Iff.rfl
  unfold tcpTickConn
  rw [huse, hstate, hlast, hcount]
  by_cases hfree : c.inUse = false
  · rw [if_pos hfree, if_pos hfree]
    rfl
  by_cases hclosed : c.state = .closed
  · rw [if_neg hfree, if_neg hfree, if_pos hclosed, if_pos hclosed]
    rfl
  rw [if_neg hfree, if_neg hfree, if_neg hclosed, if_neg hclosed]
  cases c.lastSeg with
  | none => rfl
  | some s =>
    simp only [hdue]
    by_cases hout : c.due now
    · rw [if_pos hout, if_pos hout]
      split <;> rfl
    · rw [if_neg hout, if_neg hout]
      rfl

end Readdress

-- ---------------------------------------------------------------------------
-- Related connections
-- ---------------------------------------------------------------------------

/-- A step that keeps the peer's address and sends to it. -/
structure ToPeer (c : TcpConn) (r : TcpConn × List TcpOut) : Prop where
  peerIp : r.1.peerIp = c.peerIp
  peerIp6 : r.1.peerIp6 = c.peerIp6
  isIpv6 : r.1.isIpv6 = c.isIpv6
  outs : ∀ o ∈ r.2, o.1 = c.peer

theorem OwnStep.toPeer {c : TcpConn} {r : TcpConn × List TcpOut} (h : OwnStep c r) : ToPeer c r :=
  ⟨h.ends.peerIp, h.ends.peerIp6, h.ends.isIpv6, h.outs⟩

theorem tcpTickConn_toPeer (now : BitVec 64) (c : TcpConn) : ToPeer c (tcpTickConn now c) := by
  unfold tcpTickConn
  split
  · exact (OwnStep.quiet (.refl c)).toPeer
  · split
    · exact ⟨rfl, rfl, rfl, by simp⟩
    · split
      · exact (OwnStep.quiet (.refl c)).toPeer
      · split
        · split
          · exact ⟨rfl, rfl, rfl, by simp⟩
          · exact ⟨rfl, rfl, rfl, by simp⟩
        · exact (OwnStep.quiet (.refl c)).toPeer

section Related

variable {f : Ipv4Addr → Ipv6Addr} {c c' : TcpConn}

/-- The peers of related connections correspond. -/
theorem ConnImage.peer_eq (h : ConnImage f c c') (ht : c.Talks) : c'.peer = c.peer.image f := by
  obtain ⟨hv6, ⟨hv4, haddr⟩ | ⟨hboth, haddr, -⟩⟩ := h.peer ht
  · rw [TcpConn.peer, if_pos hv6, TcpConn.peer, hv4, if_neg Bool.false_ne_true, IpAddr.image, haddr]
  · rw [TcpConn.peer, if_pos hv6, TcpConn.peer, if_pos hboth, IpAddr.image, haddr]

/-- A step of the connection on its own that does not look at the address. -/
theorem ConnImage.step (h : ConnImage f c c') (g : TcpConn → TcpConn × List TcpOut)
    (hg : ∀ c a a6 is6, g (TcpConn.readdress c a a6 is6) = readdressed a a6 is6 (g c))
    (hpeer : ∀ c, ToPeer c (g c)) (htalks : (g c).1.Talks → c.Talks)
    (hsends : (g c).2 ≠ [] → c.Talks) :
    ConnImage f (g c).1 (g c').1 ∧ (g c').2 = (g c).2.map (outImage f) := by
  have hstep : g c' = readdressed c'.peerIp c'.peerIp6 c'.isIpv6 (g c) := by
    rw [← hg, ← h.same]
  refine ⟨⟨?_, fun ht => ?_⟩, ?_⟩
  · rw [(hpeer c').peerIp, (hpeer c').peerIp6, (hpeer c').isIpv6, hstep, readdressed]
  · have himage := h.peer (htalks ht)
    unfold PeerImage at himage ⊢
    rwa [(hpeer c').isIpv6, (hpeer c').peerIp6, (hpeer c).isIpv6, (hpeer c).peerIp6,
      (hpeer c).peerIp]
  · have houts : (g c').2 = (g c).2.map fun o => (c'.peer, o.2) := congrArg Prod.snd hstep
    rw [houts]
    refine List.map_congr_left fun o ho => ?_
    rw [outImage, (hpeer c).outs o ho, h.peer_eq (hsends (List.ne_nil_of_mem ho))]

theorem ConnImage.inUse (h : ConnImage f c c') : c'.inUse = c.inUse := by rw [h.same]; rfl

theorem ConnImage.isServer (h : ConnImage f c c') : c'.isServer = c.isServer := by
  rw [h.same]; rfl

theorem ConnImage.state (h : ConnImage f c c') : c'.state = c.state := by rw [h.same]; rfl

theorem ConnImage.peerPort (h : ConnImage f c c') : c'.peerPort = c.peerPort := by
  rw [h.same]; rfl

theorem ConnImage.localPort (h : ConnImage f c c') : c'.localPort = c.localPort := by
  rw [h.same]; rfl

/-- A change of other fields than the peer. -/
theorem ConnImage.modify (h : ConnImage f c c') (g : TcpConn → TcpConn)
    (hg : ∀ c a a6 is6, g (TcpConn.readdress c a a6 is6) = (g c).readdress a a6 is6)
    (hpeer : ∀ c, ToPeer c (g c, [])) (htalks : (g c).Talks → c.Talks) :
    ConnImage f (g c) (g c') :=
  (h.step (fun c => (g c, [])) (fun c a a6 is6 => by rw [hg]; rfl) hpeer htalks
    (fun hne => absurd rfl hne)).1

end Related

-- ---------------------------------------------------------------------------
-- Related tables
-- ---------------------------------------------------------------------------

section Tables

variable {f : Ipv4Addr → Ipv6Addr} {t t' : Tcp}

theorem TableImage.setConn (h : TableImage f t t') (i : Fin tcpMaxConns) {c c' : TcpConn}
    (hc : ConnImage f c c') : TableImage f (t.setConn i c) (t'.setConn i c') := by
  refine ⟨fun j => ?_, h.port⟩
  by_cases hj : j = i
  · subst hj
    simpa [Tcp.setConn] using hc
  · simpa [Tcp.setConn, hj] using h.conn j

theorem TableImage.findConn_eq (h : TableImage f t t') (hf : Function.Injective f)
    (src : Ipv4Addr) (srcPort dstPort : BitVec 16) :
    findConn6 t' (f src) srcPort dstPort = findConn t src srcPort dstPort := by
  refine congrArg (fun p => (List.finRange tcpMaxConns).find? p) (funext fun i => ?_)
  have hc := h.conn i
  rw [hc.inUse, hc.isServer, hc.peerPort, hc.localPort]
  by_cases hlive : (t.conns i).inUse ∧ (t.conns i).isServer = false
  · obtain ⟨hv6, ⟨hv4, haddr⟩ | ⟨hboth, haddr, hout⟩⟩ := hc.peer (.inl hlive)
    · have hsrc : (f (t.conns i).peerIp == f src) = ((t.conns i).peerIp == src) := by
        rw [Bool.eq_iff_iff, beq_iff_eq, beq_iff_eq]
        exact hf.eq_iff
      rw [hv6, hv4, haddr, hsrc, Bool.not_false]
    · have hsrc : ((t.conns i).peerIp6 == f src) = false := beq_eq_false_iff_ne.mpr (hout src).symm
      rw [hv6, hboth, haddr, hsrc]
      simp
  · have hskip : ((t.conns i).inUse && !(t.conns i).isServer) = false := by
      rw [Bool.eq_false_iff]
      intro hcon
      rw [Bool.and_eq_true, Bool.not_eq_true'] at hcon
      exact hlive hcon
    rw [hskip, Bool.false_and, Bool.false_and, Bool.false_and, Bool.false_and]

theorem TableImage.findListener_eq (h : TableImage f t t') (port : BitVec 16) :
    findListener t' port = findListener t port := by
  refine congrArg (fun p => (List.finRange tcpMaxConns).find? p) (funext fun i => ?_)
  rw [(h.conn i).inUse, (h.conn i).isServer, (h.conn i).localPort]

theorem TableImage.allocConnSlot_eq (h : TableImage f t t') :
    allocConnSlot t' = allocConnSlot t := by
  refine congrArg (fun p => (List.finRange tcpMaxConns).find? p) (funext fun i => ?_)
  rw [(h.conn i).inUse, (h.conn i).state]

/-- A connection that `find_conn` returns talks to its peer. -/
theorem findConn_talks {src : Ipv4Addr} {srcPort dstPort : BitVec 16} {i : Fin tcpMaxConns}
    (h : findConn t src srcPort dstPort = some i) : (t.conns i).Talks := by
  have hfound := FirstFit.mem_of_some h
  simp only [Bool.and_eq_true, Bool.not_eq_true'] at hfound
  exact .inl ⟨hfound.1.1.1, hfound.1.1.2⟩

/-- The tables and the segments sent correspond. -/
def Agree (f : Ipv4Addr → Ipv6Addr) (r r' : Tcp × List TcpOut) : Prop :=
  TableImage f r.1 r'.1 ∧ r'.2 = r.2.map (outImage f)

theorem TableImage.agree (h : TableImage f t t') : Agree f (t, []) (t', []) := ⟨h, rfl⟩

/-- A step of one connection of the table. -/
theorem TableImage.own (h : TableImage f t t') (i : Fin tcpMaxConns)
    (g : TcpConn → TcpConn × List TcpOut)
    (hg : ∀ c a a6 is6, g (TcpConn.readdress c a a6 is6) = readdressed a a6 is6 (g c))
    (hpeer : ∀ c, ToPeer c (g c)) (htalks : (g (t.conns i)).1.Talks → (t.conns i).Talks)
    (hsends : (g (t.conns i)).2 ≠ [] → (t.conns i).Talks) :
    Agree f (t.setConn i (g (t.conns i)).1, (g (t.conns i)).2)
      (t'.setConn i (g (t'.conns i)).1, (g (t'.conns i)).2) := by
  obtain ⟨hconn, houts⟩ := (h.conn i).step g hg hpeer htalks hsends
  exact ⟨h.setConn i hconn, houts⟩

/-- The listener remembers the connection in `slot`. -/
theorem TableImage.pend (h : TableImage f t t') (listener slot : Fin tcpMaxConns) :
    TableImage f
      (t.setConn listener { t.conns listener with pendingAccept := true, accepted := some slot })
      (t'.setConn listener
        { t'.conns listener with pendingAccept := true, accepted := some slot }) :=
  h.setConn listener ((h.conn listener).modify
    (fun c => { c with pendingAccept := true, accepted := some slot }) (fun _ _ _ _ => rfl)
    (fun _ => ⟨rfl, rfl, rfl, by simp⟩) id)

theorem tcpHandle_agree (h : TableImage f t t') (hf : Function.Injective f)
    (clock : Nat → BitVec 64) (src : Ipv4Addr) (data : List UInt8) :
    Agree f (tcpHandle clock t src data) (tcpHandle6 clock t' (f src) data) := by
  unfold tcpHandle tcpHandle6
  cases tcpParse data with
  | none => exact h.agree
  | some s =>
    dsimp only
    rw [h.findConn_eq hf, h.findListener_eq, h.allocConnSlot_eq]
    split
    · cases hfind : findConn t src s.srcPort s.dstPort with
      | none => exact h.agree
      | some i =>
        have htalks := findConn_talks hfind
        exact h.own i (fun c => (c.reset, [])) (fun _ _ _ _ => rfl)
          (fun c => ⟨rfl, rfl, rfl, by simp⟩) (fun _ => htalks) fun _ => htalks
    · split
      · cases findListener t s.dstPort with
        | none => exact h.agree
        | some listener =>
          cases allocConnSlot t with
          | none => exact h.agree
          | some slot =>
            refine ⟨(h.setConn slot ⟨rfl, fun _ => ⟨rfl, .inl ⟨rfl, rfl⟩⟩⟩).pend listener slot, rfl⟩
      · cases hfind : findConn t src s.srcPort s.dstPort with
        | none => exact h.agree
        | some i =>
          have htalks := findConn_talks hfind
          exact h.own i (fun c => tcpInput clock c s)
            (fun c a a6 is6 => tcpInput_readdress clock c s a a6 is6)
            (fun c => (tcpInput_own clock c s).toPeer) (fun _ => htalks) fun _ => htalks

theorem tcpConnectTo_agree (h : TableImage f t t') (clock : Nat → BitVec 64) (up sent : Bool)
    (dst : Ipv4Addr) (port : BitVec 16) :
    Agree f (tcpConnectTo clock up sent t (.v4 dst) port)
      (tcpConnectTo clock up sent t' (.v6 (f dst)) port) := by
  unfold tcpConnectTo
  rw [(h.conn clientSlot).state]
  split
  · exact h.agree
  · have hport : TableImage f (allocLocalPort t).1 (allocLocalPort t').1 :=
      ⟨h.conn, by simp only [allocLocalPort, h.port]⟩
    have hclient : (t'.conns clientSlot).client (.v6 (f dst)) port t.nextLocalPort (clock 0) =
        ((t.conns clientSlot).client (.v4 dst) port t.nextLocalPort (clock 0)).readdress 0 (f dst)
          true := by
      rw [(h.conn clientSlot).same]
      rfl
    have hlocal : (allocLocalPort t').2 = t.nextLocalPort := h.port
    dsimp only
    rw [hlocal, show (allocLocalPort t').1.conns = t'.conns from rfl, hclient]
    refine ⟨hport.setConn clientSlot ?_, rfl⟩
    cases sent with
    | false => exact ⟨rfl, fun _ => ⟨rfl, .inl ⟨rfl, rfl⟩⟩⟩
    | true => exact ⟨rfl, fun _ => ⟨rfl, .inl ⟨rfl, rfl⟩⟩⟩

theorem tcpTickConn_talks (now : BitVec 64) (c : TcpConn) :
    ((tcpTickConn now c).1.Talks → c.Talks) ∧ ((tcpTickConn now c).2 ≠ [] → c.Talks) := by
  unfold tcpTickConn
  split
  · exact ⟨id, fun hne => absurd rfl hne⟩
  · split
    · rename_i hclosed
      refine ⟨?_, fun hne => absurd rfl hne⟩
      rintro (⟨huse, -⟩ | ⟨hstate, -⟩ | hlast)
      · exact absurd huse Bool.false_ne_true
      · exact absurd hclosed hstate
      · exact .inr (.inr hlast)
    · cases hlast : c.lastSeg with
      | none => exact ⟨id, fun hne => absurd rfl hne⟩
      | some s =>
        have htalks : c.Talks := .inr (.inr (by rw [hlast]; exact Option.some_ne_none s))
        exact ⟨fun _ => htalks, fun _ => htalks⟩

theorem tcpTick_agree (h : TableImage f t t') (now : BitVec 64) :
    Agree f (tcpTick now t) (tcpTick now t') := by
  have hstep : ∀ i, ConnImage f (tcpTickConn now (t.conns i)).1 (tcpTickConn now (t'.conns i)).1 ∧
      (tcpTickConn now (t'.conns i)).2 = (tcpTickConn now (t.conns i)).2.map (outImage f) :=
    fun i => (h.conn i).step (tcpTickConn now)
      (fun c a a6 is6 => tcpTickConn_readdress now c a a6 is6) (tcpTickConn_toPeer now)
      (tcpTickConn_talks now _).1 (tcpTickConn_talks now _).2
  refine ⟨⟨fun i => (hstep i).1, h.port⟩, ?_⟩
  rw [tcpTick, tcpTick, List.map_flatMap]
  exact congrArg (List.flatMap · _) (funext fun i => (hstep i).2)

/-- A call on a connection that sends only when it is open. -/
theorem tcpSendConn_talks (now : BitVec 64) (c : TcpConn) (data : List UInt8) :
    ((tcpSendConn now c data).1.Talks → c.Talks) ∧ ((tcpSendConn now c data).2 ≠ [] → c.Talks) := by
  unfold tcpSendConn
  split
  · exact ⟨id, fun hne => absurd rfl hne⟩
  · rename_i hstate
    rw [not_not] at hstate
    have htalks : c.Talks := .inr (.inl (by rw [hstate]; exact ⟨by decide, by decide⟩))
    exact ⟨fun _ => htalks, fun _ => htalks⟩

theorem tcpCloseConn_talks (now : BitVec 64) (c : TcpConn) :
    ((tcpCloseConn now c).1.Talks → c.Talks) ∧ ((tcpCloseConn now c).2 ≠ [] → c.Talks) := by
  unfold tcpCloseConn
  split
  · rename_i hstate
    have htalks : c.Talks := .inr (.inl (by rw [hstate]; exact ⟨by decide, by decide⟩))
    exact ⟨fun _ => htalks, fun _ => htalks⟩
  · split
    · rename_i hstate
      have htalks : c.Talks := .inr (.inl (by rw [hstate]; exact ⟨by decide, by decide⟩))
      exact ⟨fun _ => htalks, fun _ => htalks⟩
    · refine ⟨?_, fun hne => absurd rfl hne⟩
      rintro (hlive | ⟨hstate, -⟩ | hlast)
      · exact .inl hlive
      · exact absurd rfl hstate
      · exact .inr (.inr hlast)

/-- **One event keeps the relation, and the replies correspond.** -/
theorem tcpStep_agree (h : TableImage f t t') (hf : Function.Injective f) (op : TcpOp Ipv4Addr) :
    TableImage f (tcpStep t (op.mapAddr .v4)).1 (tcpStep t' (op.mapAddr fun a => .v6 (f a))).1 ∧
      (tcpStep t' (op.mapAddr fun a => .v6 (f a))).2 =
        (tcpStep t (op.mapAddr .v4)).2.image f := by
  have hsends : ∀ {r r' : Tcp × List TcpOut}, Agree f r r' →
      TableImage f r.1 r'.1 ∧ (⟨r'.2, [], none⟩ : TcpReply) = TcpReply.image f ⟨r.2, [], none⟩ :=
    fun hr => ⟨hr.1, by rw [TcpReply.image, hr.2]⟩
  cases op with
  | segment clock src data => exact hsends (tcpHandle_agree h hf clock src data)
  | connect clock up sent dst port => exact hsends (tcpConnectTo_agree h clock up sent dst port)
  | connectTimeout =>
    refine ⟨h.setConn clientSlot ((h.conn clientSlot).modify
      (fun c => { c with state := .closed }) (fun _ _ _ _ => rfl)
      (fun _ => ⟨rfl, rfl, rfl, by simp⟩) ?_), rfl⟩
    rintro (hlive | ⟨hstate, -⟩ | hlast)
    · exact .inl hlive
    · exact absurd rfl hstate
    · exact .inr (.inr hlast)
  | listen port =>
    simp only [TcpOp.mapAddr, tcpStep, tcpListen, h.allocConnSlot_eq]
    cases allocConnSlot t with
    | none => exact ⟨h, rfl⟩
    | some i =>
      refine ⟨h.setConn i ⟨rfl, ?_⟩, rfl⟩
      rintro (⟨-, hclient⟩ | ⟨-, hstate⟩ | hlast)
      · exact absurd hclient Bool.false_ne_true.symm
      · exact absurd rfl hstate
      · exact absurd rfl hlast
  | accept listener =>
    have hsame := (h.conn listener).same
    have hserver := (h.conn listener).isServer
    have hpending : (t'.conns listener).pendingAccept = (t.conns listener).pendingAccept := by
      rw [hsame]; rfl
    have haccepted : (t'.conns listener).accepted = (t.conns listener).accepted := by
      rw [hsame]; rfl
    have hiff : (t'.conns listener).isServer ∧ (t'.conns listener).pendingAccept ↔
        (t.conns listener).isServer ∧ (t.conns listener).pendingAccept := by
      rw [hserver, hpending]
    by_cases hwaits : (t.conns listener).isServer ∧ (t.conns listener).pendingAccept
    · simp only [TcpOp.mapAddr, tcpStep, tcpAccept, if_pos hwaits, if_pos (hiff.mpr hwaits),
        haccepted]
      exact ⟨h.setConn listener ((h.conn listener).modify
        (fun c => { c with pendingAccept := false, accepted := none }) (fun _ _ _ _ => rfl)
        (fun _ => ⟨rfl, rfl, rfl, by simp⟩) id), rfl⟩
    · simp only [TcpOp.mapAddr, tcpStep, tcpAccept, if_neg hwaits, if_neg (mt hiff.mp hwaits)]
      exact ⟨h, rfl⟩
  | send now i data =>
    exact hsends (h.own i (fun c => tcpSendConn now c data)
      (fun c a a6 is6 => tcpSendConn_readdress now c a a6 is6 data)
      (fun c => (tcpSendConn_own now c data).toPeer) (tcpSendConn_talks now _ data).1
      (tcpSendConn_talks now _ data).2)
  | recv i room =>
    have hbytes : (tcpRecvConn (t'.conns i) room).2 = (tcpRecvConn (t.conns i) room).2 := by
      rw [(h.conn i).same]
      rfl
    refine ⟨h.setConn i ((h.conn i).modify (fun c => (tcpRecvConn c room).1)
      (fun _ _ _ _ => rfl) (fun _ => ⟨rfl, rfl, rfl, by simp⟩) id), ?_⟩
    simp only [TcpOp.mapAddr, tcpStep, hbytes, TcpReply.image, List.map_nil]
  | close now i =>
    exact hsends (h.own i (tcpCloseConn now)
      (fun c a a6 is6 => tcpCloseConn_readdress now c a a6 is6)
      (fun c => (tcpCloseConn_own now c).toPeer) (tcpCloseConn_talks now _).1
      (tcpCloseConn_talks now _).2)
  | tick now => exact hsends (tcpTick_agree h now)

theorem tcpRun_agree (hf : Function.Injective f) (ops : List (TcpOp Ipv4Addr)) :
    ∀ {t t' : Tcp}, TableImage f t t' →
      TableImage f (tcpRun t (ops.map (·.mapAddr .v4))).1
        (tcpRun t' (ops.map (·.mapAddr fun a => .v6 (f a)))).1 ∧
      (tcpRun t' (ops.map (·.mapAddr fun a => .v6 (f a)))).2 =
        (tcpRun t (ops.map (·.mapAddr .v4))).2.map (TcpReply.image f) := by
  induction ops with
  | nil => exact fun h => ⟨h, rfl⟩
  | cons op ops ih =>
    intro t t' h
    obtain ⟨htable, hreply⟩ := tcpStep_agree h hf op
    obtain ⟨hrun, hreplies⟩ := ih htable
    refine ⟨hrun, ?_⟩
    simp only [List.map_cons, tcpRun, hreply, hreplies]

end Tables

-- ---------------------------------------------------------------------------
-- The two families
-- ---------------------------------------------------------------------------

/-- **IPv4 and IPv6 TCP agree.** On a table and its image, `tcp_handle` and `tcp_handle6`
lead to corresponding tables and send corresponding segments in the same order; so does
every run of segments, calls and ticks. -/
theorem tcp_families_agree (f : Ipv4Addr → Ipv6Addr) (hf : Function.Injective f) (t t' : Tcp)
    (h : TableImage f t t') :
    (∀ clock src data,
      TableImage f (tcpHandle clock t src data).1 (tcpHandle6 clock t' (f src) data).1 ∧
      (tcpHandle6 clock t' (f src) data).2 = (tcpHandle clock t src data).2.map (outImage f)) ∧
    ∀ ops : List (TcpOp Ipv4Addr),
      TableImage f (tcpRun t (ops.map (·.mapAddr .v4))).1
        (tcpRun t' (ops.map (·.mapAddr fun a => .v6 (f a)))).1 ∧
      (tcpRun t' (ops.map (·.mapAddr fun a => .v6 (f a)))).2 =
        (tcpRun t (ops.map (·.mapAddr .v4))).2.map (TcpReply.image f) :=
  ⟨fun clock src data => tcpHandle_agree h hf clock src data, fun ops => tcpRun_agree hf ops h⟩

/-- A listener on port 80 and an open connection from 10.0.0.1, port 1000. -/
def openTable (peer : IpAddr) : Tcp :=
  let t := (tcpListen tcpInit 80).1
  t.setConn ⟨1, by decide⟩ { zeroConn.client peer 1000 80 0 with state := .established }

/-- `::ffff:a.b.c.d` -/
def mappedAddr (a : Ipv4Addr) : Ipv6Addr := (0xFFFF : BitVec 96) ++ a

theorem mappedAddr_injective : Function.Injective mappedAddr := by
  intro a b hab
  have hlow : (mappedAddr a).setWidth 32 = (mappedAddr b).setWidth 32 := by rw [hab]
  rw [mappedAddr, mappedAddr, BitVec.setWidth_append, BitVec.setWidth_append] at hlow
  simpa using hlow

theorem openTable_image :
    TableImage mappedAddr (openTable (.v4 0x0A000001)) (openTable (.v6 (mappedAddr 0x0A000001))) := by
  have hquiet : ∀ i, ¬ ((tcpListen tcpInit 80).1.conns i).Talks := by
    unfold TcpConn.Talks
    decide
  have hlisten : TableImage mappedAddr (tcpListen tcpInit 80).1 (tcpListen tcpInit 80).1 :=
    ⟨fun i => ⟨rfl, fun ht => absurd ht (hquiet i)⟩, rfl⟩
  exact hlisten.setConn _ ⟨rfl, fun _ => ⟨rfl, .inl ⟨rfl, rfl⟩⟩⟩

/-- A FIN with sequence number 0 from port 1000 to port 80. -/
def finBytes : List UInt8 := [3, 232, 0, 80, 0, 0, 0, 0, 0, 0, 0, 0, 80, 17, 0, 0, 0, 0, 0, 0]

theorem tcp_families_agree_fin :
    (tcpHandle6 (fun _ => 0) (openTable (.v6 (mappedAddr 0x0A000001))) (mappedAddr 0x0A000001)
        finBytes).2 =
      (tcpHandle (fun _ => 0) (openTable (.v4 0x0A000001)) 0x0A000001 finBytes).2.map
        (outImage mappedAddr) :=
  ((tcp_families_agree mappedAddr mappedAddr_injective _ _ openTable_image).1 _ _ finBytes).2

end Lestra
