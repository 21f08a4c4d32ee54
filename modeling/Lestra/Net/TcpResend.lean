import Lestra.Net.Tcp
import Lestra.Lib.Run
import Lestra.Lib.SeqWindow

/-!
# Retransmission

`tcp_tick` sends again what `last_seg` holds. A run of `tcp_handle`, `tcp_send_conn` and
`tcp_tick` on the connection in one slot keeps a record of the segments sent and of what the
peer acknowledged.

* `ResendLaw` — what is sent and not acknowledged is in `last_seg`; a tick sends only such
  a segment and aborts only when there is one
* `resendAllowed` — nothing is sent on top of a segment that is not acknowledged, and no
  timer runs out after everything was acknowledged
* `tcp_resends_unacked` — the law holds in every run of such steps
-/

namespace Lestra

-- ---------------------------------------------------------------------------
-- The record of a run
-- ---------------------------------------------------------------------------

/-- The sequence numbers a segment takes: its payload, and one for a SYN or a FIN. -/
def TcpSeg.units (s : TcpSeg) : Nat :=
  s.payload.length + if s.has (tcpSyn ||| tcpFin) then 1 else 0

/-- The first position not acknowledged, the next position, and the segments that carry
data, a SYN or a FIN, with their positions. -/
structure SendLog where
  una : Nat
  nxt : Nat
  sent : List (Nat × TcpSeg)

def SendLog.push (log : SendLog) (s : TcpSeg) : SendLog :=
  if s.units = 0 then log
  else { log with nxt := log.nxt + s.units, sent := log.sent ++ [(log.nxt, s)] }

def SendLog.pushAll (log : SendLog) (outs : List TcpOut) : SendLog :=
  outs.foldl (fun l o => l.push o.2) log

/-- What the acknowledgement of a segment says. -/
def SendLog.ack (base : BitVec 32) (log : SendLog) (s : TcpSeg) : SendLog :=
  if s.has tcpAck then { log with una := SeqWindow.ackPos base log.una log.nxt s.ack } else log

structure Resend where
  tcp : Tcp
  log : SendLog

inductive ResendOp where
  | segment (clock : Nat → BitVec 64) (data : List UInt8)
  | send (now : BitVec 64) (data : List UInt8)
  | tick (now : BitVec 64)

def ResendOp.toOp (i : Fin tcpMaxConns) (peer : Ipv4Addr) : ResendOp → TcpOp IpAddr
  | .segment clock data => .segment clock (.v4 peer) data
  | .send now data => .send now i data
  | .tick now => .tick now

/-- The segment asks for a new connection. -/
def TcpSeg.Opens (s : TcpSeg) : Prop :=
  s.has tcpRst = false ∧ s.has tcpSyn ∧ s.has tcpAck = false

instance (s : TcpSeg) : Decidable s.Opens := by
  unfold TcpSeg.Opens
  infer_instance

/-- What the step adds to the record of the connection in slot `i`. A tick sends nothing
new. -/
def SendLog.record (base : BitVec 32) (i : Fin tcpMaxConns) (peer : Ipv4Addr) (log : SendLog)
    (t : Tcp) (op : ResendOp) : SendLog :=
  match op with
  | .segment clock data =>
    match tcpParse data with
    | some s =>
      if findConn t peer s.srcPort s.dstPort = some i ∧ ¬ s.Opens then
        (log.ack base s).pushAll (tcpHandle clock t peer data).2
      else log
    | none => log
  | .send now data => log.pushAll (tcpSendConn now (t.conns i) data).2
  | .tick _ => log

def resendStep (base : BitVec 32) (i : Fin tcpMaxConns) (peer : Ipv4Addr) (s : Resend)
    (op : ResendOp) : Resend :=
  ⟨(tcpStep s.tcp (op.toOp i peer)).1, s.log.record base i peer s.tcp op⟩

-- ---------------------------------------------------------------------------
-- The law
-- ---------------------------------------------------------------------------

/-- The positions of the segment are not all acknowledged. -/
def SendLog.Unacked (log : SendLog) (s : TcpSeg) : Prop :=
  ∃ n, (n, s) ∈ log.sent ∧ log.una < n + s.units

/-- What the peer has not acknowledged can be sent again, as long as the connection is not
closed. -/
def Available (i : Fin tcpMaxConns) (s : Resend) : Prop :=
  ∀ seg, s.log.Unacked seg → (s.tcp.conns i).state ≠ .closed →
    (s.tcp.conns i).lastSeg = some seg

/-- What holds of a step in the state before it. -/
structure ResendLaw (i : Fin tcpMaxConns) (s : Resend) (op : ResendOp) : Prop where
  available : Available i s
  resends : ∀ now, op = .tick now → ∀ o ∈ (tcpTickConn now (s.tcp.conns i)).2,
    s.log.Unacked o.2
  aborts : ∀ now, op = .tick now → (s.tcp.conns i).state ≠ .closed →
    (tcpTickConn now (s.tcp.conns i)).1.state = .closed → s.log.una < s.log.nxt

/-- `tcp_handle` answers the segment. -/
def answers (c : TcpConn) (s : TcpSeg) : Prop :=
  c.state.Receives ∧ ((s.seq ≠ c.rxSeq ∧ s.has tcpAck) ∨
    (s.seq = c.rxSeq ∧ 0 < s.payload.length ∧ s.has (tcpPsh ||| tcpAck)) ∨ s.has tcpFin)

/-- A segment ends the handshake. -/
def endsHandshake (c : TcpConn) (s : TcpSeg) : Prop :=
  (c.state = .synSent ∧ s.has tcpSyn ∧ s.has tcpAck) ∨ (c.state = .synReceived ∧ s.has tcpAck)

/-- The condition on a step. No request for a new connection takes the slot. A segment that
ends the handshake acknowledges everything sent; when one is answered, and when data is sent,
nothing is left to acknowledge. When everything is acknowledged, no tick finds the timer of
`last_seg` run out. -/
def resendAllowed (base : BitVec 32) (i : Fin tcpMaxConns) (peer : Ipv4Addr) (s : Resend) :
    ResendOp → Prop
  | .segment _ data => ∀ seg, tcpParse data = some seg →
      (seg.Opens → allocConnSlot s.tcp ≠ some i) ∧
      (findConn s.tcp peer seg.srcPort seg.dstPort = some i → seg.has tcpRst = false →
        ¬ seg.Opens →
        (endsHandshake (s.tcp.conns i) seg → seg.ack = (s.tcp.conns i).txSeq) ∧
        (answers (s.tcp.conns i) seg → (s.log.ack base seg).una = s.log.nxt))
  | .send _ _ => (s.tcp.conns i).state = .established → s.log.una = s.log.nxt
  | .tick now => s.log.una = s.log.nxt → (s.tcp.conns i).lastSeg ≠ none →
      ¬ (s.tcp.conns i).due now

/-- Nothing is outstanding, or one segment that `last_seg` holds, as after the SYN of
`tcp_connect` or the SYN and ACK of a new server connection. -/
def ResendStart (base : BitVec 32) (i : Fin tcpMaxConns) (s : Resend) : Prop :=
  (s.log = ⟨0, 0, []⟩ ∧ (s.tcp.conns i).txSeq = base) ∨
    ∃ seg, 0 < seg.units ∧ seg.units < 2 ^ 32 ∧ (s.tcp.conns i).lastSeg = some seg ∧
      s.log = ⟨0, seg.units, [(0, seg)]⟩ ∧
      (s.tcp.conns i).txSeq = base + BitVec.ofNat 32 seg.units

-- ---------------------------------------------------------------------------
-- The record
-- ---------------------------------------------------------------------------

/-- What is recorded ends at the next position. -/
structure SendLog.Wf (log : SendLog) : Prop where
  una_le : log.una ≤ log.nxt
  window : log.nxt - log.una < 2 ^ 32
  sent_le : ∀ n s, (n, s) ∈ log.sent → n + s.units ≤ log.nxt
  last : log.nxt = 0 ∨ ∃ n s, (n, s) ∈ log.sent ∧ n + s.units = log.nxt

section Record

variable {base : BitVec 32} {log : SendLog} {s s' : TcpSeg}

theorem ack_nxt : (log.ack base s).nxt = log.nxt := by
  unfold SendLog.ack
  split <;> rfl

theorem ack_sent : (log.ack base s).sent = log.sent := by
  unfold SendLog.ack
  split <;> rfl

theorem le_ack_una : log.una ≤ (log.ack base s).una := by
  unfold SendLog.ack
  split
  · exact SeqWindow.le_ackPos
  · exact Nat.le_refl _

theorem ack_una_le (h : log.una ≤ log.nxt) : (log.ack base s).una ≤ log.nxt := by
  unfold SendLog.ack
  split
  · exact SeqWindow.ackPos_le h
  · exact h

theorem SendLog.Wf.ack (h : log.Wf) : (log.ack base s).Wf where
  una_le := by rw [ack_nxt]; exact ack_una_le h.una_le
  window := by
    have hle : log.una ≤ (log.ack base s).una := le_ack_una
    have hwin := h.window
    rw [ack_nxt]
    omega
  sent_le n s' hmem := by
    rw [ack_sent] at hmem
    rw [ack_nxt]
    exact h.sent_le n s' hmem
  last := by
    rw [ack_nxt, ack_sent]
    exact h.last

theorem SendLog.Unacked.of_ack (h : (log.ack base s).Unacked s') : log.Unacked s' := by
  obtain ⟨n, hmem, hlt⟩ := h
  rw [ack_sent] at hmem
  exact ⟨n, hmem, lt_of_le_of_lt le_ack_una hlt⟩

/-- The number after everything sent acknowledges everything. -/
theorem SendLog.Wf.ack_end (h : log.Wf) (hflag : s.has tcpAck)
    (hack : s.ack = base + BitVec.ofNat 32 log.nxt) : (log.ack base s).una = log.nxt := by
  rw [SendLog.ack, if_pos hflag, hack]
  exact SeqWindow.ackPos_end h.una_le h.window

/-- When everything is acknowledged, no segment is left. -/
theorem SendLog.Wf.none_unacked (h : log.Wf) (hdone : log.una = log.nxt) : ¬ log.Unacked s := by
  rintro ⟨n, hmem, hlt⟩
  have hle := h.sent_le n s hmem
  omega

/-- When something is not acknowledged, a segment is left. -/
theorem SendLog.Wf.exists_unacked (h : log.Wf) (hlt : log.una < log.nxt) : ∃ s, log.Unacked s := by
  rcases h.last with h0 | ⟨n, s, hmem, hend⟩
  · omega
  · exact ⟨s, n, hmem, by omega⟩

theorem push_pure (h : s.units = 0) : log.push s = log := if_pos h

theorem pushAll_pure {outs : List TcpOut} (h : ∀ o ∈ outs, o.2.units = 0) :
    log.pushAll outs = log := by
  induction outs with
  | nil => rfl
  | cons o outs ih =>
    rw [SendLog.pushAll, List.foldl_cons, push_pure (h o List.mem_cons_self)]
    exact ih fun o' ho' => h o' (List.mem_cons_of_mem o ho')

theorem pushAll_append (outs outs' : List TcpOut) :
    log.pushAll (outs ++ outs') = (log.pushAll outs).pushAll outs' := List.foldl_append

theorem push_nxt : (log.push s).nxt = log.nxt + s.units := by
  unfold SendLog.push
  split
  · omega
  · rfl

theorem SendLog.Wf.push (h : log.Wf) (hdone : log.una = log.nxt) (hw : s.units < 2 ^ 32) :
    (log.push s).Wf := by
  by_cases hunits : s.units = 0
  · rw [push_pure hunits]
    exact h
  · rw [SendLog.push, if_neg hunits]
    refine ⟨?_, ?_, ?_, .inr ⟨log.nxt, s, ?_, rfl⟩⟩
    · show log.una ≤ log.nxt + s.units
      omega
    · show log.nxt + s.units - log.una < 2 ^ 32
      omega
    · intro n s' hmem
      show n + s'.units ≤ log.nxt + s.units
      rcases List.mem_append.mp hmem with hold | hnew
      · have hle := h.sent_le n s' hold
        omega
      · cases List.mem_singleton.mp hnew
        exact Nat.le_refl _
    · exact List.mem_append_right _ (List.mem_singleton.mpr rfl)

/-- Sent when everything was acknowledged, a segment is the only one left. -/
theorem SendLog.Wf.unacked_push (h : log.Wf) (hdone : log.una = log.nxt)
    (hleft : (log.push s).Unacked s') : s' = s := by
  by_cases hunits : s.units = 0
  · rw [push_pure hunits] at hleft
    exact absurd hleft (h.none_unacked hdone)
  · rw [SendLog.push, if_neg hunits] at hleft
    obtain ⟨n, hmem, hlt⟩ := hleft
    rcases List.mem_append.mp hmem with hold | hnew
    · have hle := h.sent_le n s' hold
      replace hlt : log.una < n + s'.units := hlt
      omega
    · cases List.mem_singleton.mp hnew
      rfl

end Record

-- ---------------------------------------------------------------------------
-- What a segment does to the send side
-- ---------------------------------------------------------------------------

section Input

variable {clock : Nat → BitVec 64} {c : TcpConn} {s : TcpSeg}

/-- The send side is unchanged. -/
structure SameTx (c c' : TcpConn) : Prop where
  txSeq : c'.txSeq = c.txSeq := by rfl
  lastSeg : c'.lastSeg = c.lastSeg := by rfl
  state : c'.state = c.state := by rfl

/-- A step of a connection that sends at most acknowledgements. -/
structure PureStep (c : TcpConn) (r : TcpConn × List TcpOut) : Prop where
  txSeq : r.1.txSeq = c.txSeq
  state : r.1.state = c.state
  outs : ∀ o ∈ r.2, o.2.units = 0

theorem tcpSendSeg_ack_txSeq (now : BitVec 64) (c : TcpConn) :
    (tcpSendSeg now c tcpAck []).1.txSeq = c.txSeq := by
  show c.txSeq + BitVec.ofNat 32 0 + (if tcpAck &&& (tcpSyn ||| tcpFin) != 0 then 1 else 0) = _
  rw [if_neg (by decide)]
  simp

theorem seg_ack_units (c : TcpConn) : (c.seg tcpAck []).units = 0 := by
  show 0 + (if tcpAck &&& (tcpSyn ||| tcpFin) != 0 then 1 else 0) = 0
  decide

theorem tcpSendSeg_fin_txSeq (now : BitVec 64) (c : TcpConn) :
    (tcpSendSeg now c (tcpFin ||| tcpAck) []).1.txSeq = c.txSeq + 1 := by
  show c.txSeq + BitVec.ofNat 32 0 +
    (if (tcpFin ||| tcpAck) &&& (tcpSyn ||| tcpFin) != 0 then 1 else 0) = _
  rw [if_pos (by decide)]
  simp

theorem seg_fin_units (c : TcpConn) : (c.seg (tcpFin ||| tcpAck) []).units = 1 := by
  show 0 + (if (tcpFin ||| tcpAck) &&& (tcpSyn ||| tcpFin) != 0 then 1 else 0) = 1
  decide

theorem tcpDupAck_pure (now : BitVec 64) : PureStep c (tcpDupAck now c s) := by
  unfold tcpDupAck
  split
  · refine ⟨tcpSendSeg_ack_txSeq now c, rfl, fun o ho => ?_⟩
    rw [List.mem_singleton.mp ho]
    exact seg_ack_units c
  · exact ⟨rfl, rfl, fun _ ho => absurd ho List.not_mem_nil⟩

theorem tcpRxData_pure (now : BitVec 64) : PureStep c (tcpRxData now c s) := by
  unfold tcpRxData
  split
  · refine ⟨tcpSendSeg_ack_txSeq now _, rfl, fun o ho => ?_⟩
    rw [List.mem_singleton.mp ho]
    exact seg_ack_units _
  · exact ⟨rfl, rfl, fun _ ho => absurd ho List.not_mem_nil⟩

theorem PureStep.trans {c c' c'' : TcpConn} {os os' : List TcpOut} (h : PureStep c (c', os))
    (h' : PureStep c' (c'', os')) : PureStep c (c'', os ++ os') :=
  ⟨h'.txSeq.trans h.txSeq, h'.state.trans h.state, fun o ho =>
    (List.mem_append.mp ho).elim (h.outs o) (h'.outs o)⟩

/-- What a segment of the connection may do: end the handshake, close the connection or
change nothing without an answer, acknowledge, or acknowledge and send a FIN. -/
inductive InputKind (c : TcpConn) (s : TcpSeg) (r : TcpConn × List TcpOut) : Prop where
  | handshake (hends : endsHandshake c s) (hflag : s.has tcpAck)
      (htx : r.1.txSeq = c.txSeq ∨ r.1.txSeq = s.ack) (hout : ∀ o ∈ r.2, o.2.units = 0)
  | silent (hout : r.2 = []) (htx : r.1.txSeq = c.txSeq)
      (hconn : SameTx c r.1 ∨ r.1.state = .closed)
  | acks (hans : answers c s) (hout : ∀ o ∈ r.2, o.2.units = 0) (htx : r.1.txSeq = c.txSeq)
  | fin (hans : answers c s) (acks : List TcpOut) (o : TcpOut) (hacks : ∀ o ∈ acks, o.2.units = 0)
      (hout : r.2 = acks ++ [o]) (hunits : o.2.units = 1) (htx : r.1.txSeq = c.txSeq + 1)
      (hlast : r.1.lastSeg = some o.2 ∨ r.1.state = .closed)

theorem tcpRxLastAck_tx : (tcpRxLastAck c s).txSeq = c.txSeq ∧
    (tcpRxLastAck c s = c ∨ (tcpRxLastAck c s).state = .closed) := by
  unfold tcpRxLastAck
  split
  · exact ⟨rfl, .inr rfl⟩
  · exact ⟨rfl, .inl rfl⟩

/-- The FIN of the peer is acknowledged, in ESTABLISHED with our FIN after it. -/
theorem tcpRxFin_tx (ackTime finTime : BitVec 64) :
    ((tcpRxFin ackTime finTime c s).1.txSeq = c.txSeq ∧
        ∀ o ∈ (tcpRxFin ackTime finTime c s).2, o.2.units = 0) ∨
      (s.has tcpFin ∧ ∃ ack fin, ack.2.units = 0 ∧ fin.2.units = 1 ∧
        (tcpRxFin ackTime finTime c s).2 = [ack, fin] ∧
        (tcpRxFin ackTime finTime c s).1.txSeq = c.txSeq + 1 ∧
        (tcpRxFin ackTime finTime c s).1.lastSeg = some fin.2) := by
  have hpure : ∀ o ∈ [(tcpSendSeg ackTime { c with rxSeq := c.rxSeq + 1 } tcpAck []).2],
      o.2.units = 0 := by
    intro o ho
    rw [List.mem_singleton.mp ho]
    exact seg_ack_units _
  have htx : (tcpSendSeg ackTime { c with rxSeq := c.rxSeq + 1 } tcpAck []).1.txSeq = c.txSeq :=
    tcpSendSeg_ack_txSeq ackTime _
  unfold tcpRxFin
  split
  · rename_i hfin
    dsimp only
    split
    · refine .inr ⟨hfin, _, _, hpure _ List.mem_cons_self, ?_, rfl, ?_, rfl⟩
      · exact seg_fin_units _
      · exact (tcpSendSeg_fin_txSeq finTime _).trans (congrArg (· + 1) htx)
    · exact .inl ⟨htx, hpure⟩
    · exact .inl ⟨htx, hpure⟩
    · exact .inl ⟨htx, hpure⟩
  · exact .inl ⟨rfl, fun _ ho => absurd ho List.not_mem_nil⟩

/-- A segment in a state that looks at payloads. -/
theorem tcpInput_receives (hstate : c.state.Receives) : InputKind c s (tcpInput clock c s) := by
  have hsyn : c.state ≠ .synSent := by rintro he; rw [he] at hstate; exact absurd hstate (by decide)
  have hrcv : c.state ≠ .synReceived := by
    rintro he; rw [he] at hstate; exact absurd hstate (by decide)
  have hdup := tcpDupAck_pure (c := c) (s := s) (clock 0)
  have hdata := hdup.trans (tcpRxData_pure (s := s) (clock 1))
  rw [tcpInput, if_neg (fun h => hsyn h.1), if_neg (fun h => hrcv h.1), if_pos hstate]
  dsimp only
  by_cases hans : answers c s
  · split
    · exact .acks hans hdup.outs hdup.txSeq
    · obtain ⟨hlast, hclosed⟩ := tcpRxLastAck_tx (s := s)
        (c := (tcpRxFin (clock 2) (clock 3)
          (tcpRxData (clock 1) (tcpDupAck (clock 0) c s).1 s).1 s).1)
      rcases tcpRxFin_tx (clock 2) (clock 3)
          (c := (tcpRxData (clock 1) (tcpDupAck (clock 0) c s).1 s).1) (s := s) with
        ⟨htx, hpure⟩ | ⟨-, ack, fin, hack, hfin, hout, htx, hseg⟩
      · refine .acks hans (fun o ho => ?_) (hlast.trans (htx.trans hdata.txSeq))
        exact (List.mem_append.mp ho).elim (hdata.outs o) (hpure o)
      · refine .fin hans
          ((tcpDupAck (clock 0) c s).2 ++
            (tcpRxData (clock 1) (tcpDupAck (clock 0) c s).1 s).2 ++ [ack]) fin ?_ ?_ hfin ?_ ?_
        · intro o ho
          rcases List.mem_append.mp ho with ho | ho
          · exact hdata.outs o ho
          · rw [List.mem_singleton.mp ho]
            exact hack
        · rw [hout, List.append_assoc _ [ack] [fin]]
          rfl
        · exact hlast.trans (htx.trans (congrArg (· + 1) hdata.txSeq))
        · rcases hclosed with hsame | hclosed
          · exact .inl ((congrArg TcpConn.lastSeg hsame).trans hseg)
          · exact .inr hclosed
  · -- nothing is answered: no step of the handler does anything but the last
    have hdupne : ¬ (s.seq ≠ c.rxSeq ∧ s.has tcpAck) := fun h => hans ⟨hstate, .inl h⟩
    have hfinne : ¬ s.has tcpFin := fun h => hans ⟨hstate, .inr (.inr h)⟩
    rw [tcpDupAck, if_neg hdupne]
    split
    · exact .silent rfl rfl (.inl {})
    · rename_i hseq
      have hnext : s.seq = c.rxSeq := by
        by_contra hne
        exact hseq ⟨hne, hfinne⟩
      have hdatane : ¬ (0 < s.payload.length ∧ s.has (tcpPsh ||| tcpAck)) := fun h =>
        hans ⟨hstate, .inr (.inl ⟨hnext, h⟩)⟩
      rw [tcpRxData, if_neg hdatane, tcpRxFin, if_neg hfinne]
      obtain ⟨hlast, hsame | hclosed⟩ := tcpRxLastAck_tx (c := c) (s := s)
      · exact .silent rfl hlast (.inl (by rw [hsame]; exact {}))
      · exact .silent rfl hlast (.inr hclosed)

/-- **What a segment does.** -/
theorem tcpInput_kind : InputKind c s (tcpInput clock c s) := by
  by_cases hstate : c.state.Receives
  · exact tcpInput_receives hstate
  · rw [tcpInput]
    split
    · rename_i h
      refine .handshake (.inl h) h.2.2 (.inr (tcpSendSeg_ack_txSeq (clock 0) _)) fun o ho => ?_
      rw [List.mem_singleton.mp ho]
      exact seg_ack_units _
    · split
      · rename_i h
        exact .handshake (.inr h) h.2 (.inl rfl) fun _ ho => absurd ho List.not_mem_nil
      · obtain ⟨hlast, hsame | hclosed⟩ := tcpRxLastAck_tx (c := c) (s := s)
        · exact .silent rfl hlast (.inl (by rw [hsame]; exact {}))
        · exact .silent rfl hlast (.inr hclosed)

end Input

-- ---------------------------------------------------------------------------
-- The other segments and the timer
-- ---------------------------------------------------------------------------

section Table

variable {clock : Nat → BitVec 64} {t : Tcp} {i : Fin tcpMaxConns} {src : Ipv4Addr}
  {data : List UInt8} {s : TcpSeg}

theorem SameTx.refl (c : TcpConn) : SameTx c c := {}

/-- A segment of another connection, or a request that does not take the slot. -/
theorem tcpHandle_same (hparse : tcpParse data = some s)
    (hother : ¬ (findConn t src s.srcPort s.dstPort = some i ∧ ¬ s.Opens))
    (hslot : s.Opens → allocConnSlot t ≠ some i) :
    SameTx (t.conns i) ((tcpHandle clock t src data).1.conns i) := by
  unfold tcpHandle
  rw [hparse]
  dsimp only
  by_cases hopens : s.Opens
  · obtain ⟨hrst, hsyn, hack⟩ := id hopens
    rw [if_neg (by rw [hrst]; exact Bool.false_ne_true),
      if_pos ⟨hsyn, by rw [hack]; exact Bool.false_ne_true⟩]
    cases findListener t s.dstPort with
    | none => exact .refl _
    | some listener =>
      cases halloc : allocConnSlot t with
      | none => exact .refl _
      | some slot =>
        have hne : i ≠ slot := by rintro rfl; exact hslot hopens halloc
        dsimp only
        by_cases hi : i = listener
        · subst hi
          rw [setConn_conns_self, setConn_conns_ne t _ hne]
          exact {}
        · rw [setConn_conns_ne _ _ hi, setConn_conns_ne t _ hne]
          exact .refl _
  · have hfind : findConn t src s.srcPort s.dstPort ≠ some i := fun h => hother ⟨h, hopens⟩
    have hkeep : ∀ j c, findConn t src s.srcPort s.dstPort = some j →
        SameTx (t.conns i) ((t.setConn j c).conns i) := by
      intro j c hj
      rw [setConn_conns_ne t _ (by rintro rfl; exact hfind hj)]
      exact .refl _
    cases hj : findConn t src s.srcPort s.dstPort with
    | none =>
      split
      · exact .refl _
      · split
        · rename_i hrst hreq
          exact absurd ⟨Bool.eq_false_iff.mpr hrst, hreq.1, Bool.eq_false_iff.mpr hreq.2⟩ hopens
        · exact .refl _
    | some j =>
      split
      · exact hkeep j _ hj
      · split
        · rename_i hrst hreq
          exact absurd ⟨Bool.eq_false_iff.mpr hrst, hreq.1, Bool.eq_false_iff.mpr hreq.2⟩ hopens
        · exact hkeep j _ hj

/-- A segment that is none. -/
theorem tcpHandle_noParse (hparse : tcpParse data = none) : tcpHandle clock t src data = (t, []) := by
  rw [tcpHandle, hparse]

/-- The timer sends only what `last_seg` holds. -/
theorem tcpTickConn_tx (now : BitVec 64) (c : TcpConn) :
    (tcpTickConn now c).1.txSeq = c.txSeq ∧
    ((tcpTickConn now c).1.state = .closed ∨ SameTx c (tcpTickConn now c).1) ∧
    (∀ o ∈ (tcpTickConn now c).2, c.state ≠ .closed ∧ c.lastSeg = some o.2 ∧ c.due now) ∧
    (c.state ≠ .closed → (tcpTickConn now c).1.state = .closed → c.lastSeg ≠ none ∧ c.due now) := by
  have hnone : ∀ o ∈ ([] : List TcpOut), c.state ≠ .closed ∧ c.lastSeg = some o.2 ∧ c.due now :=
    fun _ ho => absurd ho List.not_mem_nil
  unfold tcpTickConn
  split
  · exact ⟨rfl, .inr {}, hnone, fun hopen h => absurd h hopen⟩
  · split
    · exact ⟨rfl, .inr {}, hnone, fun hopen h => absurd h hopen⟩
    · rename_i hopen
      split
      · exact ⟨rfl, .inr {}, hnone, fun _ h => absurd h hopen⟩
      · rename_i seg hseg
        split
        · rename_i hdue
          split
          · exact ⟨rfl, .inl rfl, hnone, fun _ _ =>
              ⟨by rw [hseg]; exact Option.some_ne_none seg, hdue⟩⟩
          · refine ⟨rfl, .inr {}, fun o ho => ?_, fun _ h => absurd h hopen⟩
            rw [List.mem_singleton.mp ho]
            exact ⟨hopen, hseg, hdue⟩
        · exact ⟨rfl, .inr {}, hnone, fun _ h => absurd h hopen⟩

end Table

-- ---------------------------------------------------------------------------
-- Steps
-- ---------------------------------------------------------------------------

/-- The invariant of a run: `tx_seq` is the number of the next position. -/
structure ResendInv (base : BitVec 32) (i : Fin tcpMaxConns) (s : Resend) : Prop where
  txSeq : (s.tcp.conns i).txSeq = base + BitVec.ofNat 32 s.log.nxt
  log : s.log.Wf
  available : Available i s

section Step

variable {base : BitVec 32} {i : Fin tcpMaxConns} {s : Resend} {t : Tcp} {log : SendLog}

/-- A step that leaves the send side alone or closes the connection. -/
theorem ResendInv.keep (h : ResendInv base i s)
    (htx : (t.conns i).txSeq = (s.tcp.conns i).txSeq)
    (hconn : SameTx (s.tcp.conns i) (t.conns i) ∨ (t.conns i).state = .closed) :
    ResendInv base i ⟨t, s.log⟩ where
  txSeq := htx.trans h.txSeq
  log := h.log
  available seg hleft hopen := by
    rcases hconn with hsame | hclosed
    · replace hopen : (t.conns i).state ≠ .closed := hopen
      rw [hsame.state] at hopen
      exact hsame.lastSeg.trans (h.available seg hleft hopen)
    · exact absurd hclosed hopen

theorem ResendInv.ack (h : ResendInv base i s) (seg : TcpSeg) :
    ResendInv base i ⟨s.tcp, s.log.ack base seg⟩ where
  txSeq := by
    show (s.tcp.conns i).txSeq = base + BitVec.ofNat 32 (s.log.ack base seg).nxt
    rw [ack_nxt]
    exact h.txSeq
  log := h.log.ack
  available seg' hleft hopen := h.available seg' hleft.of_ack hopen

/-- A step that sends one segment when everything was acknowledged. -/
theorem ResendInv.send (hlog : log.Wf) (hdone : log.una = log.nxt) {seg : TcpSeg}
    (hw : seg.units < 2 ^ 32)
    (htx : (t.conns i).txSeq = base + BitVec.ofNat 32 (log.nxt + seg.units))
    (hlast : (t.conns i).lastSeg = some seg ∨ (t.conns i).state = .closed) :
    ResendInv base i ⟨t, log.push seg⟩ where
  txSeq := by
    show (t.conns i).txSeq = base + BitVec.ofNat 32 (log.push seg).nxt
    rw [push_nxt]
    exact htx
  log := hlog.push hdone hw
  available seg' hleft hopen := by
    rw [hlog.unacked_push hdone hleft]
    exact hlast.resolve_right hopen

/-- A step after which nothing is left to acknowledge. -/
theorem ResendInv.done (hlog : log.Wf) (hdone : log.una = log.nxt)
    (htx : (t.conns i).txSeq = base + BitVec.ofNat 32 log.nxt) : ResendInv base i ⟨t, log⟩ :=
  ⟨htx, hlog, fun _ hleft _ => absurd hleft (hlog.none_unacked hdone)⟩

/-- A segment of the connection. -/
theorem ResendInv.input (h : ResendInv base i s) (clock : Nat → BitVec 64) {seg : TcpSeg}
    (hends : endsHandshake (s.tcp.conns i) seg → seg.ack = (s.tcp.conns i).txSeq)
    (hans : answers (s.tcp.conns i) seg → (s.log.ack base seg).una = s.log.nxt) :
    ResendInv base i ⟨s.tcp.setConn i (tcpInput clock (s.tcp.conns i) seg).1,
      (s.log.ack base seg).pushAll (tcpInput clock (s.tcp.conns i) seg).2⟩ := by
  have hlog : (s.log.ack base seg).Wf := h.log.ack
  have hnxt : (s.log.ack base seg).nxt = s.log.nxt := ack_nxt
  have hkind : InputKind (s.tcp.conns i) seg (tcpInput clock (s.tcp.conns i) seg) := tcpInput_kind
  cases hkind with
  | handshake hend hflag htx hout =>
    rw [pushAll_pure hout]
    have hack := (hends hend).trans h.txSeq
    refine .done hlog (by rw [hnxt]; exact h.log.ack_end hflag hack) ?_
    rw [setConn_conns_self, hnxt]
    exact htx.elim (fun hsame => hsame.trans h.txSeq) (fun hsame => hsame.trans hack)
  | silent hout htx hconn =>
    rw [hout]
    refine (h.ack seg).keep ?_ ?_
    · rw [setConn_conns_self]
      exact htx
    · rw [setConn_conns_self]
      exact hconn
  | acks hanswer hout htx =>
    rw [pushAll_pure hout]
    refine .done hlog (by rw [hnxt]; exact hans hanswer) ?_
    rw [setConn_conns_self, hnxt]
    exact htx.trans h.txSeq
  | fin hanswer acks o hacks hout hunits htx hlast =>
    rw [hout, pushAll_append, pushAll_pure hacks]
    refine .send hlog (by rw [hnxt]; exact hans hanswer) (by rw [hunits]; decide) ?_ ?_
    · rw [setConn_conns_self, htx, h.txSeq, hnxt, hunits, BitVec.ofNat_add, BitVec.add_assoc]
      rfl
    · rw [setConn_conns_self]
      exact hlast

theorem ResendInv.segment (h : ResendInv base i s) {peer : Ipv4Addr} {clock : Nat → BitVec 64}
    {data : List UInt8} (hok : resendAllowed base i peer s (.segment clock data)) :
    ResendInv base i (resendStep base i peer s (.segment clock data)) := by
  unfold resendStep
  rw [SendLog.record, ResendOp.toOp, tcpStep, tcpSegment]
  cases hparse : tcpParse data with
  | none =>
    rw [tcpHandle_noParse hparse]
    exact h
  | some seg =>
    dsimp only
    obtain ⟨hslot, hin⟩ := hok seg hparse
    by_cases hfound : findConn s.tcp peer seg.srcPort seg.dstPort = some i ∧ ¬ seg.Opens
    · obtain ⟨hfind, hopens⟩ := hfound
      have hsyn : seg.has tcpRst = false → seg.has tcpSyn → seg.has tcpAck := by
        intro hrst hflag
        by_contra hack
        exact hopens ⟨hrst, hflag, Bool.eq_false_iff.mpr hack⟩
      rw [if_pos ⟨hfind, hopens⟩, tcpHandle_found hparse hfind hsyn, tcpFound]
      cases hrst : seg.has tcpRst with
      | true =>
        refine (h.ack seg).keep ?_ (.inr ?_)
        · rw [setConn_conns_self]
          rfl
        · rw [setConn_conns_self]
          rfl
      | false =>
        obtain ⟨hends, hans⟩ := hin hfind hrst hopens
        exact h.input clock hends hans
    · rw [if_neg hfound]
      have hsame : SameTx (s.tcp.conns i) ((tcpHandle clock s.tcp peer data).1.conns i) :=
        tcpHandle_same hparse hfound hslot
      exact h.keep hsame.txSeq (.inl hsame)

/-- `tcp_send_conn` in ESTABLISHED. -/
theorem seg_data_units (c : TcpConn) (data : List UInt8) :
    (c.seg (tcpPsh ||| tcpAck) data).units = data.length := by
  show data.length + (if (tcpPsh ||| tcpAck) &&& (tcpSyn ||| tcpFin) != 0 then 1 else 0) = _
  rw [if_neg (by decide)]
  rfl

theorem tcpSendSeg_data_txSeq (now : BitVec 64) (c : TcpConn) (data : List UInt8) :
    (tcpSendSeg now c (tcpPsh ||| tcpAck) data).1.txSeq =
      c.txSeq + BitVec.ofNat 32 data.length := by
  show c.txSeq + BitVec.ofNat 32 data.length +
    (if (tcpPsh ||| tcpAck) &&& (tcpSyn ||| tcpFin) != 0 then 1 else 0) = _
  rw [if_neg (by decide)]
  simp

theorem ResendInv.sendConn (h : ResendInv base i s) {peer : Ipv4Addr} {now : BitVec 64}
    {data : List UInt8} (hok : resendAllowed base i peer s (.send now data)) :
    ResendInv base i (resendStep base i peer s (.send now data)) := by
  unfold resendStep
  rw [SendLog.record, ResendOp.toOp, tcpStep, tcpSendConn]
  by_cases hstate : (s.tcp.conns i).state = .established
  · have hlen : (data.take 1400).length < 2 ^ 32 := by
      rw [List.length_take]
      omega
    have hunits : (tcpSendSeg now (s.tcp.conns i) (tcpPsh ||| tcpAck) (data.take 1400)).2.2.units =
        (data.take 1400).length := seg_data_units _ _
    rw [if_neg (fun hne => hne hstate)]
    refine .send h.log (hok hstate) (by rw [hunits]; exact hlen) ?_ (.inl ?_)
    · rw [setConn_conns_self, tcpSendSeg_data_txSeq, h.txSeq, hunits, BitVec.ofNat_add,
        BitVec.add_assoc]
    · rw [setConn_conns_self]
      rfl
  · rw [if_pos hstate]
    refine h.keep ?_ (.inl ?_)
    · rw [setConn_conns_self]
    · rw [setConn_conns_self]
      exact .refl _

/-- **One step keeps the record.** -/
theorem resendStep_inv (h : ResendInv base i s) {peer : Ipv4Addr} (op : ResendOp)
    (hok : resendAllowed base i peer s op) : ResendInv base i (resendStep base i peer s op) := by
  cases op with
  | segment clock data => exact h.segment hok
  | send now data => exact h.sendConn hok
  | tick now =>
    obtain ⟨htx, hconn, -, -⟩ := tcpTickConn_tx now (s.tcp.conns i)
    exact h.keep htx hconn.symm

/-- When the timer of a connection runs out, something is left to acknowledge. -/
theorem ResendInv.left (h : ResendInv base i s) {peer : Ipv4Addr} {now : BitVec 64}
    (hok : resendAllowed base i peer s (.tick now)) (hlast : (s.tcp.conns i).lastSeg ≠ none)
    (hdue : (s.tcp.conns i).due now) : s.log.una < s.log.nxt :=
  lt_of_le_of_ne h.log.una_le fun hdone => hok hdone hlast hdue

theorem ResendInv.law (h : ResendInv base i s) {peer : Ipv4Addr} (op : ResendOp)
    (hok : resendAllowed base i peer s op) : ResendLaw i s op where
  available := h.available
  resends := by
    rintro now rfl o ho
    obtain ⟨hopen, hlast, hdue⟩ := (tcpTickConn_tx now (s.tcp.conns i)).2.2.1 o ho
    have hleft := h.left hok (by rw [hlast]; exact Option.some_ne_none _) hdue
    obtain ⟨seg, hseg⟩ := h.log.exists_unacked hleft
    rw [h.available seg hseg hopen] at hlast
    rw [← Option.some.inj hlast]
    exact hseg
  aborts := by
    rintro now rfl hopen hclosed
    obtain ⟨hlast, hdue⟩ := (tcpTickConn_tx now (s.tcp.conns i)).2.2.2 hopen hclosed
    exact h.left hok hlast hdue

theorem ResendStart.inv (h : ResendStart base i s) : ResendInv base i s := by
  rcases h with ⟨hlog, htx⟩ | ⟨seg, hpos, hw, hlast, hlog, htx⟩
  · refine ⟨?_, ?_, ?_⟩
    · rw [hlog, htx]
      simp
    · rw [hlog]
      exact ⟨Nat.le_refl _, by decide, fun _ _ hmem => absurd hmem List.not_mem_nil, .inl rfl⟩
    · rintro seg ⟨n, hmem, -⟩
      rw [hlog] at hmem
      exact absurd hmem List.not_mem_nil
  · have hmem : ∀ {n s'}, (n, s') ∈ s.log.sent → n = 0 ∧ s' = seg := by
      intro n s' hmem
      rw [hlog] at hmem
      exact Prod.mk.inj (List.mem_singleton.mp hmem)
    refine ⟨?_, ?_, ?_⟩
    · rw [hlog]
      exact htx
    · refine ⟨?_, ?_, ?_, .inr ⟨0, seg, ?_, ?_⟩⟩
      · rw [hlog]
        exact Nat.zero_le _
      · rw [hlog]
        exact hw
      · intro n s' hin
        obtain ⟨rfl, rfl⟩ := hmem hin
        rw [hlog]
        exact Nat.le_of_eq (Nat.zero_add _)
      · rw [hlog]
        exact List.mem_singleton.mpr rfl
      · rw [hlog]
        exact Nat.zero_add _
    · rintro s' ⟨n, hin, -⟩ -
      rw [(hmem hin).2]
      exact hlast

end Step

/-- **What is sent and not acknowledged can be sent again, nothing else is sent again, and a
connection with everything acknowledged is not aborted.** -/
theorem tcp_resends_unacked (base : BitVec 32) (i : Fin tcpMaxConns) (peer : Ipv4Addr)
    (s : Resend) (ops : List ResendOp) (hstart : ResendStart base i s)
    (hok : Run.Allowed (resendStep base i peer) (resendAllowed base i peer) s ops) :
    Run.Allowed (resendStep base i peer) (fun s op => ResendLaw i s op) s ops ∧
      Available i (Run.run (resendStep base i peer) s ops) :=
  ⟨Run.allowed_of_inv (I := ResendInv base i)
      (fun _ op h hop => ⟨resendStep_inv h op hop, h.law op hop⟩) ops s hstart.inv hok,
    (Run.inv_run (I := ResendInv base i) (fun _ op h hop => resendStep_inv h op hop) ops s
      hstart.inv hok).available⟩

/-- A connection in slot 1 from 10.0.0.1, port 1000, to port 80, with nothing sent yet. -/
def idleConn : Resend where
  tcp := tcpInit.setConn ⟨1, one_lt_tcpMaxConns⟩ { zeroConn.client (.v4 0x0A000001) 1000 80 0 with
    state := .established, rxSeq := 1 }
  log := ⟨0, 0, []⟩

def peerSegment (ack : BitVec 32) (flags : BitVec 16) (payload : List UInt8) : TcpSeg :=
  ⟨1000, 80, 1, ack, flags, payload⟩

def peerSegmentOp (ack : BitVec 32) (flags : BitVec 16) (payload : List UInt8) : ResendOp :=
  .segment (fun _ => 0) (tcpSegBytes 0 (peerSegment ack flags payload))

theorem idleConn_start : ResendStart 0x12345 ⟨1, by decide⟩ idleConn :=
  .inl ⟨rfl, by decide⟩

/-- Two bytes are sent, sent again and acknowledged. -/
def sendTwo : List ResendOp :=
  [.send 0 [1, 2], .tick 3000, peerSegmentOp 0x12347 tcpAck [], .tick 3001]

theorem tcp_resends_unacked_two :
    Run.Allowed (resendStep 0x12345 ⟨1, by decide⟩ 0x0A000001)
      (fun s op => ResendLaw ⟨1, by decide⟩ s op) idleConn sendTwo ∧
    Available ⟨1, by decide⟩ (Run.run (resendStep 0x12345 ⟨1, by decide⟩ 0x0A000001) idleConn
      sendTwo) := by
  have hparse : tcpParse (tcpSegBytes 0 (peerSegment 0x12347 tcpAck []))
      = some (peerSegment 0x12347 tcpAck []) := tcpParse_segBytes 0 _ (by decide)
  refine tcp_resends_unacked _ _ _ _ _ idleConn_start ⟨fun _ => rfl, ?_, ?_, ?_, trivial⟩
  · intro hdone
    exact absurd hdone (by decide)
  · intro seg hseg
    obtain rfl := Option.some.inj (hparse.symm.trans hseg)
    refine ⟨fun hopens => absurd hopens (by decide), fun _ _ _ => ⟨fun _ => ?_, fun _ => ?_⟩⟩
    · decide
    · decide
  · intro _ _
    decide

/-- A byte comes in and is acknowledged; then only the timer runs. -/
def idleTicks : List ResendOp :=
  peerSegmentOp 0x12345 (tcpPsh ||| tcpAck) [7] ::
    [2000, 6000, 14000, 30000, 62000, 94000].map .tick

theorem idle_connection_aborts : ResendStart 0x12345 ⟨1, by decide⟩ idleConn ∧
    ¬ Run.Allowed (resendStep 0x12345 ⟨1, by decide⟩ 0x0A000001)
      (fun s op => ResendLaw ⟨1, by decide⟩ s op) idleConn idleTicks := by
  refine ⟨idleConn_start, fun h => ?_⟩
  obtain ⟨-, -, -, -, -, -, hlaw, -⟩ := h
  have hleft := hlaw.aborts 94000 rfl (by decide) (by decide)
  exact absurd hleft (by decide)

end Lestra
