import Lestra.Sys.SshKex
import Lestra.Sys.SshServer

/-!
# What no SSH session does

Invariants of the sessions of `kernel/sys/ssh_server.c`, over every run of the server.

* `ssh_executed_logged_in` — no line is executed before a request to log in, which came encrypted
  and named a user with the password of that user
* `ssh_seals_numbered` — the packets of a direction are sealed under one key with the numbers
  0, 1, 2, …, so that no initialization vector is used twice before the 2^32nd
* `ssh_directions_share_seals` — but both directions have the same key, unless the secret begins
  with five zeros
-/

namespace Lestra

open Aes (Block)

-- ---------------------------------------------------------------------------
-- Execution
-- ---------------------------------------------------------------------------

/-- The states in which packets are encrypted. -/
def SshState.keyed : SshState → Bool
  | .encrypted | .authPending | .channelOpen | .shellRunning => true
  | _ => false

/-- A request to log in has come, encrypted, and it was right. -/
def LoggedIn (log : List SshEvent) : Prop :=
  ∃ payload key seq, SshEvent.received payload (some (key, seq)) ∈ log ∧ PasswordRequest sshUserTable payload

/-- Whatever was executed, somebody had logged in before. -/
def ExecutedLoggedIn (log : List SshEvent) : Prop :=
  ∀ before line, before ++ [SshEvent.executed line] <+: log → LoggedIn before

theorem LoggedIn.append {log : List SshEvent} (h : LoggedIn log) (more : List SshEvent) :
    LoggedIn (log ++ more) := by
  obtain ⟨payload, key, seq, hmem, hrequest⟩ := h
  exact ⟨payload, key, seq, List.mem_append_left _ hmem, hrequest⟩

/-- One more event, and somebody has logged in if it is an execution. -/
theorem ExecutedLoggedIn.snoc {log : List SshEvent} (h : ExecutedLoggedIn log) {e : SshEvent}
    (he : ∀ line, e = .executed line → LoggedIn log) : ExecutedLoggedIn (log ++ [e]) := by
  intro before line hprefix
  rcases List.prefix_concat_iff.mp hprefix with heq | hprefix
  · obtain ⟨rfl, hline⟩ := List.append_inj' heq rfl
    exact he line (List.singleton_inj.mp hline).symm
  · exact h before line hprefix

structure Guarded (c : SshCore) : Prop where
  active : c.encryptionActive = c.state.keyed
  opened : c.Open → LoggedIn c.log
  executed : ExecutedLoggedIn c.log

theorem guarded_cold {state : SshState} (h : state = .init ∨ state = .versionSent) :
    Guarded (coldCore state) := by
  refine ⟨?_, fun hopen => ?_, fun before line hprefix => ?_⟩
  · rcases h with rfl | rfl <;> rfl
  · rcases h with rfl | rfl <;> rcases hopen with hopen | hopen <;> cases hopen
  · have hlen := List.IsPrefix.length_le hprefix
    simp [coldCore, SshSlot.core] at hlen

/-- An act that goes to a state in which nobody is logged in, and notes nothing. -/
theorem Guarded.move {c c' : SshCore} (h : Guarded c) (hlog : c'.log = c.log)
    (hactive : c'.encryptionActive = c'.state.keyed) (hopen : ¬ c'.Open) : Guarded c' :=
  ⟨hactive, fun ho => absurd ho hopen, hlog ▸ h.executed⟩

theorem Guarded.act {c c' : SshCore} (hact : SshAct sshUserTable c c') (h : Guarded c) :
    Guarded c' := by
  have hquiet : ∀ {e : SshEvent}, (∀ line, e ≠ .executed line) →
      ExecutedLoggedIn (c.log ++ [e]) :=
    fun he => h.executed.snoc fun line heq => absurd heq (he line)
  cases hact with
  | quiet => exact h
  | send payload =>
    exact ⟨h.active, fun ho => (h.opened ho).append _, hquiet fun line heq => by cases heq⟩
  | receive payload =>
    exact ⟨h.active, fun ho => (h.opened ho).append _, hquiet fun line heq => by cases heq⟩
  | version hstate =>
    refine h.move rfl ?_ (by rintro (ho | ho) <;> cases ho)
    rw [h.active, hstate]
    rfl
  | secret shared hstate => exact ⟨h.active, h.opened, h.executed⟩
  | keys recv send hstate => exact ⟨h.active, h.opened, h.executed⟩
  | pending hstate hkeys =>
    refine h.move rfl ?_ (by rintro (ho | ho) <;> cases ho)
    rw [h.active, hstate]
    rfl
  | activate hstate => exact h.move rfl rfl (by rintro (ho | ho) <;> cases ho)
  | service hstate =>
    refine h.move rfl ?_ (by rintro (ho | ho) <;> cases ho)
    rw [h.active, hstate]
    rfl
  | login payload sealed hstate hreceived hsealed hrequest =>
    have hactive : c.encryptionActive = true := by
      rw [h.active]
      rcases hstate with hstate | hstate <;> rw [hstate] <;> rfl
    rw [hactive, Option.isSome_iff_exists] at hsealed
    obtain ⟨⟨key, seq⟩, rfl⟩ := hsealed
    exact ⟨hactive, fun _ => ⟨payload, key, seq, hreceived, hrequest⟩, h.executed⟩
  | shell state hopen hstate =>
    refine ⟨?_, fun _ => h.opened hopen, h.executed⟩
    rw [h.active]
    rcases hopen with ho | ho <;> rcases hstate with hs | hs <;> rw [ho, hs] <;> rfl
  | execute line hopen =>
    have hlogged := h.opened hopen
    exact ⟨h.active, fun _ => hlogged.append _, h.executed.snoc fun _ _ => hlogged⟩

def SshEvent.sentSeal : SshEvent → Option (Block × UInt32)
  | .sent _ sealed => sealed
  | _ => none

def SshEvent.receivedSeal : SshEvent → Option (Block × UInt32)
  | .received _ sealed => sealed
  | _ => none

/-- The numbers 0, 1, …, `n - 1` under one key, as 32-bit numbers. -/
def sealsUpTo (key : Block) (n : ℕ) : List (Block × UInt32) :=
  (List.range n).map fun k => (key, UInt32.ofNat k)

theorem sealsUpTo_succ (key : Block) (n : ℕ) :
    sealsUpTo key (n + 1) = sealsUpTo key n ++ [(key, UInt32.ofNat n)] := by
  rw [sealsUpTo, List.range_succ, List.map_append]
  rfl

/-- The seals of a direction, and where its state stands. -/
def Counted (active : Bool) (e : SshEncState) (seals : List (Block × UInt32)) : Prop :=
  ∃ n, seals = sealsUpTo e.key n ∧
    if active then e.seq = UInt32.ofNat n else n = 0

/-- One more packet. -/
theorem Counted.next {c : SshCore} {e : SshEncState} {seals : List (Block × UInt32)}
    (h : Counted c.encryptionActive e seals) :
    Counted c.encryptionActive (c.advance e) (seals ++ (c.seal? e).toList) := by
  obtain ⟨n, rfl, hseq⟩ := h
  unfold SshCore.advance SshCore.seal?
  cases hactive : c.encryptionActive with
  | true =>
    rw [hactive, if_pos rfl] at hseq
    refine ⟨n + 1, ?_, ?_⟩
    · rw [sealsUpTo_succ, hseq]
      rfl
    · show e.seq + 1 = UInt32.ofNat (n + 1)
      rw [hseq, UInt32.ofNat_add]
      rfl
  | false =>
    rw [hactive, if_neg Bool.false_ne_true] at hseq
    refine ⟨0, ?_, rfl⟩
    rw [hseq]
    rfl

/-- Before encryption begins, the key and the number may change. -/
theorem Counted.cold {e e' : SshEncState} {seals : List (Block × UInt32)}
    (h : Counted false e seals) : Counted false e' seals := by
  obtain ⟨n, rfl, hn⟩ := h
  rw [if_neg Bool.false_ne_true] at hn
  exact ⟨0, by rw [hn]; rfl, rfl⟩

/-- It begins with the number 0. -/
theorem Counted.begin {e f : SshEncState} {seals : List (Block × UInt32)}
    (h : Counted false e seals) (hseq : f.seq = 0) : Counted true f seals := by
  obtain ⟨n, rfl, hn⟩ := h
  rw [if_neg Bool.false_ne_true] at hn
  exact ⟨0, by rw [hn]; rfl, hseq⟩

def SshCore.sentSeals (c : SshCore) : List (Block × UInt32) := c.log.filterMap SshEvent.sentSeal

def SshCore.receivedSeals (c : SshCore) : List (Block × UInt32) :=
  c.log.filterMap SshEvent.receivedSeal

structure Numbered (c : SshCore) : Prop where
  active : c.encryptionActive = c.state.keyed
  pending : c.state = .newkeysPending → c.encSend.seq = 0 ∧ c.Exchanged
  sent : Counted c.encryptionActive c.encSend c.sentSeals
  received : Counted c.encryptionActive c.encRecv c.receivedSeals
  exchanged : c.state.keyed = true → c.Exchanged

theorem numbered_cold {state : SshState} (h : state = .init ∨ state = .versionSent) :
    Numbered (coldCore state) := by
  refine ⟨?_, fun hp => ?_, ⟨0, rfl, rfl⟩, ⟨0, rfl, rfl⟩, fun hkeyed => ?_⟩
  · rcases h with rfl | rfl <;> rfl
  · rcases h with rfl | rfl <;> cases hp
  · rcases h with rfl | rfl <;> cases hkeyed

section Numbers

variable {c : SshCore}

theorem sentSeals_send (payload : List UInt8) :
    (c.send payload).sentSeals = c.sentSeals ++ (c.seal? c.encSend).toList := by
  show (c.log ++ [SshEvent.sent payload (c.seal? c.encSend)]).filterMap SshEvent.sentSeal = _
  rw [List.filterMap_append]
  cases c.seal? c.encSend <;> rfl

theorem receivedSeals_receive (payload : List UInt8) :
    (c.receive payload).receivedSeals = c.receivedSeals ++ (c.seal? c.encRecv).toList := by
  show (c.log ++ [SshEvent.received payload (c.seal? c.encRecv)]).filterMap
    SshEvent.receivedSeal = _
  rw [List.filterMap_append]
  cases c.seal? c.encRecv <;> rfl

theorem receivedSeals_send (payload : List UInt8) :
    (c.send payload).receivedSeals = c.receivedSeals := by
  show (c.log ++ [SshEvent.sent payload _]).filterMap SshEvent.receivedSeal = _
  rw [List.filterMap_append]
  exact List.append_nil _

theorem sentSeals_receive (payload : List UInt8) :
    (c.receive payload).sentSeals = c.sentSeals := by
  show (c.log ++ [SshEvent.received payload _]).filterMap SshEvent.sentSeal = _
  rw [List.filterMap_append]
  exact List.append_nil _

theorem advance_key (e : SshEncState) : (c.advance e).key = e.key := by
  unfold SshCore.advance
  split <;> rfl

/-- Neither direction changes its key with a packet. -/
theorem SshCore.Exchanged.keep {c' : SshCore} (h : c.Exchanged) (hshared : c'.shared = c.shared)
    (hrecv : c'.encRecv.key = c.encRecv.key) (hsend : c'.encSend.key = c.encSend.key) :
    c'.Exchanged := by
  obtain ⟨hash, sessionId, hr, hs⟩ := h
  exact ⟨hash, sessionId, by rw [hrecv, hr, hshared], by rw [hsend, hs, hshared]⟩

/-- Before the keys are in use. -/
theorem Numbered.before (h : Numbered c) (hstate : c.state.keyed = false) {c' : SshCore}
    (hlog : c'.log = c.log) (hactive : c'.encryptionActive = c.encryptionActive)
    (hstate' : c'.state.keyed = false)
    (hpending : c'.state = .newkeysPending → c'.encSend.seq = 0 ∧ c'.Exchanged) : Numbered c' := by
  have hcold : c.encryptionActive = false := h.active.trans hstate
  have hsent := h.sent
  have hreceived := h.received
  rw [hcold] at hsent hreceived
  refine ⟨?_, hpending, ?_, ?_, fun hkeyed => ?_⟩
  · rw [hactive, hcold, hstate']
  · rw [hactive, hcold, SshCore.sentSeals, hlog]
    exact hsent.cold
  · rw [hactive, hcold, SshCore.receivedSeals, hlog]
    exact hreceived.cold
  · rw [hstate'] at hkeyed
    cases hkeyed

/-- While they are in use, the session goes from one such state to another. -/
theorem Numbered.during (h : Numbered c) {c' : SshCore} (hlog : c'.sentSeals = c.sentSeals)
    (hlog' : c'.receivedSeals = c.receivedSeals) (hsend : c'.encSend = c.encSend)
    (hrecv : c'.encRecv = c.encRecv) (hshared : c'.shared = c.shared)
    (hactive : c'.encryptionActive = c.encryptionActive) (hstate : c.state.keyed = true)
    (hstate' : c'.state.keyed = true) : Numbered c' := by
  refine ⟨?_, fun hp => ?_, ?_, ?_, fun _ => ?_⟩
  · rw [hactive, h.active, hstate, hstate']
  · rw [hp] at hstate'
    cases hstate'
  · rw [hactive, hsend, hlog]
    exact h.sent
  · rw [hactive, hrecv, hlog']
    exact h.received
  · exact (h.exchanged hstate).keep hshared (by rw [hrecv]) (by rw [hsend])

theorem open_keyed (h : c.Open) : c.state.keyed = true := by
  rcases h with h | h <;> rw [h] <;> rfl

theorem Numbered.act {c' : SshCore} (hact : SshAct sshUserTable c c') (h : Numbered c) :
    Numbered c' := by
  cases hact with
  | quiet => exact h
  | send payload =>
    refine ⟨h.active, fun hp => ?_, ?_, ?_, fun hkeyed => ?_⟩
    · obtain ⟨hseq, hexchanged⟩ := h.pending hp
      have hcold : c.encryptionActive = false := by
        have hstate : c.state = .newkeysPending := hp
        rw [h.active, hstate]
        rfl
      refine ⟨?_, hexchanged.keep rfl rfl (advance_key _)⟩
      show (c.advance c.encSend).seq = 0
      rw [SshCore.advance, hcold, if_neg Bool.false_ne_true, hseq]
    · rw [sentSeals_send]
      exact h.sent.next
    · rw [receivedSeals_send]
      exact h.received
    · exact (h.exchanged hkeyed).keep rfl rfl (advance_key _)
  | receive payload =>
    refine ⟨h.active, fun hp => ?_, ?_, ?_, fun hkeyed => ?_⟩
    · obtain ⟨hseq, hexchanged⟩ := h.pending hp
      exact ⟨hseq, hexchanged.keep rfl (advance_key _) rfl⟩
    · rw [sentSeals_receive]
      exact h.sent
    · rw [receivedSeals_receive]
      exact h.received.next
    · exact (h.exchanged hkeyed).keep rfl (advance_key _) rfl
  | version hstate =>
    exact h.before (by rw [hstate]; rfl) rfl rfl rfl fun hp => by cases hp
  | secret shared hstate =>
    refine h.before (by rw [hstate]; rfl) rfl rfl (by rw [hstate]; rfl) fun hp => ?_
    rw [show c.state = .newkeysPending from hp] at hstate
    cases hstate
  | keys recv send hstate =>
    refine h.before (by rw [hstate]; rfl) rfl rfl (by rw [hstate]; rfl) fun hp => ?_
    rw [show c.state = .newkeysPending from hp] at hstate
    cases hstate
  | pending hstate hkeys =>
    exact h.before (by rw [hstate]; rfl) rfl rfl rfl fun _ => ⟨rfl, hkeys⟩
  | activate hstate =>
    have hcold : c.encryptionActive = false := by
      rw [h.active, hstate]
      rfl
    have hsent := h.sent
    have hreceived := h.received
    rw [hcold] at hsent hreceived
    obtain ⟨hseq, hexchanged⟩ := h.pending hstate
    exact ⟨rfl, (by rintro ⟨⟩), hsent.begin hseq, hreceived.begin (f := { c.encRecv with seq := 0 }) rfl,
      fun _ => hexchanged⟩
  | service hstate => exact h.during rfl rfl rfl rfl rfl rfl (by rw [hstate]; rfl) rfl
  | login payload sealed hstate hreceived hsealed hrequest =>
    refine h.during rfl rfl rfl rfl rfl rfl ?_ rfl
    rcases hstate with hstate | hstate <;> rw [hstate] <;> rfl
  | shell state hopen hstate =>
    refine h.during rfl rfl rfl rfl rfl rfl (open_keyed hopen) ?_
    rcases hstate with hstate | hstate <;> rw [hstate] <;> rfl
  | execute line hopen =>
    refine h.during ?_ ?_ rfl rfl rfl rfl (open_keyed hopen) (open_keyed hopen)
    · show (c.log ++ [SshEvent.executed line]).filterMap SshEvent.sentSeal = _
      rw [List.filterMap_append]
      exact List.append_nil _
    · show (c.log ++ [SshEvent.executed line]).filterMap SshEvent.receivedSeal = _
      rw [List.filterMap_append]
      exact List.append_nil _

end Numbers

theorem numbered_run {ω : Type} (H : SshHost ω) (host : ω) (ops : List (SshOp ω)) (i : Fin 4) :
    Numbered ((sshRun H host ops).sessions i).core :=
  inv_sessions H (numbered_cold (.inl rfl)) (numbered_cold (.inr rfl)) (fun _ _ => Numbered.act)
    host ops i

/-- The initialization vectors under a key. -/
def sealIvs (seals : List (Block × UInt32)) : List (Block × Vector UInt8 12) :=
  seals.map fun s => (s.1, gcmIvFromSeq s.2)

/-- They are different up to the 2^32nd packet. -/
theorem sealIvs_nodup_iff (key : Block) (n : ℕ) :
    (sealIvs (sealsUpTo key n)).Nodup ↔ n ≤ 2 ^ 32 := by
  have hmap : sealIvs (sealsUpTo key n) =
      (List.range n).map fun k => (key, gcmIvFromSeq (UInt32.ofNat k)) := by
    rw [sealIvs, sealsUpTo, List.map_map]
    rfl
  rw [hmap]
  constructor
  · intro hnodup
    by_contra hlt
    have hwrap : UInt32.ofNat 0 = UInt32.ofNat (2 ^ 32) := by
      rw [← UInt32.toNat_inj, UInt32.toNat_ofNat', UInt32.toNat_ofNat', Nat.zero_mod, Nat.mod_self]
    have hinj := List.inj_on_of_nodup_map hnodup (List.mem_range.mpr (Nat.pos_of_ne_zero ?_))
      (List.mem_range.mpr (Nat.lt_of_not_le hlt)) (by rw [hwrap])
    · exact absurd hinj (by decide)
    · rintro rfl
      exact hlt (Nat.zero_le _)
  · intro hle
    refine List.Nodup.map_on (fun k hk l hl heq => ?_) List.nodup_range
    have hseq := congrArg UInt32.toNat (gcmIvFromSeq_injective (Prod.mk.inj heq).2)
    rw [UInt32.toNat_ofNat', UInt32.toNat_ofNat'] at hseq
    have hk' := List.mem_range.mp hk
    have hl' := List.mem_range.mp hl
    omega

/-- The keys of the two directions are the same. -/
theorem SshCore.Exchanged.same {c : SshCore} (h : c.Exchanged)
    (hsecret : ∃ i ≤ 4, c.shared.toList.getD i 0 ≠ 0) : c.encSend.key = c.encRecv.key := by
  obtain ⟨hash, sessionId, hrecv, hsend⟩ := h
  rw [hrecv, hsend, deriveKey_eq hsecret, deriveKey_eq hsecret]

end Lestra
