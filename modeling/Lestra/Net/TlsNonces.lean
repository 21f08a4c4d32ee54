import Mathlib.Data.List.Range
import Mathlib.Data.List.Nodup
import Lestra.Net.Tls

/-!
# Nonces of one session

The nonces that one key is used with, over a session: the Finished message of the handshake
and every record of application data after it. A nonce carries 16 bits of the sequence
number.
-/

namespace Lestra

-- ---------------------------------------------------------------------------
-- The session and its log
-- ---------------------------------------------------------------------------

inductive TlsCall where
  | send (data : List UInt8)
  | recv (record : Option (UInt8 × List UInt8))
  | close

/-- The connection, the nonces that records were sealed with under the client's key, and
those that records were accepted with under the server's. -/
structure TlsSession where
  tls : TlsState
  sealed : List Iv
  opened : List Iv

variable (gcm : Gcm)

def TlsSession.step (s : TlsSession) : TlsCall → TlsSession
  | .send data =>
    { s with
      tls := (tlsSend gcm s.tls data).1
      sealed :=
        if (tlsSend gcm s.tls data).2.isSome then
          s.sealed ++ [recordIv s.tls.clientWriteIv s.tls.clientSeq]
        else s.sealed }
  | .recv record =>
    { s with
      tls := (tlsRecv gcm s.tls record).1
      opened :=
        if (tlsRecv gcm s.tls record).2.isSome then
          s.opened ++ [recordIv s.tls.serverWriteIv s.tls.serverSeq]
        else s.opened }
  | .close => { s with tls := tlsClose s.tls }

/-- The connection when the keys are derived; the sequence numbers are zero from the start of
`tls_connect`. -/
def tlsKeyed (clientKey serverKey : List UInt8) (clientIv serverIv : Iv) : TlsState :=
  { connected := true
    handshakeDone := false
    clientWriteKey := clientKey
    serverWriteKey := serverKey
    clientWriteIv := clientIv
    serverWriteIv := serverIv
    clientSeq := 0
    serverSeq := 0 }

/-- The end of the handshake: both Finished messages. -/
def sessionStart (tls : TlsState) (finishedMsg rdata : List UInt8) : Option TlsSession :=
  let sent := (tlsSealFinished gcm tls finishedMsg).1
  (tlsOpenFinished gcm sent rdata).map fun opened =>
    { tls := { opened.1 with handshakeDone := true }
      sealed := [tls.clientWriteIv]
      opened := [recordIv sent.serverWriteIv sent.serverSeq] }

/-- A record is sealed or accepted only while its sequence number is below 65536. -/
def seqBelow (s : TlsSession) : TlsCall → Prop
  | .send data => (tlsSend gcm s.tls data).2.isSome → s.tls.clientSeq.toNat < 65536
  | .recv record => (tlsRecv gcm s.tls record).2.isSome → s.tls.serverSeq.toNat < 65536
  | .close => True

-- ---------------------------------------------------------------------------
-- The nonce of a sequence number
-- ---------------------------------------------------------------------------

theorem low_byte_eq {a b : ℕ} (h : UInt8.ofNat a &&& 255 = UInt8.ofNat b &&& 255) :
    a % 256 = b % 256 := by
  have hand : ∀ x : ℕ, x &&& 255 = x % 256 := fun x => Nat.and_two_pow_sub_one_eq_mod x 8
  have hnat := congrArg UInt8.toNat h
  simpa [hand] using hnat

theorem high_byte {a : ℕ} (ha : a < 65536) :
    (UInt64.ofNat a >>> 8).toUInt8 = UInt8.ofNat (a / 256) := by
  apply UInt8.toNat_inj.mp
  simp [Nat.shiftRight_eq_div_pow]
  omega

theorem recordIv_inj {iv : Iv} {a b : ℕ} (ha : a < 65536) (hb : b < 65536)
    (h : recordIv iv (UInt64.ofNat a) = recordIv iv (UInt64.ofNat b)) : a = b := by
  have hlow := congrArg (fun v : Iv => v[11]) h
  have hhigh := congrArg (fun v : Iv => v[10]) h
  simp only [recordIv, Vector.getElem_set] at hlow hhigh
  simp at hlow hhigh
  rw [high_byte ha, high_byte hb] at hhigh
  have hmod := low_byte_eq hlow
  have hdiv := low_byte_eq hhigh
  omega

theorem recordIv_wraps (iv : Iv) : recordIv iv (UInt64.ofNat 65536) = recordIv iv (UInt64.ofNat 0) :=
  rfl

theorem recordIv_zero (iv : Iv) : recordIv iv 0 = iv := by simp [recordIv]

/-- The nonces of the first `n` sequence numbers. -/
def nonces (iv : Iv) (n : ℕ) : List Iv := (List.range n).map fun k => recordIv iv (UInt64.ofNat k)

theorem nonces_succ (iv : Iv) (n : ℕ) :
    nonces iv (n + 1) = nonces iv n ++ [recordIv iv (UInt64.ofNat n)] := by
  rw [nonces, List.range_succ, List.map_append]
  rfl

theorem nodup_nonces (iv : Iv) {n : ℕ} (h : n ≤ 65536) : (nonces iv n).Nodup := by
  refine List.nodup_range.map_on fun a ha b hb heq => ?_
  exact recordIv_inj (by have := List.mem_range.mp ha; omega)
    (by have := List.mem_range.mp hb; omega) heq

/-- The nonce of number 65536 is the first one again. -/
theorem not_nodup_nonces (iv : Iv) : ¬ (nonces iv (65536 + 1)).Nodup := by
  rw [nonces_succ, recordIv_wraps, List.nodup_append]
  intro h
  have hmem : recordIv iv (UInt64.ofNat 0) ∈ nonces iv 65536 :=
    List.mem_map.mpr ⟨0, List.mem_range.mpr (by omega), rfl⟩
  exact h.2.2 _ hmem _ (List.mem_singleton_self _) rfl

-- ---------------------------------------------------------------------------
-- One key
-- ---------------------------------------------------------------------------

/-- The log of a key that has protected the records below its sequence number, of which there
are at most 65536. -/
structure SeqLog (iv : Iv) (seq : UInt64) (log : List Iv) : Prop where
  log : log = nonces iv seq.toNat
  le : seq.toNat ≤ 65536

variable {iv : Iv} {seq : UInt64} {log : List Iv}

theorem SeqLog.start (iv : Iv) : SeqLog iv 1 [recordIv iv 0] := ⟨rfl, by decide⟩

theorem SeqLog.nodup (h : SeqLog iv seq log) : log.Nodup := by
  rw [h.log]
  exact nodup_nonces iv h.le

theorem SeqLog.extended (h : SeqLog iv seq log) :
    log ++ [recordIv iv seq] = nonces iv (seq.toNat + 1) := by
  rw [h.log, nonces_succ, UInt64.ofNat_toNat]

theorem SeqLog.next (h : SeqLog iv seq log) (hlt : seq.toNat < 65536) :
    SeqLog iv (seq + 1) (log ++ [recordIv iv seq]) := by
  have hnext : (seq + 1).toNat = seq.toNat + 1 := by
    rw [UInt64.toNat_add]
    exact Nat.mod_eq_of_lt (by have hone : (1 : UInt64).toNat = 1 := rfl; omega)
  exact ⟨by rw [h.extended, hnext], by omega⟩

theorem SeqLog.repeats (h : SeqLog iv seq log) (hge : ¬ seq.toNat < 65536) :
    ¬ (log ++ [recordIv iv seq]).Nodup := by
  have hfull : seq.toNat = 65536 := by
    have := h.le
    omega
  rw [h.extended, hfull]
  exact not_nodup_nonces iv

-- ---------------------------------------------------------------------------
-- The whole session
-- ---------------------------------------------------------------------------

structure SessionLog (s : TlsSession) : Prop where
  sealed : SeqLog s.tls.clientWriteIv s.tls.clientSeq s.sealed
  opened : SeqLog s.tls.serverWriteIv s.tls.serverSeq s.opened

/-- No nonce was used twice under one key. -/
def NoncesDistinct (s : TlsSession) : Prop := s.sealed.Nodup ∧ s.opened.Nodup

variable {gcm} {s : TlsSession}

theorem tlsSend_cases (gcm : Gcm) (tls : TlsState) (data : List UInt8) :
    ((tlsSend gcm tls data).2.isSome = false ∧ (tlsSend gcm tls data).1 = tls) ∨
    ((tlsSend gcm tls data).2.isSome = true ∧
      (tlsSend gcm tls data).1 = { tls with clientSeq := tls.clientSeq + 1 }) := by
  rw [tlsSend]
  split
  · exact .inr ⟨rfl, rfl⟩
  · exact .inl ⟨rfl, rfl⟩

theorem tlsRecv_cases (gcm : Gcm) (tls : TlsState) (record : Option (UInt8 × List UInt8)) :
    ((tlsRecv gcm tls record).2.isSome = false ∧ (tlsRecv gcm tls record).1 = tls) ∨
    ((tlsRecv gcm tls record).2.isSome = true ∧
      (tlsRecv gcm tls record).1 = { tls with serverSeq := tls.serverSeq + 1 }) := by
  rw [tlsRecv.eq_def]
  split
  · split
    · exact .inl ⟨rfl, rfl⟩
    · dsimp only
      split
      · exact .inl ⟨rfl, rfl⟩
      · split
        · exact .inl ⟨rfl, rfl⟩
        · split
          · exact .inl ⟨rfl, rfl⟩
          · exact .inr ⟨rfl, rfl⟩
  · exact .inl ⟨rfl, rfl⟩

/-- What a call does to the two logs. -/
theorem step_cases (gcm : Gcm) (h : SessionLog s) (call : TlsCall) :
    (SessionLog (s.step gcm call) ∧ seqBelow gcm s call) ∨
    (¬ NoncesDistinct (s.step gcm call) ∧ ¬ seqBelow gcm s call) := by
  cases call with
  | send data =>
    rcases tlsSend_cases gcm s.tls data with ⟨hno, htls⟩ | ⟨hyes, htls⟩
    · refine .inl ⟨?_, fun hsome => absurd hsome (by rw [hno]; exact Bool.false_ne_true)⟩
      simp only [TlsSession.step, hno, htls]
      exact h
    · by_cases hlt : s.tls.clientSeq.toNat < 65536
      · refine .inl ⟨?_, fun _ => hlt⟩
        simp only [TlsSession.step, hyes, htls]
        exact ⟨h.sealed.next hlt, h.opened⟩
      · refine .inr ⟨fun hnd => ?_, fun hbelow => hlt (hbelow hyes)⟩
        have hsealed := hnd.1
        simp only [TlsSession.step, hyes] at hsealed
        exact h.sealed.repeats hlt hsealed
  | recv record =>
    rcases tlsRecv_cases gcm s.tls record with ⟨hno, htls⟩ | ⟨hyes, htls⟩
    · refine .inl ⟨?_, fun hsome => absurd hsome (by rw [hno]; exact Bool.false_ne_true)⟩
      simp only [TlsSession.step, hno, htls]
      exact h
    · by_cases hlt : s.tls.serverSeq.toNat < 65536
      · refine .inl ⟨?_, fun _ => hlt⟩
        simp only [TlsSession.step, hyes, htls]
        exact ⟨h.sealed, h.opened.next hlt⟩
      · refine .inr ⟨fun hnd => ?_, fun hbelow => hlt (hbelow hyes)⟩
        have hopened := hnd.2
        simp only [TlsSession.step, hyes] at hopened
        exact h.opened.repeats hlt hopened
  | close =>
    refine .inl ⟨?_, trivial⟩
    simp only [TlsSession.step, tlsClose]
    split
    · exact ⟨h.sealed, h.opened⟩
    · exact h

/-- The logs only grow. -/
theorem NoncesDistinct.of_step {call : TlsCall} (h : NoncesDistinct (s.step gcm call)) :
    NoncesDistinct s := by
  cases call with
  | send data =>
    refine ⟨?_, h.2⟩
    have hsealed := h.1
    simp only [TlsSession.step] at hsealed
    split at hsealed
    · exact hsealed.of_append_left
    · exact hsealed
  | recv record =>
    refine ⟨h.1, ?_⟩
    have hopened := h.2
    simp only [TlsSession.step] at hopened
    split at hopened
    · exact hopened.of_append_left
    · exact hopened
  | close => exact h

theorem NoncesDistinct.of_run {calls : List TlsCall}
    (h : NoncesDistinct (Run.run (TlsSession.step gcm) s calls)) : NoncesDistinct s := by
  induction calls generalizing s with
  | nil => exact h
  | cons call calls ih => exact (ih h).of_step

theorem distinct_run_iff (h : SessionLog s) (calls : List TlsCall) :
    NoncesDistinct (Run.run (TlsSession.step gcm) s calls) ↔
      Run.Allowed (TlsSession.step gcm) (seqBelow gcm) s calls := by
  induction calls generalizing s with
  | nil => exact ⟨fun _ => trivial, fun _ => ⟨h.sealed.nodup, h.opened.nodup⟩⟩
  | cons call calls ih =>
    rcases step_cases gcm h call with ⟨hnext, hbelow⟩ | ⟨hrepeat, hnot⟩
    · exact (ih hnext).trans ⟨fun hrest => ⟨hbelow, hrest⟩, fun hall => hall.2⟩
    · refine ⟨fun hnd => absurd ?_ hrepeat, fun hall => absurd hall.1 hnot⟩
      rw [Run.run_cons] at hnd
      exact hnd.of_run

theorem sessionStart_log {clientKey serverKey : List UInt8} {clientIv serverIv : Iv}
    {finishedMsg rdata : List UInt8}
    (h : sessionStart gcm (tlsKeyed clientKey serverKey clientIv serverIv) finishedMsg rdata =
      some s) : SessionLog s := by
  rw [sessionStart] at h
  obtain ⟨⟨tls, plaintext⟩, hopen, hs⟩ := Option.map_eq_some_iff.mp h
  rw [tlsOpenFinished] at hopen
  obtain ⟨_, -, hpair⟩ := Option.map_eq_some_iff.mp hopen
  have htls := congrArg Prod.fst hpair
  rw [← hs, ← htls]
  have hclient := SeqLog.start clientIv
  rw [recordIv_zero] at hclient
  exact ⟨hclient, SeqLog.start serverIv⟩

theorem SessionLog.run (h : SessionLog s) {calls : List TlsCall}
    (hall : Run.Allowed (TlsSession.step gcm) (seqBelow gcm) s calls) :
    SessionLog (Run.run (TlsSession.step gcm) s calls) := by
  refine Run.inv_run (fun s call hs hbelow => ?_) calls s h hall
  rcases step_cases gcm hs call with ⟨hnext, -⟩ | ⟨-, hnot⟩
  · exact hnext
  · exact absurd hbelow hnot

theorem length_sealed_sends (data : List UInt8) (n : ℕ) (hdone : s.tls.handshakeDone = true) :
    (Run.run (TlsSession.step gcm) s (List.replicate n (.send data))).sealed.length =
      s.sealed.length + n := by
  induction n generalizing s with
  | zero => rfl
  | succ n ih =>
    have hsend : (tlsSend gcm s.tls data).2.isSome = true ∧
        (tlsSend gcm s.tls data).1 = { s.tls with clientSeq := s.tls.clientSeq + 1 } := by
      rw [tlsSend, if_pos hdone]
      exact ⟨rfl, rfl⟩
    rw [List.replicate_succ, Run.run_cons, ih (by simp only [TlsSession.step, hsend.2, hdone])]
    simp only [TlsSession.step, hsend.1, if_true, List.length_append, List.length_singleton]
    omega

/--
**Nonces of one session.** After the handshake's own Finished messages, the nonces of the
records sealed with the client's key and of those accepted with the server's are distinct
exactly when every record is sealed or accepted while its sequence number is below 65536.
-/
theorem nonces_distinct_iff {clientKey serverKey : List UInt8} {clientIv serverIv : Iv}
    {finishedMsg rdata : List UInt8}
    (h : sessionStart gcm (tlsKeyed clientKey serverKey clientIv serverIv) finishedMsg rdata =
      some s) (calls : List TlsCall) :
    NoncesDistinct (Run.run (TlsSession.step gcm) s calls) ↔
      Run.Allowed (TlsSession.step gcm) (seqBelow gcm) s calls :=
  distinct_run_iff (sessionStart_log h) calls

/-- A cipher that hides nothing. -/
def plainGcm : Gcm where
  encrypt := fun _ _ plaintext => (plaintext, List.replicate 16 0)
  decrypt := fun _ _ ciphertext _ => some ciphertext

def zeroIv : Iv := Vector.replicate 12 0

def plainSession : TlsSession where
  tls := { tlsKeyed [] [] zeroIv zeroIv with handshakeDone := true, clientSeq := 1, serverSeq := 1 }
  sealed := [zeroIv]
  opened := [recordIv zeroIv 0]

theorem plainSession_start :
    sessionStart plainGcm (tlsKeyed [] [] zeroIv zeroIv) [] [] = some plainSession := rfl

/-- 65536 records after the handshake. -/
theorem nonce_repeats :
    sessionStart plainGcm (tlsKeyed [] [] zeroIv zeroIv) [] [] = some plainSession ∧
      ¬ NoncesDistinct
        (Run.run (TlsSession.step plainGcm) plainSession (List.replicate 65536 (.send []))) := by
  refine ⟨plainSession_start, fun hnd => ?_⟩
  have hlog := sessionStart_log plainSession_start
  have hend := (hlog.run ((distinct_run_iff hlog _).mp hnd)).sealed
  have hlen : (Run.run (TlsSession.step plainGcm) plainSession
      (List.replicate 65536 (.send []))).sealed.length = 1 + 65536 := length_sealed_sends [] 65536 rfl
  have hle := hend.le
  rw [hend.log, nonces, List.length_map, List.length_range] at hlen
  omega

theorem nonces_distinct_two_records :
    NoncesDistinct (Run.run (TlsSession.step plainGcm) plainSession
        [.send [1], .recv (some (23, List.replicate 16 0))]) ↔
      Run.Allowed (TlsSession.step plainGcm) (seqBelow plainGcm) plainSession
        [.send [1], .recv (some (23, List.replicate 16 0))] :=
  nonces_distinct_iff plainSession_start _

end Lestra
