import Lestra.Net.AesGcmOpen
import Lestra.Net.Tls

/-!
# The buffers of TLS records

`tls_send_record`, `tls_recv_record`, `tls_send` and `tls_recv` (`kernel/net/tls.c`): which
bytes of which buffer they touch. The record that is received is held against its own buffer,
but nothing against the caller's; the records that are sent are held against nothing.

* `tlsRecvTouches`, `tlsSendTouches`, `tlsSendRecordTouches` — the places that are touched
* `tls_bounds_iff` — for which lengths they are inside
-/

namespace Lestra

-- ---------------------------------------------------------------------------
-- What is touched
-- ---------------------------------------------------------------------------

/-- The buffers: the caller's, `header` and `rdata` of the receiver, `encrypted` and `record` of
`tls_send`, and `record` of `tls_send_record`. -/
inductive TlsBuf where
  | caller | header | rdata | encrypted | sealed | record
deriving DecidableEq, Repr

def TlsBuf.size (bufsz : ℕ) : TlsBuf → ℕ
  | .caller => bufsz
  | .header => 5
  | .rdata => 16384
  | .encrypted => 16384
  | .sealed => 17000
  | .record => 17000

/-- A block of a buffer that is read or written. -/
structure Touch where
  buf : TlsBuf
  off : ℕ
  len : ℕ
  write : Bool
deriving DecidableEq, Repr

/-- Every byte of the block is one of the first `n`. -/
def Touch.Below (t : Touch) (n : ℕ) : Prop := ∀ i < t.len, t.off + i < n

-- ---------------------------------------------------------------------------
-- The functions
-- ---------------------------------------------------------------------------

/-- `tcp_recv_wait`, which returns at most `n` of the bytes that have arrived. -/
def tcpRecvWait (arrived : List UInt8) (n : ℕ) : List UInt8 := arrived.take n

/-- `((uint16_t)header[3] << 8) | header[4]` -/
def recordLen (header : List UInt8) : ℕ :=
  (header.getD 3 0).toNat <<< 8 ||| (header.getD 4 0).toNat

/-- The type and the data, from what the two calls of `tcp_recv_wait` find. -/
def tlsRecvRecord (first second : List UInt8) : Option (UInt8 × List UInt8) :=
  let header := tcpRecvWait first 5
  if header.length < 5 then none
  else if 16384 < recordLen header then none
  else
    let data := tcpRecvWait second (recordLen header)
    if data.length < recordLen header then none else some (header.getD 0 0, data)

def tlsRecvRecordTouches (first second : List UInt8) : List Touch :=
  let header := tcpRecvWait first 5
  ⟨.header, 0, header.length, true⟩ ::
    if header.length < 5 then []
    else ⟨.header, 0, 5, false⟩ ::
      if 16384 < recordLen header then []
      else [⟨.rdata, 0, (tcpRecvWait second (recordLen header)).length, true⟩]

/-- The branches are those of `tlsRecv`. -/
def tlsRecvTouches (gcm : Gcm) (tls : TlsState) (first second : List UInt8) : List Touch :=
  if tls.handshakeDone then
    tlsRecvRecordTouches first second ++
      match tlsRecvRecord first second with
      | none => []
      | some (rtype, rdata) =>
        if rtype ≠ tlsRecordApplication then []
        else if rdata.length < 16 then []
        else
          let ctLen := rdata.length - 16
          [⟨.rdata, 0, ctLen, false⟩, ⟨.rdata, ctLen, 16, false⟩] ++
            match gcm.decrypt tls.serverWriteKey (recordIv tls.serverWriteIv tls.serverSeq)
                (rdata.take ctLen) (rdata.drop ctLen) with
            | none => []
            | some _ => [⟨.caller, 0, ctLen, true⟩]
  else []

/-- The loop of `tls_send_record`, when `tcp_send` returns these numbers. -/
def sendChunks (total : ℕ) : List ℤ → ℕ → List Touch
  | [], _ => []
  | n :: rest, sent =>
    if sent < total then
      let chunk := total - sent
      let chunk := if 1400 < chunk then 1400 else chunk
      ⟨.record, sent, chunk, false⟩ ::
        if n ≤ 0 then [] else sendChunks total rest (sent + n.toNat)
    else []

def tlsSendRecordTouches (len : UInt16) (sent : List ℤ) : List Touch :=
  [⟨.record, 0, 5, true⟩, ⟨.record, 5, len.toNat, true⟩] ++ sendChunks (5 + len.toNat) sent 0

/-- `len + 16` is a 16-bit number where the record is sent. -/
def tlsSendTouches (tls : TlsState) (len : UInt16) (sent : List ℤ) : List Touch :=
  if tls.handshakeDone then
    [⟨.encrypted, 0, len.toNat, true⟩, ⟨.encrypted, 0, len.toNat, false⟩,
      ⟨.sealed, 0, len.toNat, true⟩, ⟨.sealed, len.toNat, 16, true⟩,
      ⟨.sealed, 0, (len + 16).toNat, false⟩] ++ tlsSendRecordTouches (len + 16) sent
  else []

-- ---------------------------------------------------------------------------
-- Receiving
-- ---------------------------------------------------------------------------

/-- `tls_recv` touches its buffers inside their bounds, and of `rdata` only the record that was
received. -/
structure TlsRecvInside (gcm : Gcm) (tls : TlsState) (first second : List UInt8) (bufsz : ℕ) :
    Prop where
  inside : ∀ t ∈ tlsRecvTouches gcm tls first second, t.Below (t.buf.size bufsz)
  received : ∀ rtype rdata, tlsRecvRecord first second = some (rtype, rdata) →
    ∀ t ∈ tlsRecvTouches gcm tls first second, t.buf = .rdata → t.Below rdata.length

/-- The record is one of application data, and its tag is right. -/
structure TlsAccepts (gcm : Gcm) (tls : TlsState) (rtype : UInt8) (rdata : List UInt8) : Prop where
  done : tls.handshakeDone = true
  type : rtype = tlsRecordApplication
  tagged : 16 ≤ rdata.length
  right : (gcm.decrypt tls.serverWriteKey (recordIv tls.serverWriteIv tls.serverSeq)
    (rdata.take (rdata.length - 16)) (rdata.drop (rdata.length - 16))).isSome

/-- The caller's buffer takes what a record holds that is accepted. -/
def TlsFits (gcm : Gcm) (tls : TlsState) (first second : List UInt8) (bufsz : ℕ) : Prop :=
  ∀ rtype rdata, tlsRecvRecord first second = some (rtype, rdata) →
    TlsAccepts gcm tls rtype rdata → rdata.length - 16 ≤ bufsz

variable {gcm : Gcm} {tls : TlsState} {first second rdata : List UInt8} {rtype : UInt8} {bufsz : ℕ}
  {t : Touch} {n : ℕ}

theorem Touch.below_of_le (h : t.off + t.len ≤ n) : t.Below n := fun i hi => by omega

theorem Touch.Below.mono {m : ℕ} (h : t.Below n) (hle : n ≤ m) : t.Below m :=
  fun i hi => (h i hi).trans_le hle

/-- What was received, of the length in the header. -/
theorem tlsRecvRecord_some (h : tlsRecvRecord first second = some (rtype, rdata)) :
    5 ≤ (tcpRecvWait first 5).length ∧ recordLen (tcpRecvWait first 5) ≤ 16384 ∧
      rdata = tcpRecvWait second (recordLen (tcpRecvWait first 5)) := by
  rw [tlsRecvRecord] at h
  dsimp only at h
  split at h
  · cases h
  · rename_i hheader
    split at h
    · cases h
    · rename_i hlen
      split at h
      · cases h
      · rw [Option.some.injEq, Prod.mk.injEq] at h
        exact ⟨by omega, by omega, h.2.symm⟩

theorem length_tcpRecvWait (arrived : List UInt8) (n : ℕ) : (tcpRecvWait arrived n).length ≤ n :=
  List.length_take_le n arrived

theorem tlsRecvRecord_length (h : tlsRecvRecord first second = some (rtype, rdata)) :
    rdata.length ≤ 16384 := by
  obtain ⟨-, hlen, rfl⟩ := tlsRecvRecord_some h
  exact (length_tcpRecvWait _ _).trans hlen

/-- The record is received inside its buffers. -/
theorem tlsRecvRecord_inside : ∀ t ∈ tlsRecvRecordTouches first second, t.Below (t.buf.size bufsz) := by
  have hheader := length_tcpRecvWait first 5
  have hbody := length_tcpRecvWait second (recordLen (tcpRecvWait first 5))
  intro t ht
  rw [tlsRecvRecordTouches] at ht
  rcases List.mem_cons.mp ht with rfl | ht
  · exact Touch.below_of_le (by rw [Nat.zero_add]; exact hheader)
  · split at ht
    · cases ht
    · rcases List.mem_cons.mp ht with rfl | ht
      · exact Touch.below_of_le (Nat.le_refl _)
      · split at ht
        · cases ht
        · rename_i hlen
          rw [List.mem_singleton.mp ht]
          refine Touch.below_of_le ?_
          show 0 + (tcpRecvWait second (recordLen (tcpRecvWait first 5))).length ≤ 16384
          omega

/-- `rdata` is written as far as the record goes. -/
theorem tlsRecvRecord_received (h : tlsRecvRecord first second = some (rtype, rdata)) :
    ∀ t ∈ tlsRecvRecordTouches first second, t.buf = .rdata → t.Below rdata.length := by
  obtain ⟨hheader, hlen, rfl⟩ := tlsRecvRecord_some h
  intro t ht hbuf
  rw [tlsRecvRecordTouches, if_neg (by omega), if_neg (by omega)] at ht
  simp only [List.mem_cons, List.not_mem_nil, or_false] at ht
  rcases ht with rfl | rfl | rfl
  · cases hbuf
  · cases hbuf
  · exact Touch.below_of_le (Nat.zero_add _).le

/-- The plaintext is written without a look at `bufsz`. -/
theorem tlsRecv_writes (h : tlsRecvRecord first second = some (rtype, rdata))
    (hok : TlsAccepts gcm tls rtype rdata) :
    ⟨.caller, 0, rdata.length - 16, true⟩ ∈ tlsRecvTouches gcm tls first second := by
  obtain ⟨plaintext, hplain⟩ := Option.isSome_iff_exists.mp hok.right
  have htagged := hok.tagged
  rw [tlsRecvTouches, if_pos hok.done, h]
  dsimp only
  rw [if_neg (not_not.mpr hok.type), if_neg (by omega), hplain]
  exact List.mem_append_right _ (List.mem_append_right _ (List.mem_singleton.mpr rfl))

/-- What is touched behind the record: the record again, and the caller's buffer when the record
is accepted. -/
theorem tlsRecvTouches_cases : ∀ t ∈ tlsRecvTouches gcm tls first second,
    t ∈ tlsRecvRecordTouches first second ∨
      ∃ rtype rdata, tlsRecvRecord first second = some (rtype, rdata) ∧
        (t.buf = .rdata ∧ t.Below rdata.length ∨
          TlsAccepts gcm tls rtype rdata ∧ t = ⟨.caller, 0, rdata.length - 16, true⟩) := by
  intro t ht
  rw [tlsRecvTouches] at ht
  split at ht
  · rename_i hdone
    rcases List.mem_append.mp ht with hrecord | hrest
    · exact .inl hrecord
    · refine .inr ?_
      cases hrecv : tlsRecvRecord first second with
      | none =>
        rw [hrecv] at hrest
        cases hrest
      | some record =>
        obtain ⟨rtype, rdata⟩ := record
        rw [hrecv] at hrest
        dsimp only at hrest
        split at hrest
        · cases hrest
        · rename_i htype
          split at hrest
          · cases hrest
          · rename_i htagged
            rw [Nat.not_lt] at htagged
            refine ⟨rtype, rdata, rfl, ?_⟩
            rcases List.mem_append.mp hrest with hread | hwrite
            · refine .inl ?_
              rcases List.mem_pair.mp hread with rfl | rfl
              · exact ⟨rfl, Touch.below_of_le (by dsimp only; omega)⟩
              · exact ⟨rfl, Touch.below_of_le (by dsimp only; omega)⟩
            · refine .inr ?_
              split at hwrite
              · cases hwrite
              · rename_i plaintext hplain
                exact ⟨⟨hdone, not_not.mp htype, htagged, by rw [hplain]; rfl⟩,
                  List.mem_singleton.mp hwrite⟩
  · cases ht

theorem tlsRecv_inside_iff (gcm : Gcm) (tls : TlsState) (first second : List UInt8) (bufsz : ℕ) :
    TlsRecvInside gcm tls first second bufsz ↔ TlsFits gcm tls first second bufsz := by
  constructor
  · intro h rtype rdata hrecv hok
    have hwrite := h.inside _ (tlsRecv_writes hrecv hok)
    by_contra hlong
    have hpast := hwrite bufsz (by dsimp only; omega)
    exact absurd hpast (by dsimp only [TlsBuf.size]; omega)
  · intro hfits
    refine ⟨fun t ht => ?_, fun rtype rdata hrecv t ht hbuf => ?_⟩
    · rcases tlsRecvTouches_cases t ht with
        hrecord | ⟨rtype, rdata, hrecv, ⟨hbuf, hbelow⟩ | ⟨hok, rfl⟩⟩
      · exact tlsRecvRecord_inside t hrecord
      · rw [hbuf]
        exact hbelow.mono (tlsRecvRecord_length hrecv)
      · exact Touch.below_of_le ((Nat.zero_add _).le.trans (hfits rtype rdata hrecv hok))
    · rcases tlsRecvTouches_cases t ht with
        hrecord | ⟨rtype', rdata', hrecv', ⟨-, hbelow⟩ | ⟨-, rfl⟩⟩
      · exact tlsRecvRecord_received hrecv t hrecord hbuf
      · rw [hrecv, Option.some.injEq, Prod.mk.injEq] at hrecv'
        rw [hrecv'.2]
        exact hbelow
      · cases hbuf

/-- `tlsRecv` returns data when the record is accepted. -/
theorem tlsRecv_isSome_iff : (tlsRecv gcm tls (tlsRecvRecord first second)).2.isSome ↔
    ∃ rtype rdata, tlsRecvRecord first second = some (rtype, rdata) ∧
      TlsAccepts gcm tls rtype rdata := by
  unfold tlsRecv
  constructor
  · intro h
    split at h
    · rename_i hdone
      split at h
      · cases h
      · rename_i rtype rdata hrecv
        split at h
        · cases h
        · rename_i htype
          split at h
          · cases h
          · rename_i htagged
            dsimp only at h
            split at h
            · cases h
            · rename_i plaintext hplain
              exact ⟨rtype, rdata, hrecv, hdone, not_not.mp htype, Nat.le_of_not_lt htagged,
                by rw [hplain]; rfl⟩
    · cases h
  · rintro ⟨rtype, rdata, hrecv, hok⟩
    obtain ⟨plaintext, hplain⟩ := Option.isSome_iff_exists.mp hok.right
    have htagged := hok.tagged
    rw [if_pos hok.done, hrecv]
    dsimp only
    rw [if_neg (not_not.mpr hok.type), if_neg (by omega), hplain]
    rfl

theorem tlsRecvRecord_caller : ∀ t ∈ tlsRecvRecordTouches first second, t.buf ≠ .caller := by
  intro t ht hbuf
  rw [tlsRecvRecordTouches] at ht
  rcases List.mem_cons.mp ht with rfl | ht
  · cases hbuf
  · split at ht
    · cases ht
    · rcases List.mem_cons.mp ht with rfl | ht
      · cases hbuf
      · split at ht
        · cases ht
        · rw [List.mem_singleton.mp ht] at hbuf
          cases hbuf

/-- The caller's buffer is touched when `tlsRecv` returns data. -/
theorem tlsRecv_caller_iff : (∃ t ∈ tlsRecvTouches gcm tls first second, t.buf = .caller) ↔
    (tlsRecv gcm tls (tlsRecvRecord first second)).2.isSome := by
  rw [tlsRecv_isSome_iff]
  constructor
  · rintro ⟨t, ht, hcaller⟩
    rcases tlsRecvTouches_cases t ht with
      hrecord | ⟨rtype, rdata, hrecv, ⟨hbuf, -⟩ | ⟨hok, -⟩⟩
    · exact absurd hcaller (tlsRecvRecord_caller t hrecord)
    · rw [hbuf] at hcaller
      cases hcaller
    · exact ⟨rtype, rdata, hrecv, hok⟩
  · rintro ⟨rtype, rdata, hrecv, hok⟩
    exact ⟨_, tlsRecv_writes hrecv hok, rfl⟩

-- ---------------------------------------------------------------------------
-- Sending
-- ---------------------------------------------------------------------------

theorem sendChunks_below (total : ℕ) (sent : List ℤ) (start : ℕ) :
    ∀ t ∈ sendChunks total sent start, t.buf = .record ∧ t.Below total := by
  induction sent generalizing start with
  | nil => exact nofun
  | cons n rest ih =>
    intro t ht
    rw [sendChunks] at ht
    split at ht
    · rcases List.mem_cons.mp ht with rfl | hrest
      · refine ⟨rfl, Touch.below_of_le ?_⟩
        dsimp only
        split <;> omega
      · split at hrest
        · cases hrest
        · exact ih _ t hrest
    · cases ht

theorem tlsSendRecord_inside_iff (len : UInt16) (sent : List ℤ) (bufsz : ℕ) :
    (∀ t ∈ tlsSendRecordTouches len sent, t.Below (t.buf.size bufsz)) ↔ len.toNat ≤ 16995 := by
  rw [tlsSendRecordTouches, List.forall_mem_append]
  constructor
  · intro h
    have hdata := h.1 ⟨.record, 5, len.toNat, true⟩ (by simp)
    by_contra hlong
    have hpast := hdata 16995 (by dsimp only; omega)
    exact absurd hpast (by dsimp only [TlsBuf.size]; omega)
  · intro hlen
    refine ⟨?_, fun t ht => ?_⟩
    · rw [List.forall_mem_cons, List.forall_mem_singleton]
      exact ⟨Touch.below_of_le (by dsimp only [TlsBuf.size]; omega), Touch.below_of_le (by dsimp only [TlsBuf.size]; omega)⟩
    · obtain ⟨hbuf, hbelow⟩ := sendChunks_below _ _ _ t ht
      rw [hbuf]
      exact hbelow.mono (by dsimp only [TlsBuf.size]; omega)

theorem tlsSend_inside_iff (tls : TlsState) (len : UInt16) (sent : List ℤ) (bufsz : ℕ) :
    (∀ t ∈ tlsSendTouches tls len sent, t.Below (t.buf.size bufsz)) ↔
      (tls.handshakeDone = true → len.toNat ≤ 16384) := by
  rw [tlsSendTouches]
  split
  · rename_i hdone
    rw [List.forall_mem_append, tlsSendRecord_inside_iff]
    constructor
    · intro h _
      have hencrypted := h.1 ⟨.encrypted, 0, len.toNat, true⟩ (by simp)
      by_contra hlong
      have hpast := hencrypted 16384 (by dsimp only; omega)
      exact absurd hpast (by dsimp only [TlsBuf.size]; omega)
    · intro h
      have hlen := h hdone
      have hsum : (len + 16).toNat = len.toNat + 16 := by
        rw [UInt16.toNat_add]
        exact Nat.mod_eq_of_lt (by have h16 : (16 : UInt16).toNat = 16 := rfl; omega)
      rw [hsum]
      refine ⟨?_, by omega⟩
      simp only [List.forall_mem_cons]
      refine ⟨?_, ?_, ?_, ?_, ?_, nofun⟩ <;>
        exact Touch.below_of_le (by dsimp only [TlsBuf.size]; omega)
  · rename_i hnot
    exact iff_of_true nofun fun hdone => absurd hdone hnot

-- ---------------------------------------------------------------------------
-- The bounds
-- ---------------------------------------------------------------------------

/-- **The bounds.** `tls_recv` stays inside its buffers, and writes the caller's only when it
returns data, exactly when an accepted record fits into `bufsz`; `tls_send_record` up to 16995
bytes; `tls_send` up to 16384, or before the handshake. -/
theorem tls_bounds_iff (gcm : Gcm) (tls : TlsState) (first second : List UInt8)
    (bufsz len : UInt16) (sent : List ℤ) :
    (TlsRecvInside gcm tls first second bufsz.toNat ↔ TlsFits gcm tls first second bufsz.toNat) ∧
    ((∃ t ∈ tlsRecvTouches gcm tls first second, t.buf = .caller) ↔
      (tlsRecv gcm tls (tlsRecvRecord first second)).2.isSome) ∧
    ((∀ t ∈ tlsSendRecordTouches len sent, t.Below (t.buf.size bufsz.toNat)) ↔
      len.toNat ≤ 16995) ∧
    ((∀ t ∈ tlsSendTouches tls len sent, t.Below (t.buf.size bufsz.toNat)) ↔
      (tls.handshakeDone = true → len.toNat ≤ 16384)) :=
  ⟨tlsRecv_inside_iff gcm tls first second bufsz.toNat, tlsRecv_caller_iff,
    tlsSendRecord_inside_iff len sent bufsz.toNat, tlsSend_inside_iff tls len sent bufsz.toNat⟩

def toBlock (bs : List UInt8) : Aes.Block := Vector.ofFn fun j => bs.getD j.val 0

/-- The cipher of `tls.c`. -/
def aes128Gcm : Gcm where
  encrypt key iv plaintext :=
    let (ciphertext, tag) := gcmSeal (toBlock key) iv [] plaintext
    (ciphertext, tag.toList)
  decrypt key iv ciphertext tag := gcmOpen (toBlock key) iv [] ciphertext (toBlock tag)

theorem toBlock_toList (b : Aes.Block) : toBlock b.toList = b := by
  apply Vector.ext
  intro j hj
  rw [toBlock, Vector.getElem_ofFn, List.getD_eq_getElem _ _ (by rw [Vector.length_toList]; exact hj),
    Vector.getElem_toList]

/-- The server's record for a plaintext. -/
def serverRecord (tls : TlsState) (plaintext : List UInt8) : List UInt8 :=
  let (ciphertext, tag) := aes128Gcm.encrypt tls.serverWriteKey
    (recordIv tls.serverWriteIv tls.serverSeq) plaintext
  ciphertext ++ tag

theorem length_serverRecord (tls : TlsState) (plaintext : List UInt8) :
    (serverRecord tls plaintext).length = plaintext.length + 16 := by
  rw [serverRecord]
  dsimp only [aes128Gcm]
  rw [List.length_append, length_gcmSeal, Vector.length_toList]

/-- What the server sends is accepted. -/
theorem serverRecord_accepts (hdone : tls.handshakeDone = true) (plaintext : List UInt8) :
    TlsAccepts aes128Gcm tls tlsRecordApplication (serverRecord tls plaintext) := by
  have hlen := length_serverRecord tls plaintext
  refine ⟨hdone, rfl, by omega, ?_⟩
  have hcut : (serverRecord tls plaintext).length - 16 = (gcmSeal (toBlock tls.serverWriteKey)
      (recordIv tls.serverWriteIv tls.serverSeq) [] plaintext).1.length := by
    rw [length_gcmSeal]
    omega
  rw [hcut, serverRecord]
  dsimp only [aes128Gcm]
  rw [List.take_left, List.drop_left, toBlock_toList, gcmOpen_seal, if_pos rfl]
  rfl

/-- After the handshake, with zero keys. -/
def tlsDone : TlsState where
  connected := true
  handshakeDone := true
  clientWriteKey := List.replicate 16 0
  serverWriteKey := List.replicate 16 0
  clientWriteIv := Vector.replicate 12 0
  serverWriteIv := Vector.replicate 12 0
  clientSeq := 1
  serverSeq := 1

/-- 17 bytes arrive for a buffer of 16; 16385 are sent through `encrypted`, and 16996 through
`record`. -/
theorem tls_past_buffers :
    ¬ TlsRecvInside aes128Gcm tlsDone [23, 3, 3, 0, 33]
        (serverRecord tlsDone (List.replicate 17 0x41)) (16 : UInt16).toNat ∧
    ¬ (∀ t ∈ tlsSendTouches tlsDone 16385 [], t.Below (t.buf.size 0)) ∧
    ¬ (∀ t ∈ tlsSendRecordTouches 16996 [], t.Below (t.buf.size 0)) := by
  refine ⟨?_, ?_, ?_⟩
  · have hlen := length_serverRecord tlsDone (List.replicate 17 0x41)
    rw [List.length_replicate] at hlen
    have hrecv : tlsRecvRecord [23, 3, 3, 0, 33] (serverRecord tlsDone (List.replicate 17 0x41)) =
        some (tlsRecordApplication, serverRecord tlsDone (List.replicate 17 0x41)) := by
      have hheader : tcpRecvWait [23, 3, 3, 0, 33] 5 = [23, 3, 3, 0, 33] := rfl
      have hbody : tcpRecvWait (serverRecord tlsDone (List.replicate 17 0x41)) 33 =
          serverRecord tlsDone (List.replicate 17 0x41) := List.take_of_length_le hlen.le
      have hfull : recordLen [23, 3, 3, 0, 33] = 33 := by decide
      rw [tlsRecvRecord]
      dsimp only
      rw [hheader, hfull, hbody, if_neg (by decide), if_neg (by decide), if_neg (by omega)]
      rfl
    rw [tlsRecv_inside_iff]
    intro hfits
    have hle := hfits _ _ hrecv (serverRecord_accepts rfl _)
    rw [hlen] at hle
    exact absurd hle (by decide)
  · rw [tlsSend_inside_iff]
    intro h
    exact absurd (h rfl) (by decide)
  · rw [tlsSendRecord_inside_iff]
    decide

end Lestra
