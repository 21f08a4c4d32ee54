import Mathlib.Algebra.Group.Nat.Defs
import Mathlib.Data.Vector.Defs
import Lestra.Lib.Run

/-!
# The TLS connection

The state of the connection in `kernel/net/tls.c` and the protection of its records:
`tls_send`, `tls_recv`, `tls_close`, and the two Finished messages of the handshake. The
cipher is a parameter.
-/

namespace Lestra

abbrev Iv := Vector UInt8 12

/-- AES-128-GCM without associated data: the ciphertext and the tag; the plaintext, if the
tag is right. -/
structure Gcm where
  encrypt : (key : List UInt8) → Iv → (plaintext : List UInt8) → List UInt8 × List UInt8
  decrypt : (key : List UInt8) → Iv → (ciphertext tag : List UInt8) → Option (List UInt8)

structure TlsState where
  connected : Bool
  handshakeDone : Bool
  clientWriteKey : List UInt8
  serverWriteKey : List UInt8
  clientWriteIv : Iv
  serverWriteIv : Iv
  clientSeq : UInt64
  serverSeq : UInt64

-- ---------------------------------------------------------------------------
-- Nonces
-- ---------------------------------------------------------------------------

/-- The write IV with a sequence number XORed into its last two bytes. -/
def recordIv (iv : Iv) (seq : UInt64) : Iv :=
  let iv := iv.set 11 (iv[11] ^^^ (seq &&& 0xFF).toUInt8)
  iv.set 10 (iv[10] ^^^ ((seq >>> 8) &&& 0xFF).toUInt8)

-- ---------------------------------------------------------------------------
-- The Finished messages
-- ---------------------------------------------------------------------------

/-- The client's Finished message: the nonce is the write IV itself. -/
def tlsSealFinished (gcm : Gcm) (tls : TlsState) (finishedMsg : List UInt8) :
    TlsState × List UInt8 :=
  let tls := { tls with clientSeq := 0 }
  let (encrypted, tag) := gcm.encrypt tls.clientWriteKey tls.clientWriteIv finishedMsg
  ({ tls with clientSeq := tls.clientSeq + 1 }, encrypted ++ tag)

/-- The server's Finished message, in a record of at least 16 bytes. -/
def tlsOpenFinished (gcm : Gcm) (tls : TlsState) (rdata : List UInt8) :
    Option (TlsState × List UInt8) :=
  let ctLen := rdata.length - 16
  (gcm.decrypt tls.serverWriteKey (recordIv tls.serverWriteIv tls.serverSeq) (rdata.take ctLen)
    (rdata.drop ctLen)).map fun plaintext =>
      ({ tls with serverSeq := tls.serverSeq + 1 }, plaintext)

-- ---------------------------------------------------------------------------
-- Application data
-- ---------------------------------------------------------------------------

/-- `TLS_RECORD_APPLICATION`. -/
def tlsRecordApplication : UInt8 := 23

/-- The record that is handed to `tls_send_record`; `none` before the handshake is done. -/
def tlsSend (gcm : Gcm) (tls : TlsState) (data : List UInt8) : TlsState × Option (List UInt8) :=
  if tls.handshakeDone then
    let (encrypted, tag) :=
      gcm.encrypt tls.clientWriteKey (recordIv tls.clientWriteIv tls.clientSeq) data
    ({ tls with clientSeq := tls.clientSeq + 1 }, some (encrypted ++ tag))
  else (tls, none)

/-- `record` is what `tls_recv_record` reads, type and data; `none` is its failure. -/
def tlsRecv (gcm : Gcm) (tls : TlsState) (record : Option (UInt8 × List UInt8)) :
    TlsState × Option (List UInt8) :=
  if tls.handshakeDone then
    match record with
    | none => (tls, none)
    | some (rtype, rdata) =>
      if rtype ≠ tlsRecordApplication then (tls, none)
      else if rdata.length < 16 then (tls, none)
      else
        let ctLen := rdata.length - 16
        match gcm.decrypt tls.serverWriteKey (recordIv tls.serverWriteIv tls.serverSeq)
            (rdata.take ctLen) (rdata.drop ctLen) with
        | none => (tls, none)
        | some plaintext => ({ tls with serverSeq := tls.serverSeq + 1 }, some plaintext)
  else (tls, none)

def tlsClose (tls : TlsState) : TlsState :=
  if tls.connected then { tls with connected := false, handshakeDone := false } else tls

end Lestra
