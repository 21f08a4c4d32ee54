import Mathlib.Data.Nat.Notation
import Lestra.Lib.Fallible
import Lestra.Net.Sha256

/-!
# X.509 certificates

`x509_parse` of `kernel/net/x509.c` and its parts. A step fails where the function returns -1,
and goes wrong where it reads a byte that its buffer does not have or writes one that its array
does not have. Positions are 32-bit numbers.
-/

namespace Lestra

open Fallible

-- ---------------------------------------------------------------------------
-- The state of the parser
-- ---------------------------------------------------------------------------

/-- `struct asn1_cursor` -/
structure Asn1Cursor where
  buf : List UInt8
  len : ℕ
  pos : ℕ

/-- The two `struct x509_name` of a certificate. -/
inductive X509Name where
  | subject | issuer
  deriving DecidableEq

def x509MaxNameLen : ℕ := 128

/-- `struct x509_cert` -/
structure X509Cert where
  cn : X509Name → Vector UInt8 128
  serial : Vector UInt8 20
  tbsHash : List UInt8
  signature : Vector UInt8 256
  pubkeyN : Vector UInt8 256
  pubkeyE : UInt32

structure X509State where
  cur : Asn1Cursor
  cert : X509Cert

abbrev X509Step (α : Type) := Step X509State α

/-- The array with `bs` from `off` on, if it is that long. -/
def putBytes {n : ℕ} (v : Vector UInt8 n) (off : ℕ) (bs : List UInt8) : Option (Vector UInt8 n) :=
  if off + bs.length ≤ n then
    some (Vector.ofFn fun i => if off ≤ i ∧ i < off + bs.length then bs.getD (i - off) 0 else v[i])
  else none

/-- A change of the certificate that has to be possible. -/
def onCert (f : X509Cert → Option X509Cert) : X509Step Unit := fun s =>
  (f s.cert).map fun cert => (some (), { s with cert := cert })

def X509Cert.putCn (name : X509Name) (off : ℕ) (bs : List UInt8) (cert : X509Cert) :
    Option X509Cert :=
  (putBytes (cert.cn name) off bs).map fun cn => { cert with cn := Function.update cert.cn name cn }

-- ---------------------------------------------------------------------------
-- ASN.1
-- ---------------------------------------------------------------------------

def asn1Cur : X509Step Asn1Cursor := do
  let s ← Step.get
  pure s.cur

/-- `c->buf[i]` -/
def asn1Byte (i : ℕ) : X509Step UInt8 := do
  let c ← asn1Cur
  Step.need c.buf[i]?

/-- `c->pos = pos` -/
def asn1Seek (pos : ℕ) : X509Step Unit :=
  Step.modify fun s => { s with cur := { s.cur with pos := pos } }

/-- `c->pos += n` -/
def asn1Advance (n : ℕ) : X509Step Unit := do
  let c ← asn1Cur
  asn1Seek ((c.pos + n) % 2 ^ 32)

/-- `c->buf[c->pos++]` -/
def asn1Next : X509Step UInt8 := do
  let c ← asn1Cur
  let b ← asn1Byte c.pos
  asn1Advance 1
  pure b

/-- The source of `memcpy(out, &c->buf[pos], len)`. -/
def asn1Copy (pos len : ℕ) : X509Step (List UInt8) := do
  let c ← asn1Cur
  Step.need (if pos + len ≤ c.buf.length then some ((c.buf.drop pos).take len) else none)

/-- `memcpy` into a local array of `size` bytes. -/
def asn1CopyTo (size pos len : ℕ) : X509Step (List UInt8) := do
  let bs ← asn1Copy pos len
  Step.need (if len ≤ size then some bs else none)

def asn1ReadTag : X509Step UInt8 := do
  let c ← asn1Cur
  Step.check (c.pos < c.len)
  asn1Next

/-- A length of one byte behind 0x81. -/
def asn1ReadLength1 : X509Step ℕ := do
  let c ← asn1Cur
  Step.check (c.pos < c.len)
  let b ← asn1Next
  pure b.toNat

/-- A length of two bytes behind 0x82. -/
def asn1ReadLength2 : X509Step ℕ := do
  let c ← asn1Cur
  Step.check ((c.pos + 2) % 2 ^ 32 ≤ c.len)
  let high ← asn1Byte c.pos
  let low ← asn1Byte ((c.pos + 1) % 2 ^ 32)
  asn1Advance 2
  pure (high.toNat <<< 8 ||| low.toNat)

def asn1ReadLength : X509Step ℕ := do
  let c ← asn1Cur
  Step.check (c.pos < c.len)
  let b0 ← asn1Next
  let outLen ← (if b0 < 0x80 then pure b0.toNat else if b0 = 0x81 then asn1ReadLength1
    else if b0 = 0x82 then asn1ReadLength2 else Step.fail)
  let c ← asn1Cur
  Step.check ((c.pos + outLen) % 2 ^ 32 ≤ c.len)
  pure outLen

/-- `asn1_read_tag`, a comparison, and `asn1_read_length`, as they stand in most functions. -/
def asn1Expect (expected : UInt8) : X509Step ℕ := do
  let tag ← asn1ReadTag
  Step.check (tag = expected)
  asn1ReadLength

/-- `c->pos + len`, the end of an element. -/
def asn1End (len : ℕ) : X509Step ℕ := do
  let c ← asn1Cur
  pure ((c.pos + len) % 2 ^ 32)

-- ---------------------------------------------------------------------------
-- Names
-- ---------------------------------------------------------------------------

/-- The two string parsers are the same. They begin with a tag, although their caller has read
tag and length already. -/
def x509ParseString (name : X509Name) (max : ℕ) : X509Step Unit := do
  let _ ← asn1ReadTag
  let len ← asn1ReadLength
  let len := if max ≤ len then max - 1 else len
  let c ← asn1Cur
  let bs ← asn1Copy c.pos len
  onCert fun cert => (cert.putCn name 0 bs).bind (X509Cert.putCn name len [0])
  asn1Advance len

def x509ParsePrintableString := x509ParseString

def x509ParseUtf8String := x509ParseString

/-- `len == 3 && c->buf[c->pos] == 0x55 && ...` -/
def x509IsCn (len : ℕ) : X509Step Bool := do
  let c ← asn1Cur
  if len = 3 then do
    let b0 ← asn1Byte c.pos
    if b0 = 0x55 then do
      let b1 ← asn1Byte ((c.pos + 1) % 2 ^ 32)
      if b1 = 0x04 then do
        let b2 ← asn1Byte ((c.pos + 2) % 2 ^ 32)
        pure (b2 == 0x03)
      else pure false
    else pure false
  else pure false

/-- The value of an attribute. -/
def x509ParseValue (name : X509Name) (isCn : Bool) (attrEnd : ℕ) : X509Step Unit := do
  let tag ← asn1ReadTag
  let len ← asn1ReadLength
  let _ ← (if isCn then
      if tag = 0x13 then Step.attempt (x509ParsePrintableString name x509MaxNameLen)
      else if tag = 0x0C then Step.attempt (x509ParseUtf8String name x509MaxNameLen)
      else asn1Advance len
    else asn1Advance len)
  asn1Seek attrEnd

/-- One turn of the loop in `x509_parse_rdn`. -/
def x509ParseAttr (name : X509Name) : X509Step Unit := do
  let len ← asn1Expect 0x30
  let attrEnd ← asn1End len
  let len ← asn1Expect 0x06
  let isCn ← x509IsCn len
  asn1Advance len
  let c ← asn1Cur
  if attrEnd ≤ c.pos then pure () else x509ParseValue name isCn attrEnd

def x509ParseRdn (fuel : ℕ) (name : X509Name) : X509Step Unit := do
  let len ← asn1Expect 0x31
  let rdnEnd ← asn1End len
  Step.loop (fun s => s.cur.pos < rdnEnd) (x509ParseAttr name) fuel

def x509ParseName (fuel : ℕ) (name : X509Name) : X509Step Unit := do
  let len ← asn1Expect 0x30
  let seqEnd ← asn1End len
  Step.loop (fun s => s.cur.pos < seqEnd) (x509ParseRdn fuel name) fuel

-- ---------------------------------------------------------------------------
-- The other elements
-- ---------------------------------------------------------------------------

def x509ParseAlgorithm : X509Step Unit := do
  let len ← asn1Expect 0x30
  asn1Advance len

/-- Into an array of `size` bytes. -/
def x509ParseBitString (size max : ℕ) : X509Step (List UInt8) := do
  let len ← asn1Expect 0x03
  Step.check (1 ≤ len)
  let _ ← asn1Next
  let len := len - 1
  let len := if max < len then max else len
  let c ← asn1Cur
  let bs ← asn1CopyTo size c.pos len
  asn1Advance len
  pure bs

/-- 1 where an integer of `len` bytes begins with a zero byte. -/
def asn1LeadingZero (len : ℕ) : X509Step ℕ := do
  let c ← asn1Cur
  if 0 < len then do
    let b ← asn1Byte c.pos
    pure (if b = 0 then 1 else 0)
  else pure 0

/-- Into `cert->serial`. -/
def x509ParseInteger (max : ℕ) : X509Step Unit := do
  let len ← asn1Expect 0x02
  let start ← asn1LeadingZero len
  asn1Advance start
  let len := len - start
  let len := if max < len then max else len
  let c ← asn1Cur
  let bs ← asn1Copy c.pos len
  onCert fun cert => (putBytes cert.serial 0 bs).map fun serial => { cert with serial := serial }
  asn1Advance len

/-- `m` with another cursor in the place of `c`. -/
def withCursor {α : Type} (pk : Asn1Cursor) (m : X509Step α) : X509Step α := fun s =>
  (m { s with cur := pk }).map fun r => (r.1, { r.2 with cur := s.cur })

/-- `RSAPublicKey`, in the buffer of the bit string. -/
def x509ParseRsaKey : X509Step Unit := do
  let _ ← asn1Expect 0x30
  let len ← asn1Expect 0x02
  let start ← asn1LeadingZero len
  let len := len - start
  let len := if 256 < len then 256 else len
  let c ← asn1Cur
  let modRaw ← asn1CopyTo 256 ((c.pos + start) % 2 ^ 32) len
  onCert fun cert => (putBytes (Vector.replicate 256 0) (256 - len) modRaw).map fun n =>
    { cert with pubkeyN := n }
  asn1Advance (start + len)
  let len ← asn1Expect 0x02
  let len := if 8 < len then 8 else len
  let c ← asn1Cur
  let expRaw ← asn1CopyTo 8 c.pos len
  asn1Advance len
  onCert fun cert =>
    some { cert with pubkeyE := expRaw.foldl (fun e b => (e <<< 8) ||| b.toUInt32) 0 }

def x509ParseRsaPubkey : X509Step Unit := do
  let len ← asn1Expect 0x30
  let spkiEnd ← asn1End len
  x509ParseAlgorithm
  let bs ← x509ParseBitString 512 512
  withCursor ⟨bs, bs.length, 0⟩ x509ParseRsaKey
  asn1Seek spkiEnd

-- ---------------------------------------------------------------------------
-- Certificates
-- ---------------------------------------------------------------------------

/-- The version, or whatever element stands in its place. -/
def x509SkipElement (tag : UInt8) : X509Step Unit := do
  let found ← asn1ReadTag
  if found = tag then do
    let len ← asn1ReadLength
    asn1Advance len
  else pure ()

/-- `stack` is what the context of the hash holds before. -/
def x509ParseCert (stack : List UInt8) (fuel : ℕ) : X509Step Unit := do
  let _ ← asn1Expect 0x30
  let c ← asn1Cur
  let tbsStart := c.pos
  let len ← asn1Expect 0x30
  let tbsEnd ← asn1End len
  x509SkipElement 0xA0
  Step.attempt (x509ParseInteger 20)
  Step.attempt x509ParseAlgorithm
  Step.attempt (x509ParseName fuel .issuer)
  x509SkipElement 0x30
  Step.attempt (x509ParseName fuel .subject)
  Step.attempt x509ParseRsaPubkey
  let tbs ← asn1Copy tbsStart ((tbsEnd + 2 ^ 32 - tbsStart) % 2 ^ 32)
  onCert fun cert => some { cert with tbsHash := sha256Hash stack tbs }
  asn1Seek tbsEnd
  Step.attempt x509ParseAlgorithm
  let sigBits ← x509ParseBitString 256 256
  onCert fun cert => (putBytes (Vector.replicate 256 0) (256 - sigBits.length) sigBits).map
    fun signature => { cert with signature := signature }

/-- `memset`, and the default exponent. -/
def x509Cert0 : X509Cert where
  cn := fun _ => Vector.replicate 128 0
  serial := Vector.replicate 20 0
  tbsHash := List.replicate 32 0
  signature := Vector.replicate 256 0
  pubkeyN := Vector.replicate 256 0
  pubkeyE := 65537

/-- The result and the certificate. -/
def x509Parse (stack : List UInt8) (fuel : ℕ) (der : List UInt8) : Option (ℤ × X509Cert) :=
  (x509ParseCert stack fuel ⟨⟨der, der.length, 0⟩, x509Cert0⟩).map fun r =>
    (if r.1.isSome then 0 else -1, r.2.cert)

end Lestra
