import Lestra.Net.X509

/-!
# The bounds of the certificate parser

What holds of the cursor whenever a part of `x509_parse` begins, also behind a part that failed:
it is inside its buffer, and the buffer is the one it was. Every length that `asn1_read_length`
returns ends inside the buffer, if not inside the element around it.

* `X509State.Ok` — the invariant
* `moves_readLength`, `moves_expect` — what is known of a length
* `x509_parse_safe` — the parser returns
-/

namespace Lestra

open Fallible

-- ---------------------------------------------------------------------------
-- The invariant
-- ---------------------------------------------------------------------------

/-- A string that ends inside its array. -/
def CnEnded (cn : Vector UInt8 128) : Prop := ∃ i : Fin 128, cn[i] = 0

structure X509State.Ok (s : X509State) : Prop where
  inside : s.cur.pos ≤ s.cur.len
  whole : s.cur.len = s.cur.buf.length
  short : s.cur.len < 2 ^ 31
  ended : ∀ name, CnEnded (s.cert.cn name)

/-- Steps keep the invariant and the buffer. -/
instance : Preorder X509State where
  le s t := s.Ok → t.Ok ∧ t.cur.buf = s.cur.buf
  le_refl _ h := ⟨h, rfl⟩
  le_trans _ _ _ h h' hs :=
    ⟨(h' (h hs).1).1, (h' (h hs).1).2.trans (h hs).2⟩

def X509State.at (s : X509State) (pos : ℕ) : X509State := { s with cur := { s.cur with pos := pos } }

@[simp] theorem X509State.at_pos (s : X509State) (pos : ℕ) : (s.at pos).cur.pos = pos := rfl

@[simp] theorem X509State.at_len (s : X509State) (pos : ℕ) : (s.at pos).cur.len = s.cur.len := rfl

@[simp] theorem X509State.at_buf (s : X509State) (pos : ℕ) : (s.at pos).cur.buf = s.cur.buf := rfl

variable {s t : X509State} {pos len n i : ℕ} {α : Type} {name : X509Name}

theorem X509State.Ok.at (h : s.Ok) (hpos : pos ≤ s.cur.len) : (s.at pos).Ok :=
  ⟨hpos, h.whole, h.short, h.ended⟩

theorem X509State.Ok.mono (h : s.Ok) (hle : s ≤ t) : t.Ok := (hle h).1

theorem X509State.Ok.same_len (h : s.Ok) (hle : s ≤ t) : t.cur.len = s.cur.len := by
  rw [(hle h).1.whole, (hle h).2, h.whole]

-- ---------------------------------------------------------------------------
-- Bytes
-- ---------------------------------------------------------------------------

variable {β : Type} {W : β → X509State → Prop}

theorem moves_cur {f : Asn1Cursor → X509Step β} (h : Proceeds (f s.cur) s W) :
    Proceeds (asn1Cur >>= f) s W := Proceeds.read rfl h

theorem asn1Byte_run (hi : i < s.cur.buf.length) : asn1Byte i s = some (some s.cur.buf[i], s) :=
  Step.need_run (List.getElem?_eq_getElem hi) s

/-- A byte inside the buffer. -/
theorem moves_byte {f : UInt8 → X509Step β} (hi : i < s.cur.buf.length)
    (h : ∀ b, Proceeds (f b) s W) : Proceeds (asn1Byte i >>= f) s W :=
  Proceeds.read (asn1Byte_run hi) (h _)

theorem moves_seek {V : Unit → X509State → Prop} (hpos : s.Ok → pos ≤ s.cur.len)
    (h : V () (s.at pos)) : Proceeds (asn1Seek pos) s V :=
  Proceeds.modify (fun hs => ⟨hs.at (hpos hs), rfl⟩) h

theorem moves_advance {V : Unit → X509State → Prop} (hs : s.Ok) (hn : s.cur.pos + n ≤ s.cur.len)
    (h : V () (s.at (s.cur.pos + n))) : Proceeds (asn1Advance n) s V := by
  have hshort := hs.short
  have hwrap : (s.cur.pos + n) % 2 ^ 32 = s.cur.pos + n := Nat.mod_eq_of_lt (by omega)
  refine moves_cur ?_
  rw [hwrap]
  exact moves_seek (fun _ => hn) h

/-- The byte at the position, and the position behind it. -/
theorem moves_next {V : UInt8 → X509State → Prop} (hs : s.Ok) (hlt : s.cur.pos < s.cur.len)
    (h : ∀ b, V b (s.at (s.cur.pos + 1))) : Proceeds asn1Next s V := by
  refine moves_cur (moves_byte (hs.whole ▸ hlt) fun b => ?_)
  refine (moves_advance (V := fun _ s' => s' = s.at (s.cur.pos + 1)) hs hlt rfl).bind
    fun _ s' _ heq => ?_
  rw [heq]
  exact Proceeds.pure (h b)

theorem asn1Copy_run (hs : s.Ok) (hin : pos + len ≤ s.cur.len) :
    asn1Copy pos len s = some (some ((s.cur.buf.drop pos).take len), s) :=
  Step.need_run (if_pos (hs.whole ▸ hin)) s

theorem length_copied (hs : s.Ok) (hin : pos + len ≤ s.cur.len) :
    ((s.cur.buf.drop pos).take len).length = len := by
  have hwhole := hs.whole
  rw [List.length_take, List.length_drop]
  omega

/-- What is copied lies inside the buffer. -/
theorem moves_copy {f : List UInt8 → X509Step β} (hs : s.Ok) (hin : pos + len ≤ s.cur.len)
    (h : ∀ bs, bs.length = len → Proceeds (f bs) s W) : Proceeds (asn1Copy pos len >>= f) s W :=
  Proceeds.read (asn1Copy_run hs hin) (h _ (length_copied hs hin))

/-- And it fits into the array. -/
theorem moves_copyTo {f : List UInt8 → X509Step β} {size : ℕ} (hs : s.Ok)
    (hin : pos + len ≤ s.cur.len) (hsize : len ≤ size)
    (h : ∀ bs, bs.length = len → Proceeds (f bs) s W) : Proceeds (asn1CopyTo size pos len >>= f) s W :=
  Proceeds.read ((Step.bind_run (asn1Copy_run hs hin)).trans (Step.need_run (if_pos hsize) s))
    (h _ (length_copied hs hin))

-- ---------------------------------------------------------------------------
-- Tags and lengths
-- ---------------------------------------------------------------------------

/-- What is known behind a length: the cursor has moved on, and the element ends inside the
buffer. -/
structure Reached (s : X509State) (len : ℕ) (s' : X509State) : Prop where
  ahead : s.cur.pos < s'.cur.pos
  ends : s'.cur.pos + len ≤ s'.cur.len

theorem moves_readTag (hs : s.Ok) : Proceeds asn1ReadTag s fun _ s' => s' = s.at (s.cur.pos + 1) :=
  moves_cur (Proceeds.check fun hlt => moves_next hs hlt fun _ => rfl)

theorem moves_readLength1 (hs : s.Ok) : Proceeds asn1ReadLength1 s fun len s' =>
    s' = s.at (s.cur.pos + 1) ∧ len < 2 ^ 16 := by
  refine moves_cur (Proceeds.check fun hlt => ?_)
  refine (moves_next (V := fun _ s' => s' = s.at (s.cur.pos + 1)) hs hlt fun _ => rfl).bind
    fun b s' _ heq => Proceeds.pure ⟨heq, ?_⟩
  exact (UInt8.toNat_lt b).trans (by decide)

theorem length2_lt (high low : UInt8) : high.toNat <<< 8 ||| low.toNat < 2 ^ 16 := by
  have hhigh : high.toNat < 256 := UInt8.toNat_lt high
  have hlow : low.toNat < 256 := UInt8.toNat_lt low
  refine Nat.or_lt_two_pow ?_ (hlow.trans (by decide))
  rw [Nat.shiftLeft_eq]
  omega

theorem moves_readLength2 (hs : s.Ok) : Proceeds asn1ReadLength2 s fun len s' =>
    s' = s.at (s.cur.pos + 2) ∧ len < 2 ^ 16 := by
  have hshort := hs.short
  have hwhole := hs.whole
  have hinside := hs.inside
  refine moves_cur (Proceeds.check fun hlt => ?_)
  rw [Nat.mod_eq_of_lt (by omega)] at hlt
  refine moves_byte (by omega) fun high => ?_
  rw [Nat.mod_eq_of_lt (by omega)]
  refine moves_byte (by omega) fun low => ?_
  refine (moves_advance (V := fun _ s' => s' = s.at (s.cur.pos + 2)) hs hlt rfl).bind
    fun _ s' _ heq => Proceeds.pure ⟨heq, length2_lt high low⟩

/-- The bytes of a length, behind the first one. -/
theorem moves_lengthBytes (hs : s.Ok) (b : UInt8) :
    Proceeds (if b < 0x80 then pure b.toNat else if b = 0x81 then asn1ReadLength1
      else if b = 0x82 then asn1ReadLength2 else Step.fail) s fun len s' =>
        s.cur.pos ≤ s'.cur.pos ∧ len < 2 ^ 16 := by
  split
  · exact Proceeds.pure ⟨Nat.le_refl _, (UInt8.toNat_lt b).trans (by decide)⟩
  · split
    · refine (moves_readLength1 hs).mono fun len s' _ hV => ⟨?_, hV.2⟩
      rw [hV.1, X509State.at_pos]
      omega
    · split
      · refine (moves_readLength2 hs).mono fun len s' _ hV => ⟨?_, hV.2⟩
        rw [hV.1, X509State.at_pos]
        omega
      · exact Proceeds.fail

theorem moves_readLength (hs : s.Ok) : Proceeds asn1ReadLength s (Reached s) := by
  refine moves_cur (Proceeds.check fun hlt => ?_)
  refine (moves_next (V := fun _ s' => s' = s.at (s.cur.pos + 1)) hs hlt fun _ => rfl).bind
    fun b s₁ _ heq => ?_
  rw [heq]
  refine (moves_lengthBytes (hs.at hlt) b).bind fun len s₂ hle hlen => ?_
  have hs₂ := (hs.at hlt).mono hle
  have hinside := hs₂.inside
  have hshort := hs₂.short
  rw [X509State.at_pos] at hlen
  refine moves_cur (Proceeds.check fun hends => Proceeds.pure ⟨by omega, ?_⟩)
  rwa [Nat.mod_eq_of_lt (by omega)] at hends

/-- A tag that is expected, and the length behind it. -/
theorem moves_expect (hs : s.Ok) (tag : UInt8) : Proceeds (asn1Expect tag) s (Reached s) := by
  refine (moves_readTag hs).bind fun found s₁ hle heq => Proceeds.check fun _ => ?_
  refine (moves_readLength (hs.mono hle)).mono fun len s₂ _ hreached => ?_
  have hahead := hreached.ahead
  rw [heq, X509State.at_pos] at hahead
  exact ⟨by omega, hreached.ends⟩

theorem asn1End_run (hs : s.Ok) (hn : s.cur.pos + n ≤ s.cur.len) :
    asn1End n s = some (some (s.cur.pos + n), s) := by
  have hshort := hs.short
  have hwrap : (s.cur.pos + n) % 2 ^ 32 = s.cur.pos + n := Nat.mod_eq_of_lt (by omega)
  have hrun : asn1End n s = some (some ((s.cur.pos + n) % 2 ^ 32), s) := rfl
  rw [hrun, hwrap]

-- ---------------------------------------------------------------------------
-- Names
-- ---------------------------------------------------------------------------

theorem putBytes_some {k : ℕ} {v : Vector UInt8 k} {off : ℕ} {bs : List UInt8}
    (h : off + bs.length ≤ k) : ∃ v', putBytes v off bs = some v' ∧
      ∀ i (hi : i < k), v'[i] = if off ≤ i ∧ i < off + bs.length then bs.getD (i - off) 0 else v[i] :=
  ⟨_, if_pos h, fun i hi => by rw [Vector.getElem_ofFn]; rfl⟩

/-- A change of the certificate that leaves the names ended. -/
theorem moves_onCert {f : X509Cert → Option X509Cert} {c : X509Cert}
    (hf : f s.cert = some c) (hended : (∀ name, CnEnded (s.cert.cn name)) →
      ∀ name, CnEnded (c.cn name)) :
    Proceeds (onCert f) s fun _ s' => s'.cur = s.cur := by
  have hrun : onCert f s = some (some (), { s with cert := c }) := by
    rw [onCert, hf]
    rfl
  exact ⟨some (), _, hrun, fun hs =>
    ⟨⟨hs.inside, hs.whole, hs.short, hended hs.ended⟩, rfl⟩, fun _ _ => rfl⟩

/-- A name with its terminator. -/
theorem putCn_some (cert : X509Cert) {bs : List UInt8} (h : bs.length < 128) :
    ∃ cert', (cert.putCn name 0 bs).bind (X509Cert.putCn name bs.length [0]) = some cert' ∧
      ((∀ name, CnEnded (cert.cn name)) → ∀ name, CnEnded (cert'.cn name)) := by
  obtain ⟨cn, hcn, -⟩ := @putBytes_some _ (cert.cn name) 0 bs (by omega)
  obtain ⟨cn', hcn', hget⟩ := @putBytes_some _ cn bs.length [0]
    (by rw [List.length_singleton]; omega)
  refine ⟨{ cert with cn := Function.update (Function.update cert.cn name cn) name cn' }, ?_, ?_⟩
  · rw [X509Cert.putCn, hcn, Option.map_some, Option.bind_some, X509Cert.putCn]
    dsimp only
    rw [Function.update_self, hcn']
    rfl
  · intro hended other
    by_cases hsame : other = name
    · refine ⟨⟨bs.length, h⟩, ?_⟩
      rw [hsame]
      dsimp only
      rw [Function.update_self]
      have hzero := hget bs.length h
      rw [if_pos ⟨Nat.le_refl _, by rw [List.length_singleton]; omega⟩, Nat.sub_self] at hzero
      exact hzero
    · dsimp only
      rw [Function.update_of_ne hsame, Function.update_of_ne hsame]
      exact hended other

theorem moves_parseString (hs : s.Ok) :
    Proceeds (x509ParseString name x509MaxNameLen) s fun _ _ => True := by
  refine (moves_readTag hs).bind fun tag s₁ hle₁ _ => ?_
  have hs₁ := hs.mono hle₁
  refine (moves_readLength hs₁).bind fun len s₂ hle₂ hreached => ?_
  have hs₂ := hs₁.mono hle₂
  have hends := hreached.ends
  -- The length that is copied, in the array and in the buffer.
  have hclamp : (if x509MaxNameLen ≤ len then x509MaxNameLen - 1 else len) < 128 ∧
      (if x509MaxNameLen ≤ len then x509MaxNameLen - 1 else len) ≤ len := by
    have hmax : x509MaxNameLen = 128 := rfl
    split <;> omega
  generalize (if x509MaxNameLen ≤ len then x509MaxNameLen - 1 else len) = copied at hclamp
  refine moves_cur (moves_copy hs₂ (by omega) fun bs hbs => ?_)
  obtain ⟨cert, hcert, hended⟩ := @putCn_some name s₂.cert bs (by omega)
  rw [hbs] at hcert
  refine (moves_onCert hcert hended).bind fun _ s₃ hle₃ hcur => ?_
  exact moves_advance (hs₂.mono hle₃) (by rw [hcur]; omega) trivial

theorem x509IsCn_run (hs : s.Ok) (hn : s.cur.pos + n ≤ s.cur.len) :
    ∃ isCn, x509IsCn n s = some (some isCn, s) := by
  have hshort := hs.short
  have hwhole := hs.whole
  by_cases hlen : n = 3
  · subst hlen
    have hwrap1 : (s.cur.pos + 1) % 2 ^ 32 = s.cur.pos + 1 := Nat.mod_eq_of_lt (by omega)
    have hwrap2 : (s.cur.pos + 2) % 2 ^ 32 = s.cur.pos + 2 := Nat.mod_eq_of_lt (by omega)
    have h0 := asn1Byte_run (s := s) (i := s.cur.pos) (by omega)
    have h1 := asn1Byte_run (s := s) (i := s.cur.pos + 1) (by omega)
    have h2 := asn1Byte_run (s := s) (i := s.cur.pos + 2) (by omega)
    have hcur : asn1Cur s = some (some s.cur, s) := rfl
    rw [x509IsCn, Step.bind_run hcur, if_pos rfl, Step.bind_run h0]
    split
    · rw [hwrap1, Step.bind_run h1]
      split
      · rw [hwrap2, Step.bind_run h2]
        exact ⟨_, rfl⟩
      · exact ⟨_, rfl⟩
    · exact ⟨_, rfl⟩
  · have hcur : asn1Cur s = some (some s.cur, s) := rfl
    rw [x509IsCn, Step.bind_run hcur, if_neg hlen]
    exact ⟨_, rfl⟩

/-- A value ends where its attribute ends, wherever its own length leads. -/
theorem moves_parseValue (hs : s.Ok) {isCn : Bool} {attrEnd : ℕ} (hend : attrEnd ≤ s.cur.len) :
    Proceeds (x509ParseValue name isCn attrEnd) s fun _ s' => s'.cur.pos = attrEnd := by
  refine (moves_readTag hs).bind fun tag s₁ hle₁ _ => ?_
  have hs₁ := hs.mono hle₁
  refine (moves_readLength hs₁).bind fun len s₂ hle₂ hreached => ?_
  have hs₂ := hs₁.mono hle₂
  have hskip : Proceeds (asn1Advance len) s₂ fun _ _ => True := moves_advance hs₂ hreached.ends trivial
  have hstring : Proceeds (Step.attempt (x509ParseString name x509MaxNameLen)) s₂ fun _ _ => True :=
    (moves_parseString hs₂).attempt fun _ _ => trivial
  refine Proceeds.bind (V := fun _ _ => True) ?_ fun _ s₃ hle₃ _ => ?_
  · split
    · split
      · exact hstring
      · split
        · exact hstring
        · exact hskip
    · exact hskip
  · refine moves_seek (fun hs₃ => ?_) rfl
    rw [hs₂.same_len hle₃, hs₁.same_len hle₂, hs.same_len hle₁]
    exact hend

theorem moves_parseAttr (hs : s.Ok) :
    Proceeds (x509ParseAttr name) s fun _ s' => s.cur.pos < s'.cur.pos := by
  refine (moves_expect hs 0x30).bind fun len s₁ hle₁ hreached₁ => ?_
  have hs₁ := hs.mono hle₁
  have hahead₁ := hreached₁.ahead
  refine Proceeds.read (asn1End_run hs₁ hreached₁.ends) ?_
  refine (moves_expect hs₁ 0x06).bind fun len' s₂ hle₂ hreached₂ => ?_
  have hs₂ := hs₁.mono hle₂
  have hahead₂ := hreached₂.ahead
  have hends₂ := hreached₂.ends
  obtain ⟨isCn, hcn⟩ := x509IsCn_run hs₂ hends₂
  refine Proceeds.read hcn ?_
  refine (moves_advance (V := fun _ s' => s' = s₂.at (s₂.cur.pos + len')) hs₂ hends₂ rfl).bind
    fun _ s₃ _ heq => moves_cur ?_
  rw [heq]
  split
  · refine Proceeds.pure ?_
    rw [X509State.at_pos]
    omega
  · refine (moves_parseValue (hs₂.at hends₂) ?_).mono fun _ s₄ _ hpos => ?_
    · rw [X509State.at_len, hs₁.same_len hle₂]
      exact hreached₁.ends
    · rw [hpos]
      omega

/-- A loop over the elements up to a claimed end. -/
theorem moves_elements {body : X509Step Unit} {stop fuel : ℕ} (hs : s.Ok) (hstop : stop ≤ s.cur.len)
    (hbody : ∀ t, t.Ok → t.cur.len = s.cur.len → Proceeds body t fun _ t' => t.cur.pos < t'.cur.pos)
    (hfuel : s.cur.len ≤ fuel) :
    Proceeds (Step.loop (fun s => s.cur.pos < stop) body fuel) s fun _ s' =>
      s.cur.pos ≤ s'.cur.pos :=
  Proceeds.loop (b := stop) (fun t _ hgo => of_decide_eq_true hgo)
    (fun t hle _ => hbody t (hs.mono hle) (hs.same_len hle)) (by omega)

theorem moves_parseRdn {fuel : ℕ} (hs : s.Ok) (hfuel : s.cur.len ≤ fuel) :
    Proceeds (x509ParseRdn fuel name) s fun _ s' => s.cur.pos < s'.cur.pos := by
  refine (moves_expect hs 0x31).bind fun len s₁ hle₁ hreached => ?_
  have hs₁ := hs.mono hle₁
  refine Proceeds.read (asn1End_run hs₁ hreached.ends) ?_
  exact (moves_elements hs₁ hreached.ends (fun t ht _ => moves_parseAttr ht)
    (hs.same_len hle₁ ▸ hfuel)).mono fun _ s₂ _ hpos => hreached.ahead.trans_le hpos

theorem moves_parseName {fuel : ℕ} (hs : s.Ok) (hfuel : s.cur.len ≤ fuel) :
    Proceeds (x509ParseName fuel name) s fun _ _ => True := by
  refine (moves_expect hs 0x30).bind fun len s₁ hle₁ hreached => ?_
  have hs₁ := hs.mono hle₁
  have hlen := hs.same_len hle₁
  refine Proceeds.read (asn1End_run hs₁ hreached.ends) ?_
  exact (moves_elements hs₁ hreached.ends
    (fun t ht hsame => moves_parseRdn ht (by omega)) (by omega)).mono fun _ _ _ _ => trivial

-- ---------------------------------------------------------------------------
-- The other elements
-- ---------------------------------------------------------------------------

theorem moves_parseAlgorithm (hs : s.Ok) : Proceeds x509ParseAlgorithm s fun _ _ => True :=
  (moves_expect hs 0x30).bind fun _ _ hle hreached =>
    moves_advance (hs.mono hle) hreached.ends trivial

/-- The array takes as many bytes as are copied. -/
theorem moves_parseBitString (hs : s.Ok) (size : ℕ) : Proceeds (x509ParseBitString size size) s
    fun bs _ => bs.length ≤ size ∧ bs.length ≤ s.cur.len := by
  refine (moves_expect hs 0x03).bind fun len s₁ hle₁ hreached => Proceeds.check fun hpos => ?_
  have hs₁ := hs.mono hle₁
  have hends := hreached.ends
  refine (moves_next (V := fun _ s' => s' = s₁.at (s₁.cur.pos + 1)) hs₁ (by omega)
    fun _ => rfl).bind fun _ s₂ hle₂ heq => ?_
  have hs₂ := hs₁.mono hle₂
  have hlen := hs.same_len hle₁
  have hclamp : (if size < len - 1 then size else len - 1) ≤ size ∧
      (if size < len - 1 then size else len - 1) ≤ len - 1 := by
    split <;> omega
  dsimp only
  generalize (if size < len - 1 then size else len - 1) = copied at hclamp
  have hroom : s₂.cur.pos + copied ≤ s₂.cur.len := by
    rw [heq, X509State.at_pos, X509State.at_len]
    omega
  refine moves_cur (moves_copyTo hs₂ hroom hclamp.1 fun bs hbs => ?_)
  exact (moves_advance (V := fun _ _ => True) hs₂ hroom trivial).bind
    fun _ _ _ _ => Proceeds.pure ⟨by omega, by omega⟩

theorem asn1LeadingZero_run (hs : s.Ok) (hn : s.cur.pos + n ≤ s.cur.len) :
    ∃ start ≤ n, asn1LeadingZero n s = some (some start, s) := by
  have hcur : asn1Cur s = some (some s.cur, s) := rfl
  rw [asn1LeadingZero, Step.bind_run hcur]
  have hwhole := hs.whole
  by_cases hpos : 0 < n
  · rw [if_pos hpos, Step.bind_run (asn1Byte_run (by omega))]
    refine ⟨_, ?_, rfl⟩
    split <;> omega
  · rw [if_neg hpos]
    exact ⟨0, Nat.zero_le n, rfl⟩

theorem moves_parseInteger (hs : s.Ok) : Proceeds (x509ParseInteger 20) s fun _ _ => True := by
  refine (moves_expect hs 0x02).bind fun len s₁ hle₁ hreached => ?_
  have hs₁ := hs.mono hle₁
  have hends := hreached.ends
  obtain ⟨start, hstart, hrun⟩ := asn1LeadingZero_run hs₁ hends
  refine Proceeds.read hrun ?_
  refine (moves_advance (V := fun _ s' => s' = s₁.at (s₁.cur.pos + start)) hs₁ (by omega) rfl).bind
    fun _ s₂ hle₂ heq => ?_
  have hs₂ := hs₁.mono hle₂
  have hclamp : (if 20 < len - start then 20 else len - start) ≤ 20 ∧
      (if 20 < len - start then 20 else len - start) ≤ len - start := by
    split <;> omega
  dsimp only
  generalize (if 20 < len - start then 20 else len - start) = copied at hclamp
  have hroom : s₂.cur.pos + copied ≤ s₂.cur.len := by
    rw [heq, X509State.at_pos, X509State.at_len]
    omega
  refine moves_cur (moves_copy hs₂ hroom fun bs hbs => ?_)
  obtain ⟨serial, hserial, -⟩ := @putBytes_some _ s₂.cert.serial 0 bs (by omega)
  refine (moves_onCert (c := { s₂.cert with serial := serial }) (by rw [hserial]; rfl) id).bind fun _ s₃ hle₃ hcur => ?_
  exact moves_advance (hs₂.mono hle₃) (by rw [hcur]; exact hroom) trivial

theorem moves_parseRsaKey (hs : s.Ok) : Proceeds x509ParseRsaKey s fun _ _ => True := by
  refine (moves_expect hs 0x30).bind fun _ s₁ hle₁ _ => ?_
  have hs₁ := hs.mono hle₁
  refine (moves_expect hs₁ 0x02).bind fun len s₂ hle₂ hreached => ?_
  have hs₂ := hs₁.mono hle₂
  have hends := hreached.ends
  have hshort := hs₂.short
  obtain ⟨start, hstart, hrun⟩ := asn1LeadingZero_run hs₂ hends
  refine Proceeds.read hrun ?_
  have hclamp : (if 256 < len - start then 256 else len - start) ≤ 256 ∧
      (if 256 < len - start then 256 else len - start) ≤ len - start := by
    split <;> omega
  dsimp only
  generalize (if 256 < len - start then 256 else len - start) = copied at hclamp
  have hwrap : (s₂.cur.pos + start) % 2 ^ 32 = s₂.cur.pos + start := Nat.mod_eq_of_lt (by omega)
  refine moves_cur ?_
  rw [hwrap]
  refine moves_copyTo hs₂ (by omega) hclamp.1 fun modRaw hmod => ?_
  obtain ⟨modulus, hmodulus, -⟩ := @putBytes_some 256 (Vector.replicate 256 0)
    (256 - copied) modRaw (by omega)
  refine (moves_onCert (c := { s₂.cert with pubkeyN := modulus }) (by rw [hmodulus]; rfl) id).bind fun _ s₃ hle₃ hcur => ?_
  have hs₃ := hs₂.mono hle₃
  refine (moves_advance (V := fun _ _ => True) hs₃
    (by rw [hcur]; omega) trivial).bind fun _ s₄ hle₄ _ => ?_
  have hs₄ := hs₃.mono hle₄
  refine (moves_expect hs₄ 0x02).bind fun len' s₅ hle₅ hreached' => ?_
  have hs₅ := hs₄.mono hle₅
  have hends' := hreached'.ends
  have hclamp' : (if 8 < len' then 8 else len') ≤ 8 ∧ (if 8 < len' then 8 else len') ≤ len' := by
    split <;> omega
  generalize (if 8 < len' then 8 else len') = copied' at hclamp'
  refine moves_cur (moves_copyTo hs₅ (by omega) hclamp'.1 fun expRaw _ => ?_)
  exact (moves_advance (V := fun _ _ => True) hs₅ (by omega) trivial).bind fun _ s₆ _ _ =>
    (moves_onCert (c := { s₆.cert with
      pubkeyE := expRaw.foldl (fun e b => (e <<< 8) ||| b.toUInt32) 0 }) rfl id).mono
        fun _ _ _ _ => trivial

/-- A part that reads another buffer leaves the cursor where it was. -/
theorem moves_withCursor {pk : Asn1Cursor} {m : X509Step Unit} (hpk : pk.pos = 0)
    (hwhole : pk.len = pk.buf.length) (hshort : pk.len < 2 ^ 31)
    (h : ∀ t : X509State, t.Ok → Proceeds m t fun _ _ => True) (hs : s.Ok) :
    Proceeds (withCursor pk m) s fun _ s' => s'.cur = s.cur := by
  have hinner : ({ s with cur := pk } : X509State).Ok := ⟨by dsimp only; omega, hwhole, hshort, hs.ended⟩
  obtain ⟨r, t, hrun, hle, -⟩ := h _ hinner
  refine ⟨r, { t with cur := s.cur }, ?_, fun _ => ?_, fun _ _ => rfl⟩
  · rw [withCursor, hrun]
    rfl
  · exact ⟨⟨hs.inside, hs.whole, hs.short, (hinner.mono hle).ended⟩, rfl⟩

theorem moves_parseRsaPubkey (hs : s.Ok) : Proceeds x509ParseRsaPubkey s fun _ _ => True := by
  refine (moves_expect hs 0x30).bind fun len s₁ hle₁ hreached => ?_
  have hs₁ := hs.mono hle₁
  refine Proceeds.read (asn1End_run hs₁ hreached.ends) ?_
  refine (moves_parseAlgorithm hs₁).bind fun _ s₂ hle₂ _ => ?_
  have hs₂ := hs₁.mono hle₂
  refine (moves_parseBitString hs₂ 512).bind fun bs s₃ hle₃ hbs => ?_
  have hs₃ := hs₂.mono hle₃
  refine (moves_withCursor rfl rfl (by dsimp only; omega) (fun t ht => moves_parseRsaKey ht)
    hs₃).bind fun _ s₄ hle₄ _ => ?_
  refine moves_seek (fun hs₄ => ?_) trivial
  rw [hs₃.same_len hle₄, hs₂.same_len hle₃, hs₁.same_len hle₂]
  exact hreached.ends

-- ---------------------------------------------------------------------------
-- Certificates
-- ---------------------------------------------------------------------------

theorem moves_skipElement (hs : s.Ok) (tag : UInt8) :
    Proceeds (x509SkipElement tag) s fun _ _ => True := by
  refine (moves_readTag hs).bind fun found s₁ hle₁ _ => ?_
  have hs₁ := hs.mono hle₁
  split
  · exact (moves_readLength hs₁).bind fun _ _ hle₂ hreached =>
      moves_advance (hs₁.mono hle₂) hreached.ends trivial
  · exact Proceeds.pure trivial

theorem moves_parseCert {stack : List UInt8} {fuel : ℕ} (hs : s.Ok) (hfuel : s.cur.len ≤ fuel) :
    Proceeds (x509ParseCert stack fuel) s fun _ _ => True := by
  refine (moves_expect hs 0x30).bind fun _ s₁ hle₁ _ => moves_cur ?_
  have hs₁ := hs.mono hle₁
  refine (moves_expect hs₁ 0x30).bind fun len s₂ hle₂ hreached => ?_
  have hs₂ := hs₁.mono hle₂
  have hahead := hreached.ahead
  have hends := hreached.ends
  have hshort := hs₂.short
  refine Proceeds.read (asn1End_run hs₂ hends) ?_
  -- The parts in the middle, whatever they return.
  refine (moves_skipElement hs₂ 0xA0).bind fun _ s₃ hle₃ _ => ?_
  have hs₃ := hs₂.mono hle₃
  refine ((moves_parseInteger hs₃).attempt fun _ _ => trivial).bind fun _ s₄ hle₄ (_ : True) => ?_
  have hs₄ := hs₃.mono hle₄
  refine ((moves_parseAlgorithm hs₄).attempt fun _ _ => trivial).bind fun _ s₅ hle₅ (_ : True) => ?_
  have hs₅ := hs₄.mono hle₅
  have hlen₅ : s₅.cur.len = s₂.cur.len := by
    rw [hs₄.same_len hle₅, hs₃.same_len hle₄, hs₂.same_len hle₃]
  have hlen₂ : s₂.cur.len = s.cur.len := by
    rw [hs₁.same_len hle₂, hs.same_len hle₁]
  refine ((moves_parseName hs₅ (by omega)).attempt fun _ _ => trivial).bind
    fun _ s₆ hle₆ (_ : True) => ?_
  have hs₆ := hs₅.mono hle₆
  refine (moves_skipElement hs₆ 0x30).bind fun _ s₇ hle₇ _ => ?_
  have hs₇ := hs₆.mono hle₇
  have hlen₇ : s₇.cur.len = s₂.cur.len := by
    rw [hs₆.same_len hle₇, hs₅.same_len hle₆, hlen₅]
  refine ((moves_parseName hs₇ (by omega)).attempt fun _ _ => trivial).bind
    fun _ s₈ hle₈ (_ : True) => ?_
  have hs₈ := hs₇.mono hle₈
  refine ((moves_parseRsaPubkey hs₈).attempt fun _ _ => trivial).bind fun _ s₉ hle₉ (_ : True) => ?_
  have hs₉ := hs₈.mono hle₉
  have hlen₉ : s₉.cur.len = s₂.cur.len := by
    rw [hs₈.same_len hle₉, hs₇.same_len hle₈, hlen₇]
  -- What is hashed, and what is behind it.
  have hspan : (s₂.cur.pos + len + 2 ^ 32 - s₁.cur.pos) % 2 ^ 32 =
      s₂.cur.pos + len - s₁.cur.pos := by omega
  rw [hspan]
  refine moves_copy hs₉ (by omega) fun tbs _ => ?_
  refine (moves_onCert (c := { s₉.cert with tbsHash := sha256Hash stack tbs }) rfl id).bind
    fun _ s₁₀ hle₁₀ hcur => ?_
  have hs₁₀ := hs₉.mono hle₁₀
  refine (moves_seek (V := fun _ _ => True) (fun _ => by rw [hcur, hlen₉]; exact hends) trivial).bind
    fun _ s₁₁ hle₁₁ _ => ?_
  have hs₁₁ := hs₁₀.mono hle₁₁
  refine ((moves_parseAlgorithm hs₁₁).attempt fun _ _ => trivial).bind
    fun _ s₁₂ hle₁₂ (_ : True) => ?_
  refine (moves_parseBitString (hs₁₁.mono hle₁₂) 256).bind fun bits s₁₃ _ hbits => ?_
  obtain ⟨signature, hsignature, -⟩ :=
    @putBytes_some 256 (Vector.replicate 256 0) (256 - bits.length) bits (by omega)
  exact (moves_onCert (c := { s₁₃.cert with signature := signature }) (by rw [hsignature]; rfl)
    id).mono fun _ _ _ _ => trivial

/-- **Certificates are parsed inside their bounds.** The parser returns: it reads no byte behind
the certificate or behind the bits that it has copied, writes none behind an array, and leaves
both names with their terminators. -/
theorem x509_parse_safe (stack : List UInt8) {der : List UInt8} (h : der.length < 2 ^ 31)
    {fuel : ℕ} (hfuel : der.length ≤ fuel) : ∃ ret cert, x509Parse stack fuel der = some (ret, cert) ∧
      (ret = 0 ∨ ret = -1) ∧ ∀ name, CnEnded (cert.cn name) := by
  have hs : (⟨⟨der, der.length, 0⟩, x509Cert0⟩ : X509State).Ok :=
    ⟨Nat.zero_le _, rfl, h, fun _ => ⟨0, rfl⟩⟩
  obtain ⟨r, t, hrun, hle, -⟩ := @moves_parseCert _ stack _ hs hfuel
  refine ⟨if r.isSome then 0 else -1, t.cert, by rw [x509Parse, hrun]; rfl, ?_, (hs.mono hle).ended⟩
  cases r with
  | none => exact .inr rfl
  | some _ => exact .inl rfl

/-- Nine bytes that are accepted, although no part inside is what it should be. -/
def emptyCert : List UInt8 := [0x30, 7, 0x30, 0, 0x30, 0, 0x03, 1, 0]

theorem x509_parse_safe_empty : ∃ ret cert, x509Parse [] 9 emptyCert = some (ret, cert) ∧
    (ret = 0 ∨ ret = -1) ∧ ∀ name, CnEnded (cert.cn name) :=
  x509_parse_safe [] (by decide) (by decide)

end Lestra
