import Mathlib.Data.Nat.Digits.Lemmas
import Lestra.Core.Printk
import Lestra.Libc.StdioText

/-!
# The two formatters

`ksnprintf` of the kernel and `vsnprintf` of the C library on the formats that both support:
ordinary characters and plain directives, without flags, width or precision.

* `plainText` — the text of such a format
* `formats_agree` — both leave the same bytes and return the same value
-/

namespace Lestra

open Word64 VarArgs Sink

-- ---------------------------------------------------------------------------
-- Plain formats
-- ---------------------------------------------------------------------------

/-- The optional modifier. -/
inductive PlainLen where
  | none
  | l
  | ll
  | z
  deriving DecidableEq, Repr

/-- The specifiers that both formatters have. -/
inductive PlainConv where
  | s
  | d
  | i
  | u
  | x
  | X
  | percent
  | c
  deriving DecidableEq, Repr

/-- An ordinary character, or a directive. -/
inductive FmtPiece where
  | ordinary (c : UInt8) (h : c ≠ '%'.toUInt8 ∧ c ≠ 0)
  | directive (m : PlainLen) (conv : PlainConv)

def PlainLen.bytes : PlainLen → List UInt8
  | .none => []
  | .l => ['l'.toUInt8]
  | .ll => ['l'.toUInt8, 'l'.toUInt8]
  | .z => ['z'.toUInt8]

def PlainConv.byte : PlainConv → UInt8
  | .s => 's'.toUInt8
  | .d => 'd'.toUInt8
  | .i => 'i'.toUInt8
  | .u => 'u'.toUInt8
  | .x => 'x'.toUInt8
  | .X => 'X'.toUInt8
  | .percent => '%'.toUInt8
  | .c => 'c'.toUInt8

/-- The bytes of the piece in the format. -/
def FmtPiece.bytes : FmtPiece → List UInt8
  | .ordinary c _ => [c]
  | .directive m conv => '%'.toUInt8 :: (m.bytes ++ [conv.byte])

def PlainLen.bits : PlainLen → ℕ
  | .none => 32
  | .l => 64
  | .ll => 64
  | .z => 64

/-- A number in the given base, with `0` for zero. -/
def numeralText (base : ℕ) (upper : Bool) (n : ℕ) : List UInt8 :=
  if n = 0 then ['0'.toUInt8]
  else ((Nat.digits base n).map fun d => (fmtDigits upper).getD d 0).reverse

def signedText (v : ℤ) : List UInt8 :=
  (if v < 0 then ['-'.toUInt8] else []) ++ numeralText 10 false v.natAbs

/-- What a directive stands for. -/
def plainConvText (ap : VaList) (i bits : ℕ) : PlainConv → List UInt8
  | .s => if ap.slot i = 0 then nullText else ap.text (ap.slot i)
  | .d => signedText (ap.signed bits i)
  | .i => signedText (ap.signed bits i)
  | .u => numeralText 10 false (ap.unsigned bits i)
  | .x => numeralText 16 false (ap.unsigned bits i)
  | .X => numeralText 16 true (ap.unsigned bits i)
  | .percent => ['%'.toUInt8]
  | .c => [ap.char i]

def PlainConv.args : PlainConv → ℕ
  | .percent => 0
  | _ => 1

def FmtPiece.text (ap : VaList) (i : ℕ) : FmtPiece → List UInt8
  | .ordinary c _ => [c]
  | .directive m conv => plainConvText ap i m.bits conv

def FmtPiece.args : FmtPiece → ℕ
  | .ordinary _ _ => 0
  | .directive _ conv => conv.args

/-- The text of a format, from the argument `i` on. -/
def plainText (ap : VaList) : ℕ → List FmtPiece → List UInt8
  | _, [] => []
  | i, piece :: pieces => piece.text ap i ++ plainText ap (i + piece.args) pieces

/-- The arguments of `%c` are not NUL. -/
def CharsOk (ap : VaList) : ℕ → List FmtPiece → Prop
  | _, [] => True
  | i, piece :: pieces =>
    (∀ m, piece = .directive m .c → ap.char i ≠ 0) ∧ CharsOk ap (i + piece.args) pieces

-- ---------------------------------------------------------------------------
-- Digits
-- ---------------------------------------------------------------------------

theorem formatDigits_eq {base : ℕ} (hbase : 1 < base) (upper : Bool) {room val : ℕ}
    (h : val < base ^ room) :
    formatDigits base upper room val =
      (Nat.digits base val).map fun d => (fmtDigits upper).getD d 0 := by
  induction room generalizing val with
  | zero =>
    obtain rfl : val = 0 := by simpa using h
    rw [formatDigits, Nat.digits_zero, List.map_nil]
  | succ room ih =>
    rw [formatDigits]
    split
    · next hzero => rw [hzero, Nat.digits_zero, List.map_nil]
    · next hzero =>
      have hdiv : val / base < base ^ room :=
        Nat.div_lt_of_lt_mul (by rwa [Nat.pow_succ, Nat.mul_comm] at h)
      rw [ih hdiv, Nat.digits_def' hbase (Nat.pos_of_ne_zero hzero), List.map_cons]

/-- The 32 bytes of `emit_int_field` hold every 64-bit number. -/
theorem formatUint_eq {base : ℕ} (hbase : 4 ≤ base) (upper : Bool) {val : ℕ}
    (h : val < 2 ^ 64) : formatUint val base upper 32 = numeralText base upper val := by
  have hroom : val < base ^ 32 :=
    calc val < 4 ^ 32 := h.trans_le (by norm_num)
      _ ≤ base ^ 32 := Nat.pow_le_pow_left hbase 32
  rw [formatUint, numeralText]
  split
  · rfl
  · rw [formatDigits_eq (by omega) upper hroom]

theorem fmtDigits_decimal : ∀ d < 10, UInt8.ofNat ('0'.toNat + d) = (fmtDigits false).getD d 0 := by
  decide

theorem kDecimal_eq (u : ℕ) :
    kDecimal u = (Nat.digits 10 u).map fun d => (fmtDigits false).getD d 0 := by
  induction u using Nat.strongRecOn with
  | ind u ih =>
    rw [kDecimal]
    split
    · next hzero => rw [hzero, Nat.digits_zero, List.map_nil]
    · next hzero =>
      rw [ih (u / 10) (by omega), Nat.digits_def' (by decide) (Nat.pos_of_ne_zero hzero),
        List.map_cons, fmtDigits_decimal _ (Nat.mod_lt _ (by decide))]

theorem kHex_eq (upper : Bool) (v : ℕ) :
    kHex (kHexDigits upper) v = (Nat.digits 16 v).map fun d => (fmtDigits upper).getD d 0 := by
  induction v using Nat.strongRecOn with
  | ind v ih =>
    have hand : v &&& 0xF = v % 16 := Nat.and_two_pow_sub_one_eq_mod v 4
    have hshift : v >>> 4 = v / 16 := Nat.shiftRight_eq_div_pow v 4
    rw [kHex, hand, hshift]
    split
    · next hzero => rw [hzero, Nat.digits_zero, List.map_nil]
    · next hzero =>
      rw [ih (v / 16) (by omega), Nat.digits_def' (by decide) (Nat.pos_of_ne_zero hzero),
        List.map_cons]
      rfl

theorem kZero_decimal (u : ℕ) : (kZero u (kDecimal u)).reverse = numeralText 10 false u := by
  rw [kZero, numeralText, kDecimal_eq]
  split
  · next hzero => rw [hzero, Nat.digits_zero]; rfl
  · rfl

theorem kZero_hex (upper : Bool) (v : ℕ) :
    (kZero v (kHex (kHexDigits upper) v)).reverse = numeralText 16 upper v := by
  rw [kZero, numeralText, kHex_eq]
  split
  · next hzero => rw [hzero, Nat.digits_zero]; rfl
  · rfl

/-- A text of digits has no NUL. -/
theorem numeralText_noNul {base : ℕ} (hlo : 1 < base) (hhi : base ≤ 16) (upper : Bool) (n : ℕ) :
    0 ∉ numeralText base upper n := by
  have hdigits : ∀ d < 16, (fmtDigits upper).getD d 0 ≠ 0 := by
    cases upper <;> decide
  rw [numeralText]
  split
  · decide
  · rw [List.mem_reverse, List.mem_map]
    rintro ⟨d, hd, hnul⟩
    exact hdigits d ((Nat.digits_lt_base hlo hd).trans_le hhi) hnul

/-- The digits of a 64-bit number are few. -/
theorem numeralText_length {base : ℕ} (hbase : 4 ≤ base) (upper : Bool) {n : ℕ} (h : n < 2 ^ 64) :
    (numeralText base upper n).length ≤ 32 := by
  have hroom : n < base ^ 32 :=
    calc n < 4 ^ 32 := h.trans_le (by norm_num)
      _ ≤ base ^ 32 := Nat.pow_le_pow_left hbase 32
  rw [numeralText]
  split
  · decide
  · rw [List.length_reverse, List.length_map]
    exact (Nat.digits_length_le_iff (by omega) n).mpr hroom

theorem magnitude_eq (v : ℤ) : magnitude v = v.natAbs := by
  rw [magnitude]
  split <;> omega

-- ---------------------------------------------------------------------------
-- The C library
-- ---------------------------------------------------------------------------

def PlainLen.len : PlainLen → FmtLen
  | .none => .none
  | .l => .l
  | .ll => .ll
  | .z => .z

/-- The spec of a plain directive. -/
def PlainLen.spec (m : PlainLen) : FmtSpec := { FmtSpec.start with len := m.len }

theorem parseSpec_plain (ap : VaList) (i : ℕ) (m : PlainLen) (conv : PlainConv)
    (rest : List UInt8) :
    parseSpec ap i (m.bytes ++ conv.byte :: rest) = (conv.byte :: rest, m.spec, i) := by
  cases m <;> cases conv <;> rfl

theorem bits_plain (m : PlainLen) : m.spec.len.bits = m.bits := by
  cases m <;> rfl

section Libc

variable {ap : VaList} {i : ℕ} {m : PlainLen}

/-- Without width and precision an integer field is its sign and its digits. -/
theorem intField_plain {uv base : ℕ} (hbase : 4 ≤ base) (huv : uv < 2 ^ 64) (neg upper : Bool)
    (signChar : UInt8) (m : PlainLen) :
    (intField uv neg base upper false false signChar m.spec).text m.spec.leftAlign =
      (if neg then ['-'.toUInt8] else []) ++ numeralText base upper uv := by
  have hlen := numeralText_length hbase upper huv
  have hsign : ((if neg then ['-'.toUInt8] else []) : List UInt8).length ≤ 1 := by
    cases neg <;> decide
  unfold intField
  rw [formatUint_eq hbase upper huv]
  have hnone : ¬ (0 : ℤ) ≤ -1 := by decide
  simp only [PlainLen.spec, FmtSpec.start, IntField.text, hnone, Bool.false_eq_true, false_and,
    if_false, Bool.false_and, List.append_nil, Nat.cast_zero, add_zero, List.length_nil]
  generalize numeralText base upper uv = digits at hlen ⊢
  generalize (if neg then ['-'.toUInt8] else [] : List UInt8) = sign at hsign ⊢
  -- the padding is negative
  have hcontent : wrapInt ((sign.length : ℤ) + digits.length) = sign.length + digits.length :=
    wrapInt_of_small (by omega) (by omega)
  have hpad : wrapInt (-1 - ((sign.length : ℤ) + digits.length)) < 0 := by
    rw [wrapInt_of_small (by omega) (by omega)]
    omega
  have hspaces : spaces 0 = [] := rfl
  have hzeroes : zeroes 0 = [] := rfl
  rw [hcontent, if_pos hpad, Int.toNat_natCast, List.take_length, hspaces, hzeroes,
    List.nil_append, List.append_nil]

theorem stringText_plain {s : List UInt8} (hs : s.length < 2 ^ 31) (m : PlainLen) :
    stringText (some s) m.spec = s := by
  have hnone : ¬ (0 : ℤ) ≤ -1 := by decide
  have hslen : wrapInt s.length = s.length := wrapInt_of_small (by omega) (by omega)
  have hpad : wrapInt (-1 - (s.length : ℤ)) < 0 := by
    rw [wrapInt_of_small (by omega) (by omega)]
    omega
  have hspaces : spaces 0 = [] := rfl
  simp only [stringText, PlainLen.spec, FmtSpec.start, Option.getD_some, hslen, hnone, false_and,
    if_false, if_pos hpad, withPadding, Bool.false_eq_true, hspaces, List.nil_append,
    Int.toNat_natCast, List.take_length]

theorem charText_plain (c : UInt8) (m : PlainLen) : charText c m.spec = [c] := rfl

theorem signOf_plain (m : PlainLen) (neg : Bool) :
    (decide (signOf m.spec neg ≠ 0) && !neg) = false := by
  cases neg <;> rfl

theorem signed_abs_lt (ap : VaList) {bits : ℕ} (hbits : bits ≤ 64) (i : ℕ) :
    (ap.signed bits i).natAbs < 2 ^ 64 := by
  have hpow : (2 : ℤ) ^ bits ≤ 2 ^ 64 := pow_le_pow_right₀ (by decide) hbits
  have hlo := BitVec.le_two_mul_toInt (x := (ap.slot i).setWidth bits)
  have hhi := BitVec.two_mul_toInt_lt (x := (ap.slot i).setWidth bits)
  rw [VaList.signed]
  omega

/-- The text of a plain directive in the C library. -/
theorem convText_plain (conv : PlainConv)
    (hlen : (plainConvText ap i m.bits conv).length < 2 ^ 31) :
    convText ap (fmtConv conv.byte) m.spec i = plainConvText ap i m.bits conv := by
  have hbits : m.bits ≤ 64 := by cases m <;> decide
  have hunsigned : ap.unsigned m.bits i < 2 ^ 64 :=
    (ap.unsigned_lt _ _).trans_le (Nat.pow_le_pow_right (by decide) hbits)
  have hsigned : convText ap .signed m.spec i = signedText (ap.signed m.bits i) := by
    rw [convText, bits_plain, signOf_plain, magnitude_eq, intField_plain (by decide) (signed_abs_lt ap hbits i)]
    rw [signedText]
    congr 1
    by_cases hneg : ap.signed m.bits i < 0
    · rw [if_pos hneg, if_pos (decide_eq_true hneg)]
    · rw [if_neg hneg, if_neg (by simpa using hneg)]
  cases conv with
  | s =>
    change stringText (if ap.slot i = 0 then none else some (ap.text (ap.slot i))) m.spec =
      if ap.slot i = 0 then nullText else ap.text (ap.slot i)
    change (if ap.slot i = 0 then nullText else ap.text (ap.slot i)).length < 2 ^ 31 at hlen
    by_cases hnull : ap.slot i = 0
    · rw [if_pos hnull] at hlen ⊢
      rw [if_pos hnull]
      exact stringText_plain hlen m
    · rw [if_neg hnull] at hlen ⊢
      rw [if_neg hnull]
      exact stringText_plain hlen m
  | d => exact hsigned
  | i => exact hsigned
  | u =>
    change (intField _ false 10 false false false 0 m.spec).text m.spec.leftAlign = _
    rw [bits_plain, intField_plain (by decide) hunsigned]
    rfl
  | x =>
    change (intField _ false 16 false false false 0 m.spec).text m.spec.leftAlign = _
    rw [bits_plain, intField_plain (by decide) hunsigned]
    rfl
  | X =>
    change (intField _ false 16 true false false 0 m.spec).text m.spec.leftAlign = _
    rw [bits_plain, intField_plain (by decide) hunsigned]
    rfl
  | percent => rfl
  | c => exact charText_plain _ m

theorem args_plain (conv : PlainConv) : (fmtConv conv.byte).args = conv.args := by
  cases conv <;> rfl

/-- The expansion of a plain format is its text. -/
theorem expandFmt_plain (ap : VaList) (pieces : List FmtPiece) (i : ℕ)
    (hlen : (plainText ap i pieces).length < 2 ^ 31) :
    expandFmt ap i (pieces.flatMap FmtPiece.bytes) = plainText ap i pieces := by
  induction pieces generalizing i with
  | nil => rw [List.flatMap_nil, expandFmt, plainText]
  | cons piece pieces ih =>
    rw [plainText, List.length_append] at hlen
    have htext := (Nat.le_add_right _ _).trans_lt hlen
    have hrest := (Nat.le_add_left _ _).trans_lt hlen
    rw [List.flatMap_cons, plainText]
    cases piece with
    | ordinary c hc =>
      change expandFmt ap i (c :: pieces.flatMap FmtPiece.bytes) = _
      rw [expandFmt_char hc.1, ih i hrest]
      rfl
    | directive m conv =>
      have hbytes : (FmtPiece.directive m conv).bytes ++ pieces.flatMap FmtPiece.bytes =
          '%'.toUInt8 :: (m.bytes ++ conv.byte :: pieces.flatMap FmtPiece.bytes) := by
        rw [FmtPiece.bytes, List.cons_append, List.append_assoc]
        rfl
      rw [hbytes, expandFmt_directive (parseSpec_plain ap i m conv _),
        convText_plain conv htext, args_plain, ih (i + conv.args) hrest]
      rfl

end Libc

-- ---------------------------------------------------------------------------
-- The kernel
-- ---------------------------------------------------------------------------

/-- `is_long` of a modifier. -/
def PlainLen.isLong : PlainLen → ℕ
  | .none => 0
  | .l => 1
  | .ll => 2
  | .z => 1

theorem kDirective_plain (m : PlainLen) (conv : PlainConv) (rest : List UInt8) :
    kDirective (m.bytes ++ conv.byte :: rest) = (m.isLong, conv.byte :: rest) := by
  cases m <;> cases conv <;> rfl

theorem kBits_plain (m : PlainLen) : kBits m.isLong = m.bits := by
  cases m <;> rfl

section Kernel

variable {size : ℕ} {ap : VaList} {i : ℕ} {m : PlainLen} {o : Out UInt8}

theorem kEmit_eq (size : ℕ) (o : Out UInt8) (c : UInt8) :
    kEmit size o c = put (size - 1) o c := by
  have hlt : (o.count + 1 < size) = (o.count < size - 1) := propext (by omega)
  unfold kEmit put
  simp only [hlt]

theorem kEmitAll_eq (size : ℕ) (o : Out UInt8) (s : List UInt8) :
    kEmitAll size o s = putAll (size - 1) o s := by
  have hput : kEmit size = put (size - 1) := funext fun o => funext fun c => kEmit_eq size o c
  rw [kEmitAll, hput]
  rfl

/-- The text of a plain directive in the kernel. -/
theorem kConv_plain (conv : PlainConv) :
    kConv size ap m.isLong conv.byte ⟨o, i⟩ =
      ⟨putAll (size - 1) o (plainConvText ap i m.bits conv), i + conv.args⟩ := by
  have hsigned : kConv size ap m.isLong 'd'.toUInt8 ⟨o, i⟩ =
      ⟨putAll (size - 1) o (signedText (ap.signed m.bits i)), i + 1⟩ := by
    have htmp : ∀ v : ℤ, (if v < 0 then kZero (magnitude v) (kDecimal (magnitude v)) ++
        ['-'.toUInt8] else kZero (magnitude v) (kDecimal (magnitude v))).reverse =
          signedText v := by
      intro v
      rw [signedText, ← magnitude_eq]
      split
      · rw [List.reverse_append, kZero_decimal]
        rfl
      · rw [kZero_decimal, List.nil_append]
    rw [← htmp, ← kEmitAll_eq, ← kBits_plain]
    rfl
  cases conv with
  | s =>
    rw [← kEmitAll_eq]
    rfl
  | d => exact hsigned
  | i => exact hsigned
  | u =>
    rw [plainConvText, ← kBits_plain, ← kZero_decimal, ← kEmitAll_eq]
    rfl
  | x =>
    rw [plainConvText, ← kBits_plain, ← kZero_hex, ← kEmitAll_eq]
    rfl
  | X =>
    rw [plainConvText, ← kBits_plain, ← kZero_hex, ← kEmitAll_eq]
    rfl
  | percent =>
    rw [← kEmitAll_eq]
    rfl
  | c =>
    rw [← kEmitAll_eq]
    rfl

/-- The loop of the kernel puts out the text of a plain format. -/
theorem kFmtLoop_plain (size : ℕ) (ap : VaList) (pieces : List FmtPiece) (i : ℕ) (o : Out UInt8) :
    ∃ j, kFmtLoop size ap (pieces.flatMap FmtPiece.bytes) ⟨o, i⟩ =
      some ⟨putAll (size - 1) o (plainText ap i pieces), j⟩ := by
  induction pieces generalizing i o with
  | nil =>
    rw [List.flatMap_nil, kFmtLoop, plainText]
    exact ⟨i, rfl⟩
  | cons piece pieces ih =>
    rw [List.flatMap_cons, plainText, putAll, List.foldl_append]
    cases piece with
    | ordinary c hc =>
      change ∃ j, kFmtLoop size ap (c :: pieces.flatMap FmtPiece.bytes) ⟨o, i⟩ = _
      rw [kFmtLoop, if_pos hc.1, kEmit_eq]
      exact ih i _
    | directive m conv =>
      have hbytes : (FmtPiece.directive m conv).bytes ++ pieces.flatMap FmtPiece.bytes =
          '%'.toUInt8 :: (m.bytes ++ conv.byte :: pieces.flatMap FmtPiece.bytes) := by
        rw [FmtPiece.bytes, List.cons_append, List.append_assoc]
        rfl
      rw [hbytes, kFmtLoop, if_neg (not_not.mpr rfl)]
      split
      · next heq =>
        rw [kDirective_plain] at heq
        cases heq
      · next heq =>
        rw [kDirective_plain] at heq
        obtain ⟨rfl, ⟨⟩⟩ := Prod.mk.inj heq
        rw [kConv_plain]
        exact ih _ _

end Kernel

-- ---------------------------------------------------------------------------
-- Agreement
-- ---------------------------------------------------------------------------

section Agree

variable {ap : VaList} {buf : ℕ → UInt8} {size : ℕ} {pieces : List FmtPiece}

theorem plainConvText_noNul {i : ℕ} {m : PlainLen} {conv : PlainConv}
    (hchar : conv = .c → ap.char i ≠ 0) : 0 ∉ plainConvText ap i m.bits conv := by
  have hsigned : ∀ v, 0 ∉ signedText v := by
    intro v
    rw [signedText, List.mem_append, not_or]
    refine ⟨?_, numeralText_noNul (by decide) (by decide) _ _⟩
    split <;> decide
  cases conv with
  | s =>
    change 0 ∉ if ap.slot i = 0 then nullText else ap.text (ap.slot i)
    split
    · decide
    · exact ap.noNul _
  | d => exact hsigned _
  | i => exact hsigned _
  | u => exact numeralText_noNul (by decide) (by decide) _ _
  | x => exact numeralText_noNul (by decide) le_rfl _ _
  | X => exact numeralText_noNul (by decide) le_rfl _ _
  | percent =>
    change 0 ∉ ['%'.toUInt8]
    decide
  | c => exact fun hmem => hchar rfl (List.mem_singleton.mp hmem).symm

theorem plainText_noNul {i : ℕ} (h : CharsOk ap i pieces) : 0 ∉ plainText ap i pieces := by
  induction pieces generalizing i with
  | nil => exact List.not_mem_nil
  | cons piece pieces ih =>
    rw [plainText, List.mem_append, not_or]
    refine ⟨?_, ih h.2⟩
    cases piece with
    | ordinary c hc => exact fun hmem => hc.2 (List.mem_singleton.mp hmem).symm
    | directive m conv => exact plainConvText_noNul fun hconv => h.1 m (by rw [hconv])

/-- **The formatters agree.** For every size above 0, every plain format and all arguments whose
expansion is below 2^31 bytes, with no NUL for `%c`, the kernel and the C library leave the same
buffer and return the same value. -/
theorem formats_agree (hpos : 0 < size) (hsize : size < 2 ^ 64) (hchars : CharsOk ap 0 pieces)
    (hlen : (plainText ap 0 pieces).length < 2 ^ 31) :
    ksnprintf buf size (pieces.flatMap FmtPiece.bytes) ap =
      some ((vsnprintf true buf size (pieces.flatMap FmtPiece.bytes) ap).1,
        (vsnprintf true buf size (pieces.flatMap FmtPiece.bytes) ap).2.1) := by
  have hexpand := expandFmt_plain ap pieces 0 hlen
  have hnul : 0 ∉ expandFmt ap 0 (pieces.flatMap FmtPiece.bytes) := by
    rw [hexpand]
    exact plainText_noNul hchars
  obtain ⟨j, hloop⟩ := kFmtLoop_plain size ap pieces 0 ⟨buf, 0⟩
  have hcount : (putAll (size - 1) ⟨buf, 0⟩ (plainText ap 0 pieces)).count =
      (plainText ap 0 pieces).length := by rw [putAll_count, Nat.zero_add]
  have hterm : ∀ n, (if n < size then n else size - 1) = min n (size - 1) := by
    intro n
    rw [min_def]
    split_ifs <;> omega
  rw [ksnprintf, hloop]
  dsimp only
  rw [if_pos hpos, hterm, Option.some.injEq, Prod.mk.injEq]
  constructor
  · funext i
    rw [vsnprintf_buf hnul hpos hsize, hexpand, ← finish_putAll, finish]
  · rw [vsnprintf_result hnul (by rwa [hexpand]), hexpand, hcount]
    exact wrapInt_of_small (by omega) (by omega)

end Agree

/-- `%d` with the argument -42. -/
def answerArgs : VaList := VaList.numbers fun _ => 0xFFFFFFD6

theorem formats_agree_answer :
    ksnprintf (fun _ => 0) 3 ([FmtPiece.directive .none .d].flatMap FmtPiece.bytes) answerArgs =
      some ((vsnprintf true (fun _ => 0) 3
          ([FmtPiece.directive .none .d].flatMap FmtPiece.bytes) answerArgs).1,
        (vsnprintf true (fun _ => 0) 3
          ([FmtPiece.directive .none .d].flatMap FmtPiece.bytes) answerArgs).2.1) :=
  formats_agree (by decide) (by decide) ⟨fun _ h => (nomatch h), trivial⟩ (by
    rw [plainText, plainText, List.append_nil]
    have hlen := @numeralText_length 10 (by decide) false _
      (signed_abs_lt answerArgs (by decide : 32 ≤ 64) 0)
    change (signedText (answerArgs.signed 32 0)).length < 2 ^ 31
    rw [signedText, List.length_append]
    have hsign : (if answerArgs.signed 32 0 < 0 then ['-'.toUInt8] else []).length ≤ 1 := by
      split <;> decide
    omega)

end Lestra
