import Mathlib.Data.List.TakeWhile
import Lestra.Lib.Sink
import Lestra.Lib.VarArgs

/-!
# Formatted output of the kernel

`ksnprintf` of `kernel/core/printk.c`: one loop over the format, with the digits of a number
written to `tmp` from the lowest on and then reversed. `none` stands for a read behind the
terminator of the format.
-/

namespace Lestra

open VarArgs Sink

-- ---------------------------------------------------------------------------
-- Directives
-- ---------------------------------------------------------------------------

/-- What is skipped behind the `%`. -/
def isKSkip (c : UInt8) : Bool :=
  c = '-'.toUInt8 || c = '+'.toUInt8 || c = ' '.toUInt8 || c = '#'.toUInt8 ||
    ('0'.toUInt8 ≤ c && c ≤ '9'.toUInt8) || c = '.'.toUInt8

/-- `is_long`, and the format behind the modifier. -/
def kLength (p : List UInt8) : ℕ × List UInt8 :=
  match p with
  | [] => (0, [])
  | c :: p' =>
    if c = 'l'.toUInt8 then
      if p'.head? = some 'l'.toUInt8 then (2, p'.tail) else (1, p')
    else if c = 'z'.toUInt8 then (1, p')
    else (0, p)

/-- From behind the `%` to the specifier. -/
def kDirective (p : List UInt8) : ℕ × List UInt8 := kLength (p.dropWhile isKSkip)

/-- The bits of an integer argument. -/
def kBits (isLong : ℕ) : ℕ := if isLong = 0 then 32 else 64

-- ---------------------------------------------------------------------------
-- Emitting
-- ---------------------------------------------------------------------------

/-- `while (u) { tmp[tlen++] = '0' + (u % 10); u /= 10; }` -/
def kDecimal (u : ℕ) : List UInt8 :=
  if _h : u = 0 then [] else UInt8.ofNat ('0'.toNat + u % 10) :: kDecimal (u / 10)
termination_by u
decreasing_by omega

/-- `while (v) { tmp[tlen++] = digits[v & 0xF]; v >>= 4; }` -/
def kHex (digits : List UInt8) (v : ℕ) : List UInt8 :=
  if _h : v = 0 then [] else digits.getD (v &&& 0xF) 0 :: kHex digits (v >>> 4)
termination_by v
decreasing_by
  rw [Nat.shiftRight_eq_div_pow]
  omega

/-- `tmp` after the loop: `'0'` for a zero. -/
def kZero (u : ℕ) (digits : List UInt8) : List UInt8 :=
  if u = 0 then '0'.toUInt8 :: digits else digits

/-- `(null)` -/
def kNull : List UInt8 := "(null)".toList.map Char.toUInt8

/-- `"0123456789ABCDEF"` or `"0123456789abcdef"` -/
def kHexDigits (upper : Bool) : List UInt8 :=
  (if upper then "0123456789ABCDEF" else "0123456789abcdef").toList.map Char.toUInt8

section Format

variable (size : ℕ) (ap : VaList)

/-- `if (i + 1 < size) buf[i] = c; i++;` -/
def kEmit (o : Out UInt8) (c : UInt8) : Out UInt8 :=
  ⟨if o.count + 1 < size then Function.update o.buf o.count c else o.buf, o.count + 1⟩

def kEmitAll (o : Out UInt8) (s : List UInt8) : Out UInt8 := s.foldl (kEmit size) o

/-- The output and the next variable argument. -/
structure KFmtState where
  out : Out UInt8
  arg : ℕ

/-- The `switch` over the specifier. -/
def kConv (isLong : ℕ) (spec : UInt8) (st : KFmtState) : KFmtState :=
  let i := st.arg
  if spec = '%'.toUInt8 then ⟨kEmit size st.out spec, i⟩
  else if spec = 'c'.toUInt8 then ⟨kEmit size st.out (ap.char i), i + 1⟩
  else if spec = 's'.toUInt8 then
    let s := if ap.slot i = 0 then kNull else ap.text (ap.slot i)
    ⟨kEmitAll size st.out s, i + 1⟩
  else if spec = 'd'.toUInt8 ∨ spec = 'i'.toUInt8 then
    let v := ap.signed (kBits isLong) i
    let u := if v < 0 then (-(v + 1)).toNat + 1 else v.toNat
    let tmp := kZero u (kDecimal u)
    let tmp := if v < 0 then tmp ++ ['-'.toUInt8] else tmp
    ⟨kEmitAll size st.out tmp.reverse, i + 1⟩
  else if spec = 'u'.toUInt8 then
    let v := ap.unsigned (kBits isLong) i
    ⟨kEmitAll size st.out (kZero v (kDecimal v)).reverse, i + 1⟩
  else if spec = 'x'.toUInt8 ∨ spec = 'X'.toUInt8 then
    let v := ap.unsigned (kBits isLong) i
    let digits := kHexDigits (decide (spec = 'X'.toUInt8))
    ⟨kEmitAll size st.out (kZero v (kHex digits v)).reverse, i + 1⟩
  else if spec = 'p'.toUInt8 then
    let v := ap.unsigned 64 i
    let o := kEmit size (kEmit size st.out '0'.toUInt8) 'x'.toUInt8
    ⟨kEmitAll size o (kZero v (kHex (kHexDigits false) v)).reverse, i + 1⟩
  else ⟨kEmit size (kEmit size st.out '%'.toUInt8) spec, i⟩

end Format

-- ---------------------------------------------------------------------------
-- ksnprintf
-- ---------------------------------------------------------------------------

theorem kLength_length (p : List UInt8) : (kLength p).2.length ≤ p.length := by
  cases p with
  | nil => exact le_rfl
  | cons c p =>
    unfold kLength
    dsimp only
    split_ifs <;> simp only [List.length_tail, List.length_cons] <;> omega

theorem kDirective_length (p : List UInt8) : (kDirective p).2.length ≤ p.length :=
  (kLength_length _).trans (List.dropWhile_sublist _).length_le

def kFmtLoop (size : ℕ) (ap : VaList) (p : List UInt8) (st : KFmtState) : Option KFmtState :=
  match p with
  | [] => some st
  | c :: p =>
    if c ≠ '%'.toUInt8 then kFmtLoop size ap p { st with out := kEmit size st.out c }
    else
      match _h : kDirective p with
      | (_, []) => none
      | (isLong, spec :: rest) => kFmtLoop size ap rest (kConv size ap isLong spec st)
termination_by p.length
decreasing_by
  · exact Nat.lt_succ_self _
  · have hlen := kDirective_length p
    rw [_h, List.length_cons] at hlen
    exact hlen.trans (Nat.le_succ _)

/-- The buffer and the result. -/
def ksnprintf (buf : ℕ → UInt8) (size : ℕ) (fmt : List UInt8) (ap : VaList) :
    Option ((ℕ → UInt8) × ℤ) :=
  match kFmtLoop size ap fmt ⟨⟨buf, 0⟩, 0⟩ with
  | none => none
  | some st =>
    let i := st.out.count
    let buf :=
      if 0 < size then Function.update st.out.buf (if i < size then i else size - 1) 0
      else st.out.buf
    some (buf, wrapInt i)

end Lestra
