import Lestra.Lib.Sink
import Lestra.Lib.VarArgs
import Lestra.Lib.Word64

/-!
# Formatted output of the C library

`vsnprintf` of `libc/src/stdio.c` with its helpers. A string is a list of bytes without its
terminator, so that a pointer at the end of the list reads a 0. The objects that `%n` stores
to and the strings of `%s` lie outside of the buffer.
-/

namespace Lestra

open Word64 VarArgs Sink

-- ---------------------------------------------------------------------------
-- Directives
-- ---------------------------------------------------------------------------

/-- `LEN_NONE` to `LEN_t` -/
inductive FmtLen where
  | none
  | l
  | ll
  | h
  | hh
  | z
  | j
  | t
  deriving DecidableEq, Repr

/-- `struct fmt_spec` -/
structure FmtSpec where
  leftAlign : Bool
  plusSign : Bool
  spaceSign : Bool
  altForm : Bool
  zeroPad : Bool
  width : ℤ
  precision : ℤ
  len : FmtLen
  deriving DecidableEq, Repr

/-- The spec after `memset`; -1 is no width and no precision. -/
def FmtSpec.start : FmtSpec := ⟨false, false, false, false, false, -1, -1, .none⟩

def parseFlags : List UInt8 → FmtSpec → List UInt8 × FmtSpec
  | [], s => ([], s)
  | c :: p, s =>
    if c = '-'.toUInt8 then parseFlags p { s with leftAlign := true }
    else if c = '+'.toUInt8 then parseFlags p { s with plusSign := true }
    else if c = ' '.toUInt8 then parseFlags p { s with spaceSign := true }
    else if c = '#'.toUInt8 then parseFlags p { s with altForm := true }
    else if c = '0'.toUInt8 then parseFlags p { s with zeroPad := true }
    else (c :: p, s)

/-- `*p >= '0' && *p <= '9'` -/
def isFmtDigit (c : UInt8) : Bool := '0'.toUInt8 ≤ c && c ≤ '9'.toUInt8

/-- The loop over the digits of a width or a precision. -/
def parseDecimal (w : ℤ) : List UInt8 → ℤ × List UInt8
  | [] => (w, [])
  | c :: p =>
    if isFmtDigit c then parseDecimal (wrapInt (w * 10 + (c.toNat - '0'.toNat))) p else (w, c :: p)

/-- `i` is the next variable argument. -/
def parseWidth (ap : VaList) (i : ℕ) (p : List UInt8) (s : FmtSpec) :
    List UInt8 × FmtSpec × ℕ :=
  match p with
  | [] => ([], s, i)
  | c :: p' =>
    if c = '*'.toUInt8 then
      let w := ap.signed 32 i
      if w < 0 then (p', { s with leftAlign := true, width := wrapInt (-w) }, i + 1)
      else (p', { s with width := w }, i + 1)
    else if isFmtDigit c then
      let (w, p) := parseDecimal 0 p
      (p, { s with width := w }, i)
    else (p, s, i)

def parsePrecision (ap : VaList) (i : ℕ) (p : List UInt8) (s : FmtSpec) :
    List UInt8 × FmtSpec × ℕ :=
  match p with
  | [] => ([], s, i)
  | c :: p' =>
    if c ≠ '.'.toUInt8 then (p, s, i)
    else if p'.head? = some '*'.toUInt8 then
      let pr := ap.signed 32 i
      (p'.tail, { s with precision := if pr < 0 then -1 else pr }, i + 1)
    else
      let (pr, p) := parseDecimal 0 p'
      (p, { s with precision := pr }, i)

def parseLength (p : List UInt8) (s : FmtSpec) : List UInt8 × FmtSpec :=
  match p with
  | [] => ([], s)
  | c :: p' =>
    if c = 'h'.toUInt8 then
      if p'.head? = some 'h'.toUInt8 then (p'.tail, { s with len := .hh })
      else (p', { s with len := .h })
    else if c = 'l'.toUInt8 then
      if p'.head? = some 'l'.toUInt8 then (p'.tail, { s with len := .ll })
      else (p', { s with len := .l })
    else if c = 'z'.toUInt8 then (p', { s with len := .z })
    else if c = 'j'.toUInt8 then (p', { s with len := .j })
    else if c = 't'.toUInt8 then (p', { s with len := .t })
    else (p, s)

/-- The four parsers one after the other. -/
def parseSpec (ap : VaList) (i : ℕ) (p : List UInt8) : List UInt8 × FmtSpec × ℕ :=
  let (p, s) := parseFlags p FmtSpec.start
  let (p, s, i) := parseWidth ap i p s
  let (p, s, i) := parsePrecision ap i p s
  let (p, s) := parseLength p s
  (p, s, i)

/-- The cases of the `switch` over the specifier. -/
inductive FmtConv where
  | signed
  | unsigned
  | hex (upper : Bool)
  | octal
  | char
  | string
  | pointer
  | percent
  | count
  | other (spec : UInt8)
  deriving DecidableEq, Repr

def fmtConv (spec : UInt8) : FmtConv :=
  if spec = 'd'.toUInt8 ∨ spec = 'i'.toUInt8 then .signed
  else if spec = 'u'.toUInt8 then .unsigned
  else if spec = 'x'.toUInt8 then .hex false
  else if spec = 'X'.toUInt8 then .hex true
  else if spec = 'o'.toUInt8 then .octal
  else if spec = 'c'.toUInt8 then .char
  else if spec = 's'.toUInt8 then .string
  else if spec = 'p'.toUInt8 then .pointer
  else if spec = '%'.toUInt8 then .percent
  else if spec = 'n'.toUInt8 then .count
  else .other spec

/-- The bits of an integer argument. -/
def FmtLen.bits : FmtLen → ℕ
  | .none => 32
  | .h => 16
  | .hh => 8
  | .l => 64
  | .ll => 64
  | .z => 64
  | .j => 64
  | .t => 64

-- ---------------------------------------------------------------------------
-- Emitting
-- ---------------------------------------------------------------------------

section Emit

-- `str` says whether the buffer is not null
variable (str : Bool) (size : ℕ)

/-- `if (out && *written < size - 1) out[*written] = c; (*written)++;` -/
def emitChar (o : Out UInt8) (c : UInt8) : Out UInt8 :=
  ⟨if str ∧ o.count < sub size 1 then Function.update o.buf o.count c else o.buf, o.count + 1⟩

def emitPadding (c : UInt8) (n : ℤ) (o : Out UInt8) : Out UInt8 :=
  (List.range n.toNat).foldl (fun o _ => emitChar str size o c) o

/-- The loop of `emit_str`, which stops at a 0. -/
def emitStrLoop : List UInt8 → ℕ → Out UInt8 → Out UInt8
  | c :: s, n + 1, o => if c = 0 then o else emitStrLoop s n (emitChar str size o c)
  | [], _, o => o
  | _, 0, o => o

def emitStr (s : List UInt8) (n : ℤ) (o : Out UInt8) : Out UInt8 :=
  emitStrLoop str size s n.toNat o

/-- `"0123456789ABCDEF"` or `"0123456789abcdef"` -/
def fmtDigits (uppercase : Bool) : List UInt8 :=
  (if uppercase then "0123456789ABCDEF" else "0123456789abcdef").toList.map Char.toUInt8

/-- The loop of `format_uint`, with the lowest digit first. -/
def formatDigits (base : ℕ) (uppercase : Bool) : ℕ → ℕ → List UInt8
  | 0, _ => []
  | room + 1, val =>
    if val = 0 then []
    else (fmtDigits uppercase).getD (val % base) 0 :: formatDigits base uppercase room (val / base)

def formatUint (val base : ℕ) (uppercase : Bool) (bufsz : ℕ) : List UInt8 :=
  if val = 0 then ['0'.toUInt8] else (formatDigits base uppercase bufsz val).reverse

/-- `(null)` -/
def nullText : List UInt8 := "(null)".toList.map Char.toUInt8

/-- `none` is a null pointer. -/
def emitStringField (s : Option (List UInt8)) (sp : FmtSpec) (o : Out UInt8) : Out UInt8 :=
  let s := s.getD nullText
  let slen := wrapInt s.length
  let slen := if 0 ≤ sp.precision ∧ sp.precision < slen then sp.precision else slen
  let pad := wrapInt (sp.width - slen)
  let pad := if pad < 0 then 0 else pad
  if sp.leftAlign then
    let o := emitStr str size s slen o
    emitPadding str size ' '.toUInt8 pad o
  else
    let o := emitPadding str size ' '.toUInt8 pad o
    emitStr str size s slen o

/-- What `emit_int_field` has computed when it begins to emit. -/
structure IntField where
  sign : List UInt8
  pre : List UInt8
  zeros : ℤ
  digits : List UInt8
  ndig : ℤ
  pad : ℤ
  useZero : Bool

def intField (uv : ℕ) (isNegative : Bool) (base : ℕ) (uppercase altForm hasSignChar : Bool)
    (signChar : UInt8) (sp : FmtSpec) : IntField :=
  let digits := formatUint uv base uppercase 32
  let ndig : ℤ := digits.length
  let minDigits := if 0 ≤ sp.precision then sp.precision else -1
  let zeros := if 0 ≤ minDigits ∧ ndig < minDigits then minDigits - ndig else 0
  let ndig := if 0 ≤ minDigits ∧ minDigits = 0 ∧ uv = 0 then 0 else ndig
  let pre :=
    if altForm ∧ base = 16 ∧ uv ≠ 0 then
      ['0'.toUInt8, if uppercase then 'X'.toUInt8 else 'x'.toUInt8]
    else if altForm ∧ base = 8 ∧ uv ≠ 0 ∧ 0 < ndig ∧ digits.head? ≠ some '0'.toUInt8 then
      ['0'.toUInt8]
    else []
  let sign := if isNegative then ['-'.toUInt8] else if hasSignChar then [signChar] else []
  let contentLen := wrapInt (sign.length + pre.length + zeros + ndig)
  let pad := wrapInt (sp.width - contentLen)
  { sign := sign
    pre := pre
    zeros := zeros
    digits := digits
    ndig := ndig
    pad := if pad < 0 then 0 else pad
    useZero := sp.zeroPad && !sp.leftAlign && decide (minDigits < 0) }

def emitIntField (uv : ℕ) (isNegative : Bool) (base : ℕ) (uppercase altForm hasSignChar : Bool)
    (signChar : UInt8) (sp : FmtSpec) (o : Out UInt8) : Out UInt8 :=
  let f := intField uv isNegative base uppercase altForm hasSignChar signChar sp
  if sp.leftAlign then
    let o := emitStr str size f.sign f.sign.length o
    let o := emitStr str size f.pre f.pre.length o
    let o := emitPadding str size '0'.toUInt8 f.zeros o
    let o := emitStr str size f.digits f.ndig o
    emitPadding str size ' '.toUInt8 f.pad o
  else if f.useZero then
    let o := emitStr str size f.sign f.sign.length o
    let o := emitStr str size f.pre f.pre.length o
    let o := emitPadding str size '0'.toUInt8 (wrapInt (f.pad + f.zeros)) o
    emitStr str size f.digits f.ndig o
  else
    let o := emitPadding str size ' '.toUInt8 f.pad o
    let o := emitStr str size f.sign f.sign.length o
    let o := emitStr str size f.pre f.pre.length o
    let o := emitPadding str size '0'.toUInt8 f.zeros o
    emitStr str size f.digits f.ndig o

/-- The case of `%c`. -/
def emitCharField (c : UInt8) (sp : FmtSpec) (o : Out UInt8) : Out UInt8 :=
  let pad := wrapInt (sp.width - 1)
  let pad := if pad < 0 then 0 else pad
  if sp.leftAlign then
    let o := emitStr str size [c] 1 o
    emitPadding str size ' '.toUInt8 pad o
  else
    let o := emitPadding str size ' '.toUInt8 pad o
    emitStr str size [c] 1 o

end Emit

-- ---------------------------------------------------------------------------
-- vsnprintf
-- ---------------------------------------------------------------------------

/-- A store of `%n`: the pointer, the bits of its object, and the value. -/
structure CountStore where
  ptr : BitVec 64
  bits : ℕ
  value : ℕ
  deriving DecidableEq, Repr

/-- The output, the next variable argument, and the stores of `%n`. -/
structure FmtState where
  out : Out UInt8
  arg : ℕ
  stores : List CountStore

/-- The arguments that the cases take. -/
def FmtConv.args : FmtConv → ℕ
  | .percent => 0
  | .other _ => 0
  | _ => 1

/-- `uv` of a negative number. -/
def magnitude (val : ℤ) : ℕ := if val < 0 then (-(val + 1)).toNat + 1 else val.toNat

section Format

variable (str : Bool) (size : ℕ) (ap : VaList)

/-- The `switch` over the specifier, for the argument `i`. -/
def emitConv (conv : FmtConv) (sp : FmtSpec) (i : ℕ) (o : Out UInt8) : Out UInt8 :=
  match conv with
  | .signed =>
    let val := ap.signed sp.len.bits i
    let neg := decide (val < 0)
    let signChar : UInt8 :=
      if neg then '-'.toUInt8 else if sp.plusSign then '+'.toUInt8
      else if sp.spaceSign then ' '.toUInt8 else 0
    let hasSign := decide (signChar ≠ 0)
    emitIntField str size (magnitude val) neg 10 false false (hasSign && !neg)
      (if sp.plusSign then '+'.toUInt8 else ' '.toUInt8) sp o
  | .unsigned =>
    emitIntField str size (ap.unsigned sp.len.bits i) false 10 false false false 0 sp o
  | .hex upper =>
    emitIntField str size (ap.unsigned sp.len.bits i) false 16 upper sp.altForm false 0 sp o
  | .octal =>
    emitIntField str size (ap.unsigned sp.len.bits i) false 8 false sp.altForm false 0 sp o
  | .char => emitCharField str size (ap.char i) sp o
  | .string =>
    let s := ap.slot i
    emitStringField str size (if s = 0 then none else some (ap.text s)) sp o
  | .pointer =>
    emitIntField str size (ap.unsigned 64 i) false 16 false true false 0
      { sp with altForm := true } o
  | .percent => emitStr str size ['%'.toUInt8] 1 o
  | .count => o
  | .other spec =>
    let o := emitStr str size ['%'.toUInt8] 1 o
    emitStr str size [spec] 1 o

/-- The format behind the directive and the state; `none` at the end of the format. -/
def handleSpecifier (p : List UInt8) (st : FmtState) : Option (List UInt8 × FmtState) :=
  let (p, sp, i) := parseSpec ap st.arg p
  match p with
  | [] => none
  | spec :: p =>
    let conv := fmtConv spec
    some (p,
      { out := emitConv str size ap conv sp i st.out
        arg := i + conv.args
        stores :=
          if conv = .count then
            st.stores ++ [⟨ap.slot i, sp.len.bits, st.out.count % 2 ^ sp.len.bits⟩]
          else st.stores })

end Format

-- ---------------------------------------------------------------------------
-- The directives get shorter
-- ---------------------------------------------------------------------------

theorem parseFlags_length (p : List UInt8) (s : FmtSpec) :
    (parseFlags p s).1.length ≤ p.length := by
  induction p generalizing s with
  | nil => exact le_rfl
  | cons c p ih =>
    unfold parseFlags
    split_ifs
    · exact (ih _).trans (Nat.le_succ _)
    · exact (ih _).trans (Nat.le_succ _)
    · exact (ih _).trans (Nat.le_succ _)
    · exact (ih _).trans (Nat.le_succ _)
    · exact (ih _).trans (Nat.le_succ _)
    · exact le_rfl

theorem parseDecimal_length (w : ℤ) (p : List UInt8) : (parseDecimal w p).2.length ≤ p.length := by
  induction p generalizing w with
  | nil => exact le_rfl
  | cons c p ih =>
    unfold parseDecimal
    split
    · exact (ih _).trans (Nat.le_succ _)
    · exact le_rfl

theorem parseWidth_length (ap : VaList) (i : ℕ) (p : List UInt8) (s : FmtSpec) :
    (parseWidth ap i p s).1.length ≤ p.length := by
  cases p with
  | nil => exact le_rfl
  | cons c p =>
    unfold parseWidth
    dsimp only
    split_ifs
    · exact Nat.le_succ _
    · exact Nat.le_succ _
    · exact parseDecimal_length _ _
    · exact le_rfl

theorem parsePrecision_length (ap : VaList) (i : ℕ) (p : List UInt8) (s : FmtSpec) :
    (parsePrecision ap i p s).1.length ≤ p.length := by
  cases p with
  | nil => exact le_rfl
  | cons c p =>
    unfold parsePrecision
    dsimp only
    split
    · exact le_rfl
    · split
      · rw [List.length_tail, List.length_cons]
        omega
      · exact (parseDecimal_length _ _).trans (Nat.le_succ _)

theorem parseLength_length (p : List UInt8) (s : FmtSpec) :
    (parseLength p s).1.length ≤ p.length := by
  cases p with
  | nil => exact le_rfl
  | cons c p =>
    unfold parseLength
    dsimp only
    split_ifs <;> simp only [List.length_tail, List.length_cons] <;> omega

theorem parseSpec_length (ap : VaList) (i : ℕ) (p : List UInt8) :
    (parseSpec ap i p).1.length ≤ p.length :=
  (parseLength_length _ _).trans ((parsePrecision_length _ _ _ _).trans
    ((parseWidth_length _ _ _ _).trans (parseFlags_length _ _)))

theorem handleSpecifier_length {str : Bool} {size : ℕ} {ap : VaList} {p p' : List UInt8}
    {st st' : FmtState} (h : handleSpecifier str size ap p st = some (p', st')) :
    p'.length < p.length := by
  have hlen := parseSpec_length ap st.arg p
  unfold handleSpecifier at h
  dsimp only at h
  split at h
  · cases h
  · next spec rest hrest =>
    obtain ⟨rfl, -⟩ := Prod.mk.inj (Option.some.inj h)
    rw [hrest, List.length_cons] at hlen
    exact hlen

-- ---------------------------------------------------------------------------
-- The loop over the format
-- ---------------------------------------------------------------------------

def fmtLoop (str : Bool) (size : ℕ) (ap : VaList) (p : List UInt8) (st : FmtState) : FmtState :=
  match p with
  | [] => st
  | c :: p =>
    if c ≠ '%'.toUInt8 then fmtLoop str size ap p { st with out := emitChar str size st.out c }
    else
      match _h : handleSpecifier str size ap p st with
      | none => st
      | some (p', st') => fmtLoop str size ap p' st'
termination_by p.length
decreasing_by
  · exact Nat.lt_succ_self _
  · exact (handleSpecifier_length _h).trans (Nat.lt_succ_self _)

/-- The buffer, the result, and the stores of `%n`. -/
def vsnprintf (str : Bool) (buf : ℕ → UInt8) (size : ℕ) (fmt : List UInt8) (ap : VaList) :
    (ℕ → UInt8) × ℤ × List CountStore :=
  let st := fmtLoop str size ap fmt ⟨⟨buf, 0⟩, 0, []⟩
  let written := st.out.count
  let buf :=
    if str ∧ 0 < size then
      let term := if written < sub size 1 then written else sub size 1
      Function.update st.out.buf term 0
    else st.out.buf
  (buf, wrapInt written, st.stores)

end Lestra
