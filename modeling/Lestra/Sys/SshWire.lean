import Mathlib.Algebra.Group.Nat.Defs
import Mathlib.Data.List.GetD
import Mathlib.Data.List.TakeWhile
import Mathlib.Tactic.Common
import Mathlib.Tactic.IntervalCases

/-!
# The data types of the SSH wire

`struct ssh_buf` and `struct ssh_rbuf` of `kernel/sys/ssh_server.c`: the writer puts fields one
after another into an array and leaves out a field that does not fit; the reader takes them out
again. Positions and lengths are 32-bit, so the bound of a string is computed modulo 2^32.

* `fields_round_trip` — what was put, in whatever order, is read back field by field.
-/

namespace Lestra

-- ---------------------------------------------------------------------------
-- Writing
-- ---------------------------------------------------------------------------

/-- The bytes written so far, from the start of an array of `cap` bytes. -/
structure SshBuf where
  data : List UInt8
  cap : ℕ

def bufInit (cap : ℕ) : SshBuf := ⟨[], cap⟩

def be32 (v : UInt32) : List UInt8 :=
  [(v >>> 24 &&& 0xFF).toUInt8, (v >>> 16 &&& 0xFF).toUInt8, (v >>> 8 &&& 0xFF).toUInt8,
    (v &&& 0xFF).toUInt8]

namespace SshBuf

def putU8 (b : SshBuf) (v : UInt8) : SshBuf :=
  if b.data.length < b.cap then { b with data := b.data ++ [v] } else b

def putU32 (b : SshBuf) (v : UInt32) : SshBuf :=
  if (b.data.length + 4) % 2 ^ 32 ≤ b.cap then { b with data := b.data ++ be32 v } else b

def putBytes (b : SshBuf) (d : List UInt8) : SshBuf :=
  if (b.data.length + d.length) % 2 ^ 32 ≤ b.cap then { b with data := b.data ++ d } else b

def putString (b : SshBuf) (d : List UInt8) : SshBuf :=
  (b.putU32 (UInt32.ofNat d.length)).putBytes d

def putBool (b : SshBuf) (v : Bool) : SshBuf := b.putU8 (if v then 1 else 0)

/-- Leading zeros are left out; a zero is put before a number whose first bit is set. -/
def putMpint (b : SshBuf) (val : List UInt8) : SshBuf :=
  match val.dropWhile (· == 0) with
  | [] => b.putU32 0
  | first :: rest =>
    if first &&& 0x80 != 0 then
      ((b.putU32 (UInt32.ofNat (rest.length + 1 + 1))).putU8 0).putBytes (first :: rest)
    else (b.putU32 (UInt32.ofNat (rest.length + 1))).putBytes (first :: rest)

end SshBuf

-- ---------------------------------------------------------------------------
-- Reading
-- ---------------------------------------------------------------------------

/-- A payload, at most as long as the receive buffer, and the position in it. -/
structure SshRbuf where
  data : List UInt8
  pos : ℕ
  short : data.length ≤ 8192
  inside : pos ≤ data.length

/-- A string of the payload: where it starts, and the length its prefix names. -/
structure SshSlice where
  start : ℕ
  len : ℕ

def u32Of (b₀ b₁ b₂ b₃ : UInt8) : UInt32 :=
  (b₀.toUInt32 <<< 24) ||| (b₁.toUInt32 <<< 16) ||| (b₂.toUInt32 <<< 8) ||| b₃.toUInt32

def rbufInit (data : List UInt8) (h : data.length ≤ 8192) : SshRbuf := ⟨data, 0, h, Nat.zero_le _⟩

namespace SshRbuf

/-- What is still to be read. -/
def rest (r : SshRbuf) : List UInt8 := r.data.drop r.pos

/-- Byte `i` from the position on, inside the payload. -/
def byte (r : SshRbuf) (i : ℕ) : UInt8 := r.data.getD (r.pos + i) 0

def getU8 (r : SshRbuf) : UInt8 × SshRbuf :=
  if h : r.pos < r.data.length then (r.byte 0, { r with pos := r.pos + 1, inside := h }) else (0, r)

def getU32 (r : SshRbuf) : UInt32 × SshRbuf :=
  if h : r.pos + 4 ≤ r.data.length then
    (u32Of (r.byte 0) (r.byte 1) (r.byte 2) (r.byte 3), { r with pos := r.pos + 4, inside := h })
  else (0, r)

def skip (r : SshRbuf) (n : ℕ) : Bool × SshRbuf :=
  if h : r.pos + n ≤ r.data.length then (true, { r with pos := r.pos + n, inside := h })
  else (false, r)

/-- The sum of the position and the length wraps, and then a string passes that reaches far
behind the payload. -/
def getString (r : SshRbuf) : Option SshSlice × SshRbuf :=
  let (n, r) := r.getU32
  if h : (r.pos + n.toNat) % 2 ^ 32 ≤ r.data.length then
    (some ⟨r.pos, n.toNat⟩, { r with pos := (r.pos + n.toNat) % 2 ^ 32, inside := h })
  else (none, r)

/-- The bytes of a string inside the payload. -/
def slice (r : SshRbuf) (s : SshSlice) : List UInt8 := (r.data.drop s.start).take s.len

/-- A string copied into an array of `cap` bytes, with a zero behind it. -/
def getCstring (r : SshRbuf) (cap : ℕ) : Option (List UInt8) × SshRbuf :=
  match r.getString with
  | (none, r') => (none, r')
  | (some s, r') => if s.len ≥ cap then (none, r') else (some (r'.slice s), r')

/-- A number into an array of `outLen` bytes; a zero in front is its sign. -/
def getMpint (r : SshRbuf) (outLen : ℕ) : Option (List UInt8) × SshRbuf :=
  let (n, r) := r.getU32
  if n = 0 then (some (List.replicate outLen 0), r)
  else if h : (r.pos + n.toNat) % 2 ^ 32 ≤ r.data.length then
    let start := if r.byte 0 = 0 ∧ 1 < n.toNat then 1 else 0
    let actual := n.toNat - start
    if actual > outLen then (none, r)
    else
      (some (List.replicate (outLen - actual) 0 ++ r.slice ⟨r.pos + start, actual⟩),
        { r with pos := (r.pos + n.toNat) % 2 ^ 32, inside := h })
  else (none, r)

end SshRbuf

-- ---------------------------------------------------------------------------
-- Fields
-- ---------------------------------------------------------------------------

inductive SshField where
  | u8 (v : UInt8)
  | u32 (v : UInt32)
  | string (d : List UInt8)
  | mpint (val : List UInt8)

/-- What a reader asks for: a number goes into an array of the given size. -/
inductive SshType where
  | u8
  | u32
  | string
  | mpint (outLen : ℕ)

def SshField.type : SshField → SshType
  | u8 _ => .u8
  | u32 _ => .u32
  | string _ => .string
  | mpint val => .mpint val.length

def SshBuf.put (b : SshBuf) : SshField → SshBuf
  | .u8 v => b.putU8 v
  | .u32 v => b.putU32 v
  | .string d => b.putString d
  | .mpint val => b.putMpint val

def SshRbuf.get (r : SshRbuf) : SshType → Option SshField × SshRbuf
  | .u8 => (some (.u8 r.getU8.1), r.getU8.2)
  | .u32 => (some (.u32 r.getU32.1), r.getU32.2)
  | .string => (r.getString.1.map fun s => .string (r.getString.2.slice s), r.getString.2)
  | .mpint outLen => ((r.getMpint outLen).1.map .mpint, (r.getMpint outLen).2)

def SshRbuf.getAll (r : SshRbuf) : List SshType → List (Option SshField) × SshRbuf
  | [] => ([], r)
  | t :: ts => ((r.get t).1 :: ((r.get t).2.getAll ts).1, ((r.get t).2.getAll ts).2)

/-- The bytes of a field. -/
def SshField.encode : SshField → List UInt8
  | u8 v => [v]
  | u32 v => be32 v
  | string d => be32 (UInt32.ofNat d.length) ++ d
  | mpint val =>
    match val.dropWhile (· == 0) with
    | [] => be32 0
    | first :: rest =>
      if first &&& 0x80 != 0 then be32 (UInt32.ofNat (rest.length + 1 + 1)) ++ 0 :: first :: rest
      else be32 (UInt32.ofNat (rest.length + 1)) ++ first :: rest

-- ---------------------------------------------------------------------------
-- The writer appends
-- ---------------------------------------------------------------------------

@[simp] theorem length_be32 (v : UInt32) : (be32 v).length = 4 := rfl

theorem u32Of_be32 (v : UInt32) : u32Of (v >>> 24 &&& 0xFF).toUInt8 (v >>> 16 &&& 0xFF).toUInt8
    (v >>> 8 &&& 0xFF).toUInt8 (v &&& 0xFF).toUInt8 = v := by
  rw [u32Of, ← UInt32.toBitVec_inj]
  refine BitVec.eq_of_getLsbD_eq fun i hi => ?_
  simp only [UInt32.toBitVec_or, UInt32.toBitVec_shiftLeft, UInt8.toBitVec_toUInt32,
    UInt32.toBitVec_toUInt8, UInt32.toBitVec_and, UInt32.toBitVec_shiftRight, BitVec.getLsbD_or,
    BitVec.getLsbD_shiftLeft, BitVec.getLsbD_setWidth, BitVec.getLsbD_and,
    show (24 : UInt32).toBitVec % 32 = 24#32 from rfl,
    show (16 : UInt32).toBitVec % 32 = 16#32 from rfl,
    show (8 : UInt32).toBitVec % 32 = 8#32 from rfl, show (255 : UInt32).toBitVec = 255#32 from rfl,
    BitVec.shiftLeft_eq', BitVec.ushiftRight_eq', BitVec.getLsbD_ushiftRight, BitVec.toNat_ofNat]
  interval_cases i <;> simp

namespace SshBuf

variable {b : SshBuf} {d : List UInt8}

theorem putU8_eq {v : UInt8} (h : b.data.length + 1 ≤ b.cap) :
    b.putU8 v = { b with data := b.data ++ [v] } := if_pos (by omega)

theorem putU32_eq {v : UInt32} (h : b.data.length + 4 ≤ b.cap) :
    b.putU32 v = { b with data := b.data ++ be32 v } :=
  if_pos ((Nat.mod_le _ _).trans h)

theorem putBytes_eq (h : b.data.length + d.length ≤ b.cap) :
    b.putBytes d = { b with data := b.data ++ d } :=
  if_pos ((Nat.mod_le _ _).trans h)

theorem putString_eq (h : b.data.length + (4 + d.length) ≤ b.cap) :
    b.putString d = { b with data := b.data ++ (be32 (UInt32.ofNat d.length) ++ d) } := by
  rw [putString, putU32_eq (by omega), putBytes_eq, List.append_assoc]
  simp only [List.length_append, length_be32]
  omega

/-- A field that fits is put whole. -/
theorem put_eq {f : SshField} (h : b.data.length + f.encode.length ≤ b.cap) :
    b.put f = { b with data := b.data ++ f.encode } := by
  cases f with
  | u8 v => exact putU8_eq h
  | u32 v => exact putU32_eq h
  | string d =>
    rw [SshField.encode, List.length_append, length_be32] at h
    exact putString_eq h
  | mpint val =>
    simp only [put, putMpint, SshField.encode] at h ⊢
    cases hval : val.dropWhile (· == 0) with
    | nil =>
      rw [hval] at h
      exact putU32_eq h
    | cons first rest =>
      rw [hval] at h
      simp only at h ⊢
      split at h
      · rw [List.length_append, length_be32] at h
        simp only [List.length_cons] at h
        rw [if_pos ‹_›, if_pos ‹_›, putU32_eq (by omega), putU8_eq, putBytes_eq]
        · simp
        · simp only [List.length_append, length_be32, List.length_cons, List.length_nil]
          omega
        · simp only [List.length_append, length_be32]
          omega
      · rw [List.length_append, length_be32] at h
        simp only [List.length_cons] at h
        rw [if_neg ‹_›, if_neg ‹_›, putU32_eq (by omega), putBytes_eq]
        · simp
        · simp only [List.length_append, length_be32, List.length_cons]
          omega

/-- What has been written lies in the array of `n` bytes. -/
def Inside (b : SshBuf) (n : ℕ) : Prop := b.cap = n ∧ b.data.length ≤ n

theorem Inside.putU8 {n : ℕ} (h : b.Inside n) (v : UInt8) : (b.putU8 v).Inside n := by
  obtain ⟨rfl, hlen⟩ := h
  unfold SshBuf.putU8
  split
  · refine ⟨rfl, ?_⟩
    simp only [List.length_append, List.length_singleton]
    omega
  · exact ⟨rfl, hlen⟩

theorem Inside.putBytes {n : ℕ} (h : b.Inside n) (hsmall : n + d.length < 2 ^ 32) :
    (b.putBytes d).Inside n := by
  obtain ⟨rfl, hlen⟩ := h
  unfold SshBuf.putBytes
  split
  · refine ⟨rfl, ?_⟩
    have hmod : (b.data.length + d.length) % 2 ^ 32 = b.data.length + d.length :=
      Nat.mod_eq_of_lt (by omega)
    simp only [List.length_append]
    omega
  · exact ⟨rfl, hlen⟩

theorem Inside.putU32 {n : ℕ} (h : b.Inside n) (hsmall : n + 4 < 2 ^ 32) (v : UInt32) :
    (b.putU32 v).Inside n := h.putBytes (d := be32 v) hsmall

/-- A field is put whole, or in part, or not at all, but never past the end of the array. -/
theorem Inside.put {n : ℕ} {f : SshField} (h : b.Inside n) (hsmall : n + f.encode.length < 2 ^ 32) :
    (b.put f).Inside n := by
  cases f with
  | u8 v => exact h.putU8 v
  | u32 v => exact h.putU32 hsmall v
  | string d =>
    rw [SshField.encode, List.length_append, length_be32] at hsmall
    exact (h.putU32 (by omega) _).putBytes (by omega)
  | mpint val =>
    simp only [SshBuf.put, putMpint, SshField.encode] at hsmall ⊢
    cases hval : val.dropWhile (· == 0) with
    | nil =>
      rw [hval] at hsmall
      exact h.putU32 hsmall 0
    | cons first rest =>
      rw [hval] at hsmall
      simp only at hsmall ⊢
      split at hsmall
      · rw [List.length_append, length_be32] at hsmall
        simp only [List.length_cons] at hsmall
        rw [if_pos ‹_›]
        refine ((h.putU32 (by omega) _).putU8 0).putBytes ?_
        simp only [List.length_cons]
        omega
      · rw [List.length_append, length_be32] at hsmall
        simp only [List.length_cons] at hsmall
        rw [if_neg ‹_›]
        refine (h.putU32 (by omega) _).putBytes ?_
        simp only [List.length_cons]
        omega

theorem putAll_eq (fs : List SshField) (h : b.data.length + (fs.flatMap SshField.encode).length ≤ b.cap) :
    fs.foldl put b = { b with data := b.data ++ fs.flatMap SshField.encode } := by
  induction fs generalizing b with
  | nil => simp
  | cons f fs ih =>
    rw [List.flatMap_cons, List.length_append] at h
    rw [List.foldl_cons, put_eq (by omega), ih, List.flatMap_cons, List.append_assoc]
    simp only [List.length_append]
    omega

end SshBuf

-- ---------------------------------------------------------------------------
-- The reader takes the front off
-- ---------------------------------------------------------------------------

namespace SshRbuf

variable {r : SshRbuf} {tail d : List UInt8}

theorem length_rest (r : SshRbuf) : r.rest.length = r.data.length - r.pos := List.length_drop

theorem byte_of_rest {i : ℕ} (h : r.rest = d) : r.byte i = d.getD i 0 := by
  rw [byte, ← h, rest, List.getD_eq_getElem?_getD, List.getD_eq_getElem?_getD, List.getElem?_drop]

theorem getU8_of_rest {v : UInt8} (h : r.rest = v :: tail) :
    r.getU8.1 = v ∧ r.getU8.2.rest = tail ∧ r.getU8.2.data = r.data := by
  have hlen : r.pos < r.data.length := by
    have := congrArg List.length h
    rw [length_rest, List.length_cons] at this
    omega
  rw [getU8, dif_pos hlen]
  refine ⟨by rw [byte_of_rest h]; rfl, ?_, rfl⟩
  show r.data.drop (r.pos + 1) = tail
  rw [← List.drop_drop, ← rest, h, List.drop_one, List.tail_cons]

theorem be32_u32Of (b₀ b₁ b₂ b₃ : UInt8) : be32 (u32Of b₀ b₁ b₂ b₃) = [b₀, b₁, b₂, b₃] := by
  simp only [be32, u32Of, List.cons.injEq, and_true, ← UInt8.toBitVec_inj]
  refine ⟨?_, ?_, ?_, ?_⟩
  all_goals
    refine BitVec.eq_of_getLsbD_eq fun i hi => ?_
    simp only [UInt32.toBitVec_or, UInt32.toBitVec_shiftLeft, UInt8.toBitVec_toUInt32,
      UInt32.toBitVec_toUInt8, UInt32.toBitVec_and, UInt32.toBitVec_shiftRight, BitVec.getLsbD_or,
      BitVec.getLsbD_shiftLeft, BitVec.getLsbD_setWidth, BitVec.getLsbD_and,
      show (24 : UInt32).toBitVec % 32 = 24#32 from rfl,
      show (16 : UInt32).toBitVec % 32 = 16#32 from rfl,
      show (8 : UInt32).toBitVec % 32 = 8#32 from rfl,
      show (255 : UInt32).toBitVec = 255#32 from rfl, BitVec.shiftLeft_eq', BitVec.ushiftRight_eq',
      BitVec.getLsbD_ushiftRight, BitVec.toNat_ofNat]
    interval_cases i <;> simp

theorem getU32_of_rest {v : UInt32} (h : r.rest = be32 v ++ tail) :
    r.getU32.1 = v ∧ r.getU32.2.rest = tail ∧ r.getU32.2.data = r.data := by
  have hlen : r.pos + 4 ≤ r.data.length := by
    have := congrArg List.length h
    rw [length_rest, List.length_append, length_be32] at this
    omega
  rw [getU32, dif_pos hlen]
  refine ⟨?_, ?_, rfl⟩
  · simp only [byte_of_rest h]
    exact u32Of_be32 v
  · show r.data.drop (r.pos + 4) = tail
    rw [← List.drop_drop, ← rest, h, ← length_be32 v, List.drop_left]

theorem front_four {l : List UInt8} (h : 4 ≤ l.length) :
    [l.getD 0 0, l.getD 1 0, l.getD 2 0, l.getD 3 0] ++ l.drop 4 = l := by
  rcases l with _ | ⟨a, _ | ⟨b, _ | ⟨c, _ | ⟨d, l⟩⟩⟩⟩
  all_goals simp at h ⊢

/-- A prefix that is there holds the four bytes, and one that is not reads as zero. -/
theorem getU32_cases (r : SshRbuf) :
    (r.rest = be32 r.getU32.1 ++ r.getU32.2.rest ∧ r.getU32.2.data = r.data) ∨
      (r.getU32 = (0, r)) := by
  by_cases hlen : r.pos + 4 ≤ r.data.length
  · refine Or.inl ?_
    rw [getU32, dif_pos hlen, be32_u32Of]
    refine ⟨?_, rfl⟩
    have hbyte : ∀ i, r.byte i = r.rest.getD i 0 := fun i => byte_of_rest rfl
    have hdrop : r.data.drop (r.pos + 4) = r.rest.drop 4 := by rw [rest, List.drop_drop]
    show r.rest = _ ++ r.data.drop (r.pos + 4)
    rw [hbyte, hbyte, hbyte, hbyte, hdrop, front_four]
    rw [length_rest]
    omega
  · exact Or.inr (dif_neg hlen)

theorem getString_of_rest (h : r.rest = be32 (UInt32.ofNat d.length) ++ (d ++ tail)) :
    ∃ s, r.getString.1 = some s ∧ r.getString.2.slice s = d ∧
      s.start + s.len ≤ r.getString.2.data.length ∧ r.getString.2.rest = tail := by
  obtain ⟨hval, hrest, hdata⟩ := getU32_of_rest h
  have hlen := congrArg List.length hrest
  rw [length_rest, List.length_append] at hlen
  have hshort := r.getU32.2.short
  have hin := r.getU32.2.inside
  have hn : r.getU32.1.toNat = d.length := by
    rw [hval, UInt32.toNat_ofNat']
    exact Nat.mod_eq_of_lt (by omega)
  have hmod : (r.getU32.2.pos + r.getU32.1.toNat) % 2 ^ 32 = r.getU32.2.pos + d.length := by
    rw [hn]
    exact Nat.mod_eq_of_lt (by omega)
  have hfits : (r.getU32.2.pos + r.getU32.1.toNat) % 2 ^ 32 ≤ r.getU32.2.data.length := by omega
  have hdrop : r.getU32.2.data.drop r.getU32.2.pos = d ++ tail := hrest
  refine ⟨⟨r.getU32.2.pos, r.getU32.1.toNat⟩, ?_, ?_, ?_, ?_⟩
  · simp only [getString]
    rw [dif_pos hfits]
  · simp only [getString]
    rw [dif_pos hfits]
    show (r.getU32.2.data.drop r.getU32.2.pos).take r.getU32.1.toNat = d
    rw [hdrop, hn, List.take_left]
  · simp only [getString]
    rw [dif_pos hfits]
    show r.getU32.2.pos + r.getU32.1.toNat ≤ r.getU32.2.data.length
    omega
  · simp only [getString]
    rw [dif_pos hfits]
    show r.getU32.2.data.drop ((r.getU32.2.pos + r.getU32.1.toNat) % 2 ^ 32) = tail
    rw [hmod, ← List.drop_drop, hdrop, List.drop_left]

/-- A number without leading zeros, with a zero for its sign or none. -/
theorem getMpint_body {pad num : List UInt8} {outLen : ℕ}
    (h : r.rest = be32 (UInt32.ofNat (pad ++ num).length) ++ ((pad ++ num) ++ tail))
    (hpad : pad = [0] ∨ pad = [] ∧ num.head? ≠ some 0) (hnum : num ≠ [])
    (hle : num.length ≤ outLen) :
    (r.getMpint outLen).1 = some (List.replicate (outLen - num.length) 0 ++ num) ∧
      (r.getMpint outLen).2.rest = tail := by
  obtain ⟨hval, hrest, -⟩ := getU32_of_rest h
  have hlen := congrArg List.length hrest
  rw [length_rest, List.length_append] at hlen
  have hshort := r.getU32.2.short
  have hin := r.getU32.2.inside
  have hpos := List.length_pos_iff.mpr hnum
  have hn : r.getU32.1.toNat = (pad ++ num).length := by
    rw [hval, UInt32.toNat_ofNat']
    exact Nat.mod_eq_of_lt (by omega)
  have hbody : (pad ++ num).length = pad.length + num.length := List.length_append
  have hne : r.getU32.1 ≠ 0 := by
    intro hzero
    rw [hzero] at hn
    simp only [UInt32.toNat_zero] at hn
    omega
  have hmod : (r.getU32.2.pos + r.getU32.1.toNat) % 2 ^ 32 =
      r.getU32.2.pos + (pad ++ num).length := by
    rw [hn]
    exact Nat.mod_eq_of_lt (by omega)
  have hstart : (if r.getU32.2.byte 0 = 0 ∧ 1 < r.getU32.1.toNat then 1 else 0) = pad.length := by
    rw [byte_of_rest hrest, hn, hbody]
    rcases hpad with rfl | ⟨rfl, hhead⟩
    · rw [if_pos]
      · rfl
      · exact ⟨rfl, by simp only [List.length_singleton]; omega⟩
    · cases num with
      | nil => exact absurd rfl hnum
      | cons first num =>
        refine if_neg fun hzero => hhead ?_
        rw [List.head?_cons, ← hzero.1]
        rfl
  have hactual : r.getU32.1.toNat - pad.length = num.length := by omega
  simp only [getMpint]
  rw [if_neg hne, dif_pos (by omega), hstart, if_neg (by omega)]
  refine ⟨?_, ?_⟩
  · show some (List.replicate (outLen - (r.getU32.1.toNat - pad.length)) 0 ++
      (r.getU32.2.data.drop (r.getU32.2.pos + pad.length)).take
        (r.getU32.1.toNat - pad.length)) = _
    rw [hactual, ← List.drop_drop, ← rest, hrest, List.append_assoc, List.drop_left, List.take_left]
  · show r.getU32.2.data.drop ((r.getU32.2.pos + r.getU32.1.toNat) % 2 ^ 32) = tail
    rw [hmod, ← List.drop_drop, ← rest, hrest, List.drop_left]

/-- A number is read back with its leading zeros. -/
theorem getMpint_of_rest {val : List UInt8} (h : r.rest = (SshField.mpint val).encode ++ tail) :
    (r.getMpint val.length).1 = some val ∧ (r.getMpint val.length).2.rest = tail := by
  have hstrip := List.takeWhile_append_dropWhile (p := fun b : UInt8 => b == 0) (l := val)
  have hzeros : val.takeWhile (fun b => b == 0) =
      List.replicate (val.takeWhile fun b => b == 0).length 0 :=
    List.eq_replicate_of_mem fun b hb => by simpa using List.mem_takeWhile_imp hb
  have hhead := List.head?_dropWhile_not (fun b : UInt8 => b == 0) val
  rw [SshField.encode] at h
  cases hval : val.dropWhile (· == 0) with
  | nil =>
    rw [hval] at h
    obtain ⟨hn, hrest, -⟩ := getU32_of_rest h
    have hall : val = List.replicate val.length 0 := by
      rw [hval, List.append_nil] at hstrip
      rw [hstrip] at hzeros
      exact hzeros
    simp only [getMpint, hn, if_true]
    exact ⟨congrArg some hall.symm, hrest⟩
  | cons first num =>
    rw [hval] at h hstrip hhead
    have hlen := congrArg List.length hstrip
    rw [List.length_append] at hlen
    have hval' : List.replicate (val.length - (first :: num).length) 0 ++ first :: num = val := by
      rw [← hlen, Nat.add_sub_cancel, ← hzeros, hstrip]
    have hfirst : (first :: num).head? ≠ some 0 := by
      rw [List.head?_cons]
      intro hzero
      rw [Option.some.inj hzero] at hhead
      simp at hhead
    simp only at h
    split at h
    · have := @getMpint_body r tail [0] (first :: num) val.length (by simpa using h) (Or.inl rfl)
        (List.cons_ne_nil first num) (by omega)
      rwa [hval'] at this
    · have := @getMpint_body r tail [] (first :: num) val.length (by simpa using h)
        (Or.inr ⟨rfl, hfirst⟩) (List.cons_ne_nil first num) (by omega)
      rwa [hval'] at this

theorem get_of_rest {f : SshField} (h : r.rest = f.encode ++ tail) :
    (r.get f.type).1 = some f ∧ (r.get f.type).2.rest = tail := by
  cases f with
  | u8 v =>
    obtain ⟨hval, hrest, -⟩ := getU8_of_rest h
    exact ⟨congrArg (some ∘ SshField.u8) hval, hrest⟩
  | u32 v =>
    obtain ⟨hval, hrest, -⟩ := getU32_of_rest h
    exact ⟨congrArg (some ∘ SshField.u32) hval, hrest⟩
  | string d =>
    rw [SshField.encode, List.append_assoc] at h
    obtain ⟨s, hs, hd, -, hrest⟩ := getString_of_rest h
    refine ⟨?_, hrest⟩
    show r.getString.1.map (fun s => SshField.string (r.getString.2.slice s)) = _
    rw [hs, Option.map_some, hd]
  | mpint val =>
    obtain ⟨hval, hrest⟩ := getMpint_of_rest h
    refine ⟨?_, hrest⟩
    show (r.getMpint val.length).1.map SshField.mpint = _
    rw [hval, Option.map_some]

theorem getAll_of_rest (fs : List SshField) (h : r.rest = fs.flatMap SshField.encode ++ tail) :
    (r.getAll (fs.map SshField.type)).1 = fs.map some ∧
      (r.getAll (fs.map SshField.type)).2.rest = tail := by
  induction fs generalizing r with
  | nil => exact ⟨rfl, h⟩
  | cons f fs ih =>
    rw [List.flatMap_cons, List.append_assoc] at h
    obtain ⟨hval, hrest⟩ := get_of_rest h
    obtain ⟨hvals, htail⟩ := ih hrest
    rw [List.map_cons, List.map_cons, getAll]
    exact ⟨by rw [hval, hvals], htail⟩

/-- A byte that is there is the first one of what is left. -/
theorem getU8_rest (r : SshRbuf) :
    r.rest = r.getU8.1 :: r.getU8.2.rest ∨ (r.rest = [] ∧ r.getU8 = (0, r)) := by
  by_cases hlen : r.pos < r.data.length
  · refine Or.inl ?_
    have hbyte : r.byte 0 = r.data[r.pos] := List.getD_eq_getElem _ _ hlen
    rw [getU8, dif_pos hlen, hbyte]
    exact (List.drop_eq_getElem_cons hlen)
  · refine Or.inr ⟨?_, dif_neg hlen⟩
    rw [← List.length_eq_zero_iff, length_rest]
    omega

/-- A copied string that is not empty stands in front of what is left. -/
theorem getCstring_rest {cap : ℕ} (hcap : cap ≤ 2 ^ 31) (h : (r.getCstring cap).1 = some d)
    (hd : d ≠ []) :
    r.rest = be32 (UInt32.ofNat d.length) ++ (d ++ (r.getCstring cap).2.rest) := by
  have hin := r.getU32.2.inside
  have hshort := r.getU32.2.short
  rw [getCstring] at h ⊢
  cases hs : r.getString with
  | mk found r' =>
    rw [hs] at h
    cases found with
    | none => cases h
    | some s =>
      simp only at h ⊢
      split at h
      · cases h
      · next hlen =>
        rw [if_neg hlen]
        obtain rfl := Option.some.inj h
        have hstring := hs
        simp only [getString] at hstring
        split at hstring
        · next hfits =>
          obtain ⟨hs', hr'⟩ := Prod.mk.inj hstring
          obtain rfl := Option.some.inj hs'
          subst hr'
          have hlt : r.getU32.1.toNat < cap := lt_of_not_ge hlen
          have hsum : (r.getU32.2.pos + r.getU32.1.toNat) % 2 ^ 32 =
              r.getU32.2.pos + r.getU32.1.toNat := Nat.mod_eq_of_lt (by omega)
          rw [hsum] at hfits
          have hslice : SshRbuf.slice { r.getU32.2 with
              pos := (r.getU32.2.pos + r.getU32.1.toNat) % 2 ^ 32, inside := by omega }
                ⟨r.getU32.2.pos, r.getU32.1.toNat⟩ = r.getU32.2.rest.take r.getU32.1.toNat := rfl
          have hrest : SshRbuf.rest { r.getU32.2 with
              pos := (r.getU32.2.pos + r.getU32.1.toNat) % 2 ^ 32, inside := by omega } =
                r.getU32.2.rest.drop r.getU32.1.toNat := by
            rw [rest, rest, List.drop_drop]
            simp only [hsum]
          have hn : (r.getU32.2.rest.take r.getU32.1.toNat).length = r.getU32.1.toNat := by
            rw [List.length_take, length_rest]
            omega
          rw [hslice] at hd ⊢
          rw [hrest, hn, UInt32.ofNat_toNat, List.take_append_drop]
          rcases getU32_cases r with ⟨heq, _⟩ | heq
          · exact heq
          · rw [heq] at hd
            exact absurd (List.take_zero) hd
        · cases hstring

end SshRbuf

/-- **Whatever fields are put into an array are read back**, in their order, and the reader ends
behind the last of them. -/
theorem ssh_fields_round_trip (cap : ℕ) (fs : List SshField)
    (hfit : (fs.flatMap SshField.encode).length ≤ cap) (r : SshRbuf)
    (hdata : r.data = (fs.foldl SshBuf.put (bufInit cap)).data) (hpos : r.pos = 0) :
    (r.getAll (fs.map SshField.type)).1 = fs.map some ∧
      (r.getAll (fs.map SshField.type)).2.rest = [] := by
  have hput := SshBuf.putAll_eq (b := bufInit cap) fs (by simpa [bufInit] using hfit)
  refine SshRbuf.getAll_of_rest fs ?_
  rw [SshRbuf.rest, hpos, List.drop_zero, hdata, hput, List.append_nil]
  rfl

/-- A name, a number with a zero in front and one whose first bit is set. -/
theorem ssh_fields_round_trip_four :
    let fs : List SshField := [.u8 31, .string [0x73, 0x73, 0x68], .mpint [0, 5], .mpint [0x80]]
    ∃ r : SshRbuf, (r.getAll (fs.map SshField.type)).1 = fs.map some ∧
      (r.getAll (fs.map SshField.type)).2.rest = [] :=
  ⟨rbufInit _ (by decide), ssh_fields_round_trip 64
    [.u8 31, .string [0x73, 0x73, 0x68], .mpint [0, 5], .mpint [0x80]] (by decide) _ rfl rfl⟩

end Lestra
