import Lestra.Lib.LittleEndian

/-!
# Access to user memory

The checks of `kernel/include/lestra/uaccess.h`. `copy_to_user` and
`copy_from_user` only look at the address, `put_user` and `get_user` at the whole
range; behind the check the access is taken to succeed.
-/

namespace Lestra

def errBadAddress : Int := -14

def errInvalid : Int := -22

def accessOk (addr size : BitVec 64) : Bool :=
  addr ≠ 0#64 ∧ addr < 0xFFFF800000000000#64 ∧ addr ≤ addr + size ∧
    addr + size ≤ 0x00007FFFFFFFFFFF#64

/-- Whether `copy_to_user` and `copy_from_user` accept the user address. -/
def copyUserOk (addr : BitVec 64) : Bool :=
  addr ≠ 0#64 ∧ addr < 0xFFFF800000000000#64

/-- Whether `put_user` and `get_user` accept the address of an object of `size` bytes. -/
def wordUserOk (addr size : BitVec 64) : Bool := accessOk addr size

/-- The `n` user bytes at `src`. -/
def userBytes (mem : BitVec 64 → UInt8) (src : BitVec 64) (n : ℕ) : List UInt8 :=
  (List.range n).map fun i => mem (src + BitVec.ofNat 64 i)

/-- The pointer stored at the user address `src`. -/
def userPtr (mem : BitVec 64 → UInt8) (src : BitVec 64) : BitVec 64 :=
  BitVec.ofNat 64 (LittleEndian.decode (userBytes mem src 8))

-- ---------------------------------------------------------------------------
-- Strings
-- ---------------------------------------------------------------------------

/-- The loop of `strncpy_from_user` with `n` characters left: what it copies before the
terminator, and by how much it advances `i`. -/
def strncpyLoop (mem : BitVec 64 → UInt8) : Nat → BitVec 64 → List UInt8 × Nat
  | 0, _ => ([], 0)
  | n + 1, src =>
    if mem src = 0 then ([], 1)
    else
      let (dst, i) := strncpyLoop mem n (src + 1#64)
      (mem src :: dst, i + 1)

/-- `strncpy_from_user` from the user memory `mem`: the copied string and the result. -/
def strncpyFromUser (mem : BitVec 64 → UInt8) (src : BitVec 64) (max : Nat) :
    Except Int (List UInt8 × Nat) :=
  if src = 0#64 then .error errBadAddress else .ok (strncpyLoop mem (max - 1) src)

/-- The string `s` lies at user address `src`. -/
def UserString (mem : BitVec 64 → UInt8) : BitVec 64 → List UInt8 → Prop
  | src, [] => mem src = 0
  | src, c :: s => c ≠ 0 ∧ mem src = c ∧ UserString mem (src + 1#64) s

/-- A string that does not fit is cut, and the result does not tell. -/
theorem strncpyLoop_userString {mem : BitVec 64 → UInt8} {s : List UInt8} {src : BitVec 64}
    (hs : UserString mem src s) (n : Nat) :
    strncpyLoop mem n src = (s.take n, min (s.length + 1) n) := by
  induction n generalizing s src with
  | zero => simp [strncpyLoop]
  | succ n ih =>
    cases s with
    | nil =>
      have h0 : mem src = 0 := hs
      rw [strncpyLoop, if_pos h0]
      simp
    | cons c s =>
      obtain ⟨hc, hm, hs⟩ := hs
      rw [strncpyLoop, hm, if_neg hc, ih hs, List.take_succ_cons, List.length_cons]
      simp

end Lestra
