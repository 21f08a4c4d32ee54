import Mathlib.Algebra.Group.Int.Defs
import Mathlib.Algebra.Group.Nat.Defs
import Mathlib.Tactic.Common
import Mathlib.Data.Int.Notation

/-!
# Variable arguments

The arguments of a variadic function, each passed in a 64-bit slot and read at the type that
the function asks for. A pointer to a string is a slot, and null is 0.
-/

namespace VarArgs

/-- The slots, and the strings that pointers lead to, without their terminators. -/
structure VaList where
  slot : ℕ → BitVec 64
  text : BitVec 64 → List UInt8
  noNul : ∀ p, 0 ∉ text p

/-- Slots without a string behind them. -/
def VaList.numbers (slot : ℕ → BitVec 64) : VaList := ⟨slot, fun _ => [], fun _ => List.not_mem_nil⟩

/-- The low bits as a signed number. -/
def VaList.signed (ap : VaList) (bits i : ℕ) : ℤ := ((ap.slot i).setWidth bits).toInt

/-- The low bits as an unsigned number. -/
def VaList.unsigned (ap : VaList) (bits i : ℕ) : ℕ := ((ap.slot i).setWidth bits).toNat

/-- The low byte. -/
def VaList.char (ap : VaList) (i : ℕ) : UInt8 := UInt8.ofBitVec ((ap.slot i).setWidth 8)

/-- A value stored in an `int`. -/
def wrapInt (v : ℤ) : ℤ := Int.bmod v (2 ^ 32)

theorem VaList.unsigned_lt (ap : VaList) (bits i : ℕ) : ap.unsigned bits i < 2 ^ bits :=
  BitVec.isLt _

theorem wrapInt_of_small {v : ℤ} (hlo : -2 ^ 31 ≤ v) (hhi : v < 2 ^ 31) : wrapInt v = v :=
  Int.bmod_eq_of_le (by omega) (by omega)

end VarArgs
