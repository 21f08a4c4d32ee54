import Mathlib.Algebra.Group.Nat.Defs
import Mathlib.Tactic.Common

/-!
# Unsigned 64-bit arithmetic on natural numbers

The values of an unsigned 64-bit type are modelled as natural numbers, and
every operation that can leave the range wraps explicitly. `alignUp` is the
usual add-then-mask idiom, so it wraps for arguments within one alignment
unit of the top of the range.
-/

namespace Word64

def add (a b : Nat) : Nat := (a + b) % 2 ^ 64

def sub (a b : Nat) : Nat := (a + (2 ^ 64 - b % 2 ^ 64)) % 2 ^ 64

def mul (a b : Nat) : Nat := (a * b) % 2 ^ 64

/-- Masking off the low bits below a power of two. -/
def alignDown (x align : Nat) : Nat := x / align * align

/-- `(x + align - 1)` computed in 64 bits, with the low bits masked off. -/
def alignUp (x align : Nat) : Nat := alignDown (add x (align - 1)) align

theorem add_of_lt {a b : Nat} (h : a + b < 2 ^ 64) : add a b = a + b := by
  unfold add
  omega

theorem mul_of_lt {a b : Nat} (h : a * b < 2 ^ 64) : mul a b = a * b :=
  Nat.mod_eq_of_lt h

theorem add_lt (a b : Nat) : add a b < 2 ^ 64 := by
  unfold add
  omega

theorem sub_of_le {a b : Nat} (ha : a < 2 ^ 64) (h : b ≤ a) : sub a b = a - b := by
  unfold sub
  omega

theorem alignUp_of_lt {x align : Nat} (h : x + (align - 1) < 2 ^ 64) :
    alignUp x align = (x + (align - 1)) / align * align := by
  rw [alignUp, alignDown, add_of_lt h]

/-- Masking off the low `k` bits of a machine word. -/
theorem toNat_and_not_mask {a m : BitVec 64} {k : Nat} (hm : m.toNat = 2 ^ k - 1) :
    (a &&& ~~~m).toNat = a.toNat / 2 ^ k * 2 ^ k := by
  have hdisj : (a &&& ~~~m) &&& (a &&& m) = 0#64 := by
    rw [BitVec.and_comm a m, BitVec.and_assoc, ← BitVec.and_assoc (~~~m), BitVec.and_comm (~~~m),
      BitVec.and_not_self]
    simp
  have hsplit : (a &&& ~~~m) + (a &&& m) = a := by
    rw [BitVec.add_eq_or_of_and_eq_zero _ _ hdisj, ← BitVec.and_or_distrib_left, BitVec.or_comm,
      BitVec.or_not_self, BitVec.and_allOnes]
  have hlow : (a &&& m).toNat = a.toNat % 2 ^ k := by
    rw [BitVec.toNat_and, hm, Nat.and_two_pow_sub_one_eq_mod]
  have hle : (a &&& ~~~m).toNat ≤ a.toNat := by
    rw [BitVec.toNat_and]
    exact Nat.and_le_left
  have hsum := congrArg BitVec.toNat hsplit
  rw [BitVec.toNat_add, hlow] at hsum
  have hmod := Nat.div_add_mod' a.toNat (2 ^ k)
  have hlt := a.isLt
  generalize a.toNat / 2 ^ k * 2 ^ k = q at hmod ⊢
  omega

end Word64
