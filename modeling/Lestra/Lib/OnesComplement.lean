import Mathlib.Data.Nat.ModEq
import Mathlib.Data.List.Basic
import Mathlib.Tactic.Ring

/-!
# Sums of 16-bit words with end-around carry

The sum of the words of a byte string, and its carries added back until it fits. The folded
sum is the sum modulo 65535, with 65535 for a multiple that is not zero; so a string can be
completed to the folded sum 65535 by one word.
-/

namespace OnesComplement

/-- The sum of the words, high byte first. A single byte at the end is a high byte. -/
def sum : List UInt8 → ℕ
  | a :: b :: rest => a.toNat * 256 + b.toNat + sum rest
  | [a] => a.toNat * 256
  | [] => 0

/-- The carries are added back until there are none. -/
def fold (x : ℕ) : ℕ := if x < 65536 then x else fold (x % 65536 + x / 65536)
termination_by x
decreasing_by omega

theorem sum_le (l : List UInt8) : sum l ≤ 65535 * ((l.length + 1) / 2) := by
  induction l using sum.induct with
  | case1 a b rest ih =>
    have ha := a.toNat_lt
    have hb := b.toNat_lt
    rw [sum, List.length_cons, List.length_cons]
    omega
  | case2 a =>
    have ha := a.toNat_lt
    rw [sum, List.length_singleton]
    omega
  | case3 => exact Nat.zero_le _

theorem sum_append {l : List UInt8} (h : l.length % 2 = 0) (r : List UInt8) :
    sum (l ++ r) = sum l + sum r := by
  induction l using sum.induct with
  | case1 a b rest ih =>
    rw [List.length_cons, List.length_cons] at h
    rw [List.cons_append, List.cons_append, sum, sum, ih (by omega)]
    ring
  | case2 a => exact absurd h (by rw [List.length_singleton]; decide)
  | case3 => rw [List.nil_append, sum, Nat.zero_add]

/-- A word between two parts. -/
theorem sum_word {l : List UInt8} (h : l.length % 2 = 0) (a b : UInt8) (r : List UInt8) :
    sum (l ++ a :: b :: r) = sum l + sum r + (a.toNat * 256 + b.toNat) := by
  rw [sum_append h, sum]
  ring

theorem fold_of_lt {x : ℕ} (h : x < 65536) : fold x = x := by rw [fold, if_pos h]

theorem fold_of_le {x : ℕ} (h : 65536 ≤ x) : fold x = fold (x % 65536 + x / 65536) := by
  rw [fold, if_neg (by omega)]

theorem fold_lt (x : ℕ) : fold x < 65536 := by
  induction x using fold.induct with
  | case1 x h => rwa [fold_of_lt h]
  | case2 x h ih => rwa [fold_of_le (by omega)]

theorem fold_modEq (x : ℕ) : fold x ≡ x [MOD 65535] := by
  induction x using fold.induct with
  | case1 x h => rw [fold_of_lt h]
  | case2 x h ih =>
    rw [fold_of_le (by omega)]
    refine ih.trans ?_
    rw [Nat.ModEq]
    omega

theorem fold_eq_zero {x : ℕ} : fold x = 0 ↔ x = 0 := by
  induction x using fold.induct with
  | case1 x h => rw [fold_of_lt h]
  | case2 x h ih => rw [fold_of_le (by omega), ih]; omega

/-- **The law of verification.** The complement of a folded sum completes it. -/
theorem fold_complement (x : ℕ) : fold (x + (65535 - fold x)) = 65535 := by
  have hlt := fold_lt x
  have hmod : x % 65535 = fold x % 65535 := (fold_modEq x).symm
  have hzero : fold (x + (65535 - fold x)) ≠ 0 := by
    rw [Ne, fold_eq_zero]
    intro h
    have hx : fold x = 0 := fold_eq_zero.mpr (by omega)
    omega
  have hfold := fold_modEq (x + (65535 - fold x))
  rw [Nat.ModEq] at hfold
  have hbound := fold_lt (x + (65535 - fold x))
  omega

end OnesComplement
