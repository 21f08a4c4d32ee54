import Lestra.Net.P256
import Lestra.Net.Rsa

/-!
# Values and rounds of modular arithmetic

`fe_add`, `fe_sub` and `fe_mul` (`kernel/net/p256.c`) and `bn_mod_mul` (`kernel/net/rsa.c`): what
they compute, and how the reduction gets there. `mshift[i + shift] = m[i]` lays the modulus at the
low end for the largest shift, so that the loop that counts down begins with the modulus itself.

* `modular_values` — the results
* `reduction_rounds_iff` — for which operands each round of subtractions is short
-/

namespace Lestra

open BigEndian

-- ---------------------------------------------------------------------------
-- Values
-- ---------------------------------------------------------------------------

/-- The buffer at address `p`. -/
def bytesAt (mem : ℕ → UInt8) (p : ℕ) : ℕ → UInt8 := fun i => mem (p + i)

/-- `bn_mod_mul` on buffers that may be the same or overlap: `prod` and `mshift` are its own,
and `r` is written at the end. -/
def bnModMulAt (mem : ℕ → UInt8) (a b m r : ℕ) : Option (ℕ → UInt8) :=
  (bnModMul (bytesAt mem a) (bytesAt mem b) (bytesAt mem m)).map fun prod k =>
    if r ≤ k ∧ k < r + 256 then prod (k - r) else mem k

/-- The results of the three functions modulo `m`. -/
structure FeValues (a b m : ℕ → UInt8) : Prop where
  add : val 32 (feAdd a b m) = (val 32 a + val 32 b) % val 32 m
  sub : (val 32 (feSub a b m) : ℤ) = ((val 32 a : ℤ) - val 32 b) % val 32 m
  mul : ∃ r, feMul a b m = some r ∧ val 32 r = val 32 a * val 32 b % val 32 m

/-- What `bn_mod_mul` leaves in memory. -/
structure BnProduct (mem : ℕ → UInt8) (a b m r : ℕ) (mem' : ℕ → UInt8) : Prop where
  value : val 256 (bytesAt mem' r) =
    val 256 (bytesAt mem a) * val 256 (bytesAt mem b) % val 256 (bytesAt mem m)
  frame : ∀ k, k < r ∨ r + 256 ≤ k → mem' k = mem k

theorem feValues {a b m : ℕ → UInt8} (ha : val 32 a < val 32 m) (hb : val 32 b < val 32 m) :
    FeValues a b m where
  add := feAdd_val ha hb
  sub := feSub_val ha hb
  mul := feMul_val (by omega) a b

theorem bnModMulAt_product {mem : ℕ → UInt8} {m : ℕ} (hm : 0 < val 256 (bytesAt mem m))
    (a b r : ℕ) : ∃ mem', bnModMulAt mem a b m r = some mem' ∧ BnProduct mem a b m r mem' := by
  obtain ⟨prod, hprod, hval⟩ := bnModMul_val hm (bytesAt mem a) (bytesAt mem b)
  refine ⟨_, by rw [bnModMulAt, hprod]; rfl, ?_, fun k hk => if_neg (by omega)⟩
  rw [← hval]
  refine val_congr fun i hi => ?_
  rw [bytesAt, if_pos ⟨by omega, by omega⟩, Nat.add_sub_cancel_left]

/-- **The values.** Sums, differences and products of numbers below the modulus come out modulo
the modulus, and so does every product of 256 bytes, wherever it is stored. -/
theorem modular_values {a b m : ℕ → UInt8} (ha : val 32 a < val 32 m) (hb : val 32 b < val 32 m)
    {mem : ℕ → UInt8} {pm : ℕ} (hm : 0 < val 256 (bytesAt mem pm)) (pa pb pr : ℕ) :
    FeValues a b m ∧
      ∃ mem', bnModMulAt mem pa pb pm pr = some mem' ∧ BnProduct mem pa pb pm pr mem' :=
  ⟨feValues ha hb, bnModMulAt_product hm pa pb pr⟩

/-- 3 and 4 modulo 5, and a square in the place of its operand. -/
theorem modular_values_five : FeValues (feSmall 3) (feSmall 4) (feSmall 5) ∧
    ∃ mem', bnModMulAt (fun k => if k = 255 ∨ k = 511 then 7 else 0) 0 0 256 0 = some mem' ∧
      BnProduct (fun k => if k = 255 ∨ k = 511 then 7 else 0) 0 0 256 0 mem' := by
  have hlt (x y : UInt8) (h : x.toNat < y.toNat) : val 32 (feSmall x) < val 32 (feSmall y) := by
    rwa [feSmall_val, feSmall_val]
  have hseven : val 256 (bytesAt (fun k => if k = 255 ∨ k = 511 then 7 else 0) 256) = 7 := by
    have hlow : val 255 (bytesAt (fun k => if k = 255 ∨ k = 511 then 7 else 0) 256) = 0 :=
      val_zero fun i hi => if_neg (by omega)
    rw [val, hlow]
    rfl
  exact modular_values (hlt 3 5 (by decide)) (hlt 4 5 (by decide))
    (by rw [hseven]; decide) 0 0 0

-- ---------------------------------------------------------------------------
-- Rounds
-- ---------------------------------------------------------------------------

/-- The rounds of `fe_mul`: the shift, and `prod` when it comes to its subtractions. -/
def feMulRounds (a b m : ℕ → UInt8) : List (ℕ × (ℕ → UInt8)) :=
  ShiftReduce.entries 32 m 33 (mul 32 a b)

/-- The rounds of `bn_mod_mul`. -/
def bnModMulRounds (a b m : ℕ → UInt8) : List (ℕ × (ℕ → UInt8)) :=
  ShiftReduce.entries 256 m 257 (mul 256 a b)

/-- `prod` is below `2^16 * mshift`, and the round has fewer than `2^16` subtractions. -/
structure RoundShort (n : ℕ) (m : ℕ → UInt8) (e : ℕ × (ℕ → UInt8)) : Prop where
  below : val (n + n) e.2 < 2 ^ 16 * val (n + n) (ShiftReduce.shifted n m e.1)
  turns : ShiftReduce.subTurns (n + n) (ShiftReduce.shifted n m e.1) e.2 < 2 ^ 16

/-- The number of subtractions is the quotient, so that the one bound is the other. -/
theorem roundShort_iff {n : ℕ} {m : ℕ → UInt8} {e : ℕ × (ℕ → UInt8)} : RoundShort n m e ↔
    val (n + n) e.2 < 2 ^ 16 * val (n + n) (ShiftReduce.shifted n m e.1) := by
  refine ⟨fun h => h.below, fun h => ⟨h, ?_⟩⟩
  rw [ShiftReduce.subTurns_eq (by omega)]
  exact (Nat.div_lt_iff_lt_mul (by omega)).mpr h

theorem rounds_short_iff {n : ℕ} {m : ℕ → UInt8} (hm : 0 < val n m) (a b : ℕ → UInt8) :
    (∀ e ∈ ShiftReduce.entries n m (n + 1) (mul n a b), RoundShort n m e) ↔
      val n a * val n b < 2 ^ 16 * val n m := by
  rw [← mul_val, ← ShiftReduce.entries_bound_iff hm (by decide)]
  exact forall₂_congr fun e he => roundShort_iff

/-- **The rounds.** Each is short exactly when the product itself is below `2^16` times the
modulus. -/
theorem reduction_rounds_iff {m : ℕ → UInt8} (hm : m 0 ≠ 0) (a b : ℕ → UInt8) :
    ((∀ e ∈ feMulRounds a b m, RoundShort 32 m e) ↔ val 32 a * val 32 b < 2 ^ 16 * val 32 m) ∧
    ((∀ e ∈ bnModMulRounds a b m, RoundShort 256 m e) ↔
      val 256 a * val 256 b < 2 ^ 16 * val 256 m) :=
  ⟨rounds_short_iff (val_pos (by decide) hm) a b,
    rounds_short_iff (val_pos (by decide) hm) a b⟩

/-- Half of the range, as operand and as modulus. -/
def half : ℕ → UInt8 := fun i => if i = 0 then 0x80 else 0

theorem half_val (n : ℕ) : val (1 + n) half = 0x80 * 256 ^ n := by
  have hlow : val n (fun i => half (1 + i)) = 0 := val_zero fun i _ => if_neg (by omega)
  rw [val_add, hlow, Nat.add_zero]
  rfl

theorem reduction_rounds_iff_half :
    ((∀ e ∈ feMulRounds half half half, RoundShort 32 half e) ↔
      val 32 half * val 32 half < 2 ^ 16 * val 32 half) ∧
    ((∀ e ∈ bnModMulRounds half half half, RoundShort 256 half e) ↔
      val 256 half * val 256 half < 2 ^ 16 * val 256 half) :=
  reduction_rounds_iff (by decide) half half

/-- The first round has all 2^255 subtractions to do, and in `bn_mod_mul` all 2^2047. -/
theorem reduction_rounds_long :
    ¬ (∀ e ∈ feMulRounds half half half, RoundShort 32 half e) ∧
    ¬ (∀ e ∈ bnModMulRounds half half half, RoundShort 256 half e) := by
  have hsmall : val 32 half = 0x80 * 256 ^ 31 := half_val 31
  have hlarge : val 256 half = 0x80 * 256 ^ 255 := half_val 255
  constructor
  · rw [feMulRounds, rounds_short_iff (by omega), hsmall]
    decide
  · rw [bnModMulRounds, rounds_short_iff (by omega), hlarge]
    decide

end Lestra
