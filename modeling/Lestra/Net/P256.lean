import Mathlib.Data.Nat.Digits.Defs
import Mathlib.Data.ZMod.Basic
import Mathlib.GroupTheory.OrderOfElement
import Lestra.Lib.ShiftReduce

/-!
# P-256

`kernel/net/p256.c`: arithmetic modulo a number of 32 bytes, most significant byte first, and
with it points of the curve, the multiple of a point, and the check of a peer's point. What a
loop that never ends would compute is `none`.

* `feAdd_val`, `feSub_val`, `feMul_val` — sum, difference and product modulo `m`
* `feInv_val` — the power that `fe_inv` computes
* `fe_inv_iff` — when that is the inverse
-/

namespace Lestra

open BigEndian

-- ---------------------------------------------------------------------------
-- Modular arithmetic
-- ---------------------------------------------------------------------------

/-- Returns 1 if `a >= b`. -/
def feGte (a b : ℕ → UInt8) : Bool := memcmp a b 32 != .lt

/-- `m` is subtracted from `t`, in 32-bit words. -/
def feTakeModulus (m : ℕ → UInt8) : ℕ → (ℕ → UInt8) × UInt32 → ℕ → UInt8
  | 0, (t, _) => t
  | i + 1, (t, carry) =>
    let diff := (t i).toUInt32 - (m i).toUInt32 - carry
    feTakeModulus m i (Function.update t i (diff &&& 0xFF).toUInt8, (diff >>> 8) &&& 1)

def feAdd (a b m : ℕ → UInt8) : ℕ → UInt8 :=
  let (t, carry) := addLoop b 32 (a, 0)
  if carry ≠ 0 ∨ feGte t m then feTakeModulus m 32 (t, 0) else t

def feSub (a b m : ℕ → UInt8) : ℕ → UInt8 :=
  let (t, borrow) := subLoop b 32 (a, 0)
  if borrow ≠ 0 then (addLoop m 32 (t, 0)).1 else t

def feMul (a b m : ℕ → UInt8) : Option (ℕ → UInt8) := ShiftReduce.modMul 32 a b m

/-- `(i == 31 ? 2 : 0)` -/
def feTwo : ℕ → UInt8 := fun i => if i = 31 then 2 else 0

/-- The bits of the exponent as the two loops of `fe_inv` test them: the bytes from the last
one, and in each the highest bit first. -/
def feInvBits (exp : ℕ → UInt8) : List Bool :=
  (List.range 32).reverse.flatMap fun i =>
    (List.range 8).reverse.map fun bit => (exp i).toNat.testBit bit

/-- Square-and-multiply. -/
def feInvLoop (m : ℕ → UInt8) : List Bool → (ℕ → UInt8) → (ℕ → UInt8) → Option (ℕ → UInt8)
  | [], result, _ => some result
  | bit :: bits, result, base =>
    (if bit then feMul result base m else some result).bind fun result =>
      (feMul base base m).bind fun base => feInvLoop m bits result base

def feOne : ℕ → UInt8 := fun i => if i = 31 then 1 else 0

def feInv (a m : ℕ → UInt8) : Option (ℕ → UInt8) :=
  feInvLoop m (feInvBits (sub 32 m feTwo)) feOne a

-- ---------------------------------------------------------------------------
-- Sums, differences and products
-- ---------------------------------------------------------------------------

variable {a b m : ℕ → UInt8}

theorem feGte_iff : feGte a b = true ↔ val 32 b ≤ val 32 a := by
  rw [feGte, bne_iff_ne, memcmp_eq, Ne, Nat.compare_eq_lt, Nat.not_lt]

/-- A difference in 32-bit words, and its borrow. -/
theorem word_diff (x y : UInt8) {c : UInt32} (hc : c.toNat ≤ 1) :
    ((x.toUInt32 - y.toUInt32 - c) &&& 0xFF).toUInt8.toNat =
        (x.toNat + 256 - y.toNat - c.toNat) % 256 ∧
      (((x.toUInt32 - y.toUInt32 - c) >>> 8) &&& 1).toNat =
        if x.toNat < y.toNat + c.toNat then 1 else 0 := by
  have hx : x.toNat < 256 := UInt8.toNat_lt _
  have hy : y.toNat < 256 := UInt8.toNat_lt _
  have hand (k : ℕ) : k &&& 255 = k % 256 := Nat.and_two_pow_sub_one_eq_mod k 8
  constructor
  · simp only [UInt32.toNat_toUInt8, UInt32.toNat_and, UInt32.toNat_sub, UInt8.toNat_toUInt32,
      UInt32.reduceToNat, hand]
    omega
  · simp only [UInt32.toNat_and, UInt32.toNat_shiftRight, UInt32.toNat_sub, UInt8.toNat_toUInt32,
      UInt32.reduceToNat, Nat.and_one_is_mod, Nat.shiftRight_eq_div_pow, Nat.reduceMod]
    split <;> omega

/-- The loop in 32-bit words subtracts. -/
theorem feTakeModulus_eq (t : ℕ → UInt8) {c : UInt32} (hc : c.toNat ≤ 1) (n : ℕ) :
    feTakeModulus m n (t, c) = (subLoop m n (t, c.toNat)).1 := by
  induction n generalizing t c with
  | zero => rfl
  | succ n ih =>
    obtain ⟨hbyte, hborrow⟩ := word_diff (t n) (m n) hc
    have ht : (t n).toNat < 256 := UInt8.toNat_lt _
    have hm : (m n).toNat < 256 := UInt8.toNat_lt _
    rw [feTakeModulus, subLoop]
    split
    · rename_i hlt
      rw [if_pos hlt] at hborrow
      have hsame : ((t n).toUInt32 - (m n).toUInt32 - c &&& 0xFF).toUInt8 =
          UInt8.ofNat ((t n).toNat + 256 - (m n).toNat - c.toNat) := by
        rw [← UInt8.toNat_inj, hbyte, UInt8.toNat_ofNat']
      rw [ih _ (by omega), hborrow, hsame]
    · rename_i hge
      rw [if_neg hge] at hborrow
      have hsame : ((t n).toUInt32 - (m n).toUInt32 - c &&& 0xFF).toUInt8 =
          UInt8.ofNat ((t n).toNat - (m n).toNat - c.toNat) := by
        rw [← UInt8.toNat_inj, hbyte, UInt8.toNat_ofNat']
        omega
      rw [ih _ (by omega), hborrow, hsame]

/-- Also where the carry of the sum is lost, the difference is right. -/
theorem feAdd_val (ha : val 32 a < val 32 m) (hb : val 32 b < val 32 m) :
    val 32 (feAdd a b m) = (val 32 a + val 32 b) % val 32 m := by
  obtain ⟨hsum, hcarry⟩ := addLoop_val (p := a) (q := b) (n := 32) (Nat.zero_le 1)
  have ht := val_lt 32 (addLoop b 32 (a, 0)).1
  have hm := val_lt 32 m
  rw [feAdd]
  dsimp only
  split
  · rename_i hover
    have hge : val 32 m ≤ val 32 a + val 32 b := by
      rcases hover with hone | hgte
      · have hle : 256 ^ 32 ≤ (addLoop b 32 (a, 0)).2 * 256 ^ 32 :=
          Nat.le_mul_of_pos_left _ (Nat.pos_of_ne_zero hone)
        omega
      · have hle := feGte_iff.mp hgte
        omega
    obtain ⟨hdiff, hborrow⟩ := subLoop_val (p := (addLoop b 32 (a, 0)).1) (q := m) (n := 32)
      (Nat.zero_le 1)
    have hlt := val_lt 32 (subLoop m 32 ((addLoop b 32 (a, 0)).1, 0)).1
    rw [feTakeModulus_eq _ (by decide), UInt32.toNat_zero,
      Nat.mod_eq_sub_mod hge, Nat.mod_eq_of_lt (by omega)]
    -- The borrow is the carry.
    generalize (subLoop m 32 ((addLoop b 32 (a, 0)).1, 0)).2 = borrow at hdiff hborrow
    generalize (addLoop b 32 (a, 0)).2 = carry at hsum hcarry
    have hsame : borrow = carry := by
      rcases Nat.le_one_iff_eq_zero_or_eq_one.mp hborrow with rfl | rfl <;>
        rcases Nat.le_one_iff_eq_zero_or_eq_one.mp hcarry with rfl | rfl <;> omega
    rw [hsame] at hdiff
    omega
  · rename_i hfits
    rw [not_or, not_not] at hfits
    obtain ⟨hzero, hgte⟩ := hfits
    rw [feGte_iff, Nat.not_le] at hgte
    rw [hzero, Nat.zero_mul] at hsum
    rw [← Nat.add_zero (val 32 a + val 32 b), ← hsum, Nat.add_zero, Nat.mod_eq_of_lt hgte]

theorem feSub_val (ha : val 32 a < val 32 m) (hb : val 32 b < val 32 m) :
    (val 32 (feSub a b m) : ℤ) = ((val 32 a : ℤ) - val 32 b) % val 32 m := by
  obtain ⟨hdiff, hborrow⟩ := subLoop_val (p := a) (q := b) (n := 32) (Nat.zero_le 1)
  have ht := val_lt 32 (subLoop b 32 (a, 0)).1
  have hm := val_lt 32 m
  rw [feSub]
  dsimp only
  split
  · rename_i hone
    have hone : (subLoop b 32 (a, 0)).2 = 1 := by omega
    obtain ⟨hsum, hcarry⟩ := addLoop_val (p := (subLoop b 32 (a, 0)).1) (q := m) (n := 32)
      (Nat.zero_le 1)
    have hlt := val_lt 32 (addLoop m 32 ((subLoop b 32 (a, 0)).1, 0)).1
    rw [hone, Nat.one_mul] at hdiff
    generalize (addLoop m 32 ((subLoop b 32 (a, 0)).1, 0)).2 = carry at hsum hcarry
    have hcarried : carry = 1 := by
      rcases Nat.le_one_iff_eq_zero_or_eq_one.mp hcarry with rfl | rfl <;> omega
    rw [hcarried, Nat.one_mul] at hsum
    rw [← Int.add_emod_right, Int.emod_eq_of_lt (by omega) (by omega)]
    omega
  · rename_i hzero
    rw [not_not] at hzero
    rw [hzero, Nat.zero_mul] at hdiff
    rw [Int.emod_eq_of_lt (by omega) (by omega)]
    omega

theorem feMul_val (hm : 0 < val 32 m) (a b : ℕ → UInt8) :
    ∃ r, feMul a b m = some r ∧ val 32 r = val 32 a * val 32 b % val 32 m :=
  ShiftReduce.modMul_val hm a b

-- ---------------------------------------------------------------------------
-- The power that is computed
-- ---------------------------------------------------------------------------

/-- The bits of a byte in the other order. -/
def reversedBits (x : UInt8) : UInt8 := ⟨x.toBitVec.reverse⟩

/-- The exponent that `fe_inv` takes: `m - 2`, with the bits of each byte reversed. -/
def feInvExp (m : ℕ → UInt8) : ℕ := val 32 fun i => reversedBits (sub 32 m feTwo i)

theorem byte_bits (x : UInt8) :
    Nat.ofDigits 2 (((List.range 8).reverse.map fun bit => x.toNat.testBit bit).map Bool.toNat) =
      (reversedBits x).toNat := by
  have hall : ∀ x : BitVec 8, Nat.ofDigits 2
      (((List.range 8).reverse.map fun bit => x.toNat.testBit bit).map Bool.toNat) =
        x.reverse.toNat := by decide
  exact hall x.toBitVec

/-- The bits in the order of the loops, the first one as the lowest. -/
theorem feInvBits_val (exp : ℕ → UInt8) :
    Nat.ofDigits 2 ((feInvBits exp).map Bool.toNat) = val 32 fun i => reversedBits (exp i) := by
  have hbytes (n : ℕ) : Nat.ofDigits 2 (((List.range n).reverse.flatMap fun i =>
      (List.range 8).reverse.map fun bit => (exp i).toNat.testBit bit).map Bool.toNat) =
        val n fun i => reversedBits (exp i) := by
    induction n with
    | zero => rfl
    | succ n ih =>
      rw [List.range_succ (n := n), List.reverse_append, List.reverse_singleton, List.singleton_append,
        List.flatMap_cons, List.map_append, Nat.ofDigits_append, byte_bits, ih, val,
        List.length_map, List.length_map, List.length_reverse, List.length_range]
      ring
  exact hbytes 32

/-- One turn multiplies by the base where the bit is set, and squares the base. -/
theorem feInvLoop_val (hm : 0 < val 32 m) (bits : List Bool) (result base : ℕ → UInt8) :
    ∃ r, feInvLoop m bits result base = some r ∧
      val 32 r ≡ val 32 result * val 32 base ^ Nat.ofDigits 2 (bits.map Bool.toNat)
        [MOD val 32 m] := by
  induction bits generalizing result base with
  | nil => exact ⟨result, rfl, by rw [List.map_nil, Nat.ofDigits_nil, Nat.pow_zero, Nat.mul_one]⟩
  | cons bit bits ih =>
    obtain ⟨square, hsquare, hsval⟩ := feMul_val hm base base
    have hsq : val 32 square ≡ val 32 base ^ 2 [MOD val 32 m] := by
      rw [hsval, Nat.pow_two]
      exact Nat.mod_modEq ..
    rw [feInvLoop, List.map_cons, Nat.ofDigits_cons]
    cases bit with
    | false =>
      obtain ⟨r, hr, hval⟩ := ih result square
      refine ⟨r, ?_, hval.trans ?_⟩
      · rw [if_neg Bool.false_ne_true, Option.bind_some, hsquare]
        exact hr
      · rw [Bool.toNat_false, Nat.zero_add, Nat.pow_mul]
        exact (hsq.pow _).mul_left _
    | true =>
      obtain ⟨next, hnext, hnval⟩ := feMul_val hm result base
      obtain ⟨r, hr, hval⟩ := ih next square
      have hstep : val 32 next ≡ val 32 result * val 32 base [MOD val 32 m] := by
        rw [hnval]
        exact Nat.mod_modEq ..
      refine ⟨r, ?_, hval.trans ?_⟩
      · rw [if_pos rfl, hnext, Option.bind_some, hsquare]
        exact hr
      · rw [Bool.toNat_true, Nat.pow_add, Nat.pow_one, Nat.pow_mul, ← Nat.mul_assoc]
        exact hstep.mul (hsq.pow _)

theorem feOne_val : val 32 feOne = 1 := by
  have hlow : val 31 feOne = 0 := val_zero fun i hi => if_neg (by omega)
  rw [val, hlow]
  rfl

theorem feInv_val (hm : 0 < val 32 m) (a : ℕ → UInt8) :
    ∃ r, feInv a m = some r ∧ val 32 r ≡ val 32 a ^ feInvExp m [MOD val 32 m] := by
  obtain ⟨r, hr, hval⟩ := feInvLoop_val hm (feInvBits (sub 32 m feTwo)) feOne a
  rw [feInvBits_val, feOne_val, Nat.one_mul] at hval
  exact ⟨r, hr, hval⟩

-- ---------------------------------------------------------------------------
-- Inverses
-- ---------------------------------------------------------------------------

/-- `fe_inv` computes an inverse of `a` modulo `m`. -/
def FeInverts (a m : ℕ → UInt8) : Prop :=
  ∃ r, feInv a m = some r ∧ val 32 a * val 32 r ≡ 1 [MOD val 32 m]

/-- The order of `a` modulo `m` divides the exponent that is taken, and one more. -/
def FeOrderDivides (a m : ℕ → UInt8) : Prop :=
  orderOf (val 32 a : ZMod (val 32 m)) ∣ feInvExp m + 1

/-- **The exponent with reversed bytes.** `fe_inv` finds the inverse exactly when the order of
`a` divides the exponent that it takes and one more. -/
theorem fe_inv_iff {m : ℕ → UInt8} (hm : 0 < val 32 m) (a : ℕ → UInt8) :
    FeInverts a m ↔ FeOrderDivides a m := by
  obtain ⟨r, hr, hval⟩ := feInv_val hm a
  have hpow : val 32 a * val 32 r ≡ val 32 a ^ (feInvExp m + 1) [MOD val 32 m] := by
    rw [Nat.pow_succ']
    exact hval.mul_left _
  have hcast : (val 32 a : ZMod (val 32 m)) ^ (feInvExp m + 1) = 1 ↔
      val 32 a ^ (feInvExp m + 1) ≡ 1 [MOD val 32 m] := by
    rw [← ZMod.natCast_eq_natCast_iff, Nat.cast_pow, Nat.cast_one]
  rw [FeOrderDivides, orderOf_dvd_iff_pow_eq_one, hcast]
  constructor
  · rintro ⟨r', hr', hinv⟩
    have hsame : r = r' := Option.some.inj (hr.symm.trans hr')
    rw [← hsame] at hinv
    exact hpow.symm.trans hinv
  · exact fun hone => ⟨r, hr, hpow.trans hone⟩

/-- A number of one byte. -/
def feSmall (x : UInt8) : ℕ → UInt8 := fun i => if i = 31 then x else 0

theorem feSmall_val (x : UInt8) : val 32 (feSmall x) = x.toNat := by
  have hlow : val 31 (feSmall x) = 0 := val_zero fun i hi => if_neg (by omega)
  rw [val, hlow, Nat.zero_mul, Nat.zero_add]
  rfl

theorem fe_inv_iff_five :
    FeInverts (feSmall 2) (feSmall 5) ↔ FeOrderDivides (feSmall 2) (feSmall 5) := by
  have hfive : val 32 (feSmall 5) = 5 := feSmall_val 5
  exact fe_inv_iff (by omega) (feSmall 2)

theorem feInvExp_five : feInvExp (feSmall 5) = 4 * 48 := by decide +kernel

/-- The inverse of 2 modulo 5 comes out as 1. -/
theorem fe_inv_five_wrong : ¬ FeInverts (feSmall 2) (feSmall 5) := by
  rintro ⟨r, hr, hinv⟩
  have hfive : val 32 (feSmall 5) = 5 := feSmall_val 5
  have htwo : val 32 (feSmall 2) = 2 := feSmall_val 2
  obtain ⟨r', hr', hval⟩ := feInv_val (m := feSmall 5) (by omega) (feSmall 2)
  have hsame : r = r' := Option.some.inj (hr.symm.trans hr')
  have hpow : 2 ^ (4 * 48) ≡ 1 [MOD 5] := by
    have hfour : 2 ^ 4 ≡ 1 [MOD 5] := rfl
    rw [Nat.pow_mul]
    exact (hfour.pow 48).trans (by rw [Nat.one_pow])
  rw [hfive, htwo, feInvExp_five, ← hsame] at hval
  rw [hfive, htwo] at hinv
  exact absurd (((hval.trans hpow).mul_left 2).symm.trans hinv) (by decide)

end Lestra
