import Mathlib.Data.Vector.Defs
import Mathlib.Data.BitVec
import Mathlib.Data.List.GetD
import Mathlib.Logic.Function.Iterate
import Mathlib.Tactic.Common

/-!
# Galois/Counter Mode

The authenticated encryption of NIST SP 800-38D for initialisation vectors of 96 bits. The
block cipher, the multiplication by the hash key and the first counter block are
parameters; `mul` is the product in GF(2^128) that the standard takes.
-/

namespace Gcm

abbrev Block := Vector UInt8 16

-- ---------------------------------------------------------------------------
-- GF(2^128)
-- ---------------------------------------------------------------------------

/-- Multiplication by x: bit 0 is the leftmost one, so the bits move to the right. -/
def mulX (v : BitVec 128) : BitVec 128 :=
  if v.getLsbD 0 then (v >>> 1) ^^^ (0xE1#128 <<< 120) else v >>> 1

/-- The sum of `v`, `v * x`, `v * x^2` and so on, over the bits `b i` with `i < n`. -/
def sum (b : ℕ → Bool) (v : BitVec 128) : ℕ → BitVec 128
  | 0 => 0
  | n + 1 => sum b v n ^^^ (if b n then mulX^[n] v else 0)

/-- The product: the bits of `x` from the left, and the multiples of `y`. -/
def mul (x y : BitVec 128) : BitVec 128 := sum x.getMsbD y 128

/-- Bit `i` of a block, from the first bit of the first byte on. -/
def blockBit (b : Block) (i : ℕ) : Bool := (b.toList.getD (i / 8) 0).toNat.testBit (7 - i % 8)

/-- The number of the first `n` bits, the first one highest. -/
def ofBools (f : ℕ → Bool) : ℕ → ℕ
  | 0 => 0
  | n + 1 => ofBools f n * 2 + (f n).toNat

def bits (b : Block) : BitVec 128 := BitVec.ofNat 128 (ofBools (blockBit b) 128)

def ofBits (v : BitVec 128) : Block := Vector.ofFn fun j => UInt8.ofNat (v.toNat / 256 ^ (15 - j.val))

/-- The product of two blocks. -/
def mulBlock (h x : Block) : Block := ofBits (mul (bits x) (bits h))

-- ---------------------------------------------------------------------------
-- Counter mode, hash and tag
-- ---------------------------------------------------------------------------

def xorBlock (a b : Block) : Block := a.zipWith (· ^^^ ·) b

/-- Block `k` of a byte string, filled up with zeros. -/
def blockAt (bs : List UInt8) (k : ℕ) : Block := Vector.ofFn fun i => bs.getD (16 * k + i.val) 0

/-- The last four bytes of a block, as a number. -/
def counter (b : Block) : ℕ :=
  (b.toList.getD 12 0).toNat * 256 ^ 3 + (b.toList.getD 13 0).toNat * 256 ^ 2 +
    (b.toList.getD 14 0).toNat * 256 + (b.toList.getD 15 0).toNat

/-- The last four bytes count modulo 2^32. -/
def inc32 (b : Block) : Block :=
  let n := (counter b + 1) % 2 ^ 32
  Vector.ofFn fun i => if i.val < 12 then b.get i else UInt8.ofNat (n / 256 ^ (15 - i.val))

/-- Every block of the string is XORed with the encryption of the next counter block. -/
def gctr (ciph : Block → Block) (icb : Block) (bs : List UInt8) : List UInt8 :=
  (List.range bs.length).map fun i =>
    bs.getD i 0 ^^^ (ciph (inc32^[i / 16] icb)).toList.getD (i % 16) 0

/-- The hash takes in the blocks of a byte string. -/
def absorb (mulH : Block → Block) (y : Block) (bs : List UInt8) : Block :=
  (List.range ((bs.length + 15) / 16)).foldl (fun y k => mulH (xorBlock y (blockAt bs k))) y

/-- The lengths in bits, in 64 bits each. -/
def lengthBlock (aadLen len : ℕ) : Block :=
  Vector.ofFn fun i =>
    if i.val < 8 then UInt8.ofNat (8 * aadLen / 256 ^ (7 - i.val))
    else UInt8.ofNat (8 * len / 256 ^ (15 - i.val))

def tag (ciph mulH : Block → Block) (j0 : Block) (aad ciphertext : List UInt8) : Block :=
  let y := absorb mulH (absorb mulH (Vector.replicate 16 0) aad) ciphertext
  xorBlock (ciph j0) (mulH (xorBlock y (lengthBlock aad.length ciphertext.length)))

/-- The ciphertext and the tag. -/
def encrypt (ciph mulH : Block → Block) (j0 : Block) (aad plaintext : List UInt8) :
    List UInt8 × Block :=
  let ciphertext := gctr ciph (inc32 j0) plaintext
  (ciphertext, tag ciph mulH j0 aad ciphertext)

/-- The plaintext, if the tag is right. -/
def decrypt (ciph mulH : Block → Block) (j0 : Block) (aad ciphertext : List UInt8) (t : Block) :
    Option (List UInt8) :=
  if tag ciph mulH j0 aad ciphertext = t then some (gctr ciph (inc32 j0) ciphertext) else none

/-- The initialisation vector with a counter behind it. -/
def firstBlock (iv : Vector UInt8 12) (n : UInt8) : Block :=
  Vector.ofFn fun i => if i.val < 12 then iv.toList.getD i.val 0 else if i.val = 15 then n else 0

-- ---------------------------------------------------------------------------
-- Lemmas
-- ---------------------------------------------------------------------------

theorem ofBools_testBit (f : ℕ → Bool) (n i : ℕ) :
    (ofBools f n).testBit i = (decide (i < n) && f (n - 1 - i)) := by
  induction n generalizing i with
  | zero => simp [ofBools]
  | succ n ih =>
    have hbit : (f n).toNat ≤ 1 := Bool.toNat_le _
    cases i with
    | zero =>
      rw [ofBools, Nat.testBit_zero, Nat.add_mod, Nat.mul_mod_left, Nat.zero_add]
      cases h : f n <;> simp [h]
    | succ i =>
      have hhalf : (ofBools f n * 2 + (f n).toNat) / 2 = ofBools f n := by omega
      have hsub : n + 1 - 1 - (i + 1) = n - 1 - i := by omega
      rw [ofBools, Nat.testBit_succ, hhalf, ih, hsub]
      simp

theorem getMsbD_bits (b : Block) {i : ℕ} (hi : i < 128) : (bits b).getMsbD i = blockBit b i := by
  have hsub : 128 - 1 - (128 - 1 - i) = i := by omega
  rw [BitVec.getMsbD_eq_getLsbD, bits, BitVec.getLsbD_ofNat, ofBools_testBit, hsub]
  simp [hi, show 127 - i < 128 by omega]

/-- A block is given by its bits. -/
theorem bits_ofBits (v : BitVec 128) : bits (ofBits v) = v := by
  refine BitVec.eq_of_getMsbD_eq fun i hi => ?_
  have hbyte : (ofBits v).toList.getD (i / 8) 0 = UInt8.ofNat (v.toNat / 256 ^ (15 - i / 8)) := by
    rw [List.getD_eq_getElem _ _ (by rw [Vector.length_toList]; omega)]
    simp [ofBits]
  have hpow : 256 ^ (15 - i / 8) = 2 ^ (8 * (15 - i / 8)) := by rw [Nat.pow_mul]
  have hpos : 7 - i % 8 + 8 * (15 - i / 8) = 127 - i := by omega
  rw [getMsbD_bits _ hi, blockBit, hbyte, UInt8.toNat_ofNat', Nat.testBit_mod_two_pow, hpow,
    Nat.testBit_div_two_pow, hpos, BitVec.getMsbD_eq_getLsbD, BitVec.getLsbD]
  simp [hi, show 7 - i % 8 < 8 by omega]

theorem mulX_xor (a b : BitVec 128) : mulX (a ^^^ b) = mulX a ^^^ mulX b := by
  rw [mulX, mulX, mulX, BitVec.getLsbD_xor, BitVec.ushiftRight_xor_distrib]
  have hcancel : ∀ x y r : BitVec 128, x ^^^ r ^^^ (y ^^^ r) = x ^^^ y := fun x y r => by
    rw [BitVec.xor_comm y r, BitVec.xor_assoc, ← BitVec.xor_assoc r, BitVec.xor_self,
      BitVec.zero_xor]
  cases a.getLsbD 0 <;> cases b.getLsbD 0
  · rfl
  · exact BitVec.xor_assoc ..
  · simp only [Bool.true_bne, Bool.not_false, if_true, Bool.false_eq_true, if_false]
    ac_rfl
  · exact (hcancel ..).symm

theorem mulX_zero : mulX 0 = 0 := by decide

theorem sum_congr {b c : ℕ → Bool} {v : BitVec 128} {n : ℕ} (h : ∀ i < n, b i = c i) :
    sum b v n = sum c v n := by
  induction n with
  | zero => rfl
  | succ n ih => rw [sum, sum, ih fun i hi => h i (by omega), h n (by omega)]

/-- The first term of the sum, and the rest of it. -/
theorem sum_succ (b : ℕ → Bool) (v : BitVec 128) (n : ℕ) :
    sum b v (n + 1) = (if b 0 then v else 0) ^^^ mulX (sum (fun i => b (i + 1)) v n) := by
  induction n with
  | zero =>
    rw [sum, sum, sum, mulX_zero]
    simp
  | succ n ih =>
    have hlast : (if b (n + 1) then mulX^[n + 1] v else 0) =
        mulX (if b (n + 1) then mulX^[n] v else 0) := by
      rw [apply_ite mulX, mulX_zero, Function.iterate_succ_apply']
    rw [sum, ih, sum, mulX_xor, BitVec.xor_assoc, hlast]

-- ---------------------------------------------------------------------------
-- The zero block and the empty message
-- ---------------------------------------------------------------------------

theorem bits_zero : bits (Vector.replicate 16 0) = 0 := by
  refine BitVec.eq_of_getMsbD_eq fun i hi => ?_
  rw [getMsbD_bits _ hi, blockBit, List.getD_eq_getElem _ _ (by rw [Vector.length_toList]; omega),
    Vector.getElem_toList, Vector.getElem_replicate]
  simp

theorem zero_mul (y : BitVec 128) : mul 0 y = 0 := by
  have hsum : ∀ n, sum (0 : BitVec 128).getMsbD y n = 0 := fun n => by
    induction n with
    | zero => rfl
    | succ n ih =>
      rw [sum, ih]
      simp
  exact hsum 128

theorem mulBlock_zero (h : Block) : mulBlock h (Vector.replicate 16 0) = Vector.replicate 16 0 := by
  have hzero : ofBits 0 = Vector.replicate 16 0 := Vector.ext fun i hi => by simp [ofBits]
  rw [mulBlock, bits_zero, zero_mul, hzero]

theorem gctr_nil (ciph : Block → Block) (icb : Block) : gctr ciph icb [] = [] := rfl

/-- Without data the tag is the encryption of the first counter block. -/
theorem tag_nil (ciph mulH : Block → Block) (j0 : Block)
    (h : mulH (Vector.replicate 16 0) = Vector.replicate 16 0) : tag ciph mulH j0 [] [] = ciph j0 := by
  have hlen : xorBlock (Vector.replicate 16 0) (lengthBlock 0 0) = Vector.replicate 16 0 :=
    Vector.ext fun i hi => by simp [xorBlock, lengthBlock]
  have hdata : absorb mulH (Vector.replicate 16 0) [] = Vector.replicate 16 0 := rfl
  rw [tag, List.length_nil, hdata, hdata, hlen, h]
  apply Vector.ext
  intro i hi
  simp [xorBlock]

-- ---------------------------------------------------------------------------
-- The round trip
-- ---------------------------------------------------------------------------

@[simp] theorem length_gctr (ciph : Block → Block) (icb : Block) (bs : List UInt8) :
    (gctr ciph icb bs).length = bs.length := by rw [gctr, List.length_map, List.length_range]

theorem getElem_gctr (ciph : Block → Block) (icb : Block) (bs : List UInt8) {i : ℕ}
    (h : i < (gctr ciph icb bs).length) : (gctr ciph icb bs)[i] =
      bs.getD i 0 ^^^ (ciph (inc32^[i / 16] icb)).toList.getD (i % 16) 0 := by
  simp only [gctr, List.getElem_map, List.getElem_range]

/-- The keystream depends on the position only, so that a second pass takes it off. -/
theorem gctr_gctr (ciph : Block → Block) (icb : Block) (bs : List UInt8) :
    gctr ciph icb (gctr ciph icb bs) = bs := by
  refine List.ext_getElem (by rw [length_gctr, length_gctr]) fun i h₁ h₂ => ?_
  have hlen : i < (gctr ciph icb bs).length := by rwa [length_gctr]
  rw [getElem_gctr, List.getD_eq_getElem _ _ hlen, getElem_gctr, List.getD_eq_getElem _ _ h₂,
    UInt8.xor_assoc, UInt8.xor_self, UInt8.xor_zero]

/-- Decryption takes what encryption made back, and nothing under another tag. -/
theorem decrypt_encrypt (ciph mulH : Block → Block) (j0 : Block) (aad plaintext : List UInt8)
    (t : Block) : decrypt ciph mulH j0 aad (encrypt ciph mulH j0 aad plaintext).1 t =
      if (encrypt ciph mulH j0 aad plaintext).2 = t then some plaintext else none := by
  rw [decrypt, encrypt]
  dsimp only
  rw [gctr_gctr]

end Gcm
