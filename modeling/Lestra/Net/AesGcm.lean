import Mathlib.Data.Nat.Bitwise
import Mathlib.Tactic.IntervalCases
import Lestra.Lib.Aes
import Lestra.Lib.Gcm

/-!
# AES-128-GCM

The cipher of `kernel/net/tls.c`: `aes128_key_expansion`, `aes_encrypt_block`,
`ghash_mult`, `ghash_update` and `aes128_gcm_encrypt`. What it computes is GCM, with a key
schedule, a product and a first counter block of its own.
-/

namespace Lestra

open Aes (Block)

-- ---------------------------------------------------------------------------
-- AES
-- ---------------------------------------------------------------------------

def aesSbox : List UInt8 := [
  0x63, 0x7c, 0x77, 0x7b, 0xf2, 0x6b, 0x6f, 0xc5, 0x30, 0x01, 0x67, 0x2b, 0xfe, 0xd7, 0xab, 0x76,
  0xca, 0x82, 0xc9, 0x7d, 0xfa, 0x59, 0x47, 0xf0, 0xad, 0xd4, 0xa2, 0xaf, 0x9c, 0xa4, 0x72, 0xc0,
  0xb7, 0xfd, 0x93, 0x26, 0x36, 0x3f, 0xf7, 0xcc, 0x34, 0xa5, 0xe5, 0xf1, 0x71, 0xd8, 0x31, 0x15,
  0x04, 0xc7, 0x23, 0xc3, 0x18, 0x96, 0x05, 0x9a, 0x07, 0x12, 0x80, 0xe2, 0xeb, 0x27, 0xb2, 0x75,
  0x09, 0x83, 0x2c, 0x1a, 0x1b, 0x6e, 0x5a, 0xa0, 0x52, 0x3b, 0xd6, 0xb3, 0x29, 0xe3, 0x2f, 0x84,
  0x53, 0xd1, 0x00, 0xed, 0x20, 0xfc, 0xb1, 0x5b, 0x6a, 0xcb, 0xbe, 0x39, 0x4a, 0x4c, 0x58, 0xcf,
  0xd0, 0xef, 0xaa, 0xfb, 0x43, 0x4d, 0x33, 0x85, 0x45, 0xf9, 0x02, 0x7f, 0x50, 0x3c, 0x9f, 0xa8,
  0x51, 0xa3, 0x40, 0x8f, 0x92, 0x9d, 0x38, 0xf5, 0xbc, 0xb6, 0xda, 0x21, 0x10, 0xff, 0xf3, 0xd2,
  0xcd, 0x0c, 0x13, 0xec, 0x5f, 0x97, 0x44, 0x17, 0xc4, 0xa7, 0x7e, 0x3d, 0x64, 0x5d, 0x19, 0x73,
  0x60, 0x81, 0x4f, 0xdc, 0x22, 0x2a, 0x90, 0x88, 0x46, 0xee, 0xb8, 0x14, 0xde, 0x5e, 0x0b, 0xdb,
  0xe0, 0x32, 0x3a, 0x0a, 0x49, 0x06, 0x24, 0x5c, 0xc2, 0xd3, 0xac, 0x62, 0x91, 0x95, 0xe4, 0x79,
  0xe7, 0xc8, 0x37, 0x6d, 0x8d, 0xd5, 0x4e, 0xa9, 0x6c, 0x56, 0xf4, 0xea, 0x65, 0x7a, 0xae, 0x08,
  0xba, 0x78, 0x25, 0x2e, 0x1c, 0xa6, 0xb4, 0xc6, 0xe8, 0xdd, 0x74, 0x1f, 0x4b, 0xbd, 0x8b, 0x8a,
  0x70, 0x3e, 0xb5, 0x66, 0x48, 0x03, 0xf6, 0x0e, 0x61, 0x35, 0x57, 0xb9, 0x86, 0xc1, 0x1d, 0x9e,
  0xe1, 0xf8, 0x98, 0x11, 0x69, 0xd9, 0x8e, 0x94, 0x9b, 0x1e, 0x87, 0xe9, 0xce, 0x55, 0x28, 0xdf,
  0x8c, 0xa1, 0x89, 0x0d, 0xbf, 0xe6, 0x42, 0x68, 0x41, 0x99, 0x2d, 0x0f, 0xb0, 0x54, 0xbb, 0x16]

def aesSub (x : UInt8) : UInt8 := aesSbox.getD x.toNat 0

/-- The four bytes `t` in the turn of the loop at byte `i`. -/
def keyTemp (roundKeys : List UInt8) (i : ℕ) : List UInt8 :=
  let t := fun j => roundKeys.getD (i - 4 + j) 0
  if i % 16 = 0 then
    [aesSub (t 1) ^^^ (0x01 <<< UInt8.ofNat ((i / 16 - 1) % 8)), aesSub (t 2), aesSub (t 3),
      aesSub (t 0)]
  else [t 0, t 1, t 2, t 3]

/-- The bytes of `round_keys` that are filled after `n` turns. -/
def keyBytes (key : Block) : ℕ → List UInt8
  | 0 => key.toList
  | n + 1 =>
    let roundKeys := keyBytes key n
    let i := 16 + 4 * n
    let t := keyTemp roundKeys i
    roundKeys ++ (List.range 4).map fun j => roundKeys.getD (i - 16 + j) 0 ^^^ t.getD j 0

def aes128KeyExpansion (key : Block) : List UInt8 := keyBytes key 40

def xtime (x : UInt8) : UInt8 := (x <<< 1) ^^^ ((x >>> 7) * 0x1b)

def aesShiftRows (state : Block) : Block :=
  let t := state[1]
  let state := state.set 1 state[5]
  let state := state.set 5 state[9]
  let state := state.set 9 state[13]
  let state := state.set 13 t
  let t := state[2]
  let state := state.set 2 state[10]
  let state := state.set 10 t
  let t := state[6]
  let state := state.set 6 state[14]
  let state := state.set 14 t
  let t := state[15]
  let state := state.set 15 state[11]
  let state := state.set 11 state[7]
  let state := state.set 7 state[3]
  state.set 3 t

/-- The loop over the columns `c`, with the byte of row `r` at `c * 4 + r`. -/
def aesMixColumns (state : Block) : Block :=
  Vector.ofFn fun i =>
    let a0 := state[i.val / 4 * 4]
    let a1 := state[i.val / 4 * 4 + 1]
    let a2 := state[i.val / 4 * 4 + 2]
    let a3 := state[i.val / 4 * 4 + 3]
    match i.val % 4 with
    | 0 => xtime a0 ^^^ xtime a1 ^^^ a1 ^^^ a2 ^^^ a3
    | 1 => a0 ^^^ xtime a1 ^^^ xtime a2 ^^^ a2 ^^^ a3
    | 2 => a0 ^^^ a1 ^^^ xtime a2 ^^^ xtime a3 ^^^ a3
    | _ => xtime a0 ^^^ a0 ^^^ a1 ^^^ a2 ^^^ xtime a3

def aesAddRoundKey (roundKeys : List UInt8) (round : ℕ) (state : Block) : Block :=
  Vector.ofFn fun i => state[i] ^^^ roundKeys.getD (round * 16 + i.val) 0

def aesRound (roundKeys : List UInt8) (state : Block) (round : ℕ) : Block :=
  let state := aesShiftRows (state.map aesSub)
  let state := if round < 10 then aesMixColumns state else state
  aesAddRoundKey roundKeys round state

def aesEncryptBlock (input : Block) (roundKeys : List UInt8) : Block :=
  (List.range 10).foldl (fun state r => aesRound roundKeys state (r + 1))
    (aesAddRoundKey roundKeys 0 input)

-- ---------------------------------------------------------------------------
-- GHASH
-- ---------------------------------------------------------------------------

/-- `X[i/8] & (0x80 >> (i%8))`. -/
def ghashBit (X : Block) (i : ℕ) : Bool :=
  X.toList.getD (i / 8) 0 &&& (0x80 >>> UInt8.ofNat (i % 8)) != 0

/-- The bytes are shifted from the last one on, so each takes the bit that the byte before it
had. -/
def ghashShift (Z : Block) : Block :=
  let shifted : Block := Vector.ofFn fun j =>
    if j.val = 0 then Z[0] >>> 1 else (Z[j] >>> 1) ||| ((Z[j.val - 1] &&& 1) <<< 7)
  if Z[15] &&& 1 != 0 then shifted.set 0 (shifted[0] ^^^ 0xe1) else shifted

def ghashStep (X H Z : Block) (i : ℕ) : Block :=
  ghashShift (if ghashBit X i then Z.zipWith (· ^^^ ·) H else Z)

def ghashMult (X H : Block) : Block :=
  (List.range 128).foldl (ghashStep X H) (Vector.replicate 16 0)

/-- The bytes that are XORed into `Y`; behind the end of the data they are zero. -/
def ghashXor (Y : Block) (data : List UInt8) : Block :=
  Vector.ofFn fun j => Y[j] ^^^ data.getD j.val 0

def ghashUpdate (H Y : Block) (data : List UInt8) : Block :=
  if 16 ≤ data.length then ghashUpdate H (ghashMult (ghashXor Y (data.take 16)) H) (data.drop 16)
  else if data.length = 0 then Y
  else ghashMult (ghashXor Y data) H
termination_by data.length
decreasing_by
  rw [List.length_drop]
  omega

-- ---------------------------------------------------------------------------
-- Counter mode and the tag
-- ---------------------------------------------------------------------------

/-- `for (j = 15; j >= 12; j--) { if (++counter[j]) break; }`, from byte `j` on. -/
def incCounter (counter : Block) : ℕ → Block
  | 0 => counter
  | n + 1 =>
    let j := 12 + n
    let x := counter.toList.getD j 0 + 1
    let counter := counter.setIfInBounds j x
    if x ≠ 0 then counter else incCounter counter n

def ctrLoop (roundKeys : List UInt8) (counter : Block) (data : List UInt8) : List UInt8 :=
  if data.length = 0 then []
  else
    let counter := incCounter counter 4
    let ks := aesEncryptBlock counter roundKeys
    let blockLen := if data.length < 16 then data.length else 16
    ((List.range blockLen).map fun j => data.getD j 0 ^^^ ks.toList.getD j 0) ++
      ctrLoop roundKeys counter (data.drop blockLen)
termination_by data.length
decreasing_by
  rw [List.length_drop]
  split <;> omega

/-- `J0`. -/
def gcmJ0 (iv : Vector UInt8 12) : Block :=
  Vector.ofFn fun i => if i.val < 12 then iv.toList.getD i.val 0 else if i.val = 15 then 2 else 0

def gcmLenBlock (aadLen ctLen : ℕ) : Block :=
  Vector.ofFn fun j =>
    if j.val < 8 then UInt8.ofNat ((aadLen * 8) >>> (56 - 8 * j.val))
    else UInt8.ofNat ((ctLen * 8) >>> (56 - 8 * (j.val - 8)))

def aes128GcmEncrypt (key : Block) (iv : Vector UInt8 12) (aad plaintext : List UInt8) :
    List UInt8 × Block :=
  let roundKeys := aes128KeyExpansion key
  let H := aesEncryptBlock (Vector.replicate 16 0) roundKeys
  let J0 := gcmJ0 iv
  let ciphertext := ctrLoop roundKeys J0 plaintext
  let Y := ghashUpdate H (ghashUpdate H (Vector.replicate 16 0) aad) ciphertext
  let Y := Y.zipWith (· ^^^ ·) (gcmLenBlock aad.length plaintext.length)
  let Y := ghashMult Y H
  let EJ0 := aesEncryptBlock J0 roundKeys
  (ciphertext, EJ0.zipWith (· ^^^ ·) Y)

-- ---------------------------------------------------------------------------
-- The block cipher is AES
-- ---------------------------------------------------------------------------

theorem aesSub_eq (x : UInt8) : aesSub x = Aes.sbox x := by
  have htable : aesSbox = (List.range 256).map fun n => UInt8.ofNat (Aes.sboxArith n) := by
    decide +kernel
  have hx : x.toNat < ((List.range 256).map fun n => UInt8.ofNat (Aes.sboxArith n)).length := by
    rw [List.length_map, List.length_range]
    exact UInt8.toNat_lt x
  rw [aesSub, htable, List.getD_eq_getElem _ _ hx, List.getElem_map, List.getElem_range,
    ← Aes.toNat_sbox, UInt8.ofNat_toNat]

/-- The two products in the mixing of a column. -/
theorem gmul_mix (a : UInt8) : Aes.gmul 2 a = xtime a ∧ Aes.gmul 3 a = xtime a ^^^ a := by
  refine Aes.forall_byte (P := fun a => Aes.gmul 2 a = xtime a ∧ Aes.gmul 3 a = xtime a ^^^ a) ?_ a
  decide +kernel

theorem gmul_two (a : UInt8) : Aes.gmul 2 a = xtime a := (gmul_mix a).1

theorem gmul_three (a : UInt8) : Aes.gmul 3 a = xtime a ^^^ a := (gmul_mix a).2

theorem block_eta (s : Block) :
    s = #v[s[0], s[1], s[2], s[3], s[4], s[5], s[6], s[7], s[8], s[9], s[10], s[11], s[12], s[13],
      s[14], s[15]] := by
  apply Vector.ext
  intro i hi
  interval_cases i <;> rfl

theorem aesShiftRows_eq (s : Block) : aesShiftRows s = Aes.shiftRows s := by
  rw [block_eta s]
  simp [aesShiftRows, Aes.shiftRows, Vector.ofFn, Array.ofFn_succ']

theorem aesMixColumns_eq (s : Block) : aesMixColumns s = Aes.mixColumns s := by
  apply Vector.ext
  intro i hi
  rw [aesMixColumns, Aes.mixColumns, Vector.getElem_ofFn, Vector.getElem_ofFn]
  interval_cases i <;>
    simp only [gmul_two, gmul_three, Nat.reduceDiv, Nat.reduceMod, Nat.reduceMul, Nat.reduceAdd] <;>
    ac_rfl

theorem aesAddRoundKey_eq (roundKeys : List UInt8) (r : ℕ) (s : Block) :
    aesAddRoundKey roundKeys r s = Aes.addRoundKey (Aes.roundKey roundKeys r) s := by
  apply Vector.ext
  intro i hi
  simp [aesAddRoundKey, Aes.addRoundKey, Aes.roundKey, Nat.mul_comm]

/--
**The block cipher is AES**, for any round keys.
-/
theorem aesEncryptBlock_eq (input : Block) (roundKeys : List UInt8) :
    aesEncryptBlock input roundKeys = Aes.cipher (Aes.roundKey roundKeys) input := by
  have hsub : ∀ s : Block, s.map aesSub = Aes.subBytes s := fun s =>
    congrArg (Vector.map · s) (funext aesSub_eq)
  have hround : ∀ s, ∀ r < 9, aesRound roundKeys s (r + 1) =
      Aes.round (Aes.roundKey roundKeys (r + 1)) s := fun s r hr => by
    rw [aesRound, if_pos (by omega), hsub, aesShiftRows_eq, aesMixColumns_eq, aesAddRoundKey_eq,
      Aes.round]
  have hlast : ∀ s, aesRound roundKeys s 10 = Aes.finalRound (Aes.roundKey roundKeys 10) s :=
    fun s => by
      rw [aesRound, if_neg (by omega), hsub, aesShiftRows_eq, aesAddRoundKey_eq, Aes.finalRound]
  rw [aesEncryptBlock, List.range_succ, List.foldl_append, Aes.cipher, aesAddRoundKey_eq,
    List.foldl_ext _ _ _ fun s r hr => hround s r (List.mem_range.mp hr)]
  exact hlast _

-- ---------------------------------------------------------------------------
-- The key schedule
-- ---------------------------------------------------------------------------

/-- The round constants that the code takes: one bit, shifted modulo 8. -/
def codeRcon (i : ℕ) : UInt8 := 0x01 <<< UInt8.ofNat ((i - 1) % 8)

/-- The four bytes of a turn are the temporary word of the schedule. -/
theorem keyTemp_eq (ws : List Aes.Word) {n : ℕ} (hlen : ws.length = 4 + n) {j : ℕ} (hj : j < 4) :
    (keyTemp (Aes.wordBytes ws) (16 + 4 * n)).getD j 0 =
      (Aes.temp codeRcon (4 + n) (ws.getD (3 + n) (Vector.replicate 4 0)))[j] := by
  have hbyte : ∀ l < 4, (Aes.wordBytes ws).getD (16 + 4 * n - 4 + l) 0 =
      (ws.getD (3 + n) (Vector.replicate 4 0)).toList.getD l 0 := fun l hl => by
    have hpos : 16 + 4 * n - 4 + l = 4 * (3 + n) + l := by omega
    rw [hpos, Aes.getD_wordBytes ws (by omega) hl, List.getD_eq_getElem
      (ws.getD (3 + n) (Vector.replicate 4 0)).toList 0 (by rw [Vector.length_toList]; exact hl),
      Vector.getElem_toList]
  have hdiv : (16 + 4 * n) / 16 = (4 + n) / 4 := by omega
  have hmod : (16 + 4 * n) % 16 = 0 ↔ (4 + n) % 4 = 0 := by omega
  rw [keyTemp, Aes.temp]
  simp only [hbyte 0 (by omega), hbyte 1 (by omega), hbyte 2 (by omega), hbyte 3 (by omega), hdiv]
  generalize ws.getD (3 + n) (Vector.replicate 4 0) = w
  by_cases h : (4 + n) % 4 = 0
  · rw [if_pos (hmod.mpr h), if_pos h]
    interval_cases j <;>
      simp [Aes.xorWord, Aes.subWord, Aes.rotWord, aesSub_eq, codeRcon]
  · rw [if_neg (mt hmod.mp h), if_neg h]
    interval_cases j <;> simp

theorem keyBytes_eq (key : Block) (n : ℕ) :
    keyBytes key n = Aes.wordBytes (Aes.expand codeRcon key n) := by
  induction n with
  | zero =>
    have hlen := Aes.length_expand codeRcon key 0
    refine List.ext_getElem ?_ fun i h₁ h₂ => ?_
    · rw [Aes.length_wordBytes, hlen, keyBytes, Vector.length_toList]
    · have hi : i < 16 := by simpa [keyBytes] using h₁
      have hword : (Aes.expand codeRcon key 0).getD (i / 4) (Vector.replicate 4 0) =
          Vector.ofFn fun j => key.toList.getD (4 * (i / 4) + j.val) 0 := by
        rw [Aes.expand, List.getD_eq_getElem?_getD, List.getElem?_map,
          List.getElem?_range (by omega)]
        rfl
      have hbyte := Aes.getD_wordBytes (Aes.expand codeRcon key 0) (k := i / 4) (j := i % 4)
        (by omega) (by omega)
      rw [Nat.div_add_mod, hword, Vector.getElem_ofFn] at hbyte
      rw [← List.getD_eq_getElem _ 0 h₂, hbyte, Nat.div_add_mod]
      exact (List.getD_eq_getElem _ 0 h₁).symm
  | succ n ih =>
    have hlen := Aes.length_expand codeRcon key n
    have happend : ∀ (ws : List Aes.Word) (w : Aes.Word),
        Aes.wordBytes (ws ++ [w]) = Aes.wordBytes ws ++ w.toList := fun ws w => by
      rw [Aes.wordBytes, List.flatMap_append, List.flatMap_singleton]
      rfl
    rw [keyBytes, Aes.expand, ih]
    simp only [happend]
    refine congrArg _ (List.ext_getElem (by simp) fun j h₁ h₂ => ?_)
    have hj : j < 4 := by simpa using h₁
    have hpos : 16 + 4 * n - 16 + j = 4 * n + j := by omega
    rw [List.getElem_map, List.getElem_range, keyTemp_eq _ hlen hj, hpos,
      Aes.getD_wordBytes _ (by omega) hj]
    simp [Aes.xorWord]

/-- The constants go wrong from the ninth one on, and with them every schedule. -/
theorem aes128KeyExpansion_ne (key : Block) : aes128KeyExpansion key ≠ Aes.keyExpansion key := by
  intro h
  rw [aes128KeyExpansion, keyBytes_eq, Aes.keyExpansion] at h
  have hsame : Aes.expand codeRcon key 32 = Aes.expand Aes.rcon key 32 := by
    refine Aes.expand_congr fun j hj => ?_
    have hj9 : j < 9 := by omega
    have hall : ∀ j < 9, codeRcon j = Aes.rcon j := by decide
    exact hall j hj9
  -- Word 36 takes the ninth constant.
  have hword : ∀ rc, ((Aes.expand rc key 40).getD 36 (Vector.replicate 4 0)) =
      Aes.xorWord ((Aes.expand rc key 32).getD 32 (Vector.replicate 4 0))
        (Aes.temp rc 36 ((Aes.expand rc key 32).getD 35 (Vector.replicate 4 0))) := fun rc => by
    rw [Aes.getD_expand_add rc key 7 (show 36 < 4 + 33 by omega), Aes.expand,
      List.getD_append_right _ _ _ _ (by rw [Aes.length_expand]), Aes.length_expand]
    rfl
  have hbyte := congrArg (fun l => l.getD (4 * 36 + 0) 0) h
  rw [Aes.getD_wordBytes _ (by rw [Aes.length_expand]; omega) (by omega),
    Aes.getD_wordBytes _ (by rw [Aes.length_expand]; omega) (by omega), hword, hword, hsame] at hbyte
  simp [Aes.xorWord, Aes.temp] at hbyte
  exact absurd hbyte (by decide)

-- ---------------------------------------------------------------------------
-- The product
-- ---------------------------------------------------------------------------

theorem ghashBit_eq (X : Block) (i : ℕ) : ghashBit X i = Gcm.blockBit X i := by
  have hmask : ∀ k < 8, ((0x80 : UInt8) >>> UInt8.ofNat k).toNat = 2 ^ (7 - k) := by decide
  have hbit : ∀ x : UInt8, ∀ k < 8,
      (x &&& (0x80 >>> UInt8.ofNat k) != 0) = x.toNat.testBit (7 - k) := fun x k hk => by
    have hand : (x &&& (0x80 >>> UInt8.ofNat k)).toNat =
        (x.toNat.testBit (7 - k)).toNat * 2 ^ (7 - k) := by
      rw [UInt8.toNat_and, hmask k hk, Nat.and_two_pow]
    cases h : x.toNat.testBit (7 - k)
    · rw [h, Bool.toNat_false, Nat.zero_mul] at hand
      have hzero : x &&& (0x80 >>> UInt8.ofNat k) = 0 := UInt8.toNat_inj.mp hand
      simp [hzero]
    · rw [h, Bool.toNat_true, Nat.one_mul] at hand
      refine bne_iff_ne.mpr fun hzero => ?_
      rw [hzero] at hand
      exact absurd hand.symm (Nat.pos_iff_ne_zero.mp (Nat.two_pow_pos _))
  exact hbit _ _ (Nat.mod_lt _ (by omega))

theorem blockBit_eq (b : Block) {i : ℕ} (hi : i < 128) :
    Gcm.blockBit b i = b[i / 8].toNat.testBit (7 - i % 8) := by
  rw [Gcm.blockBit, List.getD_eq_getElem _ 0 (by rw [Vector.length_toList]; omega),
    Vector.getElem_toList]

theorem bits_xor (a b : Block) :
    Gcm.bits (a.zipWith (· ^^^ ·) b) = Gcm.bits a ^^^ Gcm.bits b := by
  refine BitVec.eq_of_getMsbD_eq fun i hi => ?_
  rw [BitVec.getMsbD_xor, Gcm.getMsbD_bits _ hi, Gcm.getMsbD_bits _ hi, Gcm.getMsbD_bits _ hi,
    blockBit_eq _ hi, blockBit_eq _ hi, blockBit_eq _ hi, Vector.getElem_zipWith, UInt8.toNat_xor,
    Nat.testBit_xor]

/-- The last bit of a byte is 0 or 1. -/
theorem and_one_cases (b : UInt8) :
    b &&& 1 = 0 ∧ b.toNat.testBit 0 = false ∨ b &&& 1 = 1 ∧ b.toNat.testBit 0 = true := by
  have hand : (b &&& 1).toNat = b.toNat % 2 := by
    rw [UInt8.toNat_and]
    exact Nat.and_one_is_mod _
  rw [Nat.testBit_zero]
  rcases Nat.mod_two_eq_zero_or_one b.toNat with h | h <;> rw [h] at hand ⊢
  · exact .inl ⟨UInt8.toNat_inj.mp hand, rfl⟩
  · exact .inr ⟨UInt8.toNat_inj.mp hand, rfl⟩

/-- The bits of a byte that is shifted right, under the last bit of the byte before it. -/
theorem shifted_testBit (a b : UInt8) {k : ℕ} (hk : k < 8) :
    ((a >>> 1) ||| ((b &&& 1) <<< 7)).toNat.testBit (7 - k) =
      if k = 0 then b.toNat.testBit 0 else a.toNat.testBit (8 - k) := by
  have ha : ∀ m, (a >>> 1).toNat.testBit m = a.toNat.testBit (m + 1) := fun m => by
    rw [UInt8.toNat_shiftRight]
    exact (Nat.testBit_shiftRight ..).trans (by rw [Nat.add_comm]; rfl)
  have hb : ∀ m < 8, ((b &&& 1) <<< 7).toNat.testBit m = (decide (m = 7) && b.toNat.testBit 0) := by
    rcases and_one_cases b with ⟨hb, hbit⟩ | ⟨hb, hbit⟩ <;> rw [hb, hbit] <;> decide
  have hlt : a.toNat < 2 ^ 8 := UInt8.toNat_lt a
  rw [UInt8.toNat_or, Nat.testBit_or, ha, hb _ (by omega)]
  split
  · next h =>
    rw [h, Nat.testBit_lt_two_pow hlt]
    simp
  · next h =>
    have hsub : 7 - k + 1 = 8 - k := by omega
    rw [hsub, decide_eq_false (by omega), Bool.false_and, Bool.or_false]

theorem lastBit_eq (x : UInt8) : (x &&& 1 != 0) = x.toNat.testBit 0 := by
  rcases and_one_cases x with ⟨hx, hbit⟩ | ⟨hx, hbit⟩ <;> rw [hx, hbit] <;> rfl

/-- The byte that the bits which fall out are folded back into. -/
theorem reduction_getMsbD {i : ℕ} (hi : i < 128) : (0xE1#128 <<< 120).getMsbD i =
    (decide (i / 8 = 0) && (0xe1 : UInt8).toNat.testBit (7 - i % 8)) := by
  rw [BitVec.getMsbD_shiftLeft]
  by_cases h : i < 8
  · have hdiv : i / 8 = 0 := by omega
    have hmod : i % 8 = i := by omega
    rw [hdiv, hmod]
    revert i
    decide
  · have hdiv : i / 8 ≠ 0 := by omega
    rw [decide_eq_false hdiv, Bool.false_and, BitVec.getMsbD_of_ge _ _ (by omega)]

/-- The bytes shifted by one bit. -/
def shiftedBytes (Z : Block) : Block := Vector.ofFn fun j =>
  if j.val = 0 then Z[0] >>> 1 else (Z[j] >>> 1) ||| ((Z[j.val - 1] &&& 1) <<< 7)

theorem bits_shiftedBytes (Z : Block) : Gcm.bits (shiftedBytes Z) = Gcm.bits Z >>> 1 := by
  refine BitVec.eq_of_getMsbD_eq fun i hi => ?_
  rw [BitVec.getMsbD_ushiftRight, Gcm.getMsbD_bits _ hi, blockBit_eq _ hi, shiftedBytes,
    Vector.getElem_ofFn]
  dsimp only
  have hin : decide (i < 128) = true := decide_eq_true hi
  by_cases hfirst : i / 8 = 0
  · have hnone : Z[0] >>> 1 = (Z[0] >>> 1) ||| (((0 : UInt8) &&& 1) <<< 7) := UInt8.or_zero.symm
    rw [if_pos hfirst, hnone, shifted_testBit _ _ (Nat.mod_lt _ (by omega)), hin, Bool.true_and]
    by_cases hbit : i % 8 = 0
    · have hi0 : i < 1 := by omega
      rw [if_pos hbit, decide_eq_true hi0]
      rfl
    · have hdiv : (i - 1) / 8 = 0 := by omega
      have hsub : 8 - i % 8 = 7 - (i - 1) % 8 := by omega
      rw [if_neg hbit, decide_eq_false (by omega), Gcm.getMsbD_bits _ (by omega),
        blockBit_eq _ (by omega), hsub]
      simp only [hdiv, Bool.not_false, Bool.true_and]
  · rw [if_neg hfirst, shifted_testBit _ _ (Nat.mod_lt _ (by omega)), hin, Bool.true_and,
      decide_eq_false (by omega), Gcm.getMsbD_bits _ (by omega), blockBit_eq _ (by omega)]
    by_cases hbit : i % 8 = 0
    · have hdiv : (i - 1) / 8 = i / 8 - 1 := by omega
      have hsub : 7 - (i - 1) % 8 = 0 := by omega
      rw [if_pos hbit, hsub]
      simp only [hdiv, Bool.not_false, Bool.true_and]
    · have hdiv : (i - 1) / 8 = i / 8 := by omega
      have hsub : 8 - i % 8 = 7 - (i - 1) % 8 := by omega
      rw [if_neg hbit, hsub]
      simp only [hdiv, Bool.not_false, Bool.true_and]
      rfl

theorem bits_ghashShift (Z : Block) : Gcm.bits (ghashShift Z) = Gcm.mulX (Gcm.bits Z) := by
  have hlsb : (Gcm.bits Z).getLsbD 0 = (Z[15] &&& 1 != 0) := by
    rw [BitVec.getLsbD_eq_getMsbD, Gcm.getMsbD_bits _ (by omega), blockBit_eq _ (by omega),
      lastBit_eq]
    simp
  have hshift : ghashShift Z = if Z[15] &&& 1 != 0 then
      (shiftedBytes Z).set 0 ((shiftedBytes Z)[0] ^^^ 0xe1) else shiftedBytes Z := rfl
  rw [hshift, Gcm.mulX, hlsb]
  split
  · refine BitVec.eq_of_getMsbD_eq fun i hi => ?_
    rw [← bits_shiftedBytes, BitVec.getMsbD_xor, reduction_getMsbD hi, Gcm.getMsbD_bits _ hi,
      Gcm.getMsbD_bits _ hi, blockBit_eq _ hi, blockBit_eq _ hi, Vector.getElem_set]
    split
    · next h =>
      rw [UInt8.toNat_xor, Nat.testBit_xor, decide_eq_true h.symm, Bool.true_and]
      simp only [← h]
    · next h =>
      rw [decide_eq_false (fun h0 => h h0.symm), Bool.false_and, Bool.xor_false]
  · exact bits_shiftedBytes Z

/-- The bits of a block from the last one on. -/
theorem bits_ghashMult (X H : Block) :
    Gcm.bits (ghashMult X H) = Gcm.mul (Gcm.bits X).reverse (Gcm.mulX (Gcm.bits H)) := by
  have hloop : ∀ n ≤ 128, Gcm.bits ((List.range n).foldl (ghashStep X H) (Vector.replicate 16 0)) =
      Gcm.sum (fun i => Gcm.blockBit X (n - 1 - i)) (Gcm.mulX (Gcm.bits H)) n := fun n => by
    induction n with
    | zero =>
      exact fun _ => Gcm.bits_zero
    | succ n ih =>
      intro hn
      have hstep : ∀ Z, Gcm.bits (ghashStep X H Z n) = (if Gcm.blockBit X n then
          Gcm.mulX (Gcm.bits H) else 0) ^^^ Gcm.mulX (Gcm.bits Z) := fun Z => by
        rw [ghashStep, bits_ghashShift, ghashBit_eq]
        split
        · rw [bits_xor, Gcm.mulX_xor, BitVec.xor_comm]
        · exact BitVec.zero_xor.symm
      have hshift : ∀ i, n + 1 - 1 - (i + 1) = n - 1 - i := fun i => by omega
      rw [List.range_succ, List.foldl_append, Gcm.sum_succ]
      simp only [hshift]
      rw [← ih (by omega)]
      exact hstep _
  rw [ghashMult, hloop 128 (Nat.le_refl _), Gcm.mul]
  refine Gcm.sum_congr fun i hi => ?_
  rw [BitVec.getMsbD_reverse, BitVec.getLsbD_eq_getMsbD, Gcm.getMsbD_bits _ (by omega),
    decide_eq_true hi, Bool.true_and]

-- ---------------------------------------------------------------------------
-- The mode is GCM
-- ---------------------------------------------------------------------------

theorem incCounter_eq (b : Block) : incCounter b 4 = Gcm.inc32 b := by
  have hne : ∀ x : UInt8, x + 1 ≠ 0 ↔ x.toNat ≠ 255 := fun x => by
    have hlt := UInt8.toNat_lt x
    have hadd : (x + 1).toNat = (x.toNat + 1) % 256 := UInt8.toNat_add x 1
    rw [ne_eq, ← UInt8.toNat_inj, hadd]
    change ¬ (x.toNat + 1) % 256 = 0 ↔ x.toNat ≠ 255
    omega
  have h12 := UInt8.toNat_lt b[12]
  have h13 := UInt8.toNat_lt b[13]
  have h14 := UInt8.toNat_lt b[14]
  have h15 := UInt8.toNat_lt b[15]
  apply Vector.ext
  intro i hi
  simp only [incCounter, Gcm.inc32, Gcm.counter]
  simp [hne]
  by_cases hfixed : i < 12
  · rw [if_pos hfixed]
    have hne12 : 12 ≠ i := by omega
    have hne13 : 13 ≠ i := by omega
    have hne14 : 14 ≠ i := by omega
    have hne15 : 15 ≠ i := by omega
    have hget : b.get ⟨i, hi⟩ = b[i] := rfl
    split_ifs <;> simp [hne12, hne13, hne14, hne15, hget]
  · rw [if_neg hfixed]
    interval_cases i <;> split_ifs <;> apply UInt8.toNat_inj.mp <;>
      simp [UInt8.toNat_add] <;> omega

theorem gctr_step (ciph : Block → Block) (icb : Block) (data : List UInt8) {n : ℕ}
    (hn : n = if data.length < 16 then data.length else 16) :
    Gcm.gctr ciph icb data =
      ((List.range n).map fun j => data.getD j 0 ^^^ (ciph icb).toList.getD j 0) ++
        Gcm.gctr ciph (Gcm.inc32 icb) (data.drop n) := by
  have hle : n ≤ data.length := by
    rw [hn]
    split <;> omega
  refine List.ext_getElem ?_ fun i h₁ h₂ => ?_
  · simp only [Gcm.gctr, List.length_append, List.length_map, List.length_range, List.length_drop]
    omega
  · have hi : i < data.length := by simpa [Gcm.gctr] using h₁
    have hlhs : (Gcm.gctr ciph icb data)[i] =
        data.getD i 0 ^^^ (ciph (Gcm.inc32^[i / 16] icb)).toList.getD (i % 16) 0 := by
      simp only [Gcm.gctr, List.getElem_map, List.getElem_range]
    rw [hlhs]
    by_cases hfirst : i < n
    · have h16 : i < 16 := by
        rw [hn] at hfirst
        split at hfirst <;> omega
      rw [List.getElem_append_left (by simpa using hfirst), List.getElem_map, List.getElem_range,
        Nat.div_eq_of_lt h16, Nat.mod_eq_of_lt h16]
      rfl
    · have h16 : n = 16 := by
        by_cases hshort : data.length < 16
        · rw [if_pos hshort] at hn
          omega
        · rw [hn, if_neg hshort]
      have hdata : (data.drop n).getD (i - n) 0 = data.getD i 0 := by
        rw [List.getD_eq_getElem?_getD, List.getElem?_drop,
          Nat.add_sub_cancel' (Nat.le_of_not_lt hfirst), List.getD_eq_getElem?_getD]
      have hdiv : i / 16 = (i - n) / 16 + 1 := by omega
      have hmod : i % 16 = (i - n) % 16 := by omega
      rw [List.getElem_append_right (by simpa using Nat.le_of_not_lt hfirst)]
      simp only [Gcm.gctr, List.getElem_map, List.getElem_range, List.length_map, List.length_range]
      rw [hdiv, hmod, Function.iterate_succ_apply, hdata]

theorem ctrLoop_eq (roundKeys : List UInt8) (counter : Block) (data : List UInt8) :
    ctrLoop roundKeys counter data =
      Gcm.gctr (fun b => aesEncryptBlock b roundKeys) (Gcm.inc32 counter) data := by
  induction hlen : data.length using Nat.strongRecOn generalizing counter data with
  | ind n ih =>
    rw [ctrLoop]
    dsimp only
    split
    · next hzero =>
      rw [List.length_eq_zero_iff.mp hzero]
      rfl
    · next hpos =>
      rw [gctr_step _ _ _ rfl, incCounter_eq]
      refine congrArg _ (ih _ ?_ _ _ rfl)
      rw [List.length_drop]
      split <;> omega

theorem ghashXor_eq (Y : Block) (data : List UInt8) :
    ghashXor Y data = Gcm.xorBlock Y (Gcm.blockAt data 0) := by
  apply Vector.ext
  intro i hi
  simp [ghashXor, Gcm.xorBlock, Gcm.blockAt]

theorem absorb_step (mulH : Block → Block) (y : Block) {data : List UInt8}
    (h : 16 ≤ data.length) : Gcm.absorb mulH y data =
      Gcm.absorb mulH (mulH (Gcm.xorBlock y (Gcm.blockAt data 0))) (data.drop 16) := by
  have hcount : (data.length + 15) / 16 = ((data.drop 16).length + 15) / 16 + 1 := by
    rw [List.length_drop]
    omega
  have hblock : ∀ k, Gcm.blockAt data (k + 1) = Gcm.blockAt (data.drop 16) k := fun k => by
    apply Vector.ext
    intro i hi
    simp only [Gcm.blockAt, Vector.getElem_ofFn, List.getD_eq_getElem?_getD, List.getElem?_drop]
    congr 2
    omega
  rw [Gcm.absorb, hcount, List.range_succ_eq_map, List.foldl_cons, List.foldl_map]
  simp only [Nat.succ_eq_add_one, hblock]
  rfl

theorem ghashUpdate_eq (H Y : Block) (data : List UInt8) :
    ghashUpdate H Y data = Gcm.absorb (fun x => ghashMult x H) Y data := by
  induction hlen : data.length using Nat.strongRecOn generalizing Y data with
  | ind n ih =>
    rw [ghashUpdate]
    split
    · next h16 =>
      have hfirst : Gcm.blockAt (data.take 16) 0 = Gcm.blockAt data 0 := by
        apply Vector.ext
        intro i hi
        simp only [Gcm.blockAt, Vector.getElem_ofFn, List.getD_eq_getElem?_getD]
        rw [List.getElem?_take_of_lt (by omega)]
      rw [absorb_step _ _ h16, ghashXor_eq, hfirst]
      refine ih _ ?_ _ _ rfl
      rw [List.length_drop]
      omega
    · split
      · next hzero =>
        rw [List.length_eq_zero_iff.mp hzero]
        rfl
      · next hlt hpos =>
        have hone : (data.length + 15) / 16 = 1 := by omega
        rw [ghashXor_eq, Gcm.absorb, hone, List.range_one, List.foldl_cons, List.foldl_nil]

theorem gcmLenBlock_eq (aadLen ctLen : ℕ) : gcmLenBlock aadLen ctLen = Gcm.lengthBlock aadLen ctLen := by
  apply Vector.ext
  intro i hi
  have hpow : ∀ k ≤ 7, 2 ^ (56 - 8 * k) = 256 ^ (7 - k) := fun k hk => by
    have hexp : 56 - 8 * k = 8 * (7 - k) := by omega
    rw [hexp, Nat.pow_mul]
  simp only [gcmLenBlock, Gcm.lengthBlock, Vector.getElem_ofFn, Nat.shiftRight_eq_div_pow]
  split
  · rw [hpow i (by omega), Nat.mul_comm]
  · have hexp : 7 - (i - 8) = 15 - i := by omega
    rw [hpow (i - 8) (by omega), Nat.mul_comm, hexp]

/--
**The mode is GCM**, over the code's own key schedule, product and first counter block.
-/
theorem aes128GcmEncrypt_eq (key : Block) (iv : Vector UInt8 12) (aad plaintext : List UInt8) :
    aes128GcmEncrypt key iv aad plaintext =
      Gcm.encrypt (Aes.cipher (Aes.roundKey (aes128KeyExpansion key)))
        (fun x => ghashMult x
          (Aes.cipher (Aes.roundKey (aes128KeyExpansion key)) (Vector.replicate 16 0)))
        (Gcm.firstBlock iv 2) aad plaintext := by
  have hlen : ∀ ciph icb, (Gcm.gctr ciph icb plaintext).length = plaintext.length := fun _ _ => by
    rw [Gcm.gctr, List.length_map, List.length_range]
  have hcounter : gcmJ0 iv = Gcm.firstBlock iv 2 := rfl
  rw [aes128GcmEncrypt, Gcm.encrypt]
  simp only [ctrLoop_eq, ghashUpdate_eq, gcmLenBlock_eq, aesEncryptBlock_eq, Gcm.tag, hlen, hcounter,
    Gcm.xorBlock]

-- ---------------------------------------------------------------------------
-- Conformance
-- ---------------------------------------------------------------------------

/-- The block cipher under a key, as the standard defines it. -/
def aesUnder (key : Block) : Block → Block := Aes.cipher (Aes.roundKey (Aes.keyExpansion key))

/-- AES-128-GCM of the two standards. -/
def aesGcm (key : Block) (iv : Vector UInt8 12) (aad plaintext : List UInt8) : List UInt8 × Block :=
  Gcm.encrypt (aesUnder key) (Gcm.mulBlock (aesUnder key (Vector.replicate 16 0)))
    (Gcm.firstBlock iv 1) aad plaintext

structure GcmConforms (key : Block) (iv : Vector UInt8 12) (aad plaintext : List UInt8) : Prop where
  output : aes128GcmEncrypt key iv aad plaintext = aesGcm key iv aad plaintext
  schedule : aes128KeyExpansion key = Aes.keyExpansion key
  cipher : ∀ input roundKeys,
    aesEncryptBlock input roundKeys = Aes.cipher (Aes.roundKey roundKeys) input
  product : ∀ X H, ghashMult X H = Gcm.mulBlock H X
  commutes : ∀ X H, ghashMult X H = ghashMult H X
  counter : gcmJ0 iv = Gcm.firstBlock iv 1

theorem gcmJ0_ne (iv : Vector UInt8 12) : gcmJ0 iv ≠ Gcm.firstBlock iv 1 := by
  intro h
  have hlast := congrArg (fun v : Block => v[15]) h
  simp [gcmJ0, Gcm.firstBlock] at hlast

theorem bits_injective {a b : Block} (h : Gcm.bits a = Gcm.bits b) : a = b := by
  apply Vector.ext
  intro j hj
  refine UInt8.toNat_inj.mp (Nat.eq_of_testBit_eq fun k => ?_)
  by_cases hk : k < 8
  · have hbit := congrArg (fun v => v.getMsbD (8 * j + (7 - k))) h
    have hdiv : (8 * j + (7 - k)) / 8 = j := by omega
    have hmod : 7 - (8 * j + (7 - k)) % 8 = k := by omega
    rw [Gcm.getMsbD_bits _ (by omega), Gcm.getMsbD_bits _ (by omega), blockBit_eq _ (by omega),
      blockBit_eq _ (by omega), hmod] at hbit
    simpa only [hdiv] using hbit
  · have hlt : ∀ x : UInt8, x.toNat < 2 ^ k := fun x =>
      (UInt8.toNat_lt x).trans_le (Nat.pow_le_pow_right (by omega) (by omega))
    rw [Nat.testBit_lt_two_pow (hlt _), Nat.testBit_lt_two_pow (hlt _)]

/-- The code's product takes the bits of `X` from the wrong end, and a factor x too many. -/
theorem ghashMult_right_iff (X H : Block) : ghashMult X H = Gcm.mulBlock H X ↔
    Gcm.mul (Gcm.bits X).reverse (Gcm.mulX (Gcm.bits H)) = Gcm.mul (Gcm.bits X) (Gcm.bits H) := by
  rw [← bits_ghashMult, ← Gcm.bits_ofBits (Gcm.mul (Gcm.bits X) (Gcm.bits H))]
  exact ⟨fun h => congrArg Gcm.bits h, bits_injective⟩

/--
**The cipher does not conform, for any key or message.** The block cipher is AES under any
round keys, but no key is expanded as the standard does, no counter starts at 1, and the
product of two blocks is right only where it does not matter in which direction the bits
are taken.
-/
theorem gcm_never_conforms (key : Block) (iv : Vector UInt8 12) (aad plaintext : List UInt8) :
    ¬ GcmConforms key iv aad plaintext ∧
    (∀ input roundKeys,
      aesEncryptBlock input roundKeys = Aes.cipher (Aes.roundKey roundKeys) input) ∧
    aes128KeyExpansion key ≠ Aes.keyExpansion key ∧ gcmJ0 iv ≠ Gcm.firstBlock iv 1 ∧
    ∀ X H, ghashMult X H = Gcm.mulBlock H X ↔
      Gcm.mul (Gcm.bits X).reverse (Gcm.mulX (Gcm.bits H)) = Gcm.mul (Gcm.bits X) (Gcm.bits H) :=
  ⟨fun h => aes128KeyExpansion_ne key h.schedule, aesEncryptBlock_eq, aes128KeyExpansion_ne key,
    gcmJ0_ne iv, ghashMult_right_iff⟩

theorem ghashMult_zero (H : Block) : ghashMult (Vector.replicate 16 0) H = Vector.replicate 16 0 := by
  have hrev : (0 : BitVec 128).reverse = 0 := BitVec.eq_of_getMsbD_eq fun i _ => by
    rw [BitVec.getMsbD_reverse]
    simp
  refine bits_injective ?_
  rw [bits_ghashMult, Gcm.bits_zero, hrev, Gcm.zero_mul]

/-- The two schedules of the zero key. -/
def zeroKeyCode : List UInt8 := [
  0, 0, 0, 0, 0, 0, 0, 0, 0, 0, 0, 0, 0, 0, 0, 0, 98, 99, 99, 99, 98, 99,
  99, 99, 98, 99, 99, 99, 98, 99, 99, 99, 155, 152, 152, 201, 249, 251, 251, 170, 155, 152, 152, 201,
  249, 251, 251, 170, 144, 151, 52, 80, 105, 108, 207, 250, 242, 244, 87, 51, 11, 15, 172, 153, 238, 6,
  218, 123, 135, 106, 21, 129, 117, 158, 66, 178, 126, 145, 238, 43, 127, 46, 43, 136, 248, 68, 62, 9,
  141, 218, 124, 187, 243, 75, 146, 144, 236, 97, 75, 133, 20, 37, 117, 140, 153, 255, 9, 55, 106, 180,
  155, 167, 33, 117, 23, 135, 53, 80, 98, 11, 172, 175, 107, 60, 198, 27, 240, 155, 14, 249, 3, 51,
  59, 169, 97, 56, 151, 6, 10, 4, 81, 29, 250, 159, 171, 212, 216, 226, 144, 125, 185, 218, 7, 123,
  179, 222, 86, 102, 73, 65, 154, 239, 91, 83, 10, 146, 226, 137, 13, 233, 81, 87, 91, 143, 24, 22]

def zeroKeyStandard : List UInt8 := [
  0, 0, 0, 0, 0, 0, 0, 0, 0, 0, 0, 0, 0, 0, 0, 0, 98, 99, 99, 99, 98, 99,
  99, 99, 98, 99, 99, 99, 98, 99, 99, 99, 155, 152, 152, 201, 249, 251, 251, 170, 155, 152, 152, 201,
  249, 251, 251, 170, 144, 151, 52, 80, 105, 108, 207, 250, 242, 244, 87, 51, 11, 15, 172, 153, 238, 6,
  218, 123, 135, 106, 21, 129, 117, 158, 66, 178, 126, 145, 238, 43, 127, 46, 43, 136, 248, 68, 62, 9,
  141, 218, 124, 187, 243, 75, 146, 144, 236, 97, 75, 133, 20, 37, 117, 140, 153, 255, 9, 55, 106, 180,
  155, 167, 33, 117, 23, 135, 53, 80, 98, 11, 172, 175, 107, 60, 198, 27, 240, 155, 14, 249, 3, 51,
  59, 169, 97, 56, 151, 6, 10, 4, 81, 29, 250, 159, 177, 212, 216, 226, 138, 125, 185, 218, 29, 123,
  179, 222, 76, 102, 73, 65, 180, 239, 91, 203, 62, 146, 226, 17, 35, 233, 81, 207, 111, 143, 24, 142]

/-- The tag of the empty message under the zero key. -/
theorem gcm_empty_message_wrong :
    aes128GcmEncrypt (Vector.replicate 16 0) (Vector.replicate 12 0) [] [] ≠
      aesGcm (Vector.replicate 16 0) (Vector.replicate 12 0) [] [] := by
  intro h
  -- The kernel evaluates the two ciphers in pieces.
  have hkeyCode : aes128KeyExpansion (Vector.replicate 16 0) = zeroKeyCode := by decide +kernel
  have hkeyStandard : Aes.keyExpansion (Vector.replicate 16 0) = zeroKeyStandard := by decide +kernel
  have hbyteCode :
      (aesEncryptBlock (Gcm.firstBlock (Vector.replicate 12 0) 2) zeroKeyCode)[0] = 26 := by
    decide +kernel
  have hbyteStandard :
      (aesEncryptBlock (Gcm.firstBlock (Vector.replicate 12 0) 1) zeroKeyStandard)[0] = 88 := by
    decide +kernel
  have htag := congrArg Prod.snd h
  have hcode := Gcm.tag_nil
    (Aes.cipher (Aes.roundKey (aes128KeyExpansion (Vector.replicate 16 0))))
    (fun x => ghashMult x (Aes.cipher
      (Aes.roundKey (aes128KeyExpansion (Vector.replicate 16 0))) (Vector.replicate 16 0)))
    (Gcm.firstBlock (Vector.replicate 12 0) 2) (ghashMult_zero _)
  have hstandard := Gcm.tag_nil (aesUnder (Vector.replicate 16 0))
    (Gcm.mulBlock (aesUnder (Vector.replicate 16 0) (Vector.replicate 16 0)))
    (Gcm.firstBlock (Vector.replicate 12 0) 1) (Gcm.mulBlock_zero _)
  rw [aes128GcmEncrypt_eq, aesGcm, Gcm.encrypt, Gcm.encrypt, Gcm.gctr_nil, Gcm.gctr_nil, hcode,
    hstandard, aesUnder, ← aesEncryptBlock_eq, ← aesEncryptBlock_eq, hkeyCode,
    hkeyStandard] at htag
  have hbyte := congrArg (fun b : Block => b[0]) htag
  exact absurd (hbyteCode.symm.trans (hbyte.trans hbyteStandard)) (by decide)

end Lestra
