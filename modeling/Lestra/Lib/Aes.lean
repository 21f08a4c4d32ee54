import Mathlib.Algebra.Group.Nat.Defs
import Mathlib.Data.Vector.Defs
import Mathlib.Data.List.GetD
import Mathlib.Tactic.Common

/-!
# AES-128

The cipher of FIPS 197. The S-box is computed as the standard defines it, from the inverse
in GF(2^8) and an affine map; the key expansion takes the round constants as a parameter.
A state is a block of 16 bytes, with the byte of row `r` and column `c` at `r + 4 * c`.
-/

namespace Aes

abbrev Word := Vector UInt8 4

abbrev Block := Vector UInt8 16

-- ---------------------------------------------------------------------------
-- GF(2^8)
-- ---------------------------------------------------------------------------

/-- Multiplication by x, modulo x^8 + x^4 + x^3 + x + 1. -/
def xtimes (a : ℕ) : ℕ := if a < 0x80 then 2 * a else (2 * a) ^^^ 0x11B

/-- The product: the sum of `a * x^i` over the bits `i` of `b`. -/
def mulNat (a b : ℕ) : ℕ :=
  ((List.range 8).foldl (fun (s : ℕ × ℕ) i =>
    (if b.testBit i then s.1 ^^^ s.2 else s.1, xtimes s.2)) (0, a)).1

/-- The inverse, and 0 for 0: the power 254 = 2 + 4 + ... + 128. -/
def invNat (a : ℕ) : ℕ :=
  ((List.range 7).foldl (fun (s : ℕ × ℕ) _ =>
    (mulNat s.1 (mulNat s.2 s.2), mulNat s.2 s.2)) (1, a)).1

def gmul (a b : UInt8) : UInt8 := UInt8.ofNat (mulNat a.toNat b.toNat)

def rotl (a : UInt8) (k : ℕ) : UInt8 := ⟨a.toBitVec.rotateLeft k⟩

def sbox (a : UInt8) : UInt8 :=
  let b := UInt8.ofNat (invNat a.toNat)
  b ^^^ rotl b 1 ^^^ rotl b 2 ^^^ rotl b 3 ^^^ rotl b 4 ^^^ 0x63

def gpow (a : UInt8) : ℕ → UInt8
  | 0 => 1
  | n + 1 => gmul (gpow a n) a

/-- The round constant: x to the power of `i - 1`. -/
def rcon (i : ℕ) : UInt8 := gpow 2 (i - 1)

-- ---------------------------------------------------------------------------
-- The cipher
-- ---------------------------------------------------------------------------

def subBytes (s : Block) : Block := s.map sbox

/-- Row `r` moves `r` columns to the left. -/
def shiftRows (s : Block) : Block :=
  Vector.ofFn fun i => s[i.val % 4 + 4 * ((i.val / 4 + i.val % 4) % 4)]

def mixColumns (s : Block) : Block :=
  Vector.ofFn fun i =>
    gmul 2 s[i.val % 4 + 4 * (i.val / 4)] ^^^ gmul 3 s[(i.val + 1) % 4 + 4 * (i.val / 4)] ^^^
      s[(i.val + 2) % 4 + 4 * (i.val / 4)] ^^^ s[(i.val + 3) % 4 + 4 * (i.val / 4)]

def addRoundKey (k s : Block) : Block := s.zipWith (· ^^^ ·) k

def round (k s : Block) : Block := addRoundKey k (mixColumns (shiftRows (subBytes s)))

def finalRound (k s : Block) : Block := addRoundKey k (shiftRows (subBytes s))

/-- Ten rounds under the round keys 0 to 10. -/
def cipher (keys : ℕ → Block) (input : Block) : Block :=
  finalRound (keys 10)
    ((List.range 9).foldl (fun s r => round (keys (r + 1)) s) (addRoundKey (keys 0) input))

-- ---------------------------------------------------------------------------
-- Key expansion
-- ---------------------------------------------------------------------------

def rotWord (w : Word) : Word := #v[w[1], w[2], w[3], w[0]]

def subWord (w : Word) : Word := w.map sbox

def xorWord (v w : Word) : Word := v.zipWith (· ^^^ ·) w

/-- What is added to the word four places before word `i`, from the word before it. -/
def temp (rc : ℕ → UInt8) (i : ℕ) (w : Word) : Word :=
  if i % 4 = 0 then xorWord (subWord (rotWord w)) #v[rc (i / 4), 0, 0, 0] else w

/-- The words of the key, and `n` more. -/
def expand (rc : ℕ → UInt8) (key : Block) : ℕ → List Word
  | 0 => (List.range 4).map fun i => Vector.ofFn fun j => key.toList.getD (4 * i + j.val) 0
  | n + 1 =>
    let w := expand rc key n
    w ++ [xorWord (w.getD n (Vector.replicate 4 0))
      (temp rc (4 + n) (w.getD (3 + n) (Vector.replicate 4 0)))]

/-- The bytes of words, one word after another. -/
def wordBytes (ws : List Word) : List UInt8 := ws.flatMap Vector.toList

/-- The bytes of the 44 words of the schedule. -/
def keyExpansion (key : Block) : List UInt8 := wordBytes (expand rcon key 40)

/-- The key of a round, from the bytes of the schedule. -/
def roundKey (schedule : List UInt8) (r : ℕ) : Block :=
  Vector.ofFn fun j => schedule.getD (16 * r + j.val) 0

-- ---------------------------------------------------------------------------
-- Lemmas
-- ---------------------------------------------------------------------------

theorem forall_byte {P : UInt8 → Prop} (h : ∀ n < 256, P (UInt8.ofNat n)) (a : UInt8) : P a := by
  have ha := h a.toNat (UInt8.toNat_lt a)
  rwa [UInt8.ofNat_toNat] at ha

variable {rc rc' : ℕ → UInt8} {key : Block} {n k : ℕ}

theorem length_expand (rc : ℕ → UInt8) (key : Block) (n : ℕ) : (expand rc key n).length = 4 + n := by
  induction n with
  | zero => rfl
  | succ n ih =>
    rw [expand]
    simp only [List.length_append, List.length_singleton, ih]
    omega

/-- A word is not changed when more words are added. -/
theorem getD_expand_add (rc : ℕ → UInt8) (key : Block) (m : ℕ) (hk : k < 4 + n) (w : Word) :
    (expand rc key (n + m)).getD k w = (expand rc key n).getD k w := by
  induction m with
  | zero => rfl
  | succ m ih =>
    rw [← Nat.add_assoc, expand, List.getD_append _ _ _ _ (by rw [length_expand]; omega), ih]

theorem expand_congr (h : ∀ j, 4 * j < 4 + n → rc j = rc' j) : expand rc key n = expand rc' key n := by
  induction n with
  | zero => rfl
  | succ n ih =>
    have htemp : ∀ w, temp rc (4 + n) w = temp rc' (4 + n) w := fun w => by
      rw [temp, temp]
      split
      · rw [h ((4 + n) / 4) (by omega)]
      · rfl
    rw [expand, expand, ih fun j hj => h j (by omega)]
    simp only [htemp]

theorem length_wordBytes (ws : List Word) : (wordBytes ws).length = 4 * ws.length := by
  induction ws with
  | nil => rfl
  | cons w ws ih =>
    have hcons : wordBytes (w :: ws) = w.toList ++ wordBytes ws := List.flatMap_cons
    rw [hcons, List.length_append, ih, Vector.length_toList, List.length_cons]
    omega

theorem getD_wordBytes (ws : List Word) {j : ℕ} (hk : k < ws.length) (hj : j < 4) :
    (wordBytes ws).getD (4 * k + j) 0 = (ws.getD k (Vector.replicate 4 0))[j] := by
  induction ws generalizing k with
  | nil => exact absurd hk (Nat.not_lt_zero _)
  | cons w ws ih =>
    have hcons : wordBytes (w :: ws) = w.toList ++ wordBytes ws := List.flatMap_cons
    rw [hcons]
    cases k with
    | zero =>
      rw [List.getD_append _ _ _ _ (by rw [Vector.length_toList]; omega),
        List.getD_eq_getElem _ _ (by rw [Vector.length_toList]; omega)]
      simp
    | succ k =>
      have hsub : 4 * (k + 1) + j - 4 = 4 * k + j := by omega
      rw [List.getD_append_right _ _ _ _ (by rw [Vector.length_toList]; omega),
        Vector.length_toList, hsub, ih (by simpa using hk), List.getD_cons_succ]

-- ---------------------------------------------------------------------------
-- The S-box in arithmetic
-- ---------------------------------------------------------------------------

/-- `xtimes`, without a case split. -/
def xtimesArith (a : ℕ) : ℕ := 2 * a ^^^ 0x11B * (1 - (0x80 - a))

def mulArith (a b : ℕ) : ℕ :=
  let t := xtimesArith
  a * (b % 2) ^^^ t a * (b / 2 % 2) ^^^ t (t a) * (b / 4 % 2) ^^^ t (t (t a)) * (b / 8 % 2) ^^^
    t (t (t (t a))) * (b / 16 % 2) ^^^ t (t (t (t (t a)))) * (b / 32 % 2) ^^^
    t (t (t (t (t (t a))))) * (b / 64 % 2) ^^^ t (t (t (t (t (t (t a)))))) * (b / 128 % 2)

def invArith (a : ℕ) : ℕ :=
  let a2 := mulArith a a
  let a4 := mulArith a2 a2
  let a8 := mulArith a4 a4
  let a16 := mulArith a8 a8
  let a32 := mulArith a16 a16
  let a64 := mulArith a32 a32
  let a128 := mulArith a64 a64
  mulArith (mulArith (mulArith (mulArith (mulArith (mulArith (mulArith 1 a2) a4) a8) a16) a32) a64)
    a128

/-- The S-box on numbers: what the kernel evaluates quickly. -/
def sboxArith (a : ℕ) : ℕ :=
  let b := invArith a % 256
  b ^^^ (b <<< 1 % 256 ||| b >>> 7) ^^^ (b <<< 2 % 256 ||| b >>> 6) ^^^
    (b <<< 3 % 256 ||| b >>> 5) ^^^ (b <<< 4 % 256 ||| b >>> 4) ^^^ 0x63

theorem xtimes_eq (a : ℕ) : xtimes a = xtimesArith a := by
  rw [xtimes, xtimesArith]
  split
  case isTrue h =>
    have hzero : 1 - (0x80 - a) = 0 := by omega
    rw [hzero, Nat.mul_zero, Nat.xor_zero]
  case isFalse h =>
    have hone : 1 - (0x80 - a) = 1 := by omega
    rw [hone, Nat.mul_one]

theorem mulNat_eq (a b : ℕ) : mulNat a b = mulArith a b := by
  have hbit : ∀ s t i, (if b.testBit i then s ^^^ t else s) = s ^^^ t * (b / 2 ^ i % 2) :=
    fun s t i => by
      rw [Nat.testBit_eq_decide_div_mod_eq]
      rcases Nat.mod_two_eq_zero_or_one (b / 2 ^ i) with h | h <;> simp [h]
  simp only [mulNat, List.range, List.range.loop, List.foldl_cons, List.foldl_nil, hbit, xtimes_eq,
    mulArith, Nat.zero_xor, Nat.reducePow, Nat.div_one]

theorem invNat_eq (a : ℕ) : invNat a = invArith a := by
  simp only [invNat, List.range, List.range.loop, List.foldl_cons, List.foldl_nil, mulNat_eq,
    invArith]

theorem toNat_rotl (a : UInt8) (k : ℕ) :
    (rotl a k).toNat = a.toNat <<< (k % 8) % 256 ||| a.toNat >>> (8 - k % 8) :=
  BitVec.toNat_rotateLeft

theorem toNat_sbox (a : UInt8) : (sbox a).toNat = sboxArith a.toNat := by
  simp only [sbox, UInt8.toNat_xor, toNat_rotl, UInt8.toNat_ofNat', invNat_eq]
  rfl

end Aes
