import Mathlib.Algebra.Group.Nat.Defs
import Mathlib.Data.List.GetD
import Mathlib.Tactic.Common

/-!
# HMAC and its expansion

HMAC as RFC 2104 defines it, for a hash with blocks of 64 bytes, and `P_hash` of RFC 5246,
which expands a secret and a seed to any number of bytes.
-/

namespace Hmac

variable (H : List UInt8 → List UInt8)

/-- A key of at most one block, filled up with zeros; a longer one is hashed first. -/
def blockKey (key : List UInt8) : List UInt8 :=
  let k := if 64 < key.length then H key else key
  k ++ List.replicate (64 - k.length) 0

def hmac (key m : List UInt8) : List UInt8 :=
  H ((blockKey H key).map (· ^^^ 0x5C) ++ H ((blockKey H key).map (· ^^^ 0x36) ++ m))

/-- `A(i)`. -/
def chain (secret seed : List UInt8) : ℕ → List UInt8
  | 0 => seed
  | i + 1 => hmac H secret (chain secret seed i)

/-- Block `i` of the expansion, from 0 on. -/
def expansionBlock (secret seed : List UInt8) (i : ℕ) : List UInt8 :=
  hmac H secret (chain H secret seed (i + 1) ++ seed)

/-- The first `n` bytes of the expansion. -/
def pHash (secret seed : List UInt8) (n : ℕ) : List UInt8 :=
  ((List.range n).flatMap (expansionBlock H secret seed)).take n

variable {f : ℕ → List UInt8} {w n j : ℕ}

theorem length_flatMap_blocks (hw : ∀ i, (f i).length = w) (n : ℕ) :
    ((List.range n).flatMap f).length = w * n := by
  induction n with
  | zero => rfl
  | succ n ih =>
    rw [List.range_succ, List.flatMap_append, List.length_append, ih, List.flatMap_singleton, hw]
    rfl

/-- A byte of blocks of one length after another. -/
theorem getD_flatMap_blocks (hw : ∀ i, (f i).length = w) (hj : j < w * n) :
    ((List.range n).flatMap f).getD j 0 = (f (j / w)).getD (j % w) 0 := by
  have hpos : 0 < w := Nat.pos_of_ne_zero fun h => by simp [h] at hj
  induction n with
  | zero => exact absurd hj (Nat.not_lt_zero _)
  | succ n ih =>
    have hlen := length_flatMap_blocks hw n
    rw [List.range_succ, List.flatMap_append, List.flatMap_singleton]
    rcases Nat.lt_or_ge j (w * n) with hlt | hge
    · rw [List.getD_append _ _ _ _ (by omega), ih hlt]
    · have hdiv : j / w = n :=
        (Nat.div_eq_iff hpos).mpr ⟨by rw [Nat.mul_comm]; exact hge, by
          rw [Nat.mul_succ] at hj
          rw [Nat.mul_comm]
          omega⟩
      have hmod : j % w = j - w * n := by rw [Nat.mod_eq_sub_mul_div, hdiv]
      rw [List.getD_append_right _ _ _ _ (by omega), hlen, hdiv, hmod]

theorem length_expansionBlock {H : List UInt8 → List UInt8} (hH : ∀ m, (H m).length = 32)
    (secret seed : List UInt8) (i : ℕ) : (expansionBlock H secret seed i).length = 32 := hH _

theorem length_pHash {H : List UInt8 → List UInt8} (hH : ∀ m, (H m).length = 32)
    (secret seed : List UInt8) (n : ℕ) : (pHash H secret seed n).length = n := by
  rw [pHash, List.length_take, length_flatMap_blocks (length_expansionBlock hH secret seed)]
  omega

theorem getD_pHash {H : List UInt8 → List UInt8} (hH : ∀ m, (H m).length = 32)
    (secret seed : List UInt8) (hj : j < n) :
    (pHash H secret seed n).getD j 0 = (expansionBlock H secret seed (j / 32)).getD (j % 32) 0 := by
  rw [pHash, List.getD_eq_getElem?_getD, List.getElem?_take_of_lt hj, ← List.getD_eq_getElem?_getD]
  exact getD_flatMap_blocks (length_expansionBlock hH secret seed) (by omega)

end Hmac
