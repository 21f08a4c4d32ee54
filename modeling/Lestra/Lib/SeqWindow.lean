import Mathlib.Algebra.Group.Nat.Defs
import Mathlib.Data.Nat.Basic
import Mathlib.Tactic.Common

/-!
# Acknowledgements of a sender with wrapping sequence numbers

A sender numbers what it sends from 0 on; on the wire the position `n` is the number
`base + n` in `w` bits. Of the positions not acknowledged yet, `ackPos` is the one that
an acknowledgement number means, if it means one.
-/

namespace SeqWindow

variable {w : ℕ} (base : BitVec w) (una nxt : ℕ) (a : BitVec w)

/-- The distance of the acknowledgement from the first position not acknowledged. -/
def distance : ℕ := (a - (base + BitVec.ofNat w una)).toNat

/-- The first position not acknowledged after the acknowledgement `a`. -/
def ackPos : ℕ := if distance base una a ≤ nxt - una then una + distance base una a else una

variable {base una nxt a}

theorem le_ackPos : una ≤ ackPos base una nxt a := by
  unfold ackPos
  split <;> omega

theorem ackPos_le (h : una ≤ nxt) : ackPos base una nxt a ≤ nxt := by
  unfold ackPos
  split <;> omega

/-- The number of the end acknowledges everything. -/
theorem ackPos_end (h : una ≤ nxt) (hw : nxt - una < 2 ^ w) :
    ackPos base una nxt (base + BitVec.ofNat w nxt) = nxt := by
  have hdist : distance base una (base + BitVec.ofNat w nxt) = nxt - una := by
    have hsub : base + BitVec.ofNat w nxt - (base + BitVec.ofNat w una)
        = BitVec.ofNat w (nxt - una) := by
      have hsplit : BitVec.ofNat w nxt = BitVec.ofNat w una + BitVec.ofNat w (nxt - una) := by
        rw [← BitVec.ofNat_add, Nat.add_sub_cancel' h]
      rw [hsplit, ← BitVec.add_assoc, BitVec.add_comm, BitVec.add_sub_cancel]
    rw [distance, hsub, BitVec.toNat_ofNat, Nat.mod_eq_of_lt hw]
  rw [ackPos, hdist, if_pos (Nat.le_refl _), Nat.add_sub_cancel' h]

end SeqWindow
