import Mathlib.Logic.Function.Basic
import Lestra.Lib.FirstFit
import Mathlib.Tactic.Common

/-!
# Bitmaps in bytes

A table of bits kept in bytes, the low bit of a byte first, and the search of
its first `n` bytes for a bit that is clear: full bytes are passed over, the
bits of the others are tried in order.
-/

namespace Bitmap

variable {bmp : Nat → BitVec 8} {i bit k k' n : Nat}

def test (bmp : Nat → BitVec 8) (k : Nat) : Bool := (bmp (k / 8)).getLsbD (k % 8)

def set (bmp : Nat → BitVec 8) (k : Nat) : Nat → BitVec 8 :=
  Function.update bmp (k / 8) (bmp (k / 8) ||| 1#8 <<< (k % 8))

def clear (bmp : Nat → BitVec 8) (k : Nat) : Nat → BitVec 8 :=
  Function.update bmp (k / 8) (bmp (k / 8) &&& ~~~(1#8 <<< (k % 8)))

/-- The first clear bit of the first `n` bytes: its byte, and its place there. -/
def firstClear (bmp : Nat → BitVec 8) (n : Nat) : Option (Nat × Nat) :=
  (List.range n).findSome? fun i =>
    if bmp i = 0xFF#8 then none
    else ((List.range 8).find? fun bit => bmp i &&& 1#8 <<< bit == 0#8).map fun bit => (i, bit)

-- ---------------------------------------------------------------------------
-- One bit
-- ---------------------------------------------------------------------------

theorem getLsbD_one_shiftLeft {bit j : Nat} (hj : j < 8) :
    (1#8 <<< bit).getLsbD j = decide (j = bit) := by
  rw [BitVec.getLsbD_shiftLeft]
  by_cases h : j < bit
  · simp [h, Nat.ne_of_lt h]
  · have hsub : (1#8).getLsbD (j - bit) = decide (j - bit = 0) := by
      rw [BitVec.getLsbD_one]
      simp
    rw [hsub, decide_eq_true hj, decide_eq_false h]
    simp only [Bool.true_and, Bool.not_false, decide_eq_decide]
    omega

theorem and_one_shiftLeft {b : BitVec 8} (hbit : bit < 8) :
    (b &&& 1#8 <<< bit == 0#8) = !b.getLsbD bit := by
  rw [Bool.eq_iff_iff, beq_iff_eq, Bool.not_eq_true']
  constructor
  · intro h
    have hget := congrArg (fun v => v.getLsbD bit) h
    simpa [getLsbD_one_shiftLeft hbit] using hget
  · intro h
    refine BitVec.eq_of_getLsbD_eq fun j hj => ?_
    rw [BitVec.getLsbD_and, getLsbD_one_shiftLeft hj, BitVec.getLsbD_zero]
    by_cases hjb : j = bit
    · rw [hjb, h, Bool.false_and]
    · rw [decide_eq_false hjb, Bool.and_false]

theorem test_set : test (set bmp k) k' = (test bmp k' || decide (k' = k)) := by
  have hlt : k' % 8 < 8 := Nat.mod_lt _ (by decide)
  unfold test set
  by_cases hbyte : k' / 8 = k / 8
  · have hiff : k' % 8 = k % 8 ↔ k' = k := ⟨Nat.ext_div_mod hbyte, fun h => h ▸ rfl⟩
    rw [hbyte, Function.update_self, BitVec.getLsbD_or, getLsbD_one_shiftLeft hlt,
      decide_eq_decide.mpr hiff]
  · have hne : k' ≠ k := fun h => hbyte (h ▸ rfl)
    rw [Function.update_of_ne hbyte, decide_eq_false hne, Bool.or_false]

theorem test_clear : test (clear bmp k) k' = (test bmp k' && decide (k' ≠ k)) := by
  have hlt : k' % 8 < 8 := Nat.mod_lt _ (by decide)
  unfold test clear
  by_cases hbyte : k' / 8 = k / 8
  · have hiff : k' % 8 = k % 8 ↔ k' = k := ⟨Nat.ext_div_mod hbyte, fun h => h ▸ rfl⟩
    rw [hbyte, Function.update_self, BitVec.getLsbD_and, BitVec.getLsbD_not,
      getLsbD_one_shiftLeft hlt, decide_eq_true hlt, Bool.true_and, decide_eq_decide.mpr hiff,
      decide_not]
  · have hne : k' ≠ k := fun h => hbyte (h ▸ rfl)
    rw [Function.update_of_ne hbyte, decide_eq_true hne, Bool.and_true]

-- ---------------------------------------------------------------------------
-- The search
-- ---------------------------------------------------------------------------

/-- A byte that is not full has a clear bit. -/
theorem clear_of_ne_full {b : BitVec 8} (h : b ≠ 0xFF#8) : ∃ bit < 8, b.getLsbD bit = false := by
  by_contra hall
  simp only [not_exists, not_and] at hall
  refine h (BitVec.eq_of_getLsbD_eq fun j hj => ?_)
  rw [Bool.eq_true_of_not_eq_false (hall j hj)]
  have hones : ∀ j < 8, (0xFF#8).getLsbD j = true := by decide
  exact (hones j hj).symm

theorem test_byte (hbit : bit < 8) : test bmp (i * 8 + bit) = (bmp i).getLsbD bit := by
  unfold test
  rw [show (i * 8 + bit) / 8 = i by omega, show (i * 8 + bit) % 8 = bit by omega]

/-- The first clear bit of one byte. -/
theorem byte_some {b : BitVec 8} :
    ((List.range 8).find? fun bit => b &&& 1#8 <<< bit == 0#8) = some bit ↔
      bit < 8 ∧ b.getLsbD bit = false ∧ ∀ j < bit, b.getLsbD j = true := by
  rw [List.find?_range_eq_some, List.mem_range]
  constructor
  · rintro ⟨hp, hlt, hbefore⟩
    refine ⟨hlt, by simpa [and_one_shiftLeft hlt] using hp, fun j hj => ?_⟩
    simpa [and_one_shiftLeft (show j < 8 by omega)] using hbefore j hj
  · rintro ⟨hlt, hclear, hbefore⟩
    refine ⟨by simp [and_one_shiftLeft hlt, hclear], hlt, fun j hj => ?_⟩
    simp [and_one_shiftLeft (show j < 8 by omega), hbefore j hj]

/-- The search passes over a byte where every bit is set, and over no other. -/
theorem byte_none {b : BitVec 8} :
    (if b = 0xFF#8 then none
      else ((List.range 8).find? fun bit => b &&& 1#8 <<< bit == 0#8).map fun bit => (i, bit)) =
        none ↔ ∀ bit < 8, b.getLsbD bit = true := by
  by_cases hb : b = 0xFF#8
  · rw [if_pos hb, hb]
    exact iff_of_true rfl (by decide)
  · rw [if_neg hb, Option.map_eq_none_iff, List.find?_range_eq_none]
    refine forall₂_congr fun j hj => ?_
    rw [and_one_shiftLeft hj, Bool.not_not]

theorem test_of_bytes {m : Nat} (h : ∀ j < m, ∀ bit < 8, (bmp j).getLsbD bit = true)
    (hk : k < m * 8) : test bmp k = true :=
  h (k / 8) (by omega) (k % 8) (by omega)

theorem firstClear_some (h : firstClear bmp n = some (i, bit)) :
    i < n ∧ bit < 8 ∧ test bmp (i * 8 + bit) = false ∧
      ∀ k < i * 8 + bit, test bmp k = true := by
  obtain ⟨a, ha, hfound, hbefore⟩ := FirstFit.findSome_range_some.mp h
  split at hfound
  · exact absurd hfound (by simp)
  · obtain ⟨bit', hbyte, heq⟩ := Option.map_eq_some_iff.mp hfound
    obtain ⟨rfl, rfl⟩ := Prod.mk.inj heq
    obtain ⟨hlt, hclear, hset⟩ := byte_some.mp hbyte
    refine ⟨ha, hlt, (test_byte hlt).trans hclear, fun k hk => ?_⟩
    by_cases hin : k < a * 8
    · exact test_of_bytes (fun j hj => byte_none.mp (hbefore j hj)) hin
    · have hmod : k = a * 8 + (k - a * 8) := by omega
      rw [hmod, test_byte (by omega)]
      exact hset _ (by omega)

theorem firstClear_none : firstClear bmp n = none ↔ ∀ k < n * 8, test bmp k = true := by
  unfold firstClear
  rw [FirstFit.findSome_range_none]
  constructor
  · intro h k hk
    exact test_of_bytes (fun j hj => byte_none.mp (h j hj)) hk
  · intro h j hj
    refine byte_none.mpr fun bit hbit => ?_
    rw [← test_byte hbit]
    exact h _ (by omega)

end Bitmap
