import Mathlib.Algebra.BigOperators.Group.Finset.Piecewise
import Mathlib.Data.Nat.Count
import Mathlib.Tactic.Common

/-!
# Counting under a one-point change

`Nat.count P n` is the number of `k < n` with `P k`; adding one new element to
`P`, or taking one away, changes the count by one exactly when the element lies
below the bound. `card_update` is the same for the entries of a table.
-/

namespace Count

variable {P Q : Nat → Prop} [DecidablePred P] [DecidablePred Q]

theorem count_insert {a : Nat} (hQ : ∀ k, Q k ↔ P k ∨ k = a) (ha : ¬ P a) (n : Nat) :
    Nat.count Q n = Nat.count P n + if a < n then 1 else 0 := by
  induction n with
  | zero => simp
  | succ n ih =>
    rw [Nat.count_succ, Nat.count_succ, ih]
    by_cases hna : n = a
    · subst hna
      have hq : Q n := (hQ n).mpr (Or.inr rfl)
      simp [hq, ha]
    · have hiff : Q n ↔ P n := by
        rw [hQ n]
        exact or_iff_left hna
      have hlt : (a < n + 1) ↔ a < n := by omega
      simp only [hiff, hlt]
      omega

theorem count_congr {n : Nat} (h : ∀ k < n, P k ↔ Q k) : Nat.count P n = Nat.count Q n :=
  Nat.le_antisymm (Nat.count_mono_left fun k hk => (h k hk).mp)
    (Nat.count_mono_left fun k hk => (h k hk).mpr)

/-- `count_insert`, where the predicates are compared below the bound only. -/
theorem count_insert_lt {a n : Nat} (hlt : a < n) (hQ : ∀ k < n, Q k ↔ P k ∨ k = a)
    (ha : ¬ P a) : Nat.count Q n = Nat.count P n + 1 := by
  rw [count_congr hQ, count_insert (fun _ => Iff.rfl) ha, if_pos hlt]

/-- Two predicates that differ at one place at most. -/
theorem count_change {a n : Nat} (hlt : a < n) (h : ∀ k, k ≠ a → (Q k ↔ P k)) :
    Nat.count Q n + (if P a then 1 else 0) = Nat.count P n + if Q a then 1 else 0 := by
  have hwith : ∀ {R S : Nat → Prop} [DecidablePred R] [DecidablePred S], S a → ¬ R a →
      (∀ k, k ≠ a → (S k ↔ R k)) → Nat.count S n = Nat.count R n + 1 := by
    intro R S _ _ hS hR hsame
    refine count_insert_lt hlt (fun k _ => ?_) hR
    by_cases hk : k = a
    · subst hk
      exact iff_of_true hS (Or.inr rfl)
    · rw [hsame k hk, or_iff_left hk]
  have hboth : (Q a ↔ P a) → Nat.count Q n = Nat.count P n := by
    intro ha
    refine count_congr fun k _ => ?_
    by_cases hk : k = a
    · subst hk
      exact ha
    · exact h k hk
  by_cases hP : P a <;> by_cases hQ : Q a
  · rw [if_pos hP, if_pos hQ, hboth (iff_of_true hQ hP)]
  · rw [if_pos hP, if_neg hQ, hwith hP hQ fun k hk => (h k hk).symm, Nat.add_zero]
  · rw [if_neg hP, if_pos hQ, hwith hQ hP h, Nat.add_zero]
  · rw [if_neg hP, if_neg hQ, hboth (iff_of_false hQ hP)]

theorem count_add_count_not (n : Nat) : Nat.count P n + Nat.count (fun k => ¬ P k) n = n := by
  induction n with
  | zero => simp
  | succ n ih =>
    rw [Nat.count_succ, Nat.count_succ]
    by_cases h : P n
    · simp only [h, not_true_eq_false, if_true, if_false]
      omega
    · simp only [h, not_false_eq_true, if_true, if_false]
      omega

/-- The entries with `p` after one entry of a table is replaced. -/
theorem card_update {ι α : Type*} [Fintype ι] [DecidableEq ι] (p : α → Bool) (f : ι → α) (a : ι)
    (x : α) :
    (Finset.univ.filter fun k => p (Function.update f a x k)).card + (p (f a)).toNat
      = (Finset.univ.filter fun k => p (f k)).card + (p x).toNat := by
  have hsplit : ∀ g : ι → α, (Finset.univ.filter fun k => p (g k)).card
      = (p (g a)).toNat + ∑ k ∈ Finset.univ.erase a, (p (g k)).toNat := by
    intro g
    rw [Finset.add_sum_erase _ (fun k => (p (g k)).toNat) (Finset.mem_univ a),
      Finset.card_filter]
    refine Finset.sum_congr rfl fun k _ => ?_
    cases p (g k) <;> rfl
  have hrest : ∑ k ∈ Finset.univ.erase a, (p (Function.update f a x k)).toNat
      = ∑ k ∈ Finset.univ.erase a, (p (f k)).toNat := by
    refine Finset.sum_congr rfl fun k hk => ?_
    rw [Function.update_of_ne (Finset.ne_of_mem_erase hk)]
  rw [hsplit, hsplit f, hrest, Function.update_self]
  omega

end Count
