import Mathlib.Data.List.FinRange

/-!
# First fit

The search of a table of `n` slots from slot 0 on, for the first slot that
satisfies a predicate, or for the first of the first `n` numbers on which a
partial function is defined.
-/

namespace FirstFit

variable {n : ℕ} {p : Fin n → Bool}

theorem mem_of_some {i : Fin n} (h : (List.finRange n).find? p = some i) : p i = true :=
  List.find?_some h

theorem eq_none_iff : (List.finRange n).find? p = none ↔ ∀ i, p i = false := by
  simp [List.find?_eq_none]

/-- No slot before the one that is found satisfies the predicate. -/
theorem le_of_some {i j : Fin n} (h : (List.finRange n).find? p = some i) (hj : p j = true) :
    i ≤ j := by
  obtain ⟨_, l, hl, rfl, hbefore⟩ := List.find?_eq_some_iff_getElem.mp h
  rw [List.length_finRange] at hl
  by_contra hlt
  have hjl : j.val < l := by
    rw [Fin.not_le, Fin.lt_def] at hlt
    simpa using hlt
  have := hbefore j.val hjl
  simp [hj] at this

/-- The slot that is found satisfies the predicate, and no slot before it does. -/
theorem eq_some_iff {i : Fin n} :
    (List.finRange n).find? p = some i ↔ p i = true ∧ ∀ j < i, p j = false := by
  constructor
  · intro h
    refine ⟨mem_of_some h, fun j hj => ?_⟩
    by_contra hp
    exact absurd (le_of_some h (Bool.not_eq_false _ ▸ hp)) (Fin.not_le.mpr hj)
  · rintro ⟨hi, hbefore⟩
    cases h : (List.finRange n).find? p with
    | none => exact absurd hi (by rw [eq_none_iff.mp h i]; exact Bool.false_ne_true)
    | some k =>
      rcases lt_or_eq_of_le (le_of_some h hi) with hlt | heq
      · exact absurd (mem_of_some h) (by rw [hbefore k hlt]; exact Bool.false_ne_true)
      · rw [heq]

/-- Predicates that agree on every slot the search gets to find the same slot. -/
theorem find_congr {q : Fin n → Bool} (h : ∀ i, (∀ j < i, p j = false) → p i = q i) :
    (List.finRange n).find? p = (List.finRange n).find? q := by
  cases hp : (List.finRange n).find? p with
  | none =>
    have hall := eq_none_iff.mp hp
    exact (eq_none_iff.mpr fun i => (h i fun j _ => hall j).symm.trans (hall i)).symm
  | some i =>
    obtain ⟨hi, hbefore⟩ := eq_some_iff.mp hp
    refine (eq_some_iff.mpr ⟨(h i hbefore).symm.trans hi, fun j hj => ?_⟩).symm
    exact (h j fun k hk => hbefore k (hk.trans hj)).symm.trans (hbefore j hj)

variable {α : Type*} {f : ℕ → Option α}

theorem findSome_range_none : (List.range n).findSome? f = none ↔ ∀ i < n, f i = none := by
  simp [List.findSome?_eq_none_iff]

/-- The value that is found is that of the first number with one. -/
theorem findSome_range_some {x : α} :
    (List.range n).findSome? f = some x ↔ ∃ i < n, f i = some x ∧ ∀ j < i, f j = none := by
  induction n with
  | zero => simp
  | succ n ih =>
    rw [List.range_succ, List.findSome?_append, Option.or_eq_some_iff, ih,
      findSome_range_none]
    constructor
    · rintro (⟨i, hi, hx⟩ | ⟨hnone, hx⟩)
      · exact ⟨i, by omega, hx⟩
      · refine ⟨n, by omega, ?_, hnone⟩
        simpa using hx
    · rintro ⟨i, hi, hx, hbefore⟩
      rcases Nat.lt_or_eq_of_le (Nat.le_of_lt_succ hi) with hlt | rfl
      · exact .inl ⟨i, hlt, hx, hbefore⟩
      · exact .inr ⟨hbefore, by simpa using hx⟩

end FirstFit
