import Mathlib.Data.Finset.Card

/-!
# Orbits of a partial step

The elements that a partial step leads to from a start, one after the other. When only
finitely many elements have a successor, an orbit comes to its end exactly if it never comes
to an element twice.
-/

namespace Orbit

variable {α : Type*} (next : α → Option α)

/-- The element after `n` steps. -/
def walk (a : α) : ℕ → Option α
  | 0 => some a
  | n + 1 => (next a).bind fun b => walk b n

/-- An element is come to twice. -/
def Revisits (a : α) : Prop := ∃ i j b, i < j ∧ walk next a i = some b ∧ walk next a j = some b

variable {next} {a b : α} {i j m n : ℕ}

theorem walk_add : walk next a (m + n) = (walk next a m).bind fun b => walk next b n := by
  induction m generalizing a with
  | zero => rw [Nat.zero_add, walk, Option.bind_some]
  | succ m ih =>
    rw [Nat.add_right_comm, walk, walk]
    cases next a with
    | none => rfl
    | some b => exact ih

theorem walk_none_of_le (h : walk next a m = none) (hle : m ≤ n) : walk next a n = none := by
  obtain ⟨k, rfl⟩ := Nat.exists_eq_add_of_le hle
  rw [walk_add, h, Option.bind_none]

/-- The step after the last of `n` steps. -/
theorem next_of_walk (h : walk next a (n + 1) ≠ none) (hn : walk next a n = some b) :
    next b ≠ none := by
  rw [walk_add, hn, Option.bind_some, walk] at h
  intro hnone
  rw [hnone] at h
  exact h rfl

/-- From an element that is come to again there is always a next step. -/
theorem Revisits.never_ends (h : Revisits next a) : ∀ n, walk next a n ≠ none := by
  obtain ⟨i, j, b, hlt, hi, hj⟩ := h
  have hloop : walk next b (j - i) = some b := by
    have hsplit : walk next a (i + (j - i)) = some b := by rwa [Nat.add_sub_cancel' hlt.le]
    rwa [walk_add, hi, Option.bind_some] at hsplit
  have hround : ∀ k, walk next b (k * (j - i)) = some b := by
    intro k
    induction k with
    | zero => rw [Nat.zero_mul, walk]
    | succ k ih => rw [Nat.succ_mul, walk_add, ih, Option.bind_some, hloop]
  intro n hnone
  have hle : n ≤ i + n * (j - i) :=
    (Nat.le_mul_of_pos_right n (Nat.sub_pos_of_lt hlt)).trans (Nat.le_add_left _ _)
  have hlate := walk_none_of_le hnone hle
  rw [walk_add, hi, Option.bind_some, hround] at hlate
  cases hlate

/-- Among more elements than have a successor, one is come to twice. -/
theorem revisits_of_walk {s : Finset α} (hs : ∀ b, next b ≠ none → b ∈ s)
    (h : walk next a (s.card + 1) ≠ none) : Revisits next a := by
  have hsome : ∀ k ≤ s.card + 1, ∃ b, walk next a k = some b := fun k hk =>
    Option.ne_none_iff_exists'.mp fun hnone => h (walk_none_of_le hnone hk)
  have hmaps : Set.MapsTo (fun k => (walk next a k).getD a) (Finset.range (s.card + 1)) s := by
    intro k hk
    have hlt := Finset.mem_range.mp hk
    obtain ⟨b, hb⟩ := hsome k hlt.le
    have hnext : walk next a (k + 1) ≠ none := fun hnone => h (walk_none_of_le hnone hlt)
    have hmem := hs b (next_of_walk hnext hb)
    dsimp only
    rwa [hb]
  obtain ⟨i, hi, j, hj, hne, heq⟩ :=
    Finset.exists_ne_map_eq_of_card_lt_of_maps_to (by rw [Finset.card_range]; omega) hmaps
  obtain ⟨b, hb⟩ := hsome i (Finset.mem_range.mp hi).le
  obtain ⟨c, hc⟩ := hsome j (Finset.mem_range.mp hj).le
  rw [hb, hc, Option.getD_some, Option.getD_some] at heq
  subst heq
  rcases Nat.lt_or_gt_of_ne hne with hlt | hlt
  · exact ⟨i, j, b, hlt, hb, hc⟩
  · exact ⟨j, i, b, hlt, hc, hb⟩

theorem ends_iff {s : Finset α} (hs : ∀ b, next b ≠ none → b ∈ s) :
    (∃ n, walk next a n = none) ↔ ¬ Revisits next a := by
  constructor
  · rintro ⟨n, hn⟩ h
    exact h.never_ends n hn
  · intro h
    by_contra hnever
    exact h (revisits_of_walk hs fun hnone => hnever ⟨_, hnone⟩)

end Orbit
