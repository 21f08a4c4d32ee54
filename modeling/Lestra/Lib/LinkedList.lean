import Mathlib.Data.Finset.Card
import Mathlib.Logic.Function.Basic
import Mathlib.Tactic.Common

/-!
# Null-terminated linked lists

`Chain next head as` says that following `next` from `head` visits the
addresses `as` in order and then reaches the null pointer. A chain is
determined by the links of its own members, so writes elsewhere leave it alone,
and relinking the predecessor of a member removes that member.
-/

namespace LinkedList

/-- The list that starts at `head` is `as`, and it ends. -/
def Chain (next : Nat → Nat) : Nat → List Nat → Prop
  | head, [] => head = 0
  | head, a :: as => head = a ∧ a ≠ 0 ∧ Chain next (next a) as

variable {next next' : Nat → Nat} {head p c : Nat}

theorem Chain.congr : ∀ {as : List Nat} {head : Nat}, Chain next head as →
    (∀ a ∈ as, next' a = next a) → Chain next' head as
  | [], _, h, _ => h
  | a :: as, _, ⟨h1, h2, h3⟩, hn => by
    refine ⟨h1, h2, ?_⟩
    rw [hn a (by simp)]
    exact h3.congr fun b hb => hn b (by simp [hb])

/-- A list with a head pointer other than null has a first member. -/
theorem Chain.cons_of_ne {as : List Nat} (h : Chain next head as) (h0 : head ≠ 0) :
    ∃ bs, as = head :: bs ∧ Chain next (next head) bs := by
  cases as with
  | nil => exact absurd h h0
  | cons a bs =>
    obtain ⟨rfl, -, h3⟩ := h
    exact ⟨bs, rfl, h3⟩

theorem Chain.nil_of_zero {as : List Nat} (h : Chain next 0 as) : as = [] := by
  cases as with
  | nil => rfl
  | cons a bs =>
    obtain ⟨rfl, hne, -⟩ := h
    exact absurd rfl hne

/-- The links determine the list. -/
theorem Chain.unique {as bs : List Nat} (h : Chain next head as) (h' : Chain next head bs) :
    as = bs := by
  induction as generalizing head bs with
  | nil =>
    obtain rfl : head = 0 := h
    exact h'.nil_of_zero.symm
  | cons a as ih =>
    obtain ⟨rfl, hne, htail⟩ := h
    obtain ⟨cs, rfl, htail'⟩ := h'.cons_of_ne hne
    rw [ih htail htail']

/-- Storing the successor of `c` in its predecessor `p` unlinks `c`. -/
theorem Chain.unlink : ∀ {pre post : List Nat} {head : Nat},
    Chain next head (pre ++ p :: c :: post) → (pre ++ p :: c :: post).Nodup →
    Chain (Function.update next p (next c)) head (pre ++ p :: post)
  | [], post, _, ⟨h1, h2, _, _, h3⟩, hnd => by
    have hp : p ∉ post := by
      simp only [List.nil_append, List.nodup_cons, List.mem_cons, not_or] at hnd
      exact hnd.1.2
    refine ⟨h1, h2, ?_⟩
    rw [Function.update_self]
    refine h3.congr fun a ha => Function.update_of_ne ?_ _ _
    rintro rfl
    exact hp ha
  | a :: pre, post, _, ⟨h1, h2, h3⟩, hnd => by
    have hap : a ≠ p := by
      rintro rfl
      simp at hnd
    refine ⟨h1, h2, ?_⟩
    rw [Function.update_of_ne hap]
    exact Chain.unlink h3 (List.nodup_cons.mp hnd).2

/-- A list without repetition of addresses below a bound is no longer than the bound. -/
theorem length_le_of_nodup {as : List Nat} {n : Nat} (hnd : as.Nodup) (hlt : ∀ a ∈ as, a < n) :
    as.length ≤ n := by
  have hsub : as.toFinset ⊆ Finset.range n := by
    intro a ha
    exact Finset.mem_range.mpr (hlt a (List.mem_toFinset.mp ha))
  have := Finset.card_le_card hsub
  rwa [List.toFinset_card_of_nodup hnd, Finset.card_range] at this

end LinkedList
